import TraitCheck.Core.Walk
import TraitCheck.Proofs.Renaming

/-!
Core programs under a renaming. A renaming reaches every binding and every type in
a program, so it commutes with whatever is applied to all of its types.
-/

namespace TraitCheck.Core

section Rename

variable (ρ : Renaming)

def Capture.rename (c : Capture) : Capture := ⟨ρ.binding c.binding, c.ty.rename ρ⟩

mutual

/-- Renames every binding and every type in the expression. -/
def Expr.rename (e : Expr) : Expr :=
  match e with
  | ⟨kind, ty⟩ => ⟨kind.rename, ty.rename ρ⟩

def ExprKind.rename (kind : ExprKind) : ExprKind :=
  match kind with
  | .int value => .int value
  | .float bits => .float bits
  | .bool value => .bool value
  | .void => .void
  | .string text => .string text
  | .ident id => .ident (ρ.binding id)
  | .object tag fields => .object tag (renameExprs fields)
  | .func func => .func func.rename
  | .call callee args hasValue => .call callee.rename (renameExprs args) hasValue
  | .builtin op args => .builtin op (renameExprs args)
  | .field target index => .field target.rename index
  | .block body => .block body.rename
  | .cond branches otherwise => .cond (renameBranches branches) otherwise.rename
  | .cases scrutinee target cases =>
    .cases (ρ.binding scrutinee) target.rename (renameBlocks cases)

def FuncExpr.rename (func : FuncExpr) : FuncExpr :=
  match func with
  | ⟨name, captures, params, body⟩ =>
    ⟨name, captures.map (Capture.rename ρ), params.map ρ.binding, body.rename⟩

def Block.rename (block : Block) : Block :=
  match block with
  | ⟨stmts, ty⟩ => ⟨renameStmts stmts, ty.rename ρ⟩

def Stmt.rename (stmt : Stmt) : Stmt :=
  match stmt with
  | .bind id value => .bind (ρ.binding id) value.rename
  | .ret none => .ret none
  | .ret (some value) => .ret (some value.rename)
  | .whileDo cond body => .whileDo cond.rename body.rename
  | .forEach id iterable body => .forEach (ρ.binding id) iterable.rename body.rename
  | .eval value => .eval value.rename

def renameExprs (exprs : List Expr) : List Expr :=
  match exprs with
  | [] => []
  | e :: rest => e.rename :: renameExprs rest

def renameBranches (branches : List Branch) : List Branch :=
  match branches with
  | [] => []
  | ⟨cond, body⟩ :: rest => ⟨cond.rename, body.rename⟩ :: renameBranches rest

def renameBlocks (blocks : List Block) : List Block :=
  match blocks with
  | [] => []
  | b :: rest => b.rename :: renameBlocks rest

def renameStmts (stmts : List Stmt) : List Stmt :=
  match stmts with
  | [] => []
  | s :: rest => s.rename :: renameStmts rest

end

def Branch.rename (branch : Branch) : Branch := ⟨branch.cond.rename ρ, branch.body.rename ρ⟩

theorem renameExprs_eq_map (exprs : List Expr) :
    renameExprs ρ exprs = exprs.map (Expr.rename ρ) := by
  induction exprs with
  | nil => rw [renameExprs, List.map_nil]
  | cons e rest ih => rw [renameExprs, ih, List.map_cons]

theorem renameBranches_eq_map (branches : List Branch) :
    renameBranches ρ branches = branches.map (Branch.rename ρ) := by
  induction branches with
  | nil => rw [renameBranches, List.map_nil]
  | cons branch rest ih =>
    obtain ⟨cond, body⟩ := branch
    rw [renameBranches, ih, List.map_cons]
    rfl

theorem renameBlocks_eq_map (blocks : List Block) :
    renameBlocks ρ blocks = blocks.map (Block.rename ρ) := by
  induction blocks with
  | nil => rw [renameBlocks, List.map_nil]
  | cons b rest ih => rw [renameBlocks, ih, List.map_cons]

theorem renameStmts_eq_map (stmts : List Stmt) :
    renameStmts ρ stmts = stmts.map (Stmt.rename ρ) := by
  induction stmts with
  | nil => rw [renameStmts, List.map_nil]
  | cons s rest ih => rw [renameStmts, ih, List.map_cons]

@[simp] theorem Expr.rename_mk (kind : ExprKind) (ty : Ty) :
    (Expr.mk kind ty).rename ρ = ⟨kind.rename ρ, ty.rename ρ⟩ := by
  rw [Expr.rename]

@[simp] theorem Expr.ty_rename (e : Expr) : (e.rename ρ).ty = e.ty.rename ρ := by
  cases e
  rw [Expr.rename_mk]

@[simp] theorem Block.rename_mk (stmts : List Stmt) (ty : Ty) :
    (Block.mk stmts ty).rename ρ = ⟨stmts.map (Stmt.rename ρ), ty.rename ρ⟩ := by
  rw [Block.rename, renameStmts_eq_map]

@[simp] theorem Block.ty_rename (block : Block) : (block.rename ρ).ty = block.ty.rename ρ := by
  cases block
  rw [Block.rename_mk]

@[simp] theorem Block.stmts_rename (block : Block) :
    (block.rename ρ).stmts = block.stmts.map (Stmt.rename ρ) := by
  cases block
  rw [Block.rename_mk]

@[simp] theorem Block.rename_empty : Block.empty.rename ρ = .empty := by
  rw [Block.empty, Block.rename_mk, List.map_nil, Ty.rename_void]

@[simp] theorem FuncExpr.rename_mk (name : Option String) (captures : List Capture)
    (params : List BindingId) (body : Block) : (FuncExpr.mk name captures params body).rename ρ =
      ⟨name, captures.map (Capture.rename ρ), params.map ρ.binding, body.rename ρ⟩ := by
  rw [FuncExpr.rename]

attribute [simp] ExprKind.rename Stmt.rename renameExprs_eq_map renameBranches_eq_map
  renameBlocks_eq_map renameStmts_eq_map

@[simp] theorem Stmt.isRet_rename (stmt : Stmt) : (stmt.rename ρ).isRet = stmt.isRet := by
  cases stmt with
  | ret value =>
    cases value with
    | none => rw [Stmt.rename]
    | some value => rw [Stmt.rename]; rfl
  | bind id value => rw [Stmt.rename]; rfl
  | whileDo cond body => rw [Stmt.rename]; rfl
  | forEach id iterable body => rw [Stmt.rename]; rfl
  | eval value => rw [Stmt.rename]; rfl

end Rename

section MapTy

variable {ρ : Renaming} {f f' : Ty → Ty}

theorem Capture.rename_mapTy (h : ∀ t, (f t).rename ρ = f' (t.rename ρ)) (c : Capture) :
    (c.mapTy f).rename ρ = (c.rename ρ).mapTy f' :=
  congrArg (Capture.mk (ρ.binding c.binding)) (h c.ty)

theorem rename_mapTy (h : ∀ t, (f t).rename ρ = f' (t.rename ρ)) :
    (∀ e : Expr, (e.mapTy f).rename ρ = (e.rename ρ).mapTy f') ∧
    (∀ kind : ExprKind, (kind.mapTy f).rename ρ = (kind.rename ρ).mapTy f') ∧
    (∀ blocks, renameBlocks ρ (mapTyBlocks f blocks) = mapTyBlocks f' (renameBlocks ρ blocks)) ∧
    (∀ block : Block, (block.mapTy f).rename ρ = (block.rename ρ).mapTy f') ∧
    (∀ stmts, renameStmts ρ (mapTyStmts f stmts) = mapTyStmts f' (renameStmts ρ stmts)) ∧
    (∀ stmt : Stmt, (stmt.mapTy f).rename ρ = (stmt.rename ρ).mapTy f') ∧ (∀ branches,
      renameBranches ρ (mapTyBranches f branches) = mapTyBranches f' (renameBranches ρ branches)) ∧
    (∀ func : FuncExpr, (func.mapTy f).rename ρ = (func.rename ρ).mapTy f') ∧
    (∀ exprs, renameExprs ρ (mapTyExprs f exprs) = mapTyExprs f' (renameExprs ρ exprs)) := by
  apply Expr.mapTy.mutual_induct
  all_goals
    simp +contextual [Expr.mapTy, ExprKind.mapTy, mapTyBlocks, Block.mapTy, mapTyStmts, Stmt.mapTy,
      mapTyBranches, FuncExpr.mapTy, mapTyExprs, Expr.rename, Block.rename, Branch.rename,
      FuncExpr.rename, Capture.rename_mapTy h, h]

theorem rename_mapTyStmts (h : ∀ t, (f t).rename ρ = f' (t.rename ρ)) (stmts : List Stmt) :
    renameStmts ρ (mapTyStmts f stmts) = mapTyStmts f' (renameStmts ρ stmts) :=
  (rename_mapTy h).2.2.2.2.1 stmts

end MapTy

end TraitCheck.Core
