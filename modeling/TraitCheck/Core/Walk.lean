import TraitCheck.Core.Basic

/-!
Two traversals of a core program: `walk` lists every expression in it, outer
ones first, and `mapTy` applies a function to every type in it. Both reach the
same places.
-/

namespace TraitCheck.Core

mutual

/-- The expression and every expression inside it, outer ones first. -/
def Expr.walk (e : Expr) : List Expr :=
  match e with
  | ⟨kind, ty⟩ => ⟨kind, ty⟩ :: kind.walk

def ExprKind.walk (kind : ExprKind) : List Expr :=
  match kind with
  | .int _ | .float _ | .bool _ | .void | .string _ | .ident _ => []
  | .object _ fields => walkExprs fields
  | .func func => func.walk
  | .call callee args _ => callee.walk ++ walkExprs args
  | .builtin _ args => walkExprs args
  | .field target _ => target.walk
  | .block body => body.walk
  | .cond branches otherwise => walkBranches branches ++ otherwise.walk
  | .cases _ target cases => target.walk ++ walkBlocks cases

def FuncExpr.walk (func : FuncExpr) : List Expr :=
  match func with
  | ⟨_, captures, _, body⟩ => captures.map Capture.value ++ body.walk

def Block.walk (block : Block) : List Expr :=
  match block with
  | ⟨stmts, _⟩ => walkStmts stmts

def Stmt.walk (stmt : Stmt) : List Expr :=
  match stmt with
  | .bind _ value => value.walk
  | .ret none => []
  | .ret (some value) => value.walk
  | .whileDo cond body => cond.walk ++ body.walk
  | .forEach _ iterable body => iterable.walk ++ body.walk
  | .eval value => value.walk

def walkExprs (exprs : List Expr) : List Expr :=
  match exprs with
  | [] => []
  | e :: rest => e.walk ++ walkExprs rest

def walkBranches (branches : List Branch) : List Expr :=
  match branches with
  | [] => []
  | ⟨cond, body⟩ :: rest => cond.walk ++ body.walk ++ walkBranches rest

def walkBlocks (blocks : List Block) : List Expr :=
  match blocks with
  | [] => []
  | b :: rest => b.walk ++ walkBlocks rest

def walkStmts (stmts : List Stmt) : List Expr :=
  match stmts with
  | [] => []
  | s :: rest => s.walk ++ walkStmts rest

end

/-- All functions in the statements, outer ones first. -/
def functions (stmts : List Stmt) : List FuncExpr :=
  (walkStmts stmts).filterMap fun e =>
    match e.kind with
    | .func func => some func
    | _ => none

def Capture.mapTy (f : Ty → Ty) (c : Capture) : Capture := { c with ty := f c.ty }

mutual

/-- Applies `f` to every type in the expression. -/
def Expr.mapTy (f : Ty → Ty) (e : Expr) : Expr :=
  match e with
  | ⟨kind, ty⟩ => ⟨kind.mapTy f, f ty⟩

def ExprKind.mapTy (f : Ty → Ty) (kind : ExprKind) : ExprKind :=
  match kind with
  | .int value => .int value
  | .float bits => .float bits
  | .bool value => .bool value
  | .void => .void
  | .string text => .string text
  | .ident id => .ident id
  | .object tag fields => .object tag (mapTyExprs f fields)
  | .func func => .func (func.mapTy f)
  | .call callee args hasValue => .call (callee.mapTy f) (mapTyExprs f args) hasValue
  | .builtin op args => .builtin op (mapTyExprs f args)
  | .field target index => .field (target.mapTy f) index
  | .block body => .block (body.mapTy f)
  | .cond branches otherwise => .cond (mapTyBranches f branches) (otherwise.mapTy f)
  | .cases scrutinee target cases => .cases scrutinee (target.mapTy f) (mapTyBlocks f cases)

def FuncExpr.mapTy (f : Ty → Ty) (func : FuncExpr) : FuncExpr :=
  match func with
  | ⟨name, captures, params, body⟩ =>
    ⟨name, captures.map (Capture.mapTy f), params, body.mapTy f⟩

def Block.mapTy (f : Ty → Ty) (block : Block) : Block :=
  match block with
  | ⟨stmts, ty⟩ => ⟨mapTyStmts f stmts, f ty⟩

def Stmt.mapTy (f : Ty → Ty) (stmt : Stmt) : Stmt :=
  match stmt with
  | .bind id value => .bind id (value.mapTy f)
  | .ret none => .ret none
  | .ret (some value) => .ret (some (value.mapTy f))
  | .whileDo cond body => .whileDo (cond.mapTy f) (body.mapTy f)
  | .forEach id iterable body => .forEach id (iterable.mapTy f) (body.mapTy f)
  | .eval value => .eval (value.mapTy f)

def mapTyExprs (f : Ty → Ty) (exprs : List Expr) : List Expr :=
  match exprs with
  | [] => []
  | e :: rest => e.mapTy f :: mapTyExprs f rest

def mapTyBranches (f : Ty → Ty) (branches : List Branch) : List Branch :=
  match branches with
  | [] => []
  | ⟨cond, body⟩ :: rest => ⟨cond.mapTy f, body.mapTy f⟩ :: mapTyBranches f rest

def mapTyBlocks (f : Ty → Ty) (blocks : List Block) : List Block :=
  match blocks with
  | [] => []
  | b :: rest => b.mapTy f :: mapTyBlocks f rest

def mapTyStmts (f : Ty → Ty) (stmts : List Stmt) : List Stmt :=
  match stmts with
  | [] => []
  | s :: rest => s.mapTy f :: mapTyStmts f rest

end

end TraitCheck.Core
