import TraitCheck.Core.Walk

/-!
Free bindings of core programs. A function stands for what it captures, since
its body sees nothing else of the outside. So the ids free in an expression are
those of its identifiers and of the captures of its functions, without those
that it binds. If the captures of every function are the ids free in its body,
then whatever covers the free ids of a program makes it well scoped.
-/

namespace TraitCheck.Core

variable {id : BindingId} {exprs : List Expr} {blocks : List Block}

def FuncExpr.captured (func : FuncExpr) : List BindingId := func.captures.map (·.binding)

/-- What a statement binds for the statements after it. -/
def Stmt.binders : Stmt → List BindingId
  | .bind id _ => [id]
  | _ => []

def binders (stmts : List Stmt) : List BindingId := stmts.flatMap Stmt.binders

mutual

def Expr.free (e : Expr) : List BindingId :=
  match e with
  | ⟨kind, _⟩ => kind.free

def ExprKind.free (kind : ExprKind) : List BindingId :=
  match kind with
  | .int _ | .float _ | .bool _ | .void | .string _ => []
  | .ident id => [id]
  | .object _ fields => freeExprs fields
  | .func func => func.captured
  | .call callee args _ => callee.free ++ freeExprs args
  | .builtin _ args => freeExprs args
  | .field target _ => target.free
  | .block body => body.free
  | .cond branches otherwise => freeBranches branches ++ otherwise.free
  | .cases scrutinee target cases => target.free ++ (freeBlocks cases).filter (· ≠ scrutinee)

def Block.free (block : Block) : List BindingId :=
  match block with
  | ⟨stmts, _⟩ => freeStmts stmts

/-- A binding is visible in its own value. -/
def Stmt.free (stmt : Stmt) : List BindingId :=
  match stmt with
  | .bind id value => value.free.filter (· ≠ id)
  | .ret none => []
  | .ret (some value) => value.free
  | .whileDo cond body => cond.free ++ body.free
  | .forEach id iterable body => iterable.free ++ body.free.filter (· ≠ id)
  | .eval value => value.free

def freeExprs (exprs : List Expr) : List BindingId :=
  match exprs with
  | [] => []
  | e :: rest => e.free ++ freeExprs rest

def freeBranches (branches : List Branch) : List BindingId :=
  match branches with
  | [] => []
  | ⟨cond, body⟩ :: rest => cond.free ++ body.free ++ freeBranches rest

def freeBlocks (blocks : List Block) : List BindingId :=
  match blocks with
  | [] => []
  | b :: rest => b.free ++ freeBlocks rest

def freeStmts (stmts : List Stmt) : List BindingId :=
  match stmts with
  | [] => []
  | s :: rest => s.free ++ (freeStmts rest).filter (· ∉ s.binders)

end

theorem mem_freeExprs : id ∈ freeExprs exprs ↔ ∃ e ∈ exprs, id ∈ e.free := by
  induction exprs with
  | nil => simp [freeExprs]
  | cons e rest ih => simp [freeExprs, ih]

theorem mem_freeBlocks : id ∈ freeBlocks blocks ↔ ∃ b ∈ blocks, id ∈ b.free := by
  induction blocks with
  | nil => simp [freeBlocks]
  | cons b rest ih => simp [freeBlocks, ih]

theorem mem_walkExprs {x : Expr} : x ∈ walkExprs exprs ↔ ∃ e ∈ exprs, x ∈ e.walk := by
  induction exprs with
  | nil => simp [walkExprs]
  | cons e rest ih => simp [walkExprs, ih]

theorem mem_walkBlocks {x : Expr} : x ∈ walkBlocks blocks ↔ ∃ b ∈ blocks, x ∈ b.walk := by
  induction blocks with
  | nil => simp [walkBlocks]
  | cons b rest ih => simp [walkBlocks, ih]

theorem freeExprs_append (as bs : List Expr) :
    freeExprs (as ++ bs) = freeExprs as ++ freeExprs bs := by
  induction as with
  | nil => simp [freeExprs]
  | cons e rest ih => simp [freeExprs, ih]

theorem walkExprs_append (as bs : List Expr) :
    walkExprs (as ++ bs) = walkExprs as ++ walkExprs bs := by
  induction as with
  | nil => simp [walkExprs]
  | cons e rest ih => simp [walkExprs, ih]

theorem walkStmts_append (as bs : List Stmt) :
    walkStmts (as ++ bs) = walkStmts as ++ walkStmts bs := by
  induction as with
  | nil => simp [walkStmts]
  | cons s rest ih => simp [walkStmts, ih]

theorem binders_append (as bs : List Stmt) : binders (as ++ bs) = binders as ++ binders bs :=
  List.flatMap_append

theorem mem_freeStmts_append {as bs : List Stmt} :
    id ∈ freeStmts (as ++ bs) ↔ id ∈ freeStmts as ∨ id ∈ freeStmts bs ∧ id ∉ binders as := by
  induction as with
  | nil => simp [freeStmts, binders]
  | cons s rest ih =>
    simp only [List.cons_append, freeStmts, List.mem_append, List.mem_filter, ih, binders,
      List.flatMap_cons, decide_not, Bool.not_eq_eq_eq_not, Bool.not_true, decide_eq_false_iff_not]
    grind

/-! Functions. -/

variable {as bs : List Expr}

/-- A function captures each id once, and just those that are free in its body
and are not its parameters. -/
structure FuncExpr.Exact (func : FuncExpr) : Prop where
  nodup : func.captured.Nodup
  mem_iff : ∀ id, id ∈ func.captured ↔ id ∈ func.body.free ∧ id ∉ func.params

/-- All functions among the expressions are exact. -/
def Exact (exprs : List Expr) : Prop :=
  ∀ e ∈ exprs, ∀ func, e.kind = .func func → func.Exact

theorem exact_append : Exact (as ++ bs) ↔ Exact as ∧ Exact bs := by
  simp only [Exact, List.mem_append]
  constructor
  · intro h
    exact ⟨fun e he => h e (.inl he), fun e he => h e (.inr he)⟩
  · rintro ⟨has, hbs⟩ e (he | he)
    · exact has e he
    · exact hbs e he

theorem Exact.mono (h : Exact bs) (hsub : ∀ e ∈ as, e ∈ bs) : Exact as :=
  fun e he => h e (hsub e he)

theorem exact_nil : Exact [] := by
  intro e he
  cases he

/-- An expression that is no function adds nothing to what is inside it. -/
theorem Exact.cons {e : Expr} {rest : List Expr} (he : ∀ func, e.kind ≠ .func func)
    (h : Exact rest) : Exact (e :: rest) := by
  intro x hx func hfunc
  rcases List.mem_cons.mp hx with rfl | hx
  · exact absurd hfunc (he func)
  · exact h x hx func hfunc

theorem Exact.func {func : FuncExpr} {ty : Ty} (hfunc : func.Exact) (h : Exact func.body.walk) :
    Exact (Expr.walk ⟨.func func, ty⟩) := by
  obtain ⟨name, captures, params, body⟩ := func
  intro x hx func' hfunc'
  rw [Expr.walk, ExprKind.walk, FuncExpr.walk] at hx
  rcases List.mem_cons.mp hx with rfl | hx
  · cases hfunc'
    exact hfunc
  · rcases List.mem_append.mp hx with hx | hx
    · obtain ⟨c, _, rfl⟩ := List.mem_map.mp hx
      cases hfunc'
    · exact h x hx func' hfunc'

/-! Well-scoped programs. -/

variable {visible : List BindingId}

mutual

/-- Every identifier in the expression is visible where it stands. -/
def Expr.Scoped (visible : List BindingId) (e : Expr) : Prop :=
  match e with
  | ⟨kind, _⟩ => kind.Scoped visible

def ExprKind.Scoped (visible : List BindingId) (kind : ExprKind) : Prop :=
  match kind with
  | .int _ | .float _ | .bool _ | .void | .string _ => True
  | .ident id => id ∈ visible
  | .object _ fields => ScopedExprs visible fields
  | .func func => func.Scoped visible
  | .call callee args _ => callee.Scoped visible ∧ ScopedExprs visible args
  | .builtin _ args => ScopedExprs visible args
  | .field target _ => target.Scoped visible
  | .block body => body.Scoped visible
  | .cond branches otherwise => ScopedBranches visible branches ∧ otherwise.Scoped visible
  | .cases scrutinee target cases =>
    target.Scoped visible ∧ ScopedBlocks (scrutinee :: visible) cases

/-- What a function captures is visible where it stands. Inside, only its
parameters and its captures are. -/
def FuncExpr.Scoped (visible : List BindingId) (func : FuncExpr) : Prop :=
  match func with
  | ⟨_, captures, params, body⟩ =>
    (∀ c ∈ captures, c.binding ∈ visible) ∧ body.Scoped (params ++ captures.map (·.binding))

def Block.Scoped (visible : List BindingId) (block : Block) : Prop :=
  match block with
  | ⟨stmts, _⟩ => ScopedStmts visible stmts

def Stmt.Scoped (visible : List BindingId) (stmt : Stmt) : Prop :=
  match stmt with
  | .bind id value => value.Scoped (id :: visible)
  | .ret none => True
  | .ret (some value) => value.Scoped visible
  | .whileDo cond body => cond.Scoped visible ∧ body.Scoped visible
  | .forEach id iterable body => iterable.Scoped visible ∧ body.Scoped (id :: visible)
  | .eval value => value.Scoped visible

def ScopedExprs (visible : List BindingId) (exprs : List Expr) : Prop :=
  match exprs with
  | [] => True
  | e :: rest => e.Scoped visible ∧ ScopedExprs visible rest

def ScopedBranches (visible : List BindingId) (branches : List Branch) : Prop :=
  match branches with
  | [] => True
  | ⟨cond, body⟩ :: rest =>
    cond.Scoped visible ∧ body.Scoped visible ∧ ScopedBranches visible rest

def ScopedBlocks (visible : List BindingId) (blocks : List Block) : Prop :=
  match blocks with
  | [] => True
  | b :: rest => b.Scoped visible ∧ ScopedBlocks visible rest

/-- What a statement binds is visible in the statements after it. -/
def ScopedStmts (visible : List BindingId) (stmts : List Stmt) : Prop :=
  match stmts with
  | [] => True
  | s :: rest => s.Scoped visible ∧ ScopedStmts (s.binders ++ visible) rest

end

theorem scoped_of_exact :
    (∀ visible (e : Expr), (∀ id ∈ e.free, id ∈ visible) → Exact e.walk → e.Scoped visible) ∧
    (∀ visible (kind : ExprKind), (∀ id ∈ kind.free, id ∈ visible) →
      (∀ func, kind = .func func → func.Exact) → Exact kind.walk → kind.Scoped visible) ∧
    (∀ visible blocks, (∀ id ∈ freeBlocks blocks, id ∈ visible) → Exact (walkBlocks blocks) →
      ScopedBlocks visible blocks) ∧
    (∀ visible (block : Block), (∀ id ∈ block.free, id ∈ visible) → Exact block.walk →
      block.Scoped visible) ∧
    (∀ visible stmts, (∀ id ∈ freeStmts stmts, id ∈ visible) → Exact (walkStmts stmts) →
      ScopedStmts visible stmts) ∧
    (∀ visible (stmt : Stmt), (∀ id ∈ stmt.free, id ∈ visible) → Exact stmt.walk →
      stmt.Scoped visible) ∧ (∀ visible branches, (∀ id ∈ freeBranches branches, id ∈ visible) →
      Exact (walkBranches branches) → ScopedBranches visible branches) ∧
    (∀ visible (func : FuncExpr), (∀ id ∈ func.captured, id ∈ visible) → func.Exact →
      Exact func.walk → func.Scoped visible) ∧
    (∀ visible exprs, (∀ id ∈ freeExprs exprs, id ∈ visible) → Exact (walkExprs exprs) →
      ScopedExprs visible exprs) := by
  apply Expr.Scoped.mutual_induct
  case case1 =>
    intro visible kind ty ih hfree hexact
    rw [Expr.walk] at hexact
    rw [Expr.Scoped]
    refine ih hfree (hexact _ List.mem_cons_self) (hexact.mono fun _ hx => ?_)
    exact List.mem_cons_of_mem _ hx
  -- A parameter is visible in the body, and all else that is free there is captured.
  case case16 =>
    intro visible name captures params body ih hfree hfunc hexact
    rw [FuncExpr.walk, exact_append] at hexact
    rw [FuncExpr.Scoped]
    refine ⟨fun c hc => hfree c.binding (List.mem_map.mpr ⟨c, hc, rfl⟩), ih ?_ hexact.2⟩
    intro id hid
    by_cases hparam : id ∈ params
    · exact List.mem_append_left _ hparam
    · exact List.mem_append_right _ ((hfunc.mem_iff id).mpr ⟨hid, hparam⟩)
  all_goals intros
  all_goals
    simp only [ExprKind.Scoped, ScopedBlocks, Block.Scoped, ScopedStmts, Stmt.Scoped, ScopedBranches,
      ScopedExprs, ExprKind.free, freeBlocks, Block.free, freeStmts, Stmt.free, freeBranches,
      freeExprs, ExprKind.walk, walkBlocks, Block.walk, walkStmts, Stmt.walk, walkBranches,
      walkExprs, exact_append, List.mem_append, List.mem_filter] at *
  all_goals grind

theorem scoped_stmts (stmts : List Stmt) (hfree : ∀ id ∈ freeStmts stmts, id ∈ visible)
    (hexact : Exact (walkStmts stmts)) : ScopedStmts visible stmts :=
  scoped_of_exact.2.2.2.2.1 visible stmts hfree hexact

/-! Changing the types changes neither what is free nor what is captured. -/

section MapTy

variable (f : Ty → Ty)

theorem FuncExpr.captured_mapTy (func : FuncExpr) : (func.mapTy f).captured = func.captured := by
  obtain ⟨name, captures, params, body⟩ := func
  rw [FuncExpr.mapTy, captured, captured, List.map_map]
  rfl

theorem Stmt.binders_mapTy (stmt : Stmt) : (stmt.mapTy f).binders = stmt.binders := by
  cases stmt with
  | ret value => cases value <;> rfl
  | _ => rfl

theorem binders_mapTy (stmts : List Stmt) : binders (mapTyStmts f stmts) = binders stmts := by
  induction stmts with
  | nil => rw [mapTyStmts]
  | cons s rest ih =>
    rw [mapTyStmts, binders, binders, List.flatMap_cons, List.flatMap_cons, s.binders_mapTy]
    exact congrArg (s.binders ++ ·) ih

theorem free_mapTy : (∀ e : Expr, (e.mapTy f).free = e.free) ∧
    (∀ kind : ExprKind, (kind.mapTy f).free = kind.free) ∧
    (∀ blocks, freeBlocks (mapTyBlocks f blocks) = freeBlocks blocks) ∧
    (∀ block : Block, (block.mapTy f).free = block.free) ∧
    (∀ stmts, freeStmts (mapTyStmts f stmts) = freeStmts stmts) ∧
    (∀ stmt : Stmt, (stmt.mapTy f).free = stmt.free) ∧
    (∀ branches, freeBranches (mapTyBranches f branches) = freeBranches branches) ∧
    (∀ func : FuncExpr, (func.mapTy f).captured = func.captured) ∧
    (∀ exprs, freeExprs (mapTyExprs f exprs) = freeExprs exprs) := by
  apply Expr.mapTy.mutual_induct
  all_goals
    simp +contextual [Expr.mapTy, ExprKind.mapTy, mapTyBlocks, Block.mapTy, mapTyStmts, Stmt.mapTy,
      mapTyBranches, FuncExpr.captured_mapTy, mapTyExprs, Expr.free, ExprKind.free, freeBlocks,
      Block.free, freeStmts, Stmt.free, freeBranches, freeExprs, Stmt.binders_mapTy]

theorem Block.free_mapTy (block : Block) : (block.mapTy f).free = block.free :=
  (Core.free_mapTy f).2.2.2.1 block

theorem free_mapTyStmts (stmts : List Stmt) : freeStmts (mapTyStmts f stmts) = freeStmts stmts :=
  (free_mapTy f).2.2.2.2.1 stmts

/-- The traversal meets the same expressions, with the new types. -/
theorem walk_mapTy : (∀ e : Expr, (e.mapTy f).walk = e.walk.map (Expr.mapTy f)) ∧
    (∀ kind : ExprKind, (kind.mapTy f).walk = kind.walk.map (Expr.mapTy f)) ∧
    (∀ blocks, walkBlocks (mapTyBlocks f blocks) = (walkBlocks blocks).map (Expr.mapTy f)) ∧
    (∀ block : Block, (block.mapTy f).walk = block.walk.map (Expr.mapTy f)) ∧
    (∀ stmts, walkStmts (mapTyStmts f stmts) = (walkStmts stmts).map (Expr.mapTy f)) ∧
    (∀ stmt : Stmt, (stmt.mapTy f).walk = stmt.walk.map (Expr.mapTy f)) ∧ (∀ branches,
      walkBranches (mapTyBranches f branches) = (walkBranches branches).map (Expr.mapTy f)) ∧
    (∀ func : FuncExpr, (func.mapTy f).walk = func.walk.map (Expr.mapTy f)) ∧
    (∀ exprs, walkExprs (mapTyExprs f exprs) = (walkExprs exprs).map (Expr.mapTy f)) := by
  apply Expr.mapTy.mutual_induct
  all_goals
    simp +contextual [Expr.mapTy, ExprKind.mapTy, mapTyBlocks, Block.mapTy, mapTyStmts, Stmt.mapTy,
      mapTyBranches, FuncExpr.mapTy, mapTyExprs, Expr.walk, ExprKind.walk, walkBlocks, Block.walk,
      walkStmts, Stmt.walk, walkBranches, FuncExpr.walk, walkExprs, Capture.value, Capture.mapTy]

theorem walk_mapTyStmts (stmts : List Stmt) :
    walkStmts (mapTyStmts f stmts) = (walkStmts stmts).map (Expr.mapTy f) :=
  (walk_mapTy f).2.2.2.2.1 stmts

theorem FuncExpr.Exact.mapTy {func : FuncExpr} (h : func.Exact) : (func.mapTy f).Exact := by
  have hcaptured := func.captured_mapTy f
  obtain ⟨name, captures, params, body⟩ := func
  have hfree : (FuncExpr.mapTy f ⟨name, captures, params, body⟩).body.free = body.free := by
    rw [FuncExpr.mapTy, body.free_mapTy]
  have hparams : (FuncExpr.mapTy f ⟨name, captures, params, body⟩).params = params := by
    rw [FuncExpr.mapTy]
  refine ⟨hcaptured ▸ h.nodup, ?_⟩
  intro id
  rw [hcaptured, hfree, hparams]
  exact h.mem_iff id

theorem Exact.mapTy {exprs : List Expr} (h : Exact exprs) : Exact (exprs.map (Expr.mapTy f)) := by
  intro x hx func hfunc
  obtain ⟨⟨kind, ty⟩, he, rfl⟩ := List.mem_map.mp hx
  rw [Expr.mapTy] at hfunc
  cases kind with
  | func func' =>
    rw [ExprKind.mapTy] at hfunc
    cases hfunc
    exact (h _ he func' rfl).mapTy f
  | _ => simp [ExprKind.mapTy] at hfunc

end MapTy

end TraitCheck.Core
