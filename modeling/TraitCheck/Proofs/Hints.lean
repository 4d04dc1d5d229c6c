import TraitCheck.Proofs.Effects

/-!
Hints are for closures only. An expression hands the hint it is checked with on
to parts of it, and only a closure looks at it. So without a closure inside, two
hints give the same run, whatever they are: the same core expression or failure,
the same ids, and the same state. Reading a hint takes no step that can be seen
afterwards.
-/

namespace TraitCheck

namespace Surface

mutual

/-- Whether no closure stands anywhere inside the expression. -/
def Expr.closureFree (e : Expr) : Bool :=
  match e with
  | .int _ _ | .float _ _ | .string _ _ | .bool _ _ | .ident _ _ => true
  | .tuple elems _ | .array elems _ => closureFreeExprs elems
  | .construct _ _ inits _ => closureFreeInits inits
  | .field target _ _ => target.closureFree
  | .call callee args _ => callee.closureFree && closureFreeExprs args
  | .binary _ lhs rhs _ => lhs.closureFree && rhs.closureFree
  | .unary _ operand _ => operand.closureFree
  | .closure _ _ _ => false
  | .cond branches otherwise _ => closureFreeBranches branches && closureFreeElse otherwise
  | .cases target cases _ => target.closureFree && closureFreeCases cases
  | .block body _ => body.closureFree

def Block.closureFree (block : Block) : Bool :=
  match block with
  | ⟨stmts, _⟩ => closureFreeStmts stmts

def Stmt.closureFree (stmt : Stmt) : Bool :=
  match stmt with
  | .bind _ _ value _ => value.closureFree
  | .func decl => decl.closureFree
  | .struct _ _ _ _ | .enum _ _ _ _ | .trait _ _ _ => true
  | .impl _ _ methods _ => closureFreeFuncs methods
  | .ret none _ => true
  | .ret (some value) _ => value.closureFree
  | .whileDo cond body _ => cond.closureFree && body.closureFree
  | .forEach _ iterable body _ => iterable.closureFree && body.closureFree
  | .eval value _ => value.closureFree

def FuncDecl.closureFree (decl : FuncDecl) : Bool :=
  match decl with
  | ⟨_, _, _, _, body, _⟩ => body.closureFree

def closureFreeElse (otherwise : Option Block) : Bool :=
  match otherwise with
  | none => true
  | some block => block.closureFree

def closureFreeExprs (es : List Expr) : Bool :=
  match es with
  | [] => true
  | e :: rest => e.closureFree && closureFreeExprs rest

def closureFreeInits (inits : List FieldInit) : Bool :=
  match inits with
  | [] => true
  | ⟨_, e⟩ :: rest => e.closureFree && closureFreeInits rest

def closureFreeBranches (branches : List Branch) : Bool :=
  match branches with
  | [] => true
  | ⟨cond, body⟩ :: rest => cond.closureFree && body.closureFree && closureFreeBranches rest

def closureFreeCases (cases : List Case) : Bool :=
  match cases with
  | [] => true
  | ⟨_, _, body, _⟩ :: rest => body.closureFree && closureFreeCases rest

def closureFreeStmts (stmts : List Stmt) : Bool :=
  match stmts with
  | [] => true
  | s :: rest => s.closureFree && closureFreeStmts rest

def closureFreeFuncs (decls : List FuncDecl) : Bool :=
  match decls with
  | [] => true
  | d :: rest => d.closureFree && closureFreeFuncs rest

end

end Surface

namespace Checker

open Surface (Expr Branch Case Block Stmt)

variable {α β : Type}

/-! Steps that only look. -/

/-- A step that always returns something and leaves the state as it is. -/
def Looks (x : CheckM α) : Prop := ∀ s, ∃ a, x.run.run s = (.ok a, s)

/-- What comes after a look is the same, if it does not depend on what was seen. -/
theorem Looks.bind_eq {x y : CheckM α} (hx : Looks x) (hy : Looks y) {f g : α → CheckM β}
    (h : ∀ a b, f a = g b) : x >>= f = y >>= g := by
  funext s
  obtain ⟨a, ha⟩ := hx s
  obtain ⟨b, hb⟩ := hy s
  change (x >>= f).run.run s = (y >>= g).run.run s
  rw [Runs.run_bind, Runs.run_bind, ha, hb]
  exact congrArg (fun step => step.run.run s) (h a b)

theorem looks_resolve? (ty : Option Ty) : Looks (resolve? ty) := by
  intro s
  cases ty with
  | none => exact ⟨none, rfl⟩
  | some ty => exact ⟨some (s.unifier.resolve ty), rfl⟩

theorem Looks.map {x : CheckM α} (hx : Looks x) (f : α → β) : Looks (do return f (← x)) := by
  intro s
  obtain ⟨a, ha⟩ := hx s
  refine ⟨f a, ?_⟩
  rw [Runs.run_bind, ha]
  rfl

theorem looks_tupleHints (length : Nat) (hint : Option Ty) : Looks (tupleHints length hint) :=
  (looks_resolve? hint).map _

theorem looks_arrayHint (hint : Option Ty) : Looks (arrayHint hint) :=
  (looks_resolve? hint).map _

/-! The walk. Only the calls that are handed a hint are of interest here. -/

mutual

theorem checkExpr_congr_hint (room : Nat) (hint hint' : Option Ty) (e : Expr)
    (hfree : e.closureFree = true) : checkExpr room hint e = checkExpr room hint' e := by
  cases room with
  | zero => rw [checkExpr, checkExpr]
  | succ room =>
    match e with
    | .int _ _ | .float _ _ | .string _ _ | .bool _ _ | .ident _ _ => rw [checkExpr, checkExpr]
    | .tuple elems _ =>
      rw [Expr.closureFree] at hfree
      rw [checkExpr, checkExpr]
      refine (looks_tupleHints _ _).bind_eq (looks_tupleHints _ _) fun hints hints' => ?_
      rw [checkElems_congr_hints room hints hints' elems hfree]
    | .array elems _ =>
      rw [Expr.closureFree] at hfree
      rw [checkExpr, checkExpr]
      refine (looks_arrayHint _).bind_eq (looks_arrayHint _) fun itemHint itemHint' => ?_
      refine bind_congr fun var => ?_
      rw [checkItems_congr_hint room itemHint itemHint' (.var var) elems hfree]
    | .construct _ _ _ _ => rw [checkExpr, checkExpr]
    | .field _ _ _ => rw [checkExpr, checkExpr]
    | .call _ _ _ => rw [checkExpr, checkExpr]
    | .binary _ _ _ _ => rw [checkExpr, checkExpr]
    | .unary _ _ _ => rw [checkExpr, checkExpr]
    | .closure _ _ _ => rw [Expr.closureFree] at hfree; cases hfree
    | .cond branches otherwise span =>
      rw [Expr.closureFree, Bool.and_eq_true] at hfree
      rw [checkExpr, checkExpr, checkBranches_congr_hint room hint hint' none branches hfree.1,
        checkElse_congr_hint room hint hint' span otherwise hfree.2]
    | .cases target cases span =>
      rw [Expr.closureFree, Bool.and_eq_true] at hfree
      rw [checkExpr, checkExpr]
      refine bind_congr fun _ => bind_congr fun _ => bind_congr fun _ =>
        bind_congr fun _ => ?_
      rw [checkCases_congr_hint room hint hint' _ none ∅ cases hfree.2]
    | .block body _ =>
      rw [Expr.closureFree] at hfree
      rw [checkExpr, checkExpr, checkBlock_congr_hint room hint hint' body hfree]

theorem checkElems_congr_hints (room : Nat) (hints hints' : List Ty) (es : List Expr)
    (hfree : Surface.closureFreeExprs es = true) :
    checkElems room hints es = checkElems room hints' es := by
  match es with
  | [] => rw [checkElems, checkElems]
  | e :: rest =>
    rw [Surface.closureFreeExprs, Bool.and_eq_true] at hfree
    rw [checkElems, checkElems, checkExpr_congr_hint room hints.head? hints'.head? e hfree.1,
      checkElems_congr_hints room hints.tail hints'.tail rest hfree.2]

theorem checkItems_congr_hint (room : Nat) (hint hint' : Option Ty) (ty : Ty) (es : List Expr)
    (hfree : Surface.closureFreeExprs es = true) :
    checkItems room hint ty es = checkItems room hint' ty es := by
  match es with
  | [] => rw [checkItems, checkItems]
  | e :: rest =>
    rw [Surface.closureFreeExprs, Bool.and_eq_true] at hfree
    rw [checkItems, checkItems]
    refine bind_congr fun known => ?_
    rw [checkExpr_congr_hint room _ (if known.isVar then hint' else some known) e hfree.1]
    refine bind_congr fun _ => bind_congr fun ty => ?_
    rw [checkItems_congr_hint room hint hint' ty rest hfree.2]

theorem checkBranches_congr_hint (room : Nat) (hint hint' before : Option Ty)
    (branches : List Branch) (hfree : Surface.closureFreeBranches branches = true) :
    checkBranches room hint before branches = checkBranches room hint' before branches := by
  match branches with
  | [] => rw [checkBranches, checkBranches]
  | ⟨cond, body⟩ :: rest =>
    rw [Surface.closureFreeBranches, Bool.and_eq_true, Bool.and_eq_true] at hfree
    rw [checkBranches, checkBranches, checkBlock_congr_hint room hint hint' body hfree.1.2]
    refine bind_congr fun _ => bind_congr fun _ => bind_congr fun ty => ?_
    rw [checkBranches_congr_hint room hint hint' (some ty) rest hfree.2]

theorem checkElse_congr_hint (room : Nat) (hint hint' : Option Ty) (span : Span)
    (otherwise : Option Block) (hfree : Surface.closureFreeElse otherwise = true) :
    checkElse room hint span otherwise = checkElse room hint' span otherwise := by
  match otherwise with
  | none => rw [checkElse, checkElse]
  | some block =>
    rw [Surface.closureFreeElse] at hfree
    rw [checkElse, checkElse, checkBlock_congr_hint room hint hint' block hfree]

theorem checkCases_congr_hint (room : Nat) (hint hint' : Option Ty) (m : Match)
    (before : Option Ty) (done : Assoc String Core.Block) (cases : List Case)
    (hfree : Surface.closureFreeCases cases = true) :
    checkCases room hint m before done cases = checkCases room hint' m before done cases := by
  match cases with
  | [] => rw [checkCases, checkCases]
  | ⟨tag, bindings, ⟨stmts, bodySpan⟩, span⟩ :: rest =>
    rw [Surface.closureFreeCases, Bool.and_eq_true, Block.closureFree] at hfree
    rw [checkCases, checkCases]
    cases m.tags.find? tag.text with
    | none => rfl
    | some fields =>
      dsimp only
      rw [checkStmts_congr_hint room hint hint' stmts hfree.1]
      refine bind_congr fun _ => bind_congr fun _ => bind_congr fun ty => ?_
      exact checkCases_congr_hint room hint hint' m (some ty) _ rest hfree.2

theorem checkBlock_congr_hint (room : Nat) (hint hint' : Option Ty) (block : Block)
    (hfree : block.closureFree = true) :
    checkBlock room hint block = checkBlock room hint' block := by
  match block with
  | ⟨stmts, span⟩ =>
    rw [Block.closureFree] at hfree
    rw [checkBlock, checkBlock, checkStmts_congr_hint room hint hint' stmts hfree]

theorem checkStmts_congr_hint (room : Nat) (hint hint' : Option Ty) (stmts : List Stmt)
    (hfree : Surface.closureFreeStmts stmts = true) :
    checkStmts room hint stmts = checkStmts room hint' stmts := by
  match stmts with
  | [] => rw [checkStmts, checkStmts]
  | stmt :: rest =>
    rw [Surface.closureFreeStmts, Bool.and_eq_true] at hfree
    refine checkStmts_cons (P := fun x => x hint = x hint') ?_ ?_
    · intro e span hstmt
      match stmt, hstmt with
      | .eval e _, rfl =>
        rw [Stmt.closureFree] at hfree
        dsimp only
        rw [checkExpr_congr_hint room hint hint' e hfree.1]
    · dsimp only
      rw [checkStmts_congr_hint room hint hint' rest hfree.2]
termination_by structural stmts

end

/-- Without a closure inside, an expression is checked in the same way with any two
hints: it gives the same result in every state, and leaves the same state. -/
theorem checkExpr_hint_irrelevant (room : Nat) (hint hint' : Option Ty) (e : Expr)
    (hfree : e.closureFree = true) (s : Checker) :
    (checkExpr room hint e).run.run s = (checkExpr room hint' e).run.run s := by
  rw [checkExpr_congr_hint room hint hint' e hfree]

/-- A tuple with an array, or else the result of a function declared in place. -/
def pairOrCall : Expr :=
  .cond
    [⟨.bool true .dummy, ⟨[.eval (.tuple [.int 1 .dummy, .array [.int 2 .dummy] .dummy] .dummy)
      .dummy], .dummy⟩⟩]
    (some ⟨[.func ⟨⟨"f", .dummy⟩, [], [], none, ⟨[.eval (.int 3 .dummy) .dummy], .dummy⟩, .dummy⟩,
      .eval (.call (.ident "f" .dummy) [] .dummy) .dummy], .dummy⟩) .dummy

/-- No hint, and one that fits in its length only. -/
theorem checkExpr_hint_irrelevant_pair :
    pairOrCall.closureFree = true ∧ (checkExpr 4 none pairOrCall).run.run (new {}) =
      (checkExpr 4 (some (.tuple [.string, .func [.int] .bool])) pairOrCall).run.run (new {}) :=
  ⟨rfl, checkExpr_hint_irrelevant 4 _ _ _ rfl _⟩

end Checker

end TraitCheck
