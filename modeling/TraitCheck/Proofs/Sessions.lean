import TraitCheck.Proofs.Effects

/-!
Programs checked one after the other on one checker, each in the state that the
one before it left, also where that one failed. Whatever a program does and
however it ends, every frame and every function that is opened is closed again,
so the next program starts in the outermost frame with all its room.
-/

namespace TraitCheck

/-- What holds of a checker and is kept by each built-in addition holds once all
of them are made. -/
theorem Prelude.install_rec {P : Checker → Prop} {s : Checker} (h : P s)
    (htype : ∀ s, P s → ∀ name ∈ types, P (addType s name))
    (htrait : ∀ s, P s → ∀ trait ∈ traits, P (addTrait s trait))
    (hgeneric : ∀ s, P s → ∀ f ∈ genericFuncs, P (addGenericFunc s f))
    (hplain : ∀ s, P s → ∀ f ∈ plainFuncs, P (addPlainFunc s f))
    (hinstalled : ∀ s : Checker, P s → P { s with preludeInstalled := true }) : P (install s) := by
  have h1 := List.foldlRecOn (motive := P) types addType h htype
  have h2 := List.foldlRecOn (motive := P) traits addTrait h1 htrait
  have h3 := List.foldlRecOn (motive := P) genericFuncs addGenericFunc h2 hgeneric
  have h4 := List.foldlRecOn (motive := P) plainFuncs addPlainFunc h3 hplain
  unfold install
  exact hinstalled _ h4

namespace Checker

open Surface (Expr FieldInit Branch Case Block Stmt FuncDecl Program)

variable {s : Checker}

/-- Checks programs one after the other. Returns all answers, and the checker to
go on with. -/
def session (s : Checker) : List Program → List (Except TypeError (List Core.Stmt)) × Checker
  | [] => ([], s)
  | program :: rest =>
    let (answer, s) := s.check program
    let (answers, s) := session s rest
    (answer :: answers, s)

theorem session_append (s : Checker) (programs more : List Program) :
    (s.session (programs ++ more)).2 = ((s.session programs).2.session more).2 := by
  induction programs generalizing s with
  | nil => rfl
  | cons program rest ih => exact ih (s.check program).2

/-- What every check keeps, a session keeps. -/
theorem session_rec {P : Checker → Prop} (hcheck : ∀ s program, P s → P (s.check program).2)
    (hs : P s) (programs : List Program) : P (s.session programs).2 := by
  induction programs generalizing s with
  | nil => exact hs
  | cons program rest ih => exact ih (hcheck s program hs)

/-! Whole programs. -/

/-- What a built-in addition may change. -/
theorem Balanced.add {s' : Checker} (h : Balanced s s') {unifier : Unifier} (registry : Registry)
    (scope : Scope) (hnext : s'.unifier.next ≤ unifier.next)
    (hbinding : scope.nextBinding = s'.scope.nextBinding) (hbelow : scope.below = s'.scope.below)
    (htraits : Keyed s'.adts s'.registry.traits → Keyed s'.adts registry.traits) :
    Balanced s { s' with unifier, registry, scope } :=
  h.trans ⟨rfl, rfl, hnext, le_of_eq hbinding.symm, congrArg (List.map Frame.bare) hbelow, htraits⟩

theorem balanced_install (s : Checker) : Balanced s (Prelude.install s) := by
  refine Prelude.install_rec (P := Balanced s) (.refl s) ?_ ?_ ?_ ?_ ?_
  · exact fun s' h _ _ => h.add s'.registry _ (le_refl _) rfl rfl id
  · exact fun s' h trait _ => h.add _ s'.scope (Nat.le_succ _) rfl rfl
      fun hkeyed => hkeyed.insert_trait trait.1 List.nodup_nil
  · exact fun s' h f _ => h.add s'.registry _ (Nat.le_succ _) rfl rfl id
  · exact fun s' h _ _ => h.add s'.registry _ (le_refl _) rfl rfl id
  · exact fun _ h => h.trans ⟨rfl, rfl, le_refl _, le_refl _, rfl, id⟩

theorem balanced_preparePrelude : Ends Balanced preparePrelude := by
  refine .modify fun s => ?_
  split
  · exact balanced_install s
  · exact .refl s

theorem balanced_declareAdt (name : Name) (generics : List Surface.GenericParam) :
    Ends Balanced (declareAdt name generics) := by
  refine ends_declareAdt (fun _ => passes_bindType.kept.balanced) fun _ _ => ?_
  exact ⟨rfl, rfl, le_refl _, le_refl _, rfl, fun h => h.insert_adt name.text trivial⟩

theorem balanced_declareAdts (program : Program) : Ends Balanced (declareAdts program) :=
  ends_declareAdts balanced_declareAdt

theorem passes_checkUnits (room : Nat) (program : Program) :
    Ends Passes (checkUnits room program) :=
  ends_checkUnits fun stmt _ => passes_checkStmt room stmt

theorem balanced_check (s : Checker) (program : Program) : Balanced s (s.check program).2 := by
  have h : Ends Balanced (checkProgram program) :=
    .bind balanced_preparePrelude fun _ => .bind (balanced_declareAdts program) fun _ =>
      .bind .get fun _ => (passes_checkUnits _ program).kept.balanced
  exact h.rel s

theorem balanced_session (s : Checker) (programs : List Program) :
    Balanced s (s.session programs).2 :=
  session_rec (P := Balanced s) (fun _ program h => h.trans (balanced_check _ program)) (.refl s)
    programs

/-! What a check is made of. -/

/-- The checker once it has the built-in environment, if it is to have it. -/
def prepared (s : Checker) : Checker :=
  if s.options.prelude && !s.preludeInstalled then Prelude.install s else s

theorem preparePrelude_eq : preparePrelude = modify prepared := rfl

/-- Checks a program with the given room. -/
def checkWithin (room : Nat) (program : Program) : CheckM (List Core.Stmt) := do
  preparePrelude
  declareAdts program
  checkUnits room program

theorem check_eq (s : Checker) (program : Program) :
    s.check program = (checkWithin s.options.maxDepth program).run.run s := by
  rw [check, checkProgram, checkWithin, Runs.run_bind, Runs.run_bind]
  cases hprepare : preparePrelude.run.run s with
  | mk r s1 =>
    cases r with
    | error e => rfl
    | ok _ =>
      dsimp only
      rw [Runs.run_bind, Runs.run_bind]
      cases hdeclare : (declareAdts program).run.run s1 with
      | mk r s2 =>
        cases r with
        | error e => rfl
        | ok _ =>
          have hoptions : s2.options = s.options :=
            ((balanced_preparePrelude.yields hprepare).trans
              ((balanced_declareAdts program).yields hdeclare)).options
          rw [← hoptions]
          rfl

theorem check_prepared (s : Checker) (program : Program) :
    s.check program = (do
      declareAdts program
      checkUnits s.options.maxDepth program : CheckM (List Core.Stmt)).run.run s.prepared := by
  rw [check_eq]
  rfl

theorem Yields.of_check {program : Program} {out : List Core.Stmt}
    (h : (s.check program).1 = .ok out) : ∃ s1, Yields (declareAdts program) s.prepared () s1 ∧
      Yields (checkUnits s.options.maxDepth program) s1 out (s.check program).2 := by
  have hrun : s.check program = (.ok out, (s.check program).2) := Prod.ext h rfl
  rw [check_prepared] at hrun
  obtain ⟨_, s1, h1, hrun⟩ := Yields.bind hrun
  rw [← check_prepared] at hrun
  exact ⟨s1, h1, hrun⟩

theorem checkUnits_append (room : Nat) (p q : Program) : checkUnits room (p ++ q) = (do
    let out ← checkUnits room p
    let more ← checkUnits room q
    return out ++ more) := by
  induction p with
  | nil => simp [checkUnits]
  | cons stmt rest ih =>
    simp only [List.cons_append, checkUnits, ih, bind_assoc, pure_bind, List.append_assoc]

/-! Where the walk stands. -/

/-- How many frames and functions are open, and how many expressions stand around
the place. -/
structure Level where
  frames : Nat
  functions : Nat
  nesting : Nat
deriving DecidableEq

/-- The level of a place with room for this many more expressions inside each
other. -/
def level (room : Nat) (s : Checker) : Level :=
  ⟨s.scope.frames.length, s.functions.length, s.options.maxDepth - room⟩

theorem Balanced.level {s s' : Checker} (h : Balanced s s') (room : Nat) :
    level room s' = level room s := by
  have hframes : s'.scope.frames.length = s.scope.frames.length := congrArg (· + 1) h.depth
  rw [Checker.level, Checker.level, hframes, h.functions, h.options]

/-- A call that the walk makes, apart from the room it is made with. -/
inductive Call where
  | expr (hint : Option Ty) (e : Expr)
  | elems (hints : List Ty) (es : List Expr)
  | items (hint : Option Ty) (ty : Ty) (es : List Expr)
  | args (params : List Ty) (es : List Expr)
  | inits (inst : Instance) (fields : Fields) (supplied : Assoc String Core.Expr)
    (list : List FieldInit)
  | branches (hint before : Option Ty) (list : List Branch)
  | otherwise (hint : Option Ty) (span : Span) (last : Option Block)
  | cases (hint : Option Ty) (m : Match) (before : Option Ty) (done : Assoc String Core.Block)
    (list : List Case)
  | block (hint : Option Ty) (b : Block)
  | stmts (hint : Option Ty) (list : List Stmt)
  | stmt (one : Stmt)
  | func (sig : Signature) (decl : FuncDecl)
  | methods (impl : Impl) (done : Assoc String Core.Expr) (list : List FuncDecl)
  | body (declared : Option Ty) (b : Block)
  | bodyStmts (list : List Stmt)

/-- The state that a call leaves, whether it succeeds or fails. -/
def Call.final (room : Nat) (s : Checker) : Call → Checker
  | .expr hint e => ((checkExpr room hint e).run.run s).2
  | .elems hints es => ((checkElems room hints es).run.run s).2
  | .items hint ty es => ((checkItems room hint ty es).run.run s).2
  | .args params es => ((checkArgs room params es).run.run s).2
  | .inits inst fields supplied list => ((checkInits room inst fields supplied list).run.run s).2
  | .branches hint before list => ((checkBranches room hint before list).run.run s).2
  | .otherwise hint span last => ((checkElse room hint span last).run.run s).2
  | .cases hint m before done list => ((checkCases room hint m before done list).run.run s).2
  | .block hint b => ((checkBlock room hint b).run.run s).2
  | .stmts hint list => ((checkStmts room hint list).run.run s).2
  | .stmt one => ((checkStmt room one).run.run s).2
  | .func sig decl => ((checkFunc room sig decl).run.run s).2
  | .methods impl done list => ((checkMethods room impl done list).run.run s).2
  | .body declared b => ((checkBody room declared b).run.run s).2
  | .bodyStmts list => ((checkBodyStmts room list).run.run s).2

theorem passes_call {call : Call} {room : Nat} : Passes s (call.final room s) := by
  cases call with
  | expr hint e => exact (stays_checkExpr.rel s).passes
  | elems hints es => exact (stays_checkElems.rel s).passes
  | items hint ty es => exact (stays_checkItems.rel s).passes
  | args params es => exact (stays_checkArgs.rel s).passes
  | inits inst fields supplied list => exact (stays_checkInits.rel s).passes
  | branches hint before list => exact (stays_checkBranches.rel s).passes
  | otherwise hint span last => exact (stays_checkElse.rel s).passes
  | cases hint m before done list => exact (stays_checkCases.rel s).passes
  | block hint b => exact (stays_checkBlock.rel s).passes
  | stmts hint list => exact passes_checkStmts.rel s
  | stmt one => exact (passes_checkStmt room one).rel s
  | func sig decl => exact ((stays_checkFunc room sig decl).rel s).passes
  | methods impl done list => exact (stays_checkMethods.rel s).passes
  | body declared b => exact passes_checkBody.rel s
  | bodyStmts list => exact passes_checkBodyStmts.rel s

end Checker

end TraitCheck
