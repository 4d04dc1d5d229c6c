import TraitCheck.Proofs.CheckerRuns

/-!
Steps that do not fail for lack of evidence. The checker tests in a few places
that evidence is where it has to be (`Failure.isDefect`). Unification and the
reading of written types never come to such a test.
-/

namespace TraitCheck

/-- The call of a bound or of a method that should have evidence has none. -/
def Failure.isDefect : Failure → Bool
  | .missingImpl _ _ => true
  | .invalidContext (.evidenceOutOfScope _) => true
  | .invalidContext .methodWithoutDictionary => true
  | _ => false

/-- A written type fails for no other reason. -/
inductive Failure.IsWritten : Failure → Prop
  | unknown (name : String) : IsWritten (.unknownType name)
  | arity (expected found : Nat) : IsWritten (.arityMismatch "type arguments" expected found)

theorem Failure.IsWritten.isDefect {failure : Failure} (h : failure.IsWritten) :
    failure.isDefect = false := by
  cases h <;> rfl

namespace Runs

variable {ε σ α β : Type} {P : ε → Prop} {s : σ}

/-- If the step fails from the state, then in such a way. -/
def FailsWith (P : ε → Prop) (x : ExceptT ε (StateM σ) α) (s : σ) : Prop :=
  ∀ e s', x.run.run s = (.error e, s') → P e

namespace FailsWith

theorem bind {x : ExceptT ε (StateM σ) α} {f : α → ExceptT ε (StateM σ) β}
    (hx : FailsWith P x s) (hf : ∀ a s', x.run.run s = (.ok a, s') → FailsWith P (f a) s') :
    FailsWith P (x >>= f) s := by
  intro e s' h
  rw [run_bind] at h
  split at h
  · rename_i a s1 hrun
    exact hf a s1 hrun e s' h
  · rename_i e1 s1 hrun
    cases h
    exact hx e s' hrun

theorem pure {a : α} : FailsWith P (Pure.pure a : ExceptT ε (StateM σ) α) s := by
  intro e s' h
  cases h

theorem get : FailsWith P (get : ExceptT ε (StateM σ) σ) s := by
  intro e s' h
  cases h

theorem modifyGet (f : σ → α × σ) : FailsWith P (modifyGet f : ExceptT ε (StateM σ) α) s := by
  intro e s' h
  cases h

theorem throw {e : ε} (he : P e) : FailsWith P (throw e : ExceptT ε (StateM σ) α) s := by
  intro e' s' h
  cases h
  exact he

end FailsWith

end Runs

namespace Unifier

open Runs (FailsWith)

variable {α β : Type} {registry : Registry}

/-- Whether it succeeds or fails, the step takes no id back. It does not fail for
lack of evidence. -/
structure Mild (x : UnifyM α) : Prop where
  next_le : ∀ u, u.next ≤ (x.run.run u).2.next
  fails : ∀ u, FailsWith (fun failure => failure.isDefect = false) x u

namespace Mild

theorem bind {x : UnifyM α} {f : α → UnifyM β} (hx : Mild x) (hf : ∀ a, Mild (f a)) :
    Mild (x >>= f) where
  next_le := by
    intro u
    have hfirst := hx.next_le u
    rw [Runs.run_bind]
    cases hrun : x.run.run u with
    | mk r u1 =>
      rw [hrun] at hfirst
      cases r with
      | error failure => exact hfirst
      | ok a => exact Nat.le_trans hfirst ((hf a).next_le u1)
  fails := fun u => (hx.fails u).bind fun a u' _ => (hf a).fails u'

theorem pure {a : α} : Mild (Pure.pure a) := ⟨fun _ => Nat.le_refl _, fun _ => .pure⟩

theorem get : Mild get := ⟨fun _ => Nat.le_refl _, fun _ => .get⟩

theorem throw {failure : Failure} (h : failure.isDefect = false := by rfl) :
    Mild (throw failure : UnifyM α) :=
  ⟨fun _ => Nat.le_refl _, fun _ => .throw h⟩

theorem modifyGet {f : Unifier → α × Unifier} (h : ∀ u, u.next ≤ (f u).2.next) :
    Mild (modifyGet f) :=
  ⟨h, fun _ => .modifyGet f⟩

end Mild

theorem mild_mismatch (a b : Ty) : Mild (mismatch a b) := .bind .get fun _ => .throw

theorem mild_bind (v : TyVar) (head : Head) (args : List Ty) : Mild (bind registry v head args) := by
  refine .bind .get fun _ => ?_
  dsimp only
  split
  · exact .throw
  · split
    · exact .throw
    · exact .modifyGet fun _ => Nat.le_refl _

theorem mild_unifyAll {step : Ty → Ty → UnifyM Ty} (hstep : ∀ a b, Mild (step a b))
    (as bs : List Ty) : Mild (unifyAll step as bs) := by
  induction as generalizing bs with
  | nil => exact .pure
  | cons a as ih =>
    cases bs with
    | nil => exact .pure
    | cons b bs => exact .bind (hstep a b) fun _ => .bind (ih bs) fun _ => .pure

theorem mild_unifyWithin (depth : Nat) (a b : Ty) : Mild (unifyWithin registry depth a b) := by
  induction depth generalizing a b with
  | zero => exact mild_mismatch a b
  | succ depth ih =>
    refine .bind .get fun _ => ?_
    split
    · split
      · exact .pure
      · exact .modifyGet fun _ => Nat.le_succ _
    · exact mild_bind _ _ _
    · exact mild_bind _ _ _
    · split
      · exact .bind (mild_unifyAll ih _ _) fun _ => .pure
      · exact mild_mismatch _ _

theorem mild_unify (a b : Ty) : Mild (unify registry a b) :=
  .bind .get fun _ => mild_unifyWithin _ _ _

end Unifier

namespace Checker

/-- From the state the step does not fail for lack of evidence. -/
def Safe {α : Type} (x : CheckM α) (s : Checker) : Prop :=
  Runs.FailsWith (fun e => e.failure.isDefect = false) x s

namespace Safe

variable {α β : Type} {s s0 : Checker} {body : CheckM α}

theorem bind {f : α → CheckM β} (hx : Safe body s)
    (hf : ∀ a s', Yields body s a s' → Safe (f a) s') : Safe (body >>= f) s :=
  Runs.FailsWith.bind hx hf

theorem fail {failure : Failure} {span : Span} (h : failure.isDefect = false) :
    Safe (fail failure span : CheckM α) s :=
  Runs.FailsWith.throw h

theorem ensure {condition : Prop} [Decidable condition] {failure : Failure} {span : Span}
    (h : failure.isDefect = false) : Safe (ensure condition failure span) s := by
  rw [Checker.ensure]
  split
  · exact .pure
  · exact .fail h

theorem ofExcept {span : Span} {r : Except Failure α}
    (h : ∀ failure, r = .error failure → failure.isDefect = false) : Safe (ofExcept span r) s := by
  cases r with
  | ok a => exact .pure
  | error failure => exact .fail (h failure rfl)

/-- A body that runs in a changed state and is followed by a change of state. -/
theorem bracket {x : CheckM β} (hbody : Safe body s0)
    (hx : ∀ e s', x.run.run s = (.error e, s') → ∃ s1, body.run.run s0 = (.error e, s1)) :
    Safe x s := by
  intro e s' hrun
  obtain ⟨s1, hrun⟩ := hx e s' hrun
  exact hbody e s1 hrun

theorem of_mapState {k : Checker → Checker} {e : TypeError} {s' : Checker}
    (h : (match body.run.run s0 with | (r, s1) => (r, k s1)) = (Except.error e, s')) :
    ∃ s1, body.run.run s0 = (.error e, s1) := by
  cases hbody : body.run.run s0 with
  | mk r s1 =>
    rw [hbody] at h
    cases h
    exact ⟨s1, rfl⟩

theorem inScope (h : Safe body { s with scope := s.scope.push }) : Safe (inScope body) s :=
  h.bracket fun _ _ => of_mapState (k := fun s1 => { s1 with scope := s1.scope.pop })

theorem inFunction {declared : Option Ty}
    (h : Safe body { s with functions := { ret := declared } :: s.functions }) :
    Safe (inFunction declared body) s :=
  h.bracket fun _ _ => of_mapState (k := fun s1 => { s1 with functions := s1.functions.tail })

theorem isolated (h : Safe body { s with unifier := { s.unifier with subst := {} } }) :
    Safe (isolated body) s :=
  h.bracket fun _ _ => of_mapState
    (k := fun s1 => { s1 with unifier := { s1.unifier with subst := s.unifier.subst } })

theorem inFunctionFrame (h : Safe body { s with scope := s.scope.pushFunction }) :
    Safe (inFunctionFrame body) s := by
  refine h.bracket ?_
  intro e s' hrun
  change (match body.run.run { s with scope := s.scope.pushFunction } with
    | (r, s1) => (r.map (·, s1.scope.popFunction.1),
      { s1 with scope := s1.scope.popFunction.2 })) = (Except.error e, s') at hrun
  cases hbody : body.run.run { s with scope := s.scope.pushFunction } with
  | mk r s1 =>
    rw [hbody] at hrun
    cases r with
    | error e' =>
      cases hrun
      exact ⟨s1, rfl⟩
    | ok a => cases hrun

end Safe

/-! Written types. -/

open Surface (TypeExpr)

theorem Except.map_eq_error {ε α β : Type} {f : α → β} {r : Except ε α} {e : ε}
    (h : r.map f = .error e) : r = .error e := by
  cases r with
  | error e' =>
    cases h
    rfl
  | ok a => cases h

theorem Except.bind_eq_error {ε α β : Type} {f : α → Except ε β} {r : Except ε α} {e : ε}
    (h : r >>= f = .error e) : r = .error e ∨ ∃ a, f a = .error e := by
  cases r with
  | error e' =>
    cases h
    exact .inl rfl
  | ok a => exact .inr ⟨a, h⟩

mutual

theorem failure_toTy : ∀ {scope : Scope} {adts : AdtTable} {written : TypeExpr} {e : TypeError},
    written.toTy scope adts = .error e → e.failure.IsWritten
  | scope, adts, .ident name args span, e, h => by
    rw [TypeExpr.toTy] at h
    split at h
    · cases h
      exact .unknown name
    · dsimp only at h
      split at h
      · cases h
        exact .arity _ _
      · split at h
        · cases h
        · exact failure_toTys (Except.map_eq_error h)
  | scope, adts, .tuple elems span, e, h => by
    rw [TypeExpr.toTy] at h
    exact failure_toTys (Except.map_eq_error h)
  | scope, adts, .func params ret span, e, h => by
    rw [TypeExpr.toTy] at h
    obtain h | ⟨_, h⟩ := Except.bind_eq_error h
    · exact failure_toTys h
    · obtain h | ⟨_, h⟩ := Except.bind_eq_error h
      · exact failure_toTy h
      · cases h
  | scope, adts, .array elem size span, e, h => by
    rw [TypeExpr.toTy] at h
    exact failure_toTy (Except.map_eq_error h)

theorem failure_toTys : ∀ {scope : Scope} {adts : AdtTable} {written : List TypeExpr}
    {e : TypeError}, TypeExpr.toTys scope adts written = .error e → e.failure.IsWritten
  | _, _, [], _, h => by
    rw [TypeExpr.toTys] at h
    cases h
  | scope, adts, t :: rest, e, h => by
    rw [TypeExpr.toTys] at h
    obtain h | ⟨_, h⟩ := Except.bind_eq_error h
    · exact failure_toTy h
    · obtain h | ⟨_, h⟩ := Except.bind_eq_error h
      · exact failure_toTys h
      · cases h

end

end Checker

end TraitCheck
