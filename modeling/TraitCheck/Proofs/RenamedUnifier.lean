import TraitCheck.Proofs.Renaming
import TraitCheck.Proofs.Simulations

/-!
Unification under a renaming. Two unifiers whose bindings differ only by the
renaming bind the same variables, and fail alike, as long as the renaming follows
their counters.
-/

namespace TraitCheck

variable (ρ : Renaming)

def Misuse.rename : Misuse → Misuse
  | .nestingTooDeep limit => .nestingTooDeep (ρ.limit limit)
  | .implWithTypeArguments bound target => .implWithTypeArguments bound (target.rename ρ)
  | misuse => misuse

/-- The name that is declared twice may be that of a dictionary parameter. -/
noncomputable def Failure.rename : Failure → Failure
  | .typeMismatch expected found => .typeMismatch (expected.rename ρ) (found.rename ρ)
  | .traitMismatch ty bound => .traitMismatch (ty.rename ρ) bound
  | .missingImpl ty bound => .missingImpl (ty.rename ρ) bound
  | .duplicateImpl ty bound => .duplicateImpl (ty.rename ρ) bound
  | .unboundType ty => .unboundType (ty.rename ρ)
  | .unboundReturn ty => .unboundReturn (ty.rename ρ)
  | .unknownField ty field => .unknownField (ty.rename ρ) field
  | .duplicateDeclaration name => .duplicateDeclaration (ρ.name name)
  | .invalidContext misuse => .invalidContext (misuse.rename ρ)
  | .indexOutOfBounds ty index => .indexOutOfBounds (ty.rename ρ) index
  | .infiniteType var ty => .infiniteType (var.rename ρ) (ty.rename ρ)
  | .notAFunction ty => .notAFunction (ty.rename ρ)
  | .expectedEnum ty => .expectedEnum (ty.rename ρ)
  | .notIterable ty => .notIterable (ty.rename ρ)
  | failure => failure

/-- A renamed failure has the same code. -/
theorem Failure.code_rename (failure : Failure) : (failure.rename ρ).code = failure.code := by
  cases failure <;> rfl

/-! Counters. -/

variable {n n' limit : Nat} {f : Nat → Nat}

/-- The function takes what is drawn from one counter to what is drawn from the
other, up to a limit. -/
def Tracks (f : Nat → Nat) (limit n n' : Nat) : Prop :=
  ∀ i, n ≤ i → i < limit → f i = n' + (i - n)

theorem Tracks.add (h : Tracks f limit n n') (k : Nat) : Tracks f limit (n + k) (n' + k) := by
  intro i hle hlt
  rw [h i (by omega) hlt]
  omega

theorem Tracks.drawn {k : Nat} (h : Tracks f limit n n') (hk : n + k < limit) :
    f (n + k) = n' + k := by
  rw [h (n + k) (by omega) hk]
  omega

theorem Tracks.next (h : Tracks f limit n n') (hn : n < limit) : f n = n' := by
  rw [h n (Nat.le_refl n) hn, Nat.sub_self, Nat.add_zero]

/-! Traits. -/

noncomputable def Evidence.rename : Evidence → Evidence
  | .intrinsic bound ty => .intrinsic bound ty
  | .binding name id => .binding (ρ.name name) (ρ.binding id)

def TraitDecl.rename (decl : TraitDecl) : TraitDecl :=
  ⟨decl.name, decl.selfVar.rename ρ, decl.methods.mapVal (Ty.rename ρ)⟩

/-- The second registry has the traits of the first, and evidence for the renamed
constructors. It may have evidence for others too. -/
structure Registry.Mirrors (r r' : Registry) : Prop where
  traits : r'.traits = r.traits.mapVal (TraitDecl.rename ρ)
  evidence : ∀ con bound,
    r'.lookup (con.rename ρ) bound = (r.lookup con bound).map (Evidence.rename ρ)

namespace Unifier

/-- Unifiers whose bindings differ by the renaming. -/
noncomputable def simulation (limit : Nat) : Simulation Unifier Failure where
  valid _ := True
  rel u u' := u'.subst = u.subst.rename ρ ∧ Tracks ρ.var limit u.next u'.next
  view u u' := u'.subst = u.subst.rename ρ
  mirror u := { u with subst := u.subst.rename ρ }
  error := Failure.rename ρ
  ahead u v := u.next ≤ v.next
  inside u := u.next ≤ limit
  strict := True
  rel_view h := h.1
  view_mirror _ := rfl
  ahead_refl _ := Nat.le_refl _
  ahead_trans := Nat.le_trans
  inside_of_ahead := Nat.le_trans

variable {ρ} {limit : Nat} {registry registry' : Registry} {u u' : Unifier}

theorem resolve_renamed (h : u'.subst = u.subst.rename ρ) (t : Ty) :
    u'.resolve (t.rename ρ) = (u.resolve t).rename ρ := by
  rw [resolve, resolve, h, Subst.apply_rename]

theorem firstMissing_renamed (hregistry : registry.Mirrors ρ registry') (con : Con)
    (traits : TraitSet) :
    registry'.firstMissing (con.rename ρ) traits = registry.firstMissing con traits := by
  rw [Registry.firstMissing, Registry.firstMissing]
  congr 1
  funext bound
  rw [hregistry.evidence, Option.isNone_map]

theorem follows_mismatch {expected found : Ty} :
    Follows (simulation ρ limit) (mismatch expected found)
      (mismatch (expected.rename ρ) (found.rename ρ)) (Ty.rename ρ) :=
  .get fun _ _ _ h => .throw fun _ => by rw [resolve_renamed h, resolve_renamed h]; rfl

theorem follows_merge {v w : TyVar} : Follows (simulation ρ limit) (modifyGet (merge v w))
      (modifyGet (merge (v.rename ρ) (w.rename ρ))) (Ty.rename ρ) := by
  refine .modifyGet (fun u _ => ⟨trivial, Nat.le_succ _⟩) fun u u' hrel hinside => ?_
  obtain ⟨hsubst, htracks⟩ := hrel
  have hnext : ρ.var u.next = u'.next := htracks.next hinside
  have hmerged : Ty.var ⟨u'.next, v.name, v.traits.union w.traits⟩ =
      (Ty.var ⟨u.next, v.name, v.traits.union w.traits⟩).rename ρ := by
    rw [Ty.rename_var, TyVar.rename, hnext]
  refine ⟨hmerged, ?_, htracks.add 1⟩
  change ((u'.subst.insert (ρ.var v.id) (.var _)).insert (ρ.var w.id) (.var _)) =
    Subst.rename ρ ((u.subst.insert v.id (.var _)).insert w.id (.var _))
  rw [Subst.insert_rename, Subst.insert_rename, hsubst]
  exact congrArg₂ (fun a b => ((u.subst.rename ρ).insert (ρ.var v.id) a).insert (ρ.var w.id) b)
    hmerged hmerged

theorem follows_bind (hregistry : registry.Mirrors ρ registry') {v : TyVar} {head : Head}
    {args : List Ty} : Follows (simulation ρ limit) (bind registry v head args)
      (bind registry' (v.rename ρ) (head.rename ρ) (args.map (Ty.rename ρ))) (Ty.rename ρ) := by
  refine .get fun u u' _ h => ?_
  have hty : u'.resolve (.app (head.rename ρ) (args.map (Ty.rename ρ))) =
      (u.resolve (.app head args)).rename ρ := by
    rw [← Ty.rename_app, resolve_renamed h]
  dsimp only
  rw [hty]
  refine .ite ?_ (.throw fun _ => ?_) ?_
  · rw [show (v.rename ρ).id = ρ.var v.id from rfl, Ty.mentions_rename]
  · rw [← Ty.rename_var]
    rfl
  · rw [show (head.rename ρ).con = head.con.rename ρ from rfl,
      show (v.rename ρ).traits = v.traits from rfl, firstMissing_renamed hregistry]
    cases registry.firstMissing head.con v.traits with
    | some bound => exact .throw fun _ => rfl
    | none =>
      refine .modifyGet (fun _ _ => ⟨trivial, Nat.le_refl _⟩) fun _ w' hrel _ => ⟨rfl, ?_, hrel.2⟩
      change w'.subst.insert (ρ.var v.id) _ = _
      rw [hrel.1, ← Subst.insert_rename]
      rfl

theorem follows_unifyAll {step step' : Ty → Ty → UnifyM Ty}
    (hstep : ∀ a b, Follows (simulation ρ limit) (step a b) (step' (a.rename ρ) (b.rename ρ))
      (Ty.rename ρ)) {as bs : List Ty} : Follows (simulation ρ limit) (unifyAll step as bs)
      (unifyAll step' (as.map (Ty.rename ρ)) (bs.map (Ty.rename ρ))) (List.map (Ty.rename ρ)) := by
  induction as generalizing bs with
  | nil => exact .pure rfl
  | cons a as ih =>
    cases bs with
    | nil => exact .pure rfl
    | cons b bs => exact .bind (hstep a b) fun _ => .bind ih fun _ => .pure rfl

theorem follows_unifyWithin (hregistry : registry.Mirrors ρ registry') (depth : Nat)
    (expected found : Ty) : Follows (simulation ρ limit) (unifyWithin registry depth expected found)
      (unifyWithin registry' depth (expected.rename ρ) (found.rename ρ)) (Ty.rename ρ) := by
  induction depth generalizing expected found with
  | zero => exact follows_mismatch
  | succ depth ih =>
    refine .get fun u u' _ h => ?_
    rw [show u'.subst = u.subst.rename ρ from h, Subst.deref_rename, Subst.deref_rename]
    cases u.subst.deref expected with
    | var v =>
      cases u.subst.deref found with
      | var w =>
        rw [Ty.rename_var, Ty.rename_var]
        refine .ite ρ.var_injective.eq_iff (.pure (Ty.rename_var ρ v).symm) follows_merge
      | app head args =>
        rw [Ty.rename_var, Ty.rename_app]
        exact follows_bind hregistry
    | app head as =>
      cases u.subst.deref found with
      | var v =>
        rw [Ty.rename_var, Ty.rename_app]
        exact follows_bind hregistry
      | app head' bs =>
        rw [Ty.rename_app, Ty.rename_app]
        refine .ite ?_ (.bind (follows_unifyAll ih) fun cs => .pure ?_) follows_mismatch
        · rw [(Head.rename_injective ρ).eq_iff, List.length_map, List.length_map]
        · exact (Ty.rename_app ρ head cs).symm

theorem follows_unify (hregistry : registry.Mirrors ρ registry') (expected found : Ty) :
    Follows (simulation ρ limit) (unify registry expected found)
      (unify registry' (expected.rename ρ) (found.rename ρ)) (Ty.rename ρ) := by
  refine .get fun u u' _ h => ?_
  rw [show u'.subst = u.subst.rename ρ from h, Subst.nodes_rename, Ty.nodes_rename, Ty.nodes_rename]
  exact follows_unifyWithin hregistry _ expected found

end Unifier

end TraitCheck
