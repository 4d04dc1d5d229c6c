import TraitCheck.Proofs.Soundness

/-!
Resolved types may be kept and resolved again. A session only ever adds
bindings, so resolving in an earlier state first makes no difference, and an
earlier state finds nothing to do in what a later one has resolved. Two types
that resolve to the same are unified without a step: a call goes down both of
them at once, comes to the same unbound variables at the same places, and binds
nothing, whatever evidence there is. So a call that succeeded can be repeated at
any later time.
-/

namespace TraitCheck

namespace Subst

variable {σ τ : Subst}

theorem Extends.find?_none (h : σ.Extends τ) {id : VarId} (hid : τ.find? id = none) :
    σ.find? id = none := by
  cases hfind : σ.find? id with
  | none => rfl
  | some t =>
    rw [h id t hfind] at hid
    cases hid

/-- What is resolved by more bindings stays as it is under fewer. -/
theorem Extends.apply_resolved (hext : σ.Extends τ) (hσ : σ.Acyclic) (hτ : τ.Acyclic) (t : Ty) :
    σ.apply (τ.apply t) = τ.apply t := by
  rw [apply_eq hσ]
  apply Ty.replace_eq_self
  intro w hw
  rw [hext.find?_none (find?_of_mentions_apply hτ hw), Option.map_none]

/-- A resolved type is made of what stands in the type and in the bindings, and
no compound type comes twice on one path. -/
theorem height_apply_le (h : σ.Acyclic) (t : Ty) : (σ.apply t).height ≤ σ.nodes + t.nodes := by
  have hcovered : σ.Covered (Ty.allSubterms (σ.bindings.values ++ [t])) t := by
    apply covered_of_mem h
    · intro id s hfind
      apply Ty.mem_allSubterms.mpr
      exact ⟨s, List.mem_append_left _ (mem_values_of_find? hfind), Ty.mem_subterms_self s⟩
    · intro head args happ s hs
      obtain ⟨x, hx, hmem⟩ := Ty.mem_allSubterms.mp happ
      exact Ty.mem_allSubterms.mpr ⟨x, hx, Ty.arg_mem_subterms hmem hs⟩
    · exact Ty.mem_allSubterms.mpr ⟨t, by simp, Ty.mem_subterms_self t⟩
  calc (σ.apply t).height ≤ (Ty.allSubterms (σ.bindings.values ++ [t])).length :=
        hcovered.height_le
    _ = Ty.allNodes (σ.bindings.values ++ [t]) :=
        Ty.length_allSubterms fun s _ => Ty.length_subterms s
    _ = σ.nodes + t.nodes := by simp [Ty.allNodes_append, Ty.allNodes, nodes]

end Subst

namespace Unifier

variable {registry : Registry} {D D' : Set TyVar} {u u' : Unifier}

/-! Later states. -/

variable {a b : Ty}

/-- A session in the first state may come to the second one. -/
inductive Continues (D : Set TyVar) (u : Unifier) : Set TyVar → Unifier → Prop
  | here : Continues D u D u
  | draw {D' : Set TyVar} {u' : Unifier} (name : String) (traits : TraitSet) :
      Continues D u D' u' →
      Continues D u (insert (u'.freshVar name traits).1 D') (u'.freshVar name traits).2
  | drawId {D' : Set TyVar} {u' : Unifier} : Continues D u D' u' → Continues D u D' u'.freshId.2
  | call {D' : Set TyVar} {u' : Unifier} (registry : Registry) {a b : Ty} :
      Continues D u D' u' → a.Over D' → b.Over D' →
      Continues D u (D' ∪ ((unify registry a b).run.run u').2.subst.vars)
        ((unify registry a b).run.run u').2

theorem Continues.session (h : Continues D u D' u') (hsession : Session D u) : Session D' u' := by
  induction h with
  | here => exact hsession
  | draw name traits _ ih => exact .draw name traits ih
  | drawId _ ih => exact .drawId ih
  | call registry _ ha hb ih => exact .call registry ih ha hb

/-- A call, with either outcome, takes no binding back. -/
theorem Session.extends_call (hsession : Session D u) (ha : a.Over D) (hb : b.Over D) :
    u.subst.Extends ((unify registry a b).run.run u).2.subst := by
  have hKa := (hsession.knows ha).owns
  have hKb := (hsession.knows hb).owns
  have hrun : Unifies registry u a b _ _ := unifies_unify hKa hKb rfl
  exact (hrun.grows hKa hKb).1

theorem Continues.extends (h : Continues D u D' u') (hsession : Session D u) :
    u.subst.Extends u'.subst := by
  induction h with
  | here => exact .refl _
  | draw name traits _ ih => exact ih
  | drawId _ ih => exact ih
  | call registry hbefore ha hb ih =>
    exact ih.trans ((hbefore.session hsession).extends_call ha hb)

/-- However a session goes on: resolving in the earlier state and then in the
later one is the same as resolving in the later one, and what the later one has
resolved the earlier one leaves as it is. So resolving twice in one state is
resolving once. -/
theorem resolve_early (hsession : Session D u) (hlater : Continues D u D' u') (t : Ty) :
    u'.resolve (u.resolve t) = u'.resolve t ∧ u.resolve (u'.resolve t) = u'.resolve t ∧
      u.resolve (u.resolve t) = u.resolve t := by
  have hac := hsession.consistent.valid.acyclic
  have hac' := (hlater.session hsession).consistent.valid.acyclic
  have hext := hlater.extends hsession
  exact ⟨hext.apply_apply hac hac' t, hext.apply_resolved hac hac' t,
    (Subst.Extends.refl u.subst).apply_apply hac hac t⟩

/-- Two variables are merged. Then a call binds the merged one and fails, and the
array over it that was resolved before still becomes an array of integers. -/
theorem resolve_early_failed_call :
    let v : Ty := .var ⟨0, "a", ∅⟩
    let w : Ty := .var ⟨1, "b", ∅⟩
    let m : Ty := .var ⟨2, "a", ∅⟩
    let u : Unifier := ((unify {} v w).run.run { next := 2 }).2
    let call := unify {} (.tuple [w, .int]) (.tuple [.int, .string])
    let u' : Unifier := (call.run.run u).2
    (call.run.run u).1 = .error (.typeMismatch .int .string) ∧
      u.resolve (.array v 3) = .array m 3 ∧ u'.resolve (.array v 3) = .array .int 3 ∧
      u'.resolve (u.resolve (.array v 3)) = u'.resolve (.array v 3) := by
  intro v w m u call u'
  have hdrawn : Session _ { next := 2 } := .draw "b" ∅ (.draw "a" ∅ .start)
  have hsession : Session _ u := hdrawn.call {} (a := v) (b := w)
    (by simp [v, Ty.Over, Unifier.freshVar]) (by simp [w, Ty.Over, Unifier.freshVar])
  have hlater : Continues _ u _ u' := .call (a := .tuple [w, .int]) (b := .tuple [.int, .string]) {}
    (.here (D := (insert ⟨1, "b", ∅⟩ (insert ⟨0, "a", ∅⟩ ∅)) ∪ u.subst.vars)) ?_ ?_
  · exact ⟨by decide +kernel, by decide +kernel, by decide +kernel,
      (resolve_early hsession hlater (.array v 3)).1⟩
  · simp [w, Ty.Over, Ty.tuple, Ty.int, Ty.named, Ty.concrete]
  · simp [Ty.Over, Ty.tuple, Ty.int, Ty.string, Ty.named, Ty.concrete]

/-! Types that agree already. -/

open Runs

/-- Arguments that agree pairwise, if a call on each pair is known to change
nothing. -/
theorem unifyAll_of_agree (step : Ty → Ty → UnifyM Ty) {as bs : List Ty}
    (hstep : ∀ a ∈ as, ∀ b, u.resolve a = u.resolve b →
      ∃ c, (step a b).run.run u = (.ok c, u) ∧ u.resolve c = u.resolve a)
    (h : as.map u.resolve = bs.map u.resolve) :
    ∃ cs, (unifyAll step as bs).run.run u = (.ok cs, u) ∧ cs.map u.resolve = as.map u.resolve := by
  induction as generalizing bs with
  | nil => exact ⟨[], rfl, rfl⟩
  | cons a as ih =>
    cases bs with
    | nil => cases h
    | cons b bs =>
      rw [List.map_cons, List.map_cons] at h
      obtain ⟨hhead, htail⟩ := List.cons.inj h
      obtain ⟨c, hc, hresolve⟩ := hstep a List.mem_cons_self b hhead
      obtain ⟨cs, hcs, hresolves⟩ := ih (fun x hx => hstep x (List.mem_cons_of_mem a hx)) htail
      refine ⟨c :: cs, ?_, by rw [List.map_cons, List.map_cons, hresolve, hresolves]⟩
      rw [unifyAll, run_bind, hc]
      dsimp only
      rw [run_bind, hcs]
      rfl

/-- The induction is on the depth, which is more than the height of the common
resolved type. At the roots both types come to one variable or to one head. -/
theorem unifyWithin_of_agree (hu : u.Valid) {depth : Nat} (hdepth : (u.resolve a).height < depth)
    (h : u.resolve a = u.resolve b) :
    ∃ c, (unifyWithin registry depth a b).run.run u = (.ok c, u) ∧ u.resolve c = u.resolve a := by
  have hac := hu.acyclic
  induction depth generalizing a b with
  | zero => omega
  | succ depth ih =>
    have hroot : ∀ t, u.resolve (u.subst.deref t) = u.resolve t := Subst.apply_deref hac
    have hvar : ∀ {t v}, u.subst.deref t = .var v → u.resolve t = .var v := by
      intro t v hd
      rw [← hroot, hd]
      exact Subst.apply_unbound hac (Subst.find?_of_deref_eq_var hac hd)
    have happ : ∀ {t head args}, u.subst.deref t = .app head args →
        u.resolve t = .app head (args.map u.resolve) := by
      intro t head args hd
      rw [← hroot, hd, resolve_app hu]
    simp only [unifyWithin, run_get_bind]
    cases ha : u.subst.deref a with
    | var v =>
      rw [hvar ha] at h ⊢
      cases hb : u.subst.deref b with
      | var w =>
        rw [hvar hb] at h
        obtain rfl := Ty.var.inj h
        dsimp only
        rw [if_pos rfl]
        exact ⟨.var v, rfl, Subst.apply_unbound hac (Subst.find?_of_deref_eq_var hac ha)⟩
      | app head args =>
        rw [happ hb] at h
        cases h
    | app head as =>
      rw [happ ha] at h hdepth ⊢
      cases hb : u.subst.deref b with
      | var w =>
        rw [hvar hb] at h
        cases h
      | app head' bs =>
        rw [happ hb] at h
        obtain ⟨rfl, hargs⟩ := Ty.app.inj h
        have hlength : as.length = bs.length := by
          simpa using congrArg List.length hargs
        have hlower : ∀ x ∈ as, (u.resolve x).height < depth := by
          intro x hx
          have hle := Ty.height_le_maxHeight (List.mem_map_of_mem (f := u.resolve) hx)
          rw [Ty.height] at hdepth
          omega
        obtain ⟨cs, hcs, hresolves⟩ := unifyAll_of_agree (unifyWithin registry depth)
          (fun x hx _ hxy => ih (hlower x hx) hxy) hargs
        dsimp only
        rw [if_pos ⟨rfl, hlength⟩, run_bind, hcs]
        exact ⟨.app head cs, rfl, by rw [resolve_app hu, hresolves]⟩

theorem unify_of_agree (hu : u.Valid) (registry : Registry) (h : u.resolve a = u.resolve b) :
    ∃ c, (unify registry a b).run.run u = (.ok c, u) ∧ u.resolve c = u.resolve a := by
  simp only [unify, run_get_bind]
  apply unifyWithin_of_agree hu _ h
  have hheight : (u.resolve a).height ≤ u.subst.nodes + a.nodes :=
    Subst.height_apply_le hu.acyclic a
  rw [b.nodes_eq]
  omega

/-- In a session, with any registry, a call on two types that resolve to the same
succeeds and leaves the state as it is, and its result resolves to the same too.
In particular this holds of a type with itself, and of every call that succeeded,
when it is repeated in any later state. -/
theorem unify_agreeing_noop (hsession : Session D u) (registry : Registry) :
    (∀ a b : Ty, u.resolve a = u.resolve b →
      ∃ c, (unify registry a b).run.run u = (.ok c, u) ∧ u.resolve c = u.resolve a) ∧
    (∀ a : Ty, ∃ c, (unify registry a a).run.run u = (.ok c, u) ∧ u.resolve c = u.resolve a) ∧
    ∀ a b : Ty, a.Over D → b.Over D →
      ∀ registry' c u', (unify registry' a b).run.run u = (.ok c, u') →
        ∀ D'' u'', Continues (D ∪ u'.subst.vars) u' D'' u'' →
          ∃ c', (unify registry a b).run.run u'' = (.ok c', u'') ∧
            u''.resolve c' = u''.resolve c := by
  have hu := hsession.consistent.valid
  refine ⟨fun a b h => unify_of_agree hu registry h, fun a => unify_of_agree hu registry rfl, ?_⟩
  intro a b ha hb registry' c u' h D'' u'' hlater
  have hKa := hsession.knows ha
  have hKb := hsession.knows hb
  have hagree := (unifies_unify hKa.owns hKb.owns h).agree hKa hKb rfl
  have hsession' : Session (D ∪ u'.subst.vars) u' := by
    have hcall := hsession.call registry' ha hb
    rwa [h] at hcall
  have hu' := hsession'.consistent.valid
  have hu'' := (hlater.session hsession').consistent.valid
  have hlate := hagree.extend (hlater.extends hsession') hu' hu''
  obtain ⟨c', hc', hresolve⟩ :=
    unify_of_agree hu'' registry (hlate.left.trans hlate.right.symm)
  exact ⟨c', hc', hresolve.trans hlate.left⟩

/-- A call merges two variables and binds the merged one. Made again, with no
evidence at all, it finds all settled. -/
theorem unify_agreeing_noop_repeated :
    let v : Ty := .var ⟨0, "a", .singleton "Num"⟩
    let w : Ty := .var ⟨1, "b", ∅⟩
    let registry : Registry := { evidence := ⟨[((.named "Int", "Num"), .intrinsic "Num" "Int")]⟩ }
    let call := unify registry (.tuple [v, v]) (.tuple [w, .int])
    ∃ c u', call.run.run { next := 2 } = (.ok c, u') ∧ u'.subst.size = 3 ∧
      ∃ c', (unify {} (.tuple [v, v]) (.tuple [w, .int])).run.run u' = (.ok c', u') ∧
        u'.resolve c' = u'.resolve c := by
  intro v w registry call
  have hsession : Session _ { next := 2 } := .draw "b" ∅ (.draw "a" (.singleton "Num") .start)
  refine ⟨_, _, rfl, rfl,
    (unify_agreeing_noop hsession {}).2.2 _ _ ?_ ?_ registry _ _ rfl _ _ .here⟩
  · simp [v, Ty.Over, Ty.tuple, Ty.concrete, Unifier.freshVar]
  · simp [w, Ty.Over, Ty.tuple, Ty.int, Ty.named, Ty.concrete, Unifier.freshVar]

end Unifier

end TraitCheck
