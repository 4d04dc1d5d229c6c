import TraitCheck.Proofs.Completeness

/-!
No trait bound is lost. Bounds are looked at only when a variable is bound, and
by the constructor alone. What a variable stands for has its traits all the same
(`Bounded`): a merged variable has the traits of both, a variable is bound only
to a type with evidence for all its traits, and evidence is never taken back. So
one step of unification keeps this, and with it every run of calls, whether they
succeed or fail, between which evidence is provided.
-/

namespace TraitCheck

namespace Registry

variable {registry registry' : Registry}
variable {evidence : Evidence} {bound : Trait}

/-- Evidence is never taken back. -/
theorem isSome_lookup_provide {ty : Ty} (h : registry.provide ty bound evidence = .ok registry')
    {con : Con} {other : Trait} (hsome : (registry.lookup con other).isSome = true) :
    (registry'.lookup con other).isSome = true := by
  cases ty with
  | var v => cases h
  | app head args =>
    rw [provide] at h
    split at h
    · cases h
    · cases h
      rw [lookup, Assoc.find?_insert]
      split
      · rfl
      · exact hsome

theorem Fits.provide {ty : Ty} {traits : TraitSet} {t : Ty}
    (hprovide : registry.provide ty bound evidence = .ok registry') (h : registry.Fits traits t) :
    registry'.Fits traits t := by
  cases t with
  | var w => exact h
  | app head args => exact fun b hb => isSome_lookup_provide hprovide (h b hb)

end Registry

namespace Unifier

variable {registry registry' : Registry} {D : Set TyVar} {u u' : Unifier}

/-- At the root a type stands for the same as everywhere in it. -/
theorem fits_deref (hu : u.Valid) {traits : TraitSet} {t : Ty}
    (h : registry.Fits traits (u.resolve t)) : registry.Fits traits (u.subst.deref t) := by
  rw [resolve, ← Subst.apply_deref hu.acyclic] at h
  cases hroot : u.subst.deref t with
  | var w =>
    rw [hroot, Subst.apply_unbound hu.acyclic (Subst.find?_of_deref_eq_var hu.acyclic hroot)] at h
    exact h
  | app head args =>
    rw [hroot, Subst.apply_app hu.acyclic] at h
    exact h

/-- Known variables are the only ones that are bound, and stand for types with
their traits. -/
structure Bounded (registry : Registry) (D : Set TyVar) (u : Unifier) : Prop where
  keys : ∀ id t, u.subst.find? id = some t → ∃ v ∈ u.known D, v.id = id
  fits : ∀ v ∈ u.known D, registry.Fits v.traits (u.resolve (.var v))

theorem Bounded.empty (registry : Registry) (next : Nat) : Bounded registry ∅ { next } := by
  refine ⟨by nofun, ?_⟩
  rintro v (⟨⟨⟩⟩ | ⟨id, t, hfind, _⟩)
  cases hfind

/-- A variable is bound by a step only if it is known. -/
theorem Step.keys (hs : Step registry (Knows D) u u') {id : VarId} {t : Ty}
    (hfind : u'.subst.find? id = some t) :
    (∃ s, u.subst.find? id = some s) ∨ ∃ v ∈ u.known D, v.id = id := by
  cases hs with
  | @merge v w hv hw =>
    rw [find?_merge (hv.lt_next hv.var_mem) (hw.lt_next hw.var_mem)] at hfind
    split at hfind
    · rename_i hid
      rcases hid with rfl | rfl
      · exact .inr ⟨w, hw.var_mem, rfl⟩
      · exact .inr ⟨v, hv.var_mem, rfl⟩
    · exact .inl ⟨t, hfind⟩
  | @bind v head args hv ht hfv hself hev =>
    rw [assign, Subst.find?_insert hself] at hfind
    split at hfind
    · rename_i hid
      exact .inr ⟨v, hv.var_mem, hid.symm⟩
    · exact .inl ⟨t, hfind⟩

theorem Bounded.step (h : Bounded registry D u) (hu : Consistent D u)
    (hs : Step registry (Knows D) u u') : Bounded registry D u' := by
  refine ⟨?_, ?_⟩
  · intro id t hfind
    rcases hs.keys hfind with ⟨s, hbound⟩ | ⟨v, hv, hid⟩
    · obtain ⟨v, hv, hid⟩ := h.keys id s hbound
      exact ⟨v, hs.known_mono hv, hid⟩
    · exact ⟨v, hs.known_mono hv, hid⟩
  · intro v hv
    obtain ⟨m, hm, hnew⟩ := hs.known_subset
    rcases hnew hv with rfl | hold
    · exact hs.fits_resolve hu hv (hu.valid.find?_next (Nat.le_of_eq hm.symm))
    · have hknows : Knows D u (.var v) := ⟨hu, fun _ hw => Ty.mem_vars_var.mp hw ▸ hold⟩
      exact hs.fits_later hknows (h.fits v hold)

theorem Bounded.steps (h : Bounded registry D u) (hu : Consistent D u)
    (hs : Steps registry (Knows D) u u') : Bounded registry D u' := by
  induction hs with
  | refl => exact h
  | tail hsteps hs ih => exact ih.step (hu.steps hsteps) hs

theorem Bounded.provide {ty : Ty} {bound : Trait} {evidence : Evidence}
    (h : Bounded registry D u) (hprovide : registry.provide ty bound evidence = .ok registry') :
    Bounded registry' D u :=
  ⟨h.keys, fun v hv => (h.fits v hv).provide hprovide⟩

/-- A variable that nothing is known of yet stands for itself. -/
theorem Bounded.draw (h : Bounded registry D u) (hu : Consistent D u) {v : TyVar}
    (hv : u.next ≤ v.id) : Bounded registry (insert v D) { u with next := v.id + 1 } := by
  refine ⟨?_, ?_⟩
  · intro id t hfind
    obtain ⟨w, hw, hid⟩ := h.keys id t hfind
    exact ⟨w, hw.imp_left (Set.mem_insert_of_mem v), hid⟩
  · rintro w ((rfl | hw) | hw)
    · rw [resolve, Subst.apply_unbound hu.valid.acyclic (hu.valid.find?_next hv)]
      exact fun _ hb => hb
    · exact h.fits w (.inl hw)
    · exact h.fits w (.inr hw)

/-- A unifier and a registry in use. Variables are drawn at any time, types over
drawn variables are unified with any outcome, and evidence is provided. -/
inductive Use : Set TyVar → Unifier → Registry → Prop
  | start (registry : Registry) : Use ∅ {} registry
  | draw {D : Set TyVar} {u : Unifier} {registry : Registry} (name : String) (traits : TraitSet) :
      Use D u registry →
      Use (insert (u.freshVar name traits).1 D) (u.freshVar name traits).2 registry
  | drawId {D : Set TyVar} {u : Unifier} {registry : Registry} :
      Use D u registry → Use D u.freshId.2 registry
  | call {D : Set TyVar} {u : Unifier} {registry : Registry} {a b : Ty} : Use D u registry →
      a.Over D → b.Over D →
      Use (D ∪ ((unify registry a b).run.run u).2.subst.vars)
        ((unify registry a b).run.run u).2 registry
  | provide {D : Set TyVar} {u : Unifier} {registry registry' : Registry} {ty : Ty}
      {bound : Trait} {evidence : Evidence} : Use D u registry →
      registry.provide ty bound evidence = .ok registry' → Use D u registry'

theorem Use.session (h : Use D u registry) : Session D u := by
  induction h with
  | start registry => exact .start
  | draw name traits _ ih => exact .draw name traits ih
  | drawId _ ih => exact .drawId ih
  | call _ ha hb ih => exact .call _ ih ha hb
  | provide _ _ ih => exact ih

theorem Use.bounded (h : Use D u registry) : Bounded registry D u := by
  induction h with
  | start registry => exact .empty registry 0
  | draw name traits huse ih => exact ih.draw huse.session.consistent (le_refl _)
  | drawId _ ih => exact ⟨ih.keys, ih.fits⟩
  | @call D u registry a b huse ha hb ih =>
    have hsession := huse.session
    have hKa := hsession.knows ha
    have hKb := hsession.knows hb
    have hrun : Unifies registry u a b _ _ := unifies_unify hKa.owns hKb.owns rfl
    have hafter := ih.steps hsession.consistent (hrun.steps (closed_knows registry D) hKa hKb)
    have hknown : Unifier.known (D ∪ _) _ = Unifier.known D ((unify registry a b).run.run u).2 :=
      Set.union_eq_self_of_subset_right Set.subset_union_right
    exact ⟨hknown ▸ hafter.keys, hknown ▸ hafter.fits⟩
  | provide _ hprovide ih => exact ih.provide hprovide

/-- However calls and evidence are interleaved, only drawn variables are bound,
and each of them leads to a compound type with evidence for all its traits, or
to an unbound variable that has all its traits. -/
theorem deref_keeps_bounds (h : Use D u registry) :
    (∀ id t, u.subst.find? id = some t → ∃ v ∈ D, v.id = id) ∧ ∀ v ∈ D,
      (∀ head args, u.subst.deref (.var v) = .app head args →
        ∀ bound ∈ v.traits, (registry.lookup head.con bound).isSome = true) ∧
      (∀ w, u.subst.deref (.var v) = .var w → u.subst.find? w.id = none ∧ w ∈ D ∧
        ∀ bound ∈ v.traits, bound ∈ w.traits) := by
  have hsession := h.session
  have hvalid := hsession.consistent.valid
  have hbounded := h.bounded
  have hknown := hsession.known_eq
  refine ⟨hknown ▸ hbounded.keys, ?_⟩
  intro v hv
  have hfits := fits_deref hvalid (hbounded.fits v (.inl hv))
  refine ⟨?_, ?_⟩
  · intro head args hroot
    rw [hroot] at hfits
    exact hfits
  · intro w hroot
    rw [hroot] at hfits
    have hknows := hsession.knows (t := .var v) fun _ hx => Ty.mem_vars_var.mp hx ▸ hv
    have hw := (hknows.deref hroot).var_mem
    exact ⟨Subst.find?_of_deref_eq_var hvalid.acyclic hroot, hknown ▸ hw, hfits⟩

/-- Two variables are merged and the second is bound. Then the first stands for
the same type, which has evidence for its trait. -/
theorem deref_keeps_bounds_merged :
    let a : TyVar := ⟨0, "a", .singleton "Num"⟩
    let b : TyVar := ⟨1, "b", .singleton "Eq"⟩
    ∃ D u registry, Use D u registry ∧ a ∈ D ∧ b ∈ D ∧ u.subst.deref (.var a) = .int ∧
      ∀ bound ∈ a.traits, (registry.lookup (.named "Int") bound).isSome = true := by
  intro a b
  have hdrawn : Use (insert b (insert a ∅)) { next := 2 } {} :=
    .draw "b" b.traits (.draw "a" a.traits (.start {}))
  have hnum := hdrawn.provide
    (rfl : Registry.provide {} .int "Num" (.intrinsic "Num" "Int") = .ok _)
  have heq := hnum.provide (rfl : Registry.provide _ .int "Eq" (.intrinsic "Eq" "Int") = .ok _)
  have hmerged := heq.call (a := .var a) (b := .var b) (by simp [Ty.Over, Ty.vars])
    (by simp [Ty.Over, Ty.vars])
  have hbound := hmerged.call (a := .var b) (b := .int) (by simp [Ty.Over, Ty.vars])
    (by simp [Ty.Over, Ty.vars, Ty.allVars, Ty.int, Ty.named, Ty.concrete])
  have ha : a ∈ insert b (insert a ∅) := Set.mem_insert_of_mem b (Set.mem_insert a ∅)
  have hb : b ∈ insert b (insert a ∅) := Set.mem_insert b _
  exact ⟨_, _, _, hbound, .inl (.inl ha), .inl (.inl hb), rfl,
    ((deref_keeps_bounds hbound).2 a (.inl (.inl ha))).1 _ _ rfl⟩

end Unifier

end TraitCheck
