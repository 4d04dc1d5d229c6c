import Mathlib.Data.Set.Insert
import TraitCheck.Proofs.Termination

/-!
Unification is sound. All variables come from one supply, so two with the same
id are the same variable (`Session`). What a call returns, and both types that
it was given, then resolve to one type in the state after the call. The
induction is over the derivation of the call. Between two arguments the state
grows, and what was equal stays equal, because resolving by the earlier
bindings first makes no difference.
-/

namespace TraitCheck

variable {σ : Subst}

/-- The variables in the bindings. -/
def Subst.vars (σ : Subst) : Set TyVar := {v | ∃ id t, σ.find? id = some t ∧ v ∈ t.vars}

/-- All variables of the type are among the given ones. -/
def Ty.Over (D : Set TyVar) (t : Ty) : Prop := ∀ v ∈ t.vars, v ∈ D

theorem Subst.Extends.vars_subset {τ : Subst} (h : σ.Extends τ) : σ.vars ⊆ τ.vars := by
  rintro v ⟨id, t, hfind, hv⟩
  exact ⟨id, t, h id t hfind, hv⟩

theorem Subst.vars_insert {id : VarId} {t : Ty} (hself : ¬t.mentions id = true) :
    (σ.insert id t).vars ⊆ σ.vars ∪ {v | v ∈ t.vars} := by
  rintro v ⟨x, s, hfind, hv⟩
  rw [find?_insert hself] at hfind
  split at hfind
  · cases hfind
    exact .inr hv
  · exact .inl ⟨x, s, hfind, hv⟩

theorem Subst.vars_apply (h : σ.Acyclic) (t : Ty) :
    {v | v ∈ (σ.apply t).vars} ⊆ {v | v ∈ t.vars} ∪ σ.vars := by
  intro v hv
  rcases mem_vars_apply h hv with hv | ⟨id, s, hfind, hv⟩
  · exact .inl hv
  · exact .inr ⟨id, s, hfind, hv⟩

namespace Unifier

variable {registry : Registry} {D : Set TyVar} {u u' : Unifier}
variable {v w : TyVar} {t : Ty}

/-- The variables drawn by others and those in the bindings. -/
def known (D : Set TyVar) (u : Unifier) : Set TyVar := D ∪ u.subst.vars

/-- Two known variables with the same id are the same. -/
structure Consistent (D : Set TyVar) (u : Unifier) : Prop where
  valid : u.Valid
  lt : ∀ v ∈ D, v.id < u.next
  unique : ∀ v ∈ u.known D, ∀ w ∈ u.known D, v.id = w.id → v = w

theorem Consistent.lt_next (h : Consistent D u) (hv : v ∈ u.known D) : v.id < u.next := by
  rcases hv with hv | ⟨id, s, hfind, hv⟩
  · exact h.lt v hv
  · exact h.valid.vars_lt id s hfind v.id (Ty.mentions_of_mem_vars hv)

/-- The type is over known variables, and these are consistent. -/
structure Knows (D : Set TyVar) (u : Unifier) (t : Ty) : Prop extends Consistent D u where
  known_vars : t.Over (u.known D)

namespace Knows

variable {t : Ty}

theorem owns (h : Knows D u t) : u.Owns t := by
  refine ⟨h.valid, ?_⟩
  intro w hw
  obtain ⟨v, hv, rfl⟩ := Ty.mentions_iff.mp hw
  exact h.lt_next (h.known_vars v hv)

theorem deref {s : Ty} (h : Knows D u t) (hs : u.subst.deref t = s) : Knows D u s := by
  refine ⟨h.toConsistent, ?_⟩
  intro v hv
  subst hs
  rcases Subst.mem_vars_deref h.valid.acyclic hv with hv | ⟨id, s, hfind, hv⟩
  · exact h.known_vars v hv
  · exact .inr ⟨id, s, hfind, hv⟩

theorem arg {head : Head} {args : List Ty} (h : Knows D u (.app head args)) (ht : t ∈ args) :
    Knows D u t :=
  ⟨h.toConsistent, fun v hv => h.known_vars v (Ty.mem_vars_app.mpr ⟨t, ht, hv⟩)⟩

theorem resolve (h : Knows D u t) : Knows D u (u.resolve t) := by
  refine ⟨h.toConsistent, ?_⟩
  intro v hv
  rcases Subst.vars_apply h.valid.acyclic t hv with hv | hv
  · exact h.known_vars v hv
  · exact .inr hv

theorem var_mem (h : Knows D u (.var v)) : v ∈ u.known D :=
  h.known_vars v (Ty.mem_vars_var.mpr rfl)

end Knows

/-- A merge makes the merged variable known, and no other. -/
theorem known_merge (hv : Knows D u (.var v)) (hw : Knows D u (.var w))
    (hfv : u.subst.find? v.id = none) (hfw : u.subst.find? w.id = none) (hne : v.id ≠ w.id) :
    (u.merge v w).2.known D ⊆ insert (u.mergedVar v w) (u.known D) := by
  have hlv := hv.lt_next hv.var_mem
  have hlw := hw.lt_next hw.var_mem
  have hadm := admits_merged (w := w) hv.valid hlv hfv
  have hadm' := admits_merged_snd hv.valid hlv hlw hfv hfw hne
  rintro x (hx | hx)
  · exact .inr (.inl hx)
  · rcases Subst.vars_insert hadm'.not_self hx with hx | hx
    · rcases Subst.vars_insert hadm.not_self hx with hx | hx
      · exact .inr (.inr hx)
      · exact .inl (Ty.mem_vars_var.mp hx)
    · exact .inl (Ty.mem_vars_var.mp hx)

/-- Binding a variable to a resolved type makes no variable known. -/
theorem known_assign {id : VarId} (ht : Knows D u t) (hself : ¬(u.resolve t).mentions id = true) :
    (u.assign id (u.resolve t)).known D ⊆ u.known D := by
  rintro x (hx | hx)
  · exact .inl hx
  · rcases Subst.vars_insert hself hx with hx | hx
    · exact .inr hx
    · exact ht.resolve.known_vars x hx

theorem Step.known_subset (h : Step registry (Knows D) u u') :
    ∃ m : TyVar, m.id = u.next ∧ u'.known D ⊆ insert m (u.known D) := by
  cases h with
  | @merge v w hv hw hfv hfw hne => exact ⟨u.mergedVar v w, rfl, known_merge hv hw hfv hfw hne⟩
  | bind hv ht hfv hself hev =>
    exact ⟨⟨u.next, "", ∅⟩, rfl, (known_assign ht hself).trans (Set.subset_insert _ _)⟩

theorem Step.known_mono (h : Step registry (Knows D) u u') : u.known D ⊆ u'.known D :=
  Set.union_subset_union_right D (h.mono fun _ _ h => h.owns).extends.vars_subset

/-- A variable with the next id can become known: no known variable has it. -/
theorem Consistent.grow {D' : Set TyVar} (hu : Consistent D u) (hvalid : u'.Valid)
    (hlt : ∀ v ∈ D', v.id < u'.next) {m : TyVar} (hm : m.id = u.next)
    (hnew : u'.known D' ⊆ insert m (u.known D)) : Consistent D' u' := by
  have hfresh : ∀ {z}, z ∈ u.known D → z.id ≠ m.id :=
    fun hz => hm ▸ Nat.ne_of_lt (hu.lt_next hz)
  refine ⟨hvalid, hlt, ?_⟩
  intro x hx y hy heq
  rcases hnew hx with rfl | hx
  · rcases hnew hy with rfl | hy
    · rfl
    · exact absurd heq.symm (hfresh hy)
  · rcases hnew hy with rfl | hy
    · exact absurd heq (hfresh hx)
    · exact hu.unique x hx y hy heq

theorem Consistent.step (hu : Consistent D u) (hs : Step registry (Knows D) u u') :
    Consistent D u' := by
  obtain ⟨m, hm, hnew⟩ := hs.known_subset
  apply hu.grow (hs.mono fun _ _ h => h.owns).valid _ hm hnew
  intro v hv
  exact lt_of_lt_of_le (hu.lt v hv) hs.next_le

theorem closed_knows (registry : Registry) (D : Set TyVar) : Closed registry (Knows D) where
  owns := Knows.owns
  deref := Knows.deref
  arg := Knows.arg
  step := fun hs ht => ⟨ht.toConsistent.step hs, fun v hv => hs.known_mono (ht.known_vars v hv)⟩

theorem Consistent.steps (hu : Consistent D u) (hs : Steps registry (Knows D) u u') :
    Consistent D u' := by
  induction hs with
  | refl => exact hu
  | tail _ hs ih => exact ih.step hs

/-! Resolving in a later state. -/

theorem resolve_deref (hext : u.subst.Extends u'.subst) (hu : u.Valid) (hu' : u'.Valid)
    (t : Ty) : u'.resolve (u.subst.deref t) = u'.resolve t := by
  calc u'.resolve (u.subst.deref t) = u'.resolve (u.resolve (u.subst.deref t)) :=
        (hext.apply_apply hu.acyclic hu'.acyclic _).symm
    _ = u'.resolve (u.resolve t) := by rw [resolve, resolve, Subst.apply_deref hu.acyclic]; rfl
    _ = u'.resolve t := hext.apply_apply hu.acyclic hu'.acyclic t

theorem resolve_app (hu : u.Valid) (head : Head) (args : List Ty) :
    u.resolve (.app head args) = .app head (args.map u.resolve) :=
  Subst.apply_app hu.acyclic head args

/-- Equal in one state, equal in every later one. -/
theorem resolve_eq_of_extends (hext : u.subst.Extends u'.subst) (hu : u.Valid) (hu' : u'.Valid)
    {s : Ty} (h : u.resolve s = u.resolve t) : u'.resolve s = u'.resolve t := by
  calc u'.resolve s = u'.resolve (u.resolve s) :=
        (hext.apply_apply hu.acyclic hu'.acyclic s).symm
    _ = u'.resolve (u.resolve t) := by rw [h]
    _ = u'.resolve t := hext.apply_apply hu.acyclic hu'.acyclic t

/-- After a merge both variables resolve to the merged one. -/
theorem resolve_merge (hu : u.Valid) (hv : v.id < u.next) (hw : w.id < u.next)
    (hfv : u.subst.find? v.id = none) (hfw : u.subst.find? w.id = none) (hne : v.id ≠ w.id) :
    (u.merge v w).2.resolve (.var v) = (u.merge v w).2.resolve (.var (u.mergedVar v w)) ∧
      (u.merge v w).2.resolve (.var w) = (u.merge v w).2.resolve (.var (u.mergedVar v w)) := by
  have hadm := admits_merged (w := w) hu hv hfv
  have hac := (hu.acyclic.insert hadm).insert (admits_merged_snd hu hv hw hfv hfw hne)
  constructor
  · apply Subst.apply_bound hac
    exact (find?_merge hv hw v.id).trans (if_pos (.inr rfl))
  · apply Subst.apply_bound hac
    exact (find?_merge hv hw w.id).trans (if_pos (.inl rfl))

/-- After a variable is bound to what a type resolves to, the two and that
resolve to the same. -/
theorem resolve_assign (ht : u.Owns t) (hfv : u.subst.find? v.id = none)
    (hself : ¬(u.resolve t).mentions v.id = true) : (u.assign v.id (u.resolve t)).resolve (.var v) =
        (u.assign v.id (u.resolve t)).resolve (u.resolve t) ∧
      (u.assign v.id (u.resolve t)).resolve t =
        (u.assign v.id (u.resolve t)).resolve (u.resolve t) := by
  have hadm := ht.admits_resolve hfv hself
  have hac := ht.valid.acyclic.insert hadm
  constructor
  · apply Subst.apply_bound hac
    rw [Subst.find?_insert hself, if_pos rfl]
  · exact (hadm.extends.apply_apply ht.valid.acyclic hac t).symm

/-! Soundness of derivations. -/

variable {a b c : Ty} {as bs : List Ty} {r : Except Failure Ty}

/-- The two types and the result resolve to the same. -/
structure Agree (u : Unifier) (a b c : Ty) : Prop where
  left : u.resolve a = u.resolve c
  right : u.resolve b = u.resolve c

theorem Agree.of_deref (hext : u.subst.Extends u'.subst) (hu : u.Valid) (hu' : u'.Valid)
    (h : u'.Agree (u.subst.deref a) (u.subst.deref b) c) : u'.Agree a b c := by
  obtain ⟨hleft, hright⟩ := h
  rw [resolve_deref hext hu hu'] at hleft hright
  exact ⟨hleft, hright⟩

theorem Agree.extend (hext : u.subst.Extends u'.subst) (hu : u.Valid) (hu' : u'.Valid)
    (h : u.Agree a b c) : u'.Agree a b c :=
  ⟨resolve_eq_of_extends hext hu hu' h.left, resolve_eq_of_extends hext hu hu' h.right⟩

/-- The same for two lists and the list of results. -/
def AgreeAll (u : Unifier) (as bs cs : List Ty) : Prop :=
  as.map u.resolve = cs.map u.resolve ∧ bs.map u.resolve = cs.map u.resolve

theorem AgreeAll.app (hu : u.Valid) {head : Head} {as bs cs : List Ty} (h : u.AgreeAll as bs cs) :
    u.Agree (.app head as) (.app head bs) (.app head cs) := by
  constructor
  · rw [resolve_app hu, resolve_app hu, h.1]
  · rw [resolve_app hu, resolve_app hu, h.2]

theorem Agree.cons {cs : List Ty} (h : u.Agree a b c) (hrest : u.AgreeAll as bs cs) :
    u.AgreeAll (a :: as) (b :: bs) (c :: cs) := by
  constructor
  · rw [List.map_cons, List.map_cons, h.left, hrest.1]
  · rw [List.map_cons, List.map_cons, h.right, hrest.2]

/-- What a run does to the state, as far as later runs see it. -/
theorem Unifies.grows (h : Unifies registry u a b r u') (ha : u.Owns a) (hb : u.Owns b) :
    u.subst.Extends u'.subst ∧ u'.Valid := by
  have hsteps := h.steps (closed_owns registry) ha hb
  exact ⟨hsteps.extends, hsteps.valid ha.valid⟩

theorem UnifiesAll.grows {r : Except Failure (List Ty)} (h : UnifiesAll registry u as bs r u')
    (hu : u.Valid) (has : ∀ t ∈ as, u.Owns t) (hbs : ∀ t ∈ bs, u.Owns t) :
    u.subst.Extends u'.subst ∧ u'.Valid := by
  have hsteps := h.steps (closed_owns registry) has hbs
  exact ⟨hsteps.extends, hsteps.valid hu⟩

theorem Binds.agree {head : Head} {args : List Ty} (h : Binds registry u v head args r u')
    (hr : r = .ok c) (ht : u.Owns (.app head args)) (hfv : u.subst.find? v.id = none) :
    u'.Agree (.var v) (.app head args) c := by
  cases h with
  | infinite => cases hr
  | missing => cases hr
  | bound hself hev =>
    cases hr
    obtain ⟨hleft, hright⟩ := resolve_assign ht hfv hself
    exact ⟨hleft, hright⟩

mutual

theorem Unifies.agree : ∀ {u u' : Unifier} {a b : Ty} {r : Except Failure Ty} {c : Ty},
    Unifies registry u a b r u' → Knows D u a → Knows D u b → r = .ok c → u'.Agree a b c
  | u, _, a, b, _, _, .same (v := v) (w := w) ha hb heq, hKa, hKb, hr => by
    cases hr
    have hac := hKa.valid.acyclic
    have hKv := hKa.deref ha
    have hKw := hKb.deref hb
    have hvw := hKa.unique v hKv.var_mem w hKw.var_mem heq
    apply Agree.of_deref (.refl _) hKa.valid hKa.valid
    rw [ha, hb, hvw]
    exact ⟨rfl, rfl⟩
  | u, _, a, b, _, _, .merged (v := v) (w := w) ha hb hne, hKa, hKb, hr => by
    have hgrows := (Unifies.merged ha hb hne : Unifies registry u a b _ _).grows
      hKa.owns hKb.owns
    cases hr
    have hac := hKa.valid.acyclic
    have hKv := hKa.deref ha
    have hKw := hKb.deref hb
    obtain ⟨hleft, hright⟩ := resolve_merge hKa.valid (hKv.lt_next hKv.var_mem)
      (hKw.lt_next hKw.var_mem) (Subst.find?_of_deref_eq_var hac ha)
      (Subst.find?_of_deref_eq_var hac hb) hne
    apply Agree.of_deref hgrows.1 hKa.valid hgrows.2
    rw [ha, hb]
    exact ⟨hleft, hright⟩
  | u, u', a, b, _, _, .left ha hb hbind, hKa, hKb, hr => by
    have hgrows := (Unifies.left ha hb hbind).grows hKa.owns hKb.owns
    apply Agree.of_deref hgrows.1 hKa.valid hgrows.2
    rw [ha, hb]
    exact hbind.agree hr (hKb.deref hb).owns
      (Subst.find?_of_deref_eq_var hKa.valid.acyclic ha)
  | u, u', a, b, _, _, .right ha hb hbind, hKa, hKb, hr => by
    have hgrows := (Unifies.right ha hb hbind).grows hKa.owns hKb.owns
    apply Agree.of_deref hgrows.1 hKa.valid hgrows.2
    rw [ha, hb]
    have hagree := hbind.agree hr (hKa.deref ha).owns
      (Subst.find?_of_deref_eq_var hKa.valid.acyclic hb)
    exact ⟨hagree.right, hagree.left⟩
  | _, _, _, _, _, _, .clash _ _ _, _, _, hr => by cases hr
  | u, u', a, b, _, c, .args (r := r) ha hb hlen hall, hKa, hKb, hr => by
    have hgrows := (Unifies.args ha hb hlen hall).grows hKa.owns hKb.owns
    have hargs : ∀ {cs}, r = .ok cs → u'.AgreeAll _ _ cs := fun hcs =>
      hall.agree (fun t ht => (hKa.deref ha).arg ht) (fun _ ht => (hKb.deref hb).arg ht) hcs
    cases r with
    | error failure => cases hr
    | ok cs =>
      cases hr
      apply Agree.of_deref hgrows.1 hKa.valid hgrows.2
      rw [ha, hb]
      exact (hargs rfl).app hgrows.2

theorem UnifiesAll.agree : ∀ {u u' : Unifier} {as bs : List Ty}
    {r : Except Failure (List Ty)} {cs : List Ty}, UnifiesAll registry u as bs r u' →
      (∀ t ∈ as, Knows D u t) → (∀ t ∈ bs, Knows D u t) → r = .ok cs → u'.AgreeAll as bs cs
  | _, _, _, _, _, _, .nil, _, _, hr => by
    cases hr
    exact ⟨rfl, rfl⟩
  | _, _, _, _, _, _, .stop _, _, _, hr => by cases hr
  | u, u', _, _, _, _, .cons (r := r) h hall, hKas, hKbs, hr => by
    have hKa := hKas _ List.mem_cons_self
    have hKb := hKbs _ List.mem_cons_self
    have hclosed := closed_knows registry D
    have hsteps := h.steps hclosed hKa hKb
    have hKas' := fun t ht => hclosed.steps hsteps (hKas t (List.mem_cons_of_mem _ ht))
    have hKbs' := fun t ht => hclosed.steps hsteps (hKbs t (List.mem_cons_of_mem _ ht))
    have hfirst := h.grows hKa.owns hKb.owns
    have hrest := hall.grows hfirst.2 (fun t ht => (hKas' t ht).owns)
      (fun t ht => (hKbs' t ht).owns)
    have hhead := (h.agree hKa hKb rfl).extend hrest.1 hfirst.2 hrest.2
    have htail : ∀ {cs}, r = .ok cs → u'.AgreeAll _ _ cs := fun hcs => hall.agree hKas' hKbs' hcs
    cases r with
    | error failure => cases hr
    | ok cs =>
      cases hr
      exact hhead.cons (htail rfl)

end

/-! Sessions. -/

/-- A unifier in use, with all variables that were drawn so far. Its supply is
shared, so others draw from it at any time. A call is made on types over drawn
variables, and the variables that it merges others into are then drawn too. -/
inductive Session : Set TyVar → Unifier → Prop
  | start : Session ∅ {}
  | draw {D : Set TyVar} {u : Unifier} (name : String) (traits : TraitSet) : Session D u →
      Session (insert (u.freshVar name traits).1 D) (u.freshVar name traits).2
  | drawId {D : Set TyVar} {u : Unifier} : Session D u → Session D u.freshId.2
  | call {D : Set TyVar} {u : Unifier} (registry : Registry) {a b : Ty} : Session D u →
      a.Over D → b.Over D →
      Session (D ∪ ((unify registry a b).run.run u).2.subst.vars)
        ((unify registry a b).run.run u).2

namespace Session

/-- In a session the bindings are over drawn variables only. -/
theorem vars_subset (h : Session D u) : u.subst.vars ⊆ D := by
  induction h with
  | start =>
    rintro v ⟨id, t, hfind, hv⟩
    cases hfind
  | draw name traits _ ih => exact ih.trans (Set.subset_insert _ _)
  | drawId _ ih => exact ih
  | call registry _ _ _ ih => exact Set.subset_union_right

theorem known_eq (h : Session D u) : u.known D = D :=
  Set.union_eq_self_of_subset_right h.vars_subset

theorem consistent (h : Session D u) : Consistent D u := by
  induction h with
  | start =>
    refine ⟨valid_empty 0, ?_, ?_⟩
    · rintro v ⟨⟩
    · rintro v (⟨⟨⟩⟩ | ⟨id, t, hfind, hv⟩)
      cases hfind
  | @draw D u name traits _ ih =>
    apply ih.grow (m := (u.freshVar name traits).1) ih.valid.draw _ rfl
    · rintro v ((rfl | hv) | hv)
      · exact .inl rfl
      · exact .inr (.inl hv)
      · exact .inr (.inr hv)
    · rintro v (rfl | hv)
      · exact Nat.lt_succ_self u.next
      · exact Nat.lt_succ_of_lt (ih.lt v hv)
  | drawId _ ih => exact ⟨ih.valid.draw, fun v hv => Nat.lt_succ_of_lt (ih.lt v hv), ih.unique⟩
  | @call D u registry a b hsession ha hb ih =>
    have hKa : Knows D u a := ⟨ih, fun v hv => .inl (ha v hv)⟩
    have hKb : Knows D u b := ⟨ih, fun v hv => .inl (hb v hv)⟩
    have hrun : Unifies registry u a b _ _ := unifies_unify hKa.owns hKb.owns rfl
    have hafter := ih.steps (hrun.steps (closed_knows registry D) hKa hKb)
    have hknown : Unifier.known (D ∪ _) _ = Unifier.known D ((unify registry a b).run.run u).2 :=
      Set.union_eq_self_of_subset_right Set.subset_union_right
    refine ⟨hafter.valid, fun _ hv => hafter.lt_next hv, ?_⟩
    rw [hknown]
    exact hafter.unique

theorem knows (h : Session D u) (ht : t.Over D) : Knows D u t :=
  ⟨h.consistent, fun v hv => .inl (ht v hv)⟩

end Session

/-- If a call in a session returns a type, then both types that it was given
resolve to what that type resolves to. -/
theorem unify_agree (hsession : Session D u) {a b c : Ty} (ha : a.Over D) (hb : b.Over D)
    (h : (unify registry a b).run.run u = (.ok c, u')) :
    u'.resolve a = u'.resolve b ∧ u'.resolve b = u'.resolve c := by
  have hKa := hsession.knows ha
  have hKb := hsession.knows hb
  have hagree := (unifies_unify hKa.owns hKb.owns h).agree hKa hKb rfl
  exact ⟨hagree.left.trans hagree.right.symm, hagree.right⟩

/-- The first component of the result is the merged variable, which the second
component then binds. -/
theorem unify_agree_pair :
    let v : Ty := .var ⟨0, "a", ∅⟩
    let w : Ty := .var ⟨1, "b", ∅⟩
    let m : Ty := .var ⟨2, "a", ∅⟩
    ∃ u', (unify {} (.tuple [v, v]) (.tuple [w, .int])).run.run { next := 2 } =
        (.ok (.tuple [m, .int]), u') ∧
      u'.resolve (.tuple [v, v]) = u'.resolve (.tuple [w, .int]) ∧
      u'.resolve (.tuple [w, .int]) = u'.resolve (.tuple [m, .int]) := by
  intro v w m
  have hsession : Session _ { next := 2 } := .draw "b" ∅ (.draw "a" ∅ .start)
  refine ⟨_, rfl, unify_agree hsession ?_ ?_ rfl⟩
  · simp [v, Ty.Over, Ty.vars, Ty.allVars, Unifier.freshVar, Ty.tuple, Ty.concrete]
  · simp [w, Ty.Over, Ty.vars, Ty.allVars, Unifier.freshVar, Ty.int, Ty.named, Ty.tuple,
      Ty.concrete]

end Unifier

end TraitCheck
