import TraitCheck.Proofs.Runs
import TraitCheck.Proofs.Unification

/-!
Unification ends. A run looks only at types that are, once resolved, made of
the compound types it started from, in whatever state it is. On one path of a
resolved type these are all different, so no path is longer than there were
compound types at the start, and the bound on the depth in `unify` is never
reached (`unifies_unify`). The bindings of every state that a sequence of calls
can reach are acyclic, whether the calls succeeded or failed.
-/

namespace TraitCheck

/-! Compound types in play. -/

namespace Subst

variable {σ : Subst} {S : List Ty}
variable {t : Ty}

/-- All compound types inside the resolved type are what types in `S` resolve
to. -/
def Covered (σ : Subst) (S : List Ty) (t : Ty) : Prop :=
  ∀ k head args, Ty.At k (.app head args) (σ.apply t) → ∃ s ∈ S, σ.apply s = .app head args

theorem Covered.height_le (h : σ.Covered S t) : (σ.apply t).height ≤ S.length := by
  rw [← List.length_map (f := σ.apply)]
  apply Ty.height_le_length
  intro k head args hat
  obtain ⟨s, hs, heq⟩ := h k head args hat
  exact List.mem_map.mpr ⟨s, hs, heq⟩

theorem Covered.deref (hσ : σ.Acyclic) {t : Ty} (h : σ.Covered S t) : σ.Covered S (σ.deref t) := by
  rw [Covered, apply_deref hσ]
  exact h

theorem Covered.arg (hσ : σ.Acyclic) {head : Head} {args : List Ty} {t : Ty}
    (h : σ.Covered S (.app head args)) (ht : t ∈ args) : σ.Covered S t := by
  intro k head' as hat
  apply h (k + 1) head' as
  rw [apply_app hσ]
  exact .arg (List.mem_map.mpr ⟨t, ht, rfl⟩) hat

/-- A new binding brings in no other compound types than its own, and these
have to be covered before. -/
theorem Covered.insert (hσ : σ.Acyclic) {id : VarId} {t x : Ty} (hadm : σ.Admits id t)
    (ht : ∀ k head args, Ty.At k (.app head args) t → ∃ s ∈ S, σ.apply s = .app head args)
    (h : σ.Covered S x) : (σ.insert id t).Covered S x := by
  intro k head args hat
  rw [apply_insert hσ hadm] at hat
  rcases hat.of_replace with ⟨j, as, hj, has⟩ | ⟨v, _, j, hj⟩
  · obtain ⟨s, hs, heq⟩ := h j head as hj
    refine ⟨s, hs, ?_⟩
    rw [apply_insert hσ hadm, heq, has]
  · by_cases hv : v.id = id
    · rw [if_pos hv, Option.getD_some] at hj
      obtain ⟨s, hs, heq⟩ := ht j head args hj
      refine ⟨s, hs, ?_⟩
      rw [apply_insert hσ hadm, heq]
      apply Ty.replace_eq_self
      intro w hw
      have hne : w ≠ id := fun h => hadm.not_self (h ▸ hj.mentions hw)
      exact if_neg hne
    · rw [if_neg hv, Option.getD_none] at hj
      cases hj

/-- With a set of types that holds the bindings and, with a type, its
arguments, everything in it is covered. -/
theorem covered_of_mem (hσ : σ.Acyclic) (hbind : ∀ id t, σ.find? id = some t → t ∈ S)
    (harg : ∀ head args, Ty.app head args ∈ S → args ⊆ S) (ht : t ∈ S) : σ.Covered S t := by
  induction t using hσ.induction with
  | unbound v hfind =>
    intro k head args hat
    rw [apply_unbound hσ hfind] at hat
    cases hat
  | bound v t hfind ih =>
    intro k head args hat
    rw [apply_bound hσ hfind] at hat
    exact ih (hbind v.id t hfind) k head args hat
  | app head args ih =>
    intro k head' as hat
    rw [apply_app hσ] at hat
    cases hat with
    | root => exact ⟨.app head args, ht, apply_app hσ head args⟩
    | arg hs hat =>
      obtain ⟨t, htmem, rfl⟩ := List.mem_map.mp hs
      exact ih t htmem (harg head args ht htmem) _ head' as hat

theorem mem_values_of_find? {id : VarId} (h : σ.find? id = some t) : t ∈ σ.bindings.values := by
  obtain ⟨⟨entries⟩⟩ := σ
  simp only [find?, Assoc.find?, Assoc.values] at h ⊢
  induction entries with
  | nil => cases h
  | cons entry rest ih =>
    obtain ⟨k, s⟩ := entry
    rw [Assoc.find?.go] at h
    split at h
    · cases h
      simp
    · exact List.mem_cons_of_mem s (ih h)

/-- A compound type at the end of a chain is the type itself or a binding. -/
theorem deref_eq_app (hσ : σ.Acyclic) {head : Head} {args : List Ty}
    (h : σ.deref t = .app head args) :
    t = .app head args ∨ ∃ id, σ.find? id = some (.app head args) := by
  induction t using hσ.induction with
  | unbound v hfind =>
    rw [deref_unbound σ hfind] at h
    cases h
  | bound v t hfind ih =>
    rw [deref_bound hσ hfind] at h
    rcases ih h with rfl | hbound
    · exact .inr ⟨v.id, hfind⟩
    · exact .inr hbound
  | app head' as =>
    rw [deref_app] at h
    exact .inl h

end Subst

namespace Ty

/-- The arguments of a type, if it is compound. -/
def children : Ty → List Ty
  | .var _ => []
  | .app _ args => args

theorem nodes_eq (t : Ty) : t.nodes = 1 + allNodes t.children := by
  cases t with
  | var v => rfl
  | app head args => rfl

theorem allNodes_append (as bs : List Ty) : allNodes (as ++ bs) = allNodes as + allNodes bs := by
  induction as with
  | nil => simp [allNodes]
  | cons t rest ih =>
    rw [List.cons_append, allNodes, allNodes, ih]
    omega

end Ty

namespace Unifier

variable {registry : Registry} {S : List Ty} {u u' : Unifier}

/-- The types that a run may come to when `S` holds the types in play. -/
structure InPlay (S : List Ty) (u : Unifier) (t : Ty) : Prop where
  owns : u.Owns t
  covered : u.subst.Covered S t

theorem InPlay.step {t : Ty} (hs : Step registry (InPlay S) u u') (ht : InPlay S u t) :
    InPlay S u' t := by
  refine ⟨(closed_owns registry).step (hs.mono fun _ _ h => h.owns) ht.owns, ?_⟩
  have hac := ht.owns.valid.acyclic
  cases hs with
  | @merge v w hv hw hfv hfw hne =>
    have hlv : v.id < u.next := hv.owns.lt v.id (Ty.mentions_var.mpr rfl)
    have hlw : w.id < u.next := hw.owns.lt w.id (Ty.mentions_var.mpr rfl)
    have hadm := admits_merged (w := w) hv.owns.valid hlv hfv
    have hadm' := admits_merged_snd hv.owns.valid hlv hlw hfv hfw hne
    apply Subst.Covered.insert (hac.insert hadm) hadm'
    · intro k head args hat
      cases hat
    · apply Subst.Covered.insert hac hadm _ ht.covered
      intro k head args hat
      cases hat
  | bind hv hc hfv hself hev =>
    exact Subst.Covered.insert hac (hc.owns.admits_resolve hfv hself) hc.covered ht.covered

theorem InPlay.deref {s t : Ty} (h : InPlay S u t) (hs : u.subst.deref t = s) : InPlay S u s :=
  ⟨h.owns.deref hs, hs ▸ h.covered.deref h.owns.valid.acyclic⟩

theorem InPlay.arg {head : Head} {args : List Ty} {t : Ty} (h : InPlay S u (.app head args))
    (ht : t ∈ args) : InPlay S u t :=
  ⟨h.owns.arg ht, h.covered.arg h.owns.valid.acyclic ht⟩

theorem closed_inPlay (registry : Registry) (S : List Ty) : Closed registry (InPlay S) where
  owns := InPlay.owns
  deref := InPlay.deref
  arg := InPlay.arg
  step := fun hs ht => ht.step hs

/-- The type is in play and stands, resolved, `k` levels below the root of
another one in play. -/
structure Deep (S : List Ty) (k : Nat) (u : Unifier) (t : Ty) : Prop where
  inPlay : InPlay S u t
  place : ∃ root, InPlay S u root ∧ Ty.At k (u.resolve t) (u.resolve root)

namespace Deep

variable {k : Nat} {t : Ty}

theorem start (h : InPlay S u t) : Deep S 0 u t := ⟨h, t, h, .root _⟩

theorem le_length (h : Deep S k u t) : k ≤ S.length := by
  obtain ⟨root, hroot, hat⟩ := h.place
  have hle := hat.height_le
  have hheight : (u.resolve root).height ≤ S.length := hroot.covered.height_le
  omega

theorem child (h : Deep S k u t) {head : Head} {args : List Ty} {s : Ty}
    (ht : u.subst.deref t = .app head args) (hs : s ∈ args) : Deep S (k + 1) u s := by
  have hac := h.inPlay.owns.valid.acyclic
  refine ⟨(h.inPlay.deref ht).arg hs, ?_⟩
  obtain ⟨root, hroot, hat⟩ := h.place
  refine ⟨root, hroot, ?_⟩
  have hres : u.resolve t = .app head (args.map u.resolve) := by
    rw [resolve, ← Subst.apply_deref hac, ht, Subst.apply_app hac]
    rfl
  rw [hres] at hat
  exact hat.down (List.mem_map.mpr ⟨s, hs, rfl⟩)

theorem steps (h : Deep S k u t) (hs : Steps registry (InPlay S) u u') : Deep S k u' t := by
  have hclosed := closed_inPlay registry S
  have hac := h.inPlay.owns.valid.acyclic
  have hinPlay := hclosed.steps hs h.inPlay
  have hac' := hinPlay.owns.valid.acyclic
  have hext := (hs.mono fun _ _ h => h.owns).extends
  refine ⟨hinPlay, ?_⟩
  obtain ⟨root, hroot, hat⟩ := h.place
  refine ⟨root, hclosed.steps hs hroot, ?_⟩
  have hat' := hat.replace fun id => (u'.subst.find? id).map u'.subst.apply
  rw [← Subst.apply_eq hac', ← Subst.apply_eq hac'] at hat'
  simpa only [resolve, hext.apply_apply hac hac'] using hat'

end Deep

/-! Runs of the bounded functions. -/

open Runs

variable {head : Head} {args : List Ty} {r : Except Failure Ty} {depth : Nat} {a b : Ty}

theorem binds_of_run {v : TyVar} (h : (bind registry v head args).run.run u = (r, u')) :
    Binds registry u v head args r u' := by
  simp only [bind, run_get_bind] at h
  split at h
  · rename_i hself
    cases h
    exact .infinite hself
  · rename_i hself
    split at h
    · rename_i bound hmissing
      cases h
      exact .missing hself hmissing
    · rename_i hpresent
      cases h
      exact .bound hself hpresent

/-- One level of the descent. -/
theorem unifies_of_run (hargs : ∀ {head as bs r u'}, u.subst.deref a = .app head as →
      u.subst.deref b = .app head bs → as.length = bs.length →
      (unifyAll (unifyWithin registry depth) as bs).run.run u = (r, u') →
      UnifiesAll registry u as bs r u')
    (h : (unifyWithin registry (depth + 1) a b).run.run u = (r, u')) :
    Unifies registry u a b r u' := by
  simp only [unifyWithin, run_get_bind] at h
  split at h
  · rename_i v w ha hb
    split at h
    · rename_i heq
      cases h
      exact .same ha hb heq
    · rename_i hne
      cases h
      exact .merged ha hb hne
  · rename_i v head args ha hb
    exact .left ha hb (binds_of_run h)
  · rename_i head args v ha hb
    exact .right ha hb (binds_of_run h)
  · rename_i head as head' bs ha hb
    split at h
    · rename_i heq
      obtain ⟨rfl, hlen⟩ := heq
      rw [run_bind] at h
      split at h
      · rename_i cs u1 hcs
        cases h
        exact .args ha hb hlen (hargs ha hb hlen hcs)
      · rename_i failure u1 hfail
        cases h
        exact .args ha hb hlen (hargs ha hb hlen hfail)
    · rename_i hne
      cases h
      exact .clash ha hb hne

/-- The arguments one after the other. What is known of the types that are
still to come (`P` of the left ones, `A` of the right ones) is kept by the
steps of those before. -/
theorem unifiesAll_of_run {A P : Unifier → Ty → Prop} {step : Ty → Ty → UnifyM Ty}
    (hA : Closed registry A) (hPA : ∀ {u t}, P u t → A u t)
    (hP : ∀ {u u' t}, P u t → Steps registry A u u' → P u' t)
    (hone : ∀ {u u' a b r}, P u a → A u b → (step a b).run.run u = (r, u') →
      Unifies registry u a b r u')
    {as bs : List Ty} {r : Except Failure (List Ty)} (hlen : as.length = bs.length)
    (has : ∀ t ∈ as, P u t) (hbs : ∀ t ∈ bs, A u t)
    (h : (unifyAll step as bs).run.run u = (r, u')) : UnifiesAll registry u as bs r u' := by
  induction as generalizing bs u r with
  | nil =>
    obtain rfl := List.length_eq_zero_iff.mp hlen.symm
    cases h
    exact .nil
  | cons a as ih =>
    cases bs with
    | nil => simp at hlen
    | cons b bs =>
      have ha := has a List.mem_cons_self
      have hb := hbs b List.mem_cons_self
      rw [unifyAll, run_bind] at h
      split at h
      · rename_i c u1 hc
        have hfirst := hone ha hb hc
        have hsteps := hfirst.steps hA (hPA ha) hb
        have hrest : ∀ {r1}, (unifyAll step as bs).run.run u1 = (r1, u') →
            UnifiesAll registry u1 as bs r1 u' := by
          intro r1
          apply ih (by simpa using hlen)
          · intro t ht
            exact hP (has t (List.mem_cons_of_mem a ht)) hsteps
          · intro t ht
            exact hA.steps hsteps (hbs t (List.mem_cons_of_mem b ht))
        rw [run_bind] at h
        split at h
        · rename_i cs u2 hcs
          cases h
          exact .cons hfirst (hrest hcs)
        · rename_i failure u2 hfail
          cases h
          exact .cons hfirst (hrest hfail)
      · rename_i failure u1 hfail
        cases h
        exact .stop (hone ha hb hfail)

/-- As long as the depth left and the depth reached are together more than the
number of types in play, the bound is not felt. -/
theorem unifies_unifyWithin {k : Nat} (hdepth : S.length < k + depth) (ha : Deep S k u a)
    (hb : InPlay S u b) (h : (unifyWithin registry depth a b).run.run u = (r, u')) :
    Unifies registry u a b r u' := by
  induction depth generalizing k u u' a b r with
  | zero =>
    have hle := ha.le_length
    omega
  | succ depth ih =>
    apply unifies_of_run _ h
    intro head as bs r u' hda hdb hlen
    apply unifiesAll_of_run (P := Deep S (k + 1)) (closed_inPlay registry S) Deep.inPlay Deep.steps
      (fun hx hy => ih (by omega) hx hy) hlen
    · intro t ht
      exact ha.child hda ht
    · intro t ht
      exact (hb.deref hdb).arg ht

/-! The types in play at the start of a call. -/

/-- Everything in the bindings, and everything below the roots of the types. -/
def played (u : Unifier) (a b : Ty) : List Ty :=
  Ty.allSubterms (u.subst.bindings.values ++ (a.children ++ b.children))

theorem length_played (u : Unifier) (a b : Ty) :
    (u.played a b).length + 2 = u.subst.nodes + a.nodes + b.nodes := by
  rw [played, Ty.length_allSubterms fun t _ => Ty.length_subterms t, Ty.allNodes_append,
    Ty.allNodes_append, a.nodes_eq, b.nodes_eq, Subst.nodes]
  omega

theorem inPlay_played {t : Ty} (ht : u.Owns t) (hmem : t ∈ u.played a b) :
    InPlay (u.played a b) u t := by
  refine ⟨ht, ?_⟩
  apply Subst.covered_of_mem ht.valid.acyclic _ _ hmem
  · intro id s hfind
    apply Ty.mem_allSubterms.mpr
    refine ⟨s, List.mem_append_left _ (Subst.mem_values_of_find? hfind), ?_⟩
    exact Ty.mem_subterms_self s
  · intro head args happ s hs
    obtain ⟨x, hx, hmem⟩ := Ty.mem_allSubterms.mp happ
    exact Ty.mem_allSubterms.mpr ⟨x, hx, Ty.arg_mem_subterms hmem hs⟩

/-- What a call looks at first. -/
theorem arg_mem_played {x : Ty} (hu : u.Valid) (hx : x = a ∨ x = b)
    (hd : u.subst.deref x = .app head args) {t : Ty} (ht : t ∈ args) : t ∈ u.played a b := by
  apply Ty.mem_allSubterms.mpr
  rcases Subst.deref_eq_app hu.acyclic hd with rfl | ⟨id, hfind⟩
  · refine ⟨t, List.mem_append_right _ ?_, Ty.mem_subterms_self t⟩
    rcases hx with rfl | rfl
    · exact List.mem_append_left _ ht
    · exact List.mem_append_right _ ht
  · refine ⟨_, List.mem_append_left _ (Subst.mem_values_of_find? hfind), ?_⟩
    exact Ty.arg_mem_subterms (Ty.mem_subterms_self _) ht

/-- A call of `unify` ends, and its result is that of unification without a
bound on the depth. -/
theorem unifies_unify (ha : u.Owns a) (hb : u.Owns b)
    (h : (unify registry a b).run.run u = (r, u')) : Unifies registry u a b r u' := by
  have hlength := length_played u a b
  have hdepth : u.subst.nodes + a.nodes + b.nodes = (u.played a b).length + 1 + 1 := by omega
  simp only [unify, run_get_bind, hdepth] at h
  apply unifies_of_run _ h
  intro head as bs r u' hda hdb hlen
  have hpa := ha.deref hda
  have hpb := hb.deref hdb
  apply unifiesAll_of_run (P := Deep (u.played a b) 0) (closed_inPlay registry _) Deep.inPlay
    Deep.steps (fun hx hy => unifies_unifyWithin (by omega) hx hy) hlen
  · intro t ht
    exact .start (inPlay_played (hpa.arg ht) (arg_mem_played ha.valid (.inl rfl) hda ht))
  · intro t ht
    exact inPlay_played (hpb.arg ht) (arg_mem_played ha.valid (.inr rfl) hdb ht)

/-! States that calls can reach. -/

/-- A unifier with no bindings at first. Ids are handed out at any time, to it
or to others, and `unify` is called on types over ids that were handed out. -/
inductive Reachable : Unifier → Prop
  | start : Reachable {}
  | draw {u : Unifier} : Reachable u → Reachable u.freshId.2
  | call {u : Unifier} (registry : Registry) {a b : Ty} : Reachable u →
      (∀ w, a.mentions w = true → w < u.next) → (∀ w, b.mentions w = true → w < u.next) →
      Reachable ((unify registry a b).run.run u).2

/-- What a call leaves behind is valid, whatever its result. -/
theorem valid_unify (ha : u.Owns a) (hb : u.Owns b) : ((unify registry a b).run.run u).2.Valid := by
  have hrun : Unifies registry u a b _ _ := unifies_unify ha hb rfl
  exact (hrun.steps (closed_owns registry) ha hb).valid ha.valid

theorem Reachable.valid (h : Reachable u) : u.Valid := by
  induction h with
  | start => exact valid_empty 0
  | draw _ ih => exact ih.draw
  | call registry _ ha hb ih => exact valid_unify ⟨ih, ha⟩ ⟨ih, hb⟩

/-- In every state that calls of `unify` reach, the bindings are acyclic, so
following them ends on every type, at its root and everywhere in it, and so
does every further call. -/
theorem reachable_acyclic_terminates (h : Reachable u) :
    (∃ rank : VarId → Nat, ∀ id t, u.subst.find? id = some t →
      ∀ w, t.mentions w = true → rank w < rank id) ∧ (∀ t, u.subst.Derefs t (u.subst.deref t)) ∧
    (∀ t, u.subst.Applies t (u.resolve t)) ∧
    ∀ (registry : Registry) (a b : Ty), (∀ w, a.mentions w = true → w < u.next) →
      (∀ w, b.mentions w = true → w < u.next) →
      Unifies registry u a b ((unify registry a b).run.run u).1
        ((unify registry a b).run.run u).2 := by
  have hu := h.valid
  refine ⟨hu.acyclic, Subst.derefs_deref hu.acyclic, Subst.applies_apply hu.acyclic, ?_⟩
  intro registry a b ha hb
  exact unifies_unify ⟨hu, ha⟩ ⟨hu, hb⟩ rfl

/-- After two variables are merged, one of them cannot be an array of the other. -/
theorem reachable_acyclic_terminates_merged :
    let v : Ty := .var ⟨0, "a", ∅⟩
    let w : Ty := .var ⟨1, "b", ∅⟩
    let m : Ty := .var ⟨2, "a", ∅⟩
    let u : Unifier := ((unify {} v w).run.run { next := 2 }).2
    Unifies {} u v (.array w 3) (.error (.infiniteType m (.array m 3))) u := by
  intro v w m u
  have hstart : Reachable { next := 2 } := .draw (.draw .start)
  have hu : Reachable u := by
    apply hstart.call {}
    · simp [v]
    · simp [w]
  have hnext : u.next = 3 := rfl
  apply (reachable_acyclic_terminates hu).2.2.2 {} v (.array w 3)
  · simp [v, hnext]
  · simp [w, hnext, Ty.array, Ty.concrete]

end Unifier

end TraitCheck
