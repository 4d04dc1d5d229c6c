import Mathlib.Logic.Relation
import TraitCheck.Proofs.Acyclic
import TraitCheck.Unifier

/-!
Unification without a bound on its depth, as a relation (`Unifies`): one rule
for each way in which a pair of types is dealt with. A run that ends, with a
type or with a failure, is a derivation of it. What happens to the state on the
way is said once, by `Step`: two variables are merged or one is bound.
Everything that a run preserves is derived from these two cases, for a class of
types that is closed under what a run looks at (`Closed`).
-/

namespace TraitCheck.Unifier

/-- Binding a variable to a concrete type, with the failures in the order in
which they are looked for. -/
inductive Binds (registry : Registry) (u : Unifier) (v : TyVar) (head : Head) (args : List Ty) :
    Except Failure Ty → Unifier → Prop
  | infinite : (u.resolve (.app head args)).mentions v.id = true →
      Binds registry u v head args
        (.error (.infiniteType (.var v) (u.resolve (.app head args)))) u
  | missing {bound : Trait} : ¬(u.resolve (.app head args)).mentions v.id = true →
      registry.firstMissing head.con v.traits = some bound →
      Binds registry u v head args (.error (.traitMismatch (u.resolve (.app head args)) bound)) u
  | bound : ¬(u.resolve (.app head args)).mentions v.id = true →
      registry.firstMissing head.con v.traits = none →
      Binds registry u v head args (.ok (u.resolve (.app head args)))
        (u.assign v.id (u.resolve (.app head args)))

mutual

/-- Unifying the two types in the first state ends with the result, in the
second state. -/
inductive Unifies (registry : Registry) :
    Unifier → Ty → Ty → Except Failure Ty → Unifier → Prop
  | same {u : Unifier} {a b : Ty} {v w : TyVar} :
      u.subst.deref a = .var v → u.subst.deref b = .var w → v.id = w.id →
      Unifies registry u a b (.ok (.var v)) u
  | merged {u : Unifier} {a b : Ty} {v w : TyVar} :
      u.subst.deref a = .var v → u.subst.deref b = .var w → v.id ≠ w.id →
      Unifies registry u a b (.ok (u.merge v w).1) (u.merge v w).2
  | left {u u' : Unifier} {a b : Ty} {v : TyVar} {head : Head} {args : List Ty}
      {r : Except Failure Ty} :
      u.subst.deref a = .var v → u.subst.deref b = .app head args →
      Binds registry u v head args r u' → Unifies registry u a b r u'
  | right {u u' : Unifier} {a b : Ty} {v : TyVar} {head : Head} {args : List Ty}
      {r : Except Failure Ty} :
      u.subst.deref a = .app head args → u.subst.deref b = .var v →
      Binds registry u v head args r u' → Unifies registry u a b r u'
  | clash {u : Unifier} {a b : Ty} {head head' : Head} {as bs : List Ty} :
      u.subst.deref a = .app head as → u.subst.deref b = .app head' bs →
      ¬(head = head' ∧ as.length = bs.length) →
      Unifies registry u a b (.error (.typeMismatch (u.resolve a) (u.resolve b))) u
  | args {u u' : Unifier} {a b : Ty} {head : Head} {as bs : List Ty}
      {r : Except Failure (List Ty)} :
      u.subst.deref a = .app head as → u.subst.deref b = .app head bs →
      as.length = bs.length → UnifiesAll registry u as bs r u' →
      Unifies registry u a b (r.map (.app head)) u'

/-- The same for two lists of types, position by position. -/
inductive UnifiesAll (registry : Registry) :
    Unifier → List Ty → List Ty → Except Failure (List Ty) → Unifier → Prop
  | nil {u : Unifier} : UnifiesAll registry u [] [] (.ok []) u
  | stop {u u' : Unifier} {a b : Ty} {as bs : List Ty} {failure : Failure} :
      Unifies registry u a b (.error failure) u' →
      UnifiesAll registry u (a :: as) (b :: bs) (.error failure) u'
  | cons {u u' u'' : Unifier} {a b c : Ty} {as bs : List Ty} {r : Except Failure (List Ty)} :
      Unifies registry u a b (.ok c) u' → UnifiesAll registry u' as bs r u'' →
      UnifiesAll registry u (a :: as) (b :: bs) (r.map (c :: ·)) u''

end

/-! States. -/

variable {u : Unifier}

/-- The bindings are not circular and only mention ids that were handed out. -/
structure Valid (u : Unifier) : Prop where
  acyclic : u.subst.Acyclic
  key_lt : ∀ id t, u.subst.find? id = some t → id < u.next
  vars_lt : ∀ id t, u.subst.find? id = some t → ∀ w, t.mentions w = true → w < u.next

theorem valid_empty (next : Nat) : Valid { next } := by
  refine ⟨Subst.acyclic_empty, ?_, ?_⟩
  · intro id t h
    cases h
  · intro id t h
    cases h

theorem Valid.find?_next (hu : u.Valid) {id : VarId} (hid : u.next ≤ id) :
    u.subst.find? id = none := by
  cases hfind : u.subst.find? id with
  | none => rfl
  | some t => exact absurd (hu.key_lt id t hfind) (Nat.not_lt.mpr hid)

theorem Valid.draw (hu : u.Valid) : Valid { u with next := u.next + 1 } := by
  refine ⟨hu.acyclic, ?_, ?_⟩
  · intro id t h
    exact Nat.lt_succ_of_lt (hu.key_lt id t h)
  · intro id t h w hw
    exact Nat.lt_succ_of_lt (hu.vars_lt id t h w hw)

theorem Valid.assign {u : Unifier} (hu : u.Valid) {id : VarId} {t : Ty}
    (hadm : u.subst.Admits id t) (hid : id < u.next)
    (ht : ∀ w, t.mentions w = true → w < u.next) : (u.assign id t).Valid := by
  refine ⟨hu.acyclic.insert hadm, ?_, ?_⟩
  · intro x s hx
    rw [Unifier.assign, Subst.find?_insert hadm.not_self] at hx
    split at hx
    · rename_i heq
      exact heq ▸ hid
    · exact hu.key_lt x s hx
  · intro x s hx
    rw [Unifier.assign, Subst.find?_insert hadm.not_self] at hx
    split at hx
    · cases hx
      exact ht
    · exact hu.vars_lt x s hx

/-- The state is valid and the variables of the type were handed out. -/
structure Owns (u : Unifier) (t : Ty) : Prop where
  valid : u.Valid
  lt : ∀ w, t.mentions w = true → w < u.next

namespace Owns

variable {u : Unifier} {t : Ty}

theorem resolve_lt (h : u.Owns t) {w : VarId} (hw : (u.resolve t).mentions w = true) :
    w < u.next := by
  obtain ⟨v, hv, rfl⟩ := Ty.mentions_iff.mp hw
  rcases Subst.mem_vars_apply h.valid.acyclic hv with hv | ⟨id, s, hid, hv⟩
  · exact h.lt v.id (Ty.mentions_of_mem_vars hv)
  · exact h.valid.vars_lt id s hid v.id (Ty.mentions_of_mem_vars hv)

theorem deref {s : Ty} (h : u.Owns t) (hs : u.subst.deref t = s) : u.Owns s := by
  refine ⟨h.valid, ?_⟩
  intro w hw
  subst hs
  obtain ⟨v, hv, rfl⟩ := Ty.mentions_iff.mp hw
  rcases Subst.mem_vars_deref h.valid.acyclic hv with hv | ⟨id, s, hid, hv⟩
  · exact h.lt v.id (Ty.mentions_of_mem_vars hv)
  · exact h.valid.vars_lt id s hid v.id (Ty.mentions_of_mem_vars hv)

theorem arg {head : Head} {args : List Ty} (h : u.Owns (.app head args)) (ht : t ∈ args) :
    u.Owns t :=
  ⟨h.valid, fun w hw => h.lt w (Ty.mentions_app.mpr ⟨t, ht, hw⟩)⟩

/-- A resolved type may be bound to an unbound variable that it does not
mention. -/
theorem admits_resolve (h : u.Owns t) {id : VarId} (hid : u.subst.find? id = none)
    (hself : ¬(u.resolve t).mentions id = true) : u.subst.Admits id (u.resolve t) :=
  ⟨hid, hself, fun _ hw => Subst.find?_of_mentions_apply h.valid.acyclic hw⟩

end Owns

/-! Merging, as two assignments after a draw. -/

section Merge

variable {u : Unifier} {v w : TyVar}

/-- The variable that two merged ones are bound to. -/
def mergedVar (u : Unifier) (v w : TyVar) : TyVar := ⟨u.next, v.name, v.traits.union w.traits⟩

theorem merge_snd (u : Unifier) (v w : TyVar) :
    (u.merge v w).2 = (({ u with next := u.next + 1 } : Unifier).assign v.id
      (.var (u.mergedVar v w))).assign w.id (.var (u.mergedVar v w)) := rfl

theorem admits_merged (hu : u.Valid) (hv : v.id < u.next) (hfv : u.subst.find? v.id = none) :
    u.subst.Admits v.id (.var (u.mergedVar v w)) := by
  refine ⟨hfv, ?_, ?_⟩
  · intro h
    have heq : u.next = v.id := Ty.mentions_var.mp h
    exact Nat.ne_of_gt hv heq
  · intro x hx
    have heq : u.next = x := Ty.mentions_var.mp hx
    exact hu.find?_next heq.le

theorem admits_merged_snd (hu : u.Valid) (hv : v.id < u.next) (hw : w.id < u.next)
    (hfv : u.subst.find? v.id = none) (hfw : u.subst.find? w.id = none) (hne : v.id ≠ w.id) :
    (u.subst.insert v.id (.var (u.mergedVar v w))).Admits w.id (.var (u.mergedVar v w)) := by
  have hadm := admits_merged (w := w) hu hv hfv
  refine ⟨?_, ?_, ?_⟩
  · rw [Subst.find?_insert hadm.not_self, if_neg (Ne.symm hne), hfw]
  · intro h
    have heq : u.next = w.id := Ty.mentions_var.mp h
    exact Nat.ne_of_gt hw heq
  · intro x hx
    have heq : u.next = x := Ty.mentions_var.mp hx
    have hxv : x ≠ v.id := fun h => Nat.ne_of_gt hv (heq.trans h)
    rw [Subst.find?_insert hadm.not_self, if_neg hxv]
    exact hu.find?_next heq.le

theorem find?_merge (hv : v.id < u.next) (hw : w.id < u.next) (x : VarId) :
    (u.merge v w).2.subst.find? x =
      if x = w.id ∨ x = v.id then some (.var (u.mergedVar v w)) else u.subst.find? x := by
  have hnot : ∀ {y : VarId}, y < u.next → ¬(Ty.var (u.mergedVar v w)).mentions y = true :=
    fun hy h => Nat.ne_of_gt hy (Ty.mentions_var.mp h)
  rw [merge_snd, assign, assign, Subst.find?_insert (hnot hw), Subst.find?_insert (hnot hv)]
  by_cases hxw : x = w.id
  · rw [if_pos hxw, if_pos (.inl hxw)]
  · by_cases hxv : x = v.id
    · rw [if_neg hxw, if_pos hxv, if_pos (.inr hxv)]
    · rw [if_neg hxw, if_neg hxv, if_neg (by rintro (h | h) <;> contradiction)]

end Merge

/-! Steps. -/

/-- What a run can do to the state, for types of the class `A`: merge two
variables, or bind one to a type that has all its traits. -/
inductive Step (registry : Registry) (A : Unifier → Ty → Prop) (u : Unifier) : Unifier → Prop
  | merge {v w : TyVar} : A u (.var v) → A u (.var w) → u.subst.find? v.id = none →
      u.subst.find? w.id = none → v.id ≠ w.id → Step registry A u (u.merge v w).2
  | bind {v : TyVar} {head : Head} {args : List Ty} : A u (.var v) → A u (.app head args) →
      u.subst.find? v.id = none → ¬(u.resolve (.app head args)).mentions v.id = true →
      registry.firstMissing head.con v.traits = none →
      Step registry A u (u.assign v.id (u.resolve (.app head args)))

abbrev Steps (registry : Registry) (A : Unifier → Ty → Prop) : Unifier → Unifier → Prop :=
  Relation.ReflTransGen (Step registry A)

/-- A class of types that a run does not leave. -/
structure Closed (registry : Registry) (A : Unifier → Ty → Prop) : Prop where
  owns : ∀ {u t}, A u t → u.Owns t
  deref : ∀ {u t s}, A u t → u.subst.deref t = s → A u s
  arg : ∀ {u head args t}, A u (.app head args) → t ∈ args → A u t
  step : ∀ {u u' t}, Step registry A u u' → A u t → A u' t

variable {registry : Registry} {A : Unifier → Ty → Prop} {u u' : Unifier}

theorem Step.mono {B : Unifier → Ty → Prop} (hAB : ∀ u t, A u t → B u t)
    (h : Step registry A u u') : Step registry B u u' := by
  cases h with
  | merge hv hw hfv hfw hne => exact .merge (hAB _ _ hv) (hAB _ _ hw) hfv hfw hne
  | bind hv ht hfv hself hev => exact .bind (hAB _ _ hv) (hAB _ _ ht) hfv hself hev

theorem Steps.mono {B : Unifier → Ty → Prop} (hAB : ∀ u t, A u t → B u t)
    (h : Steps registry A u u') : Steps registry B u u' := by
  induction h with
  | refl => exact .refl
  | tail _ hs ih => exact ih.tail (hs.mono hAB)

theorem Closed.steps (hA : Closed registry A) (h : Steps registry A u u') {t : Ty}
    (ht : A u t) : A u' t := by
  induction h with
  | refl => exact ht
  | tail _ hs ih => exact hA.step hs ih

theorem Step.valid (h : Step registry Owns u u') : u'.Valid := by
  cases h with
  | @merge v w hv hw hfv hfw hne =>
    have hlv : v.id < u.next := hv.lt v.id (Ty.mentions_var.mpr rfl)
    have hlw : w.id < u.next := hw.lt w.id (Ty.mentions_var.mpr rfl)
    have hmerged : ∀ x, (Ty.var (u.mergedVar v w)).mentions x = true → x < u.next + 1 := by
      intro x hx
      have heq : u.next = x := Ty.mentions_var.mp hx
      exact heq ▸ Nat.lt_succ_self u.next
    have hadm := admits_merged (w := w) hv.valid hlv hfv
    have hadm' := admits_merged_snd hv.valid hlv hlw hfv hfw hne
    rw [merge_snd]
    exact (hv.valid.draw.assign hadm (Nat.lt_succ_of_lt hlv) hmerged).assign hadm'
      (Nat.lt_succ_of_lt hlw) hmerged
  | @bind v head args hv ht hfv hself hev =>
    exact hv.valid.assign (ht.admits_resolve hfv hself) (hv.lt v.id (Ty.mentions_var.mpr rfl))
      fun _ hw => ht.resolve_lt hw

theorem Step.next_le (h : Step registry A u u') : u.next ≤ u'.next := by
  cases h with
  | merge => exact Nat.le_succ u.next
  | bind => exact le_refl u.next

theorem Step.extends (h : Step registry Owns u u') : u.subst.Extends u'.subst := by
  cases h with
  | @merge v w hv hw hfv hfw hne =>
    have hlv : v.id < u.next := hv.lt v.id (Ty.mentions_var.mpr rfl)
    have hlw : w.id < u.next := hw.lt w.id (Ty.mentions_var.mpr rfl)
    exact (admits_merged (w := w) hv.valid hlv hfv).extends.trans
      (admits_merged_snd hv.valid hlv hlw hfv hfw hne).extends
  | bind hv ht hfv hself hev => exact (ht.admits_resolve hfv hself).extends

theorem Steps.next_le (h : Steps registry A u u') : u.next ≤ u'.next := by
  induction h with
  | refl => exact le_refl u.next
  | tail _ hs ih => exact le_trans ih hs.next_le

theorem Steps.valid (hu : u.Valid) (h : Steps registry Owns u u') : u'.Valid := by
  induction h with
  | refl => exact hu
  | tail _ hs _ => exact hs.valid

theorem Steps.extends (h : Steps registry Owns u u') : u.subst.Extends u'.subst := by
  induction h with
  | refl => exact .refl _
  | tail _ hs ih => exact ih.trans hs.extends

theorem closed_owns (registry : Registry) : Closed registry Owns where
  owns := fun h => h
  deref := Owns.deref
  arg := Owns.arg
  step := fun hs ht => ⟨hs.valid, fun w hw => lt_of_lt_of_le (ht.lt w hw) hs.next_le⟩

mutual

/-- A run is a sequence of steps. -/
theorem Unifies.steps (hA : Closed registry A) : ∀ {u u' : Unifier} {a b : Ty}
    {r : Except Failure Ty}, Unifies registry u a b r u' → A u a → A u b → Steps registry A u u'
  | _, _, _, _, _, .same _ _ _, _, _ => .refl
  | _, _, _, _, _, .merged ha hb hne, hAa, hAb => by
    have hac := (hA.owns hAa).valid.acyclic
    exact .single (.merge (hA.deref hAa ha) (hA.deref hAb hb)
      (Subst.find?_of_deref_eq_var hac ha) (Subst.find?_of_deref_eq_var hac hb) hne)
  | _, _, _, _, _, .left ha hb hbind, hAa, hAb => by
    cases hbind with
    | infinite => exact .refl
    | missing => exact .refl
    | bound hself hev =>
      exact .single (.bind (hA.deref hAa ha) (hA.deref hAb hb)
        (Subst.find?_of_deref_eq_var (hA.owns hAa).valid.acyclic ha) hself hev)
  | _, _, _, _, _, .right ha hb hbind, hAa, hAb => by
    cases hbind with
    | infinite => exact .refl
    | missing => exact .refl
    | bound hself hev =>
      exact .single (.bind (hA.deref hAb hb) (hA.deref hAa ha)
        (Subst.find?_of_deref_eq_var (hA.owns hAa).valid.acyclic hb) hself hev)
  | _, _, _, _, _, .clash _ _ _, _, _ => .refl
  | _, _, _, _, _, .args ha hb _ hall, hAa, hAb =>
    hall.steps hA (fun _ ht => hA.arg (hA.deref hAa ha) ht)
      (fun _ ht => hA.arg (hA.deref hAb hb) ht)

theorem UnifiesAll.steps (hA : Closed registry A) : ∀ {u u' : Unifier} {as bs : List Ty}
    {r : Except Failure (List Ty)}, UnifiesAll registry u as bs r u' →
      (∀ t ∈ as, A u t) → (∀ t ∈ bs, A u t) → Steps registry A u u'
  | _, _, _, _, _, .nil, _, _ => .refl
  | _, _, _, _, _, .stop h, hAas, hAbs => h.steps hA (hAas _ (by simp)) (hAbs _ (by simp))
  | _, _, _, _, _, .cons h hall, hAas, hAbs => by
    have hfirst := h.steps hA (hAas _ (by simp)) (hAbs _ (by simp))
    refine hfirst.trans (hall.steps hA ?_ ?_)
    · intro t ht
      exact hA.steps hfirst (hAas t (List.mem_cons_of_mem _ ht))
    · intro t ht
      exact hA.steps hfirst (hAbs t (List.mem_cons_of_mem _ ht))

end

end TraitCheck.Unifier
