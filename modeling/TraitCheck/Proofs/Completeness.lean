import TraitCheck.Proofs.Soundness

/-!
Unification is complete and most general. An assignment gives every variable a
type. If one satisfies the bindings so far, respects the traits of the
variables, and makes two types equal, then unifying the two succeeds, and the
assignment goes on satisfying the bindings once it is told what the merged
variables stand for. So a failure means that there is no such assignment. The
state after a call is itself read as an assignment (`reading`), which is why
the order of several calls does not matter.
-/

namespace TraitCheck

/-! Assignments. -/

/-- A type for each variable. -/
abbrev Assignment := VarId → Ty

namespace Assignment

variable {θ θ' : Assignment} {σ : Subst}

def apply (θ : Assignment) (t : Ty) : Ty := t.replace fun id => some (θ id)

@[simp]
theorem apply_var (θ : Assignment) (v : TyVar) : θ.apply (.var v) = θ v.id := rfl

@[simp]
theorem apply_app (θ : Assignment) (head : Head) (args : List Ty) :
    θ.apply (.app head args) = .app head (args.map θ.apply) := Ty.replace_app _ head args

theorem apply_congr {t : Ty} (h : ∀ id, t.mentions id = true → θ id = θ' id) :
    θ.apply t = θ'.apply t :=
  Ty.replace_congr fun id hid => congrArg some (h id hid)

/-- Every binding holds under the assignment. -/
def Satisfies (θ : Assignment) (σ : Subst) : Prop :=
  ∀ id t, σ.find? id = some t → θ id = θ.apply t

theorem Satisfies.apply_deref (h : θ.Satisfies σ) (hσ : σ.Acyclic) (t : Ty) :
    θ.apply (σ.deref t) = θ.apply t := by
  induction t using hσ.induction with
  | unbound v hfind => rw [Subst.deref_unbound σ hfind]
  | bound v t hfind ih => rw [Subst.deref_bound hσ hfind, ih, apply_var, h v.id t hfind]
  | app head args => rw [Subst.deref_app]

theorem Satisfies.deref_eq (h : θ.Satisfies σ) (hσ : σ.Acyclic) {a b s t : Ty}
    (ha : σ.deref a = s) (hb : σ.deref b = t) (heq : θ.apply a = θ.apply b) :
    θ.apply s = θ.apply t := by
  rw [← ha, ← hb, h.apply_deref hσ, h.apply_deref hσ, heq]

theorem Satisfies.apply_apply (h : θ.Satisfies σ) (hσ : σ.Acyclic) (t : Ty) :
    θ.apply (σ.apply t) = θ.apply t := by
  induction t using hσ.induction with
  | unbound v hfind => rw [Subst.apply_unbound hσ hfind]
  | bound v t hfind ih => rw [Subst.apply_bound hσ hfind, ih, apply_var, h v.id t hfind]
  | app head args ih =>
    rw [Subst.apply_app hσ, apply_app, apply_app, List.map_map]
    congr 1
    exact List.map_congr_left ih

theorem Satisfies.insert (h : θ.Satisfies σ) {id : VarId} {t : Ty}
    (hself : ¬t.mentions id = true) (heq : θ id = θ.apply t) : θ.Satisfies (σ.insert id t) := by
  intro x s hx
  rw [Subst.find?_insert hself] at hx
  split at hx
  · rename_i hxid
    cases hx
    rw [hxid, heq]
  · exact h x s hx

/-- No assignment makes a variable equal to a compound type around it: the
image of the variable would be higher than itself. -/
theorem not_mentions {id : VarId} {head : Head} {args : List Ty}
    (h : θ id = θ.apply (.app head args)) : ¬(Ty.app head args).mentions id = true := by
  intro hid
  obtain ⟨k, v, hat, rfl⟩ := Ty.At.exists_var hid
  have himage := (hat.replace fun id => some (θ id)).height_le
  change k + (θ v.id).height ≤ (θ.apply (.app head args)).height at himage
  rw [← h] at himage
  cases hat with
  | arg ht hat => omega

end Assignment

namespace Registry

variable {registry : Registry} {traits : TraitSet}

/-- Whether a type may stand for a variable with the given traits. -/
def Fits (registry : Registry) (traits : TraitSet) : Ty → Prop
  | .var w => ∀ bound ∈ traits, bound ∈ w.traits
  | .app head _ => ∀ bound ∈ traits, (registry.lookup head.con bound).isSome = true

theorem firstMissing_eq_none {con : Con} : registry.firstMissing con traits = none ↔
      ∀ bound ∈ traits, (registry.lookup con bound).isSome = true := by
  rw [firstMissing, List.find?_eq_none]
  constructor
  · intro h bound hbound
    have hnot := h bound hbound
    simpa [Option.isNone_iff_eq_none, Option.isSome_iff_ne_none] using hnot
  · intro h bound hbound
    have hsome := h bound hbound
    simpa [Option.isNone_iff_eq_none, Option.isSome_iff_ne_none] using hsome

theorem Fits.mono {traits' : TraitSet} {t : Ty} (h : registry.Fits traits t)
    (hsub : ∀ bound ∈ traits', bound ∈ traits) : registry.Fits traits' t := by
  cases t with
  | var w => exact fun bound hbound => h bound (hsub bound hbound)
  | app head args => exact fun bound hbound => h bound (hsub bound hbound)

theorem Fits.union {registry : Registry} {traits traits' : TraitSet} {t : Ty}
    (h : registry.Fits traits t) (h' : registry.Fits traits' t) :
    registry.Fits (traits.union traits') t := by
  cases t with
  | var w =>
    intro bound hbound
    rcases TraitSet.mem_union.mp hbound with hbound | hbound
    · exact h bound hbound
    · exact h' bound hbound
  | app head args =>
    intro bound hbound
    rcases TraitSet.mem_union.mp hbound with hbound | hbound
    · exact h bound hbound
    · exact h' bound hbound

end Registry

/-- The types of the given variables have the traits that these ask for. -/
def Assignment.Respects (θ : Assignment) (registry : Registry) (V : Set TyVar) : Prop :=
  ∀ v ∈ V, registry.Fits v.traits (θ v.id)

namespace Unifier

variable {registry : Registry} {D : Set TyVar} {u u' u'' : Unifier} {θ θ' θ'' : Assignment}
variable {x : TyVar}

/-- The variables known in the second state that the first leaves unbound. -/
def loose (D : Set TyVar) (u u' : Unifier) : Set TyVar :=
  {v | v ∈ u'.known D ∧ u.subst.find? v.id = none}

/-- The second assignment differs from the first only on variables drawn from
the first state to the second, and goes on to satisfy the bindings and respect
the traits. -/
structure Extension (registry : Registry) (D : Set TyVar) (u u' : Unifier)
    (θ θ' : Assignment) : Prop where
  agrees : ∀ id, id < u.next ∨ u'.next ≤ id → θ' id = θ id
  satisfies : θ'.Satisfies u'.subst
  respects : θ'.Respects registry (loose D u u')

theorem Steps.known_or_next (h : Steps registry (Knows D) u u') (hx : x ∈ u'.known D) :
    x ∈ u.known D ∨ u.next ≤ x.id := by
  induction h with
  | refl => exact .inl hx
  | tail hsteps hs ih =>
    obtain ⟨m, hm, hnew⟩ := hs.known_subset
    rcases hnew hx with rfl | hx
    · exact .inr (hm ▸ Steps.next_le hsteps)
    · exact ih hx

theorem loose_mono (hext : u.subst.Extends u'.subst) : loose D u' u' ⊆ loose D u u' := by
  rintro v ⟨hv, hfind⟩
  refine ⟨hv, ?_⟩
  cases hu : u.subst.find? v.id with
  | none => rfl
  | some t =>
    rw [hext v.id t hu] at hfind
    cases hfind

namespace Extension

theorem refl (hsat : θ.Satisfies u.subst) (hres : θ.Respects registry (loose D u u)) :
    Extension registry D u u θ θ :=
  ⟨fun _ _ => rfl, hsat, hres⟩

theorem apply_eq (h : Extension registry D u u' θ θ') {t : Ty} (ht : u.Owns t) :
    θ'.apply t = θ.apply t :=
  Assignment.apply_congr fun id hid => h.agrees id (.inl (ht.lt id hid))

theorem map_eq (h : Extension registry D u u' θ θ') {ts : List Ty} (hts : ∀ t ∈ ts, u.Owns t) :
    ts.map θ'.apply = ts.map θ.apply :=
  List.map_congr_left fun t ht => h.apply_eq (hts t ht)

theorem trans (h : Extension registry D u u' θ θ') (h' : Extension registry D u' u'' θ' θ'')
    (hu' : Consistent D u') (hnext : u.next ≤ u'.next)
    (hsteps : Steps registry (Knows D) u' u'') : Extension registry D u u'' θ θ'' := by
  refine ⟨?_, h'.satisfies, ?_⟩
  · intro id hid
    have hnext' := hsteps.next_le
    rcases hid with hid | hid
    · rw [h'.agrees id (.inl (lt_of_lt_of_le hid hnext)), h.agrees id (.inl hid)]
    · rw [h'.agrees id (.inr hid), h.agrees id (.inr (le_trans hnext' hid))]
  · rintro v ⟨hv, hfind⟩
    cases hbound : u'.subst.find? v.id with
    | none => exact h'.respects v ⟨hv, hbound⟩
    | some t =>
      have hlt := hu'.valid.key_lt v.id t hbound
      rcases hsteps.known_or_next hv with hv | hv
      · rw [h'.agrees v.id (.inl hlt)]
        exact h.respects v ⟨hv, hfind⟩
      · exact absurd hlt (Nat.not_lt.mpr hv)

/-- A merged variable stands for what both variables stand for. -/
theorem merge {v w : TyVar} (hv : Knows D u (.var v)) (hw : Knows D u (.var w))
    (hfv : u.subst.find? v.id = none) (hfw : u.subst.find? w.id = none) (hne : v.id ≠ w.id)
    (hsat : θ.Satisfies u.subst) (hres : θ.Respects registry (loose D u u))
    (heq : θ v.id = θ w.id) :
    Extension registry D u (u.merge v w).2 θ (Function.update θ u.next (θ v.id)) := by
  have hlv := hv.lt_next hv.var_mem
  have hlw := hw.lt_next hw.var_mem
  have hadm := admits_merged (w := w) hv.valid hlv hfv
  have hadm' := admits_merged_snd hv.valid hlv hlw hfv hfw hne
  have hold : ∀ id, id < u.next → Function.update θ u.next (θ v.id) id = θ id :=
    fun id hid => Function.update_of_ne (Nat.ne_of_lt hid) _ _
  have hnew : Function.update θ u.next (θ v.id) u.next = θ v.id := Function.update_self _ _ _
  refine ⟨?_, ?_, ?_⟩
  · rintro id (hid | hid)
    · exact hold id hid
    · exact Function.update_of_ne (Nat.ne_of_gt hid) _ _
  · have hsat' : Assignment.Satisfies (Function.update θ u.next (θ v.id)) u.subst := by
      intro id t hid
      rw [hold id (hv.valid.key_lt id t hid), hsat id t hid]
      apply Assignment.apply_congr
      intro w hw
      exact (hold w (hv.valid.vars_lt id t hid w hw)).symm
    apply (hsat'.insert hadm.not_self _).insert hadm'.not_self
    · rw [hold w.id hlw, Assignment.apply_var, ← heq]
      exact hnew.symm
    · rw [hold v.id hlv, Assignment.apply_var]
      exact hnew.symm
  · rintro x ⟨hx, hfind⟩
    rcases known_merge hv hw hfv hfw hne hx with rfl | hx
    · change registry.Fits _ (Function.update θ u.next (θ v.id) u.next)
      rw [hnew]
      have hfits := hres w ⟨hw.var_mem, hfw⟩
      rw [← heq] at hfits
      exact (hres v ⟨hv.var_mem, hfv⟩).union hfits
    · rw [hold x.id (hv.lt_next hx)]
      exact hres x ⟨hx, hfind⟩

end Extension

/-! Completeness of derivations. -/

variable {v : TyVar}

theorem Binds.complete {head : Head} {args : List Ty} {r : Except Failure Ty}
    (h : Binds registry u v head args r u') (hv : Knows D u (.var v))
    (ht : Knows D u (.app head args)) (hfv : u.subst.find? v.id = none)
    (hsat : θ.Satisfies u.subst) (hres : θ.Respects registry (loose D u u))
    (heq : θ v.id = θ.apply (.app head args)) :
    (∃ c, r = .ok c) ∧ Extension registry D u u' θ θ := by
  have hresolved : θ v.id = θ.apply (u.resolve (.app head args)) :=
    heq.trans (hsat.apply_apply ht.valid.acyclic _).symm
  have hself : ¬(u.resolve (.app head args)).mentions v.id = true := by
    rw [resolve_app ht.valid] at hresolved ⊢
    exact Assignment.not_mentions hresolved
  have hfits := hres v ⟨hv.var_mem, hfv⟩
  rw [heq, Assignment.apply_app] at hfits
  have hev : registry.firstMissing head.con v.traits = none :=
    Registry.firstMissing_eq_none.mpr hfits
  cases h with
  | infinite hinf => exact absurd hinf hself
  | missing _ hmissing =>
    rw [hev] at hmissing
    cases hmissing
  | bound =>
    refine ⟨⟨_, rfl⟩, fun _ _ => rfl, hsat.insert hself hresolved, ?_⟩
    rintro x ⟨hx, hfind⟩
    exact hres x ⟨known_assign ht hself hx, hfind⟩

mutual

theorem Unifies.complete : ∀ {u u' : Unifier} {a b : Ty} {r : Except Failure Ty}
    {θ : Assignment}, Unifies registry u a b r u' → Knows D u a → Knows D u b →
      θ.Satisfies u.subst → θ.Respects registry (loose D u u) → θ.apply a = θ.apply b →
      (∃ c, r = .ok c) ∧ ∃ θ', Extension registry D u u' θ θ'
  | _, _, _, _, _, θ, .same _ _ _, _, _, hsat, hres, _ => ⟨⟨_, rfl⟩, θ, .refl hsat hres⟩
  | _, _, _, _, _, θ, .merged ha hb hne, hKa, hKb, hsat, hres, heq => by
    have hac := hKa.valid.acyclic
    replace heq := hsat.deref_eq hac ha hb heq
    exact ⟨⟨_, rfl⟩, _, .merge (hKa.deref ha) (hKb.deref hb)
      (Subst.find?_of_deref_eq_var hac ha) (Subst.find?_of_deref_eq_var hac hb) hne hsat hres heq⟩
  | _, _, _, _, _, θ, .left ha hb hbind, hKa, hKb, hsat, hres, heq => by
    have hac := hKa.valid.acyclic
    replace heq := hsat.deref_eq hac ha hb heq
    have hdone := hbind.complete (hKa.deref ha) (hKb.deref hb)
      (Subst.find?_of_deref_eq_var hac ha) hsat hres heq
    exact ⟨hdone.1, θ, hdone.2⟩
  | _, _, _, _, _, θ, .right ha hb hbind, hKa, hKb, hsat, hres, heq => by
    have hac := hKa.valid.acyclic
    replace heq := hsat.deref_eq hac ha hb heq
    have hdone := hbind.complete (hKb.deref hb) (hKa.deref ha)
      (Subst.find?_of_deref_eq_var hac hb) hsat hres heq.symm
    exact ⟨hdone.1, θ, hdone.2⟩
  | _, _, _, _, _, θ, .clash ha hb hne, hKa, hKb, hsat, hres, heq => by
    have hac := hKa.valid.acyclic
    replace heq := hsat.deref_eq hac ha hb heq
    rw [Assignment.apply_app, Assignment.apply_app] at heq
    obtain ⟨hhead, hargs⟩ := Ty.app.inj heq
    have hlen := congrArg List.length hargs
    rw [List.length_map, List.length_map] at hlen
    exact absurd ⟨hhead, hlen⟩ hne
  | _, _, _, _, _, θ, .args ha hb _ hall, hKa, hKb, hsat, hres, heq => by
    have hac := hKa.valid.acyclic
    replace heq := hsat.deref_eq hac ha hb heq
    rw [Assignment.apply_app, Assignment.apply_app] at heq
    obtain ⟨⟨cs, hcs⟩, hext⟩ := hall.complete (fun t ht => (hKa.deref ha).arg ht)
      (fun _ ht => (hKb.deref hb).arg ht) hKa.toConsistent hsat hres (Ty.app.inj heq).2
    subst hcs
    exact ⟨⟨_, rfl⟩, hext⟩

theorem UnifiesAll.complete : ∀ {u u' : Unifier} {as bs : List Ty}
    {r : Except Failure (List Ty)} {θ : Assignment}, UnifiesAll registry u as bs r u' →
      (∀ t ∈ as, Knows D u t) → (∀ t ∈ bs, Knows D u t) → Consistent D u →
      θ.Satisfies u.subst → θ.Respects registry (loose D u u) → as.map θ.apply = bs.map θ.apply →
      (∃ cs, r = .ok cs) ∧ ∃ θ', Extension registry D u u' θ θ'
  | _, _, _, _, _, θ, .nil, _, _, _, hsat, hres, _ => ⟨⟨_, rfl⟩, θ, .refl hsat hres⟩
  | _, _, _, _, _, θ, .stop h, hKas, hKbs, _, hsat, hres, heq => by
    rw [List.map_cons, List.map_cons] at heq
    obtain ⟨⟨c, hc⟩, _⟩ := h.complete (hKas _ List.mem_cons_self) (hKbs _ List.mem_cons_self)
      hsat hres (List.cons.inj heq).1
    cases hc
  | _, _, _, _, _, θ, .cons h hall, hKas, hKbs, hu, hsat, hres, heq => by
    rw [List.map_cons, List.map_cons] at heq
    have hKa := hKas _ List.mem_cons_self
    have hKb := hKbs _ List.mem_cons_self
    have hclosed := closed_knows registry D
    have hsteps := h.steps hclosed hKa hKb
    have hu' := hu.steps hsteps
    have hsubst := (hsteps.mono fun _ _ h => h.owns).extends
    obtain ⟨_, θ1, hext⟩ := h.complete hKa hKb hsat hres (List.cons.inj heq).1
    have hKas' := fun t ht => hclosed.steps hsteps (hKas t (List.mem_cons_of_mem _ ht))
    have hKbs' := fun t ht => hclosed.steps hsteps (hKbs t (List.mem_cons_of_mem _ ht))
    have has := hext.map_eq fun t ht => (hKas t (List.mem_cons_of_mem _ ht)).owns
    have hbs := hext.map_eq fun t ht => (hKbs t (List.mem_cons_of_mem _ ht)).owns
    obtain ⟨⟨cs, hcs⟩, θ2, hext'⟩ := hall.complete hKas' hKbs' hu' hext.satisfies
      (fun v hv => hext.respects v (loose_mono hsubst hv))
      (has.trans ((List.cons.inj heq).2.trans hbs.symm))
    have hrest := hall.steps hclosed hKas' hKbs'
    subst hcs
    exact ⟨⟨_, rfl⟩, θ2, hext.trans hext' hu' hsteps.next_le hrest⟩

end

/-! A state read as an assignment. -/

variable {t : Ty}

open Classical in
/-- What the known variables stand for in a state. -/
noncomputable def reading (D : Set TyVar) (u : Unifier) : Assignment := fun id =>
  match u.subst.find? id with
  | some t => u.resolve t
  | none => if h : ∃ v ∈ u.known D, v.id = id then .var h.choose else .var ⟨id, "", ∅⟩

theorem reading_bound {id : VarId} (h : u.subst.find? id = some t) :
    reading D u id = u.resolve t := by
  rw [reading, h]

theorem reading_var (hu : Consistent D u) (hv : v ∈ u.known D) :
    reading D u v.id = u.resolve (.var v) := by
  cases hfind : u.subst.find? v.id with
  | some t =>
    rw [reading_bound hfind]
    exact (Subst.apply_bound hu.valid.acyclic hfind).symm
  | none =>
    have hex : ∃ w ∈ u.known D, w.id = v.id := ⟨v, hv, rfl⟩
    have heq : hex.choose = v := hu.unique _ hex.choose_spec.1 v hv hex.choose_spec.2
    have hres : u.resolve (.var v) = .var v := Subst.apply_unbound hu.valid.acyclic hfind
    simp only [reading, hfind]
    rw [dif_pos hex, heq, hres]

theorem reading_apply (ht : Knows D u t) : (reading D u).apply t = u.resolve t := by
  induction t with
  | var v => exact reading_var ht.toConsistent ht.var_mem
  | app head args ih =>
    rw [Assignment.apply_app, resolve_app ht.valid]
    congr 1
    exact List.map_congr_left fun s hs => ih s hs (ht.arg hs)

/-- A later state satisfies the bindings of an earlier one. -/
theorem reading_satisfies (hu' : Consistent D u') (hext : u.subst.Extends u'.subst) :
    (reading D u').Satisfies u.subst := by
  intro id t hfind
  have hfind' := hext id t hfind
  rw [reading_bound hfind', reading_apply ⟨hu', fun _ hv => .inr ⟨id, t, hfind', hv⟩⟩]

theorem Step.fits_resolve (hs : Step registry (Knows D) u u') (hu : Consistent D u)
    (hx : x ∈ u'.known D) (hfind : u.subst.find? x.id = none) :
    registry.Fits x.traits (u'.resolve (.var x)) := by
  have hu' := hu.step hs
  have hmono := hs.known_mono
  have hself : u'.subst.find? x.id = none → registry.Fits x.traits (u'.resolve (.var x)) := by
    intro hnone
    rw [resolve, Subst.apply_unbound hu'.valid.acyclic hnone]
    exact fun _ hbound => hbound
  cases h : hs with
  | @merge v w hv hw hfv hfw hne =>
    have hlv := hv.lt_next hv.var_mem
    have hlw := hw.lt_next hw.var_mem
    obtain ⟨hresv, hresw⟩ := resolve_merge hv.valid hlv hlw hfv hfw hne
    have hkey : ∀ y : TyVar, y.id ≠ v.id → y.id ≠ w.id → u.subst.find? y.id = none →
        (u.merge v w).2.subst.find? y.id = none := by
      intro y hyv hyw hy
      rw [find?_merge hlv hlw, if_neg (by rintro (h | h) <;> contradiction), hy]
    have hmerged : (u.merge v w).2.resolve (.var (u.mergedVar v w)) = .var (u.mergedVar v w) :=
      Subst.apply_unbound hu'.valid.acyclic (hkey (u.mergedVar v w) (Nat.ne_of_gt hlv)
        (Nat.ne_of_gt hlw) (hu.valid.find?_next (le_refl u.next)))
    by_cases hxv : x.id = v.id
    · rw [hu'.unique x hx v (hmono hv.var_mem) hxv, hresv, hmerged]
      exact fun _ hbound => TraitSet.mem_union.mpr (.inl hbound)
    · by_cases hxw : x.id = w.id
      · rw [hu'.unique x hx w (hmono hw.var_mem) hxw, hresw, hmerged]
        exact fun _ hbound => TraitSet.mem_union.mpr (.inr hbound)
      · exact hself (hkey x hxv hxw hfind)
  | @bind v head args hv ht hfv hnot hev =>
    by_cases hxv : x.id = v.id
    · obtain ⟨hresv, hresapp⟩ := resolve_assign ht.owns hfv hnot
      rw [hu'.unique x hx v (hmono hv.var_mem) hxv, hresv, ← hresapp, resolve_app hu'.valid]
      exact Registry.firstMissing_eq_none.mp hev
    · apply hself
      change (u.subst.insert v.id _).find? x.id = none
      rw [Subst.find?_insert hnot, if_neg hxv, hfind]

/-- A step takes no trait from what a type stands for: a compound type stays so,
and a variable comes to stand for something with its traits. -/
theorem Step.fits_later (hs : Step registry (Knows D) u u') {traits : TraitSet} (ht : Knows D u t)
    (h : registry.Fits traits (u.resolve t)) : registry.Fits traits (u'.resolve t) := by
  have hu := ht.toConsistent
  have hu' := hu.step hs
  have hext := (hs.mono fun _ _ h => h.owns).extends
  have hres : u'.resolve (u.resolve t) = u'.resolve t :=
    hext.apply_apply hu.valid.acyclic hu'.valid.acyclic _
  rw [← hres]
  cases hnow : u.resolve t with
  | app head args =>
    rw [hnow] at h
    rw [resolve_app hu'.valid]
    exact h
  | var y =>
    have hy : y ∈ u.known D := (hnow ▸ ht.resolve).var_mem
    have hfy : u.subst.find? y.id = none := by
      apply Subst.find?_of_mentions_apply hu.valid.acyclic (t := t)
      change (u.resolve t).mentions y.id = true
      rw [hnow]
      exact Ty.mentions_var.mpr rfl
    rw [hnow] at h
    exact (hs.fits_resolve hu (hs.known_mono hy) hfy).mono h

/-- Whatever comes to stand for a variable has its traits. -/
theorem Steps.fits_resolve (hs : Steps registry (Knows D) u u') (hu : Consistent D u) {x : TyVar}
    (hx : x ∈ u'.known D) (hfind : u.subst.find? x.id = none) :
    registry.Fits x.traits (u'.resolve (.var x)) := by
  induction hs with
  | refl =>
    rw [resolve, Subst.apply_unbound hu.valid.acyclic hfind]
    exact fun _ hbound => hbound
  | @tail u1 u2 hsteps hs ih =>
    have hu1 := hu.steps hsteps
    obtain ⟨m, hm, hnew⟩ := hs.known_subset
    rcases hnew hx with rfl | hx1
    · exact hs.fits_resolve hu1 hx (hu1.valid.find?_next (Nat.le_of_eq hm.symm))
    · exact hs.fits_later ⟨hu1, fun _ hy => Ty.mem_vars_var.mp hy ▸ hx1⟩ (ih hx1)

/-! Lists of calls. -/

variable {pairs : List (Ty × Ty)} {r : Except Failure (List Ty)}

/-- Unifies the pairs one after the other, up to the first failure. -/
def unifyPairs (registry : Registry) (pairs : List (Ty × Ty)) : UnifyM (List Ty) :=
  unifyAll (unify registry) (pairs.map Prod.fst) (pairs.map Prod.snd)

theorem forall_fst_snd {α β : Type} {P : α → Prop} {Q : β → Prop} {pairs : List (α × β)}
    (h : ∀ p ∈ pairs, P p.1 ∧ Q p.2) :
    (∀ a ∈ pairs.map Prod.fst, P a) ∧ ∀ b ∈ pairs.map Prod.snd, Q b :=
  ⟨List.forall_mem_map.mpr fun p hp => (h p hp).1,
    List.forall_mem_map.mpr fun p hp => (h p hp).2⟩

theorem unifiesAll_unifyPairs (hpairs : ∀ p ∈ pairs, u.Owns p.1 ∧ u.Owns p.2)
    (h : (unifyPairs registry pairs).run.run u = (r, u')) :
    UnifiesAll registry u (pairs.map Prod.fst) (pairs.map Prod.snd) r u' := by
  have hclosed := closed_owns registry
  obtain ⟨hfst, hsnd⟩ := forall_fst_snd hpairs
  exact unifiesAll_of_run (P := Owns) hclosed (fun h => h) (fun ht hs => hclosed.steps hs ht)
    unifies_unify (by simp) hfst hsnd h

/-- Calls on the same pairs in any other order do no more: what types resolve
to after the second list is at least as general. -/
theorem unifyPairs_general (hu : Consistent D u) {pairs' : List (Ty × Ty)}
    (hpairs : ∀ p ∈ pairs, Knows D u p.1 ∧ Knows D u p.2) (hsub : ∀ p ∈ pairs', p ∈ pairs)
    {cs : List Ty} (h : (unifyPairs registry pairs).run.run u = (.ok cs, u'))
    (h' : (unifyPairs registry pairs').run.run u = (r, u'')) : (∃ cs', r = .ok cs') ∧
      ∃ ρ : Assignment, ∀ t, Knows D u t → ρ.apply (u''.resolve t) = u'.resolve t := by
  have hpairs' : ∀ p ∈ pairs', Knows D u p.1 ∧ Knows D u p.2 := fun p hp => hpairs p (hsub p hp)
  have hclosed := closed_knows registry D
  have hall := unifiesAll_unifyPairs (fun p hp => (hpairs p hp).imp Knows.owns Knows.owns) h
  have hall' := unifiesAll_unifyPairs (fun p hp => (hpairs' p hp).imp Knows.owns Knows.owns) h'
  obtain ⟨hfst, hsnd⟩ := forall_fst_snd hpairs
  obtain ⟨hfst', hsnd'⟩ := forall_fst_snd hpairs'
  have hsteps := hall.steps hclosed hfst hsnd
  have hu' := hu.steps hsteps
  have hext := (hsteps.mono fun _ _ h => h.owns).extends
  -- the state after the first list solves every pair, so the second list cannot fail
  have hequal : ∀ p ∈ pairs, u'.resolve p.1 = u'.resolve p.2 := by
    obtain ⟨hleft, hright⟩ := hall.agree hfst hsnd rfl
    have hlists := hleft.trans hright.symm
    rw [List.map_map, List.map_map] at hlists
    exact List.map_inj_left.mp hlists
  have hlater : ∀ {t}, Knows D u t → (reading D u').apply t = u'.resolve t :=
    fun ht => reading_apply (hclosed.steps hsteps ht)
  have hsat := reading_satisfies hu' hext
  have hres : (reading D u').Respects registry (loose D u u) := by
    rintro v ⟨hv, hfind⟩
    have hv' : v ∈ u'.known D := Set.union_subset_union_right D hext.vars_subset hv
    rw [reading_var hu' hv']
    exact hsteps.fits_resolve hu hv' hfind
  have hsolved : (pairs'.map Prod.fst).map (reading D u').apply =
      (pairs'.map Prod.snd).map (reading D u').apply := by
    rw [List.map_map, List.map_map]
    apply List.map_congr_left
    intro p hp
    obtain ⟨h1, h2⟩ := hpairs' p hp
    exact (hlater h1).trans ((hequal p (hsub p hp)).trans (hlater h2).symm)
  obtain ⟨hok, ρ, hρ⟩ := hall'.complete hfst' hsnd' hu hsat hres hsolved
  have hu'' := hu.steps (hall'.steps hclosed hfst' hsnd')
  refine ⟨hok, ρ, ?_⟩
  intro t ht
  calc ρ.apply (u''.resolve t) = ρ.apply t := hρ.satisfies.apply_apply hu''.valid.acyclic t
    _ = (reading D u').apply t := hρ.apply_eq ht.owns
    _ = u'.resolve t := hlater ht

/-! Calls in a session. -/

/-- The assignment satisfies the bindings, and the drawn variables that have
none get types with their traits. -/
structure Admissible (registry : Registry) (D : Set TyVar) (u : Unifier) (θ : Assignment) :
    Prop where
  satisfies : θ.Satisfies u.subst
  respects : θ.Respects registry {v ∈ D | u.subst.find? v.id = none}

/-- What types resolve to in either state is an instance, by one assignment, of
what they resolve to in the other. -/
def Variants (D : Set TyVar) (u u' : Unifier) : Prop :=
  ∃ ρ ρ' : Assignment, ∀ t : Ty, t.Over D →
    ρ.apply (u.resolve t) = u'.resolve t ∧ ρ'.apply (u'.resolve t) = u.resolve t

theorem Session.loose_eq (h : Session D u) : loose D u u = {v ∈ D | u.subst.find? v.id = none} := by
  rw [loose, h.known_eq]

theorem Session.complete (hsession : Session D u) {a b : Ty} (ha : a.Over D) (hb : b.Over D)
    (hθ : u.Admissible registry D θ) (heq : θ.apply a = θ.apply b) {r : Except Failure Ty}
    (h : (unify registry a b).run.run u = (r, u')) :
    (∃ c, r = .ok c) ∧ ∃ θ', Extension registry D u u' θ θ' := by
  have hKa := hsession.knows ha
  have hKb := hsession.knows hb
  exact (unifies_unify hKa.owns hKb.owns h).complete hKa hKb hθ.satisfies
    (hsession.loose_eq ▸ hθ.respects) heq

/-- In a session, a call fails only if no assignment makes the two types equal.
If one does, then the call succeeds, and only the variables that it merges
others into have to be told what they stand for. Calls on several pairs of
types may be made in any order: all succeed or not all succeed, and if they do,
types resolve to the same up to the names of variables. -/
theorem unify_complete (hsession : Session D u) (registry : Registry) :
    (∀ a b : Ty, a.Over D → b.Over D →
      ∀ θ : Assignment, u.Admissible registry D θ → θ.apply a = θ.apply b →
        ∃ c u', (unify registry a b).run.run u = (.ok c, u') ∧
          ∃ θ' : Assignment, (∀ id, id < u.next ∨ u'.next ≤ id → θ' id = θ id) ∧
            θ'.Satisfies u'.subst ∧ θ'.Respects registry {v ∈ u'.subst.vars | u.next ≤ v.id}) ∧
    (∀ a b : Ty, a.Over D → b.Over D →
      ∀ failure u', (unify registry a b).run.run u = (.error failure, u') →
        ¬∃ θ : Assignment, u.Admissible registry D θ ∧ θ.apply a = θ.apply b) ∧
    (∀ pairs pairs' : List (Ty × Ty), pairs.Perm pairs' → (∀ p ∈ pairs, p.1.Over D ∧ p.2.Over D) →
      ∀ r u₁ r' u₂, (unifyPairs registry pairs).run.run u = (r, u₁) →
        (unifyPairs registry pairs').run.run u = (r', u₂) →
        ((∃ cs, r = .ok cs) ↔ ∃ cs', r' = .ok cs') ∧ ((∃ cs, r = .ok cs) → Variants D u₁ u₂)) := by
  refine ⟨?_, ?_, ?_⟩
  · intro a b ha hb θ hθ heq
    obtain ⟨⟨c, hc⟩, θ', hext⟩ := hsession.complete ha hb hθ heq rfl
    refine ⟨c, _, Prod.ext hc rfl, θ', hext.agrees, hext.satisfies, ?_⟩
    rintro v ⟨hv, hnew⟩
    exact hext.respects v ⟨.inr hv, hsession.consistent.valid.find?_next hnew⟩
  · rintro a b ha hb failure u' h ⟨θ, hθ, heq⟩
    obtain ⟨⟨c, hc⟩, _⟩ := hsession.complete ha hb hθ heq h
    cases hc
  · intro pairs pairs' hperm hover r u₁ r' u₂ h h'
    have hu := hsession.consistent
    have hpairs : ∀ p ∈ pairs, Knows D u p.1 ∧ Knows D u p.2 :=
      fun p hp => (hover p hp).imp hsession.knows hsession.knows
    have hpairs' : ∀ p ∈ pairs', Knows D u p.1 ∧ Knows D u p.2 :=
      fun p hp => hpairs p (hperm.mem_iff.mpr hp)
    have hforth : ∀ {cs}, r = .ok cs → _ := fun hr =>
      unifyPairs_general hu hpairs (fun p hp => hperm.mem_iff.mpr hp) (hr ▸ h) h'
    have hback : ∀ {cs}, r' = .ok cs → _ := fun hr =>
      unifyPairs_general hu hpairs' (fun _ hp => hperm.mem_iff.mp hp) (hr ▸ h') h
    refine ⟨⟨fun ⟨_, hr⟩ => (hforth hr).1, fun ⟨_, hr⟩ => (hback hr).1⟩, ?_⟩
    rintro ⟨cs, hr⟩
    obtain ⟨⟨cs', hr'⟩, ρ, hρ⟩ := hforth hr
    obtain ⟨_, ρ', hρ'⟩ := hback hr'
    exact ⟨ρ', ρ, fun t ht => ⟨hρ' t (hsession.knows ht), hρ t (hsession.knows ht)⟩⟩

/-- A variable is to be the same as another, and that one an integer, in both
orders. -/
theorem unify_complete_two_pairs :
    let v : Ty := .var ⟨0, "a", ∅⟩
    let w : Ty := .var ⟨1, "b", ∅⟩
    let u : Unifier := { next := 2 }
    Variants (insert ⟨1, "b", ∅⟩ (insert ⟨0, "a", ∅⟩ ∅))
      ((unifyPairs {} [(v, w), (w, .int)]).run.run u).2
      ((unifyPairs {} [(w, .int), (v, w)]).run.run u).2 := by
  intro v w u
  have hsession : Session _ u := .draw "b" ∅ (.draw "a" ∅ .start)
  obtain ⟨_, _, horder⟩ := unify_complete hsession {}
  refine (horder [(v, w), (w, .int)] _ (List.Perm.swap _ _ []) ?_ _ _ _ _ rfl rfl).2 ⟨_, rfl⟩
  simp [v, w, Ty.Over, Ty.vars, Ty.allVars, Unifier.freshVar, Ty.int, Ty.named, Ty.concrete]

end Unifier

end TraitCheck
