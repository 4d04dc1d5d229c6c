import TraitCheck.Proofs.Completeness
import TraitCheck.Proofs.Readings

/-!
Instances of a declaration. Its type parameters are replaced by new variables,
and these are unified one after the other with the type arguments at hand. A type
argument that is concrete is what its variable is bound to, if it has the traits
of the variable. One that is still a variable is merged with it, so that it gains
these traits. Nothing else happens to the types that were there before: their
variables are relabelled, each by a new one with the traits that were added
(`Relabels`).

The new variables that have not had their turn are kept apart from all else
(`Aside`). One of them after the other has it (`Aside.step`), and then all
(`Aside.run`).
-/

namespace TraitCheck

/-- If the type is concrete, there is evidence for each of the traits. -/
def Registry.Supports (registry : Registry) (traits : TraitSet) (ty : Ty) : Prop :=
  ∀ head args, ty = .app head args → ∀ bound ∈ traits,
    (registry.lookup head.con bound).isSome = true

theorem Registry.supports_app {registry : Registry} {traits : TraitSet} {head : Head}
    {args : List Ty} :
    registry.Supports traits (.app head args) ↔ registry.firstMissing head.con traits = none := by
  rw [firstMissing_eq_none]
  constructor
  · exact fun h => h head args rfl
  · rintro h _ _ ⟨⟩
    exact h

theorem Registry.supports_var (registry : Registry) (traits : TraitSet) (v : TyVar) :
    registry.Supports traits (.var v) := by
  rintro _ _ ⟨⟩

namespace Assignment

theorem hom_apply (θ : Assignment) : Ty.Hom θ.apply := ⟨apply_app θ⟩

/-- Variables in place of variables. -/
def relabel (ρ : VarId → TyVar) : Assignment := fun id => .var (ρ id)

theorem relabel_apply_relabel (ρ ρ' : VarId → TyVar) (t : Ty) :
    (relabel ρ').apply ((relabel ρ).apply t) = (relabel fun id => ρ' (ρ id).id).apply t :=
  ((hom_apply _).comp (hom_apply _)).congr (hom_apply _) fun _ _ => rfl

theorem supports_relabel {registry : Registry} {traits : TraitSet} {ρ : VarId → TyVar} {t : Ty} :
    registry.Supports traits ((relabel ρ).apply t) ↔ registry.Supports traits t := by
  cases t with
  | var v =>
    exact ⟨fun _ => registry.supports_var traits v, fun _ => registry.supports_var traits _⟩
  | app head args => rw [apply_app, Registry.supports_app, Registry.supports_app]

end Assignment

namespace Unifier

variable {registry : Registry} {K : Set TyVar} {u u' u'' : Unifier} {x : TyVar}
  {xs : List TyVar} {t : Ty} {ts : List Ty}

/-- What the types over the given variables resolve to in the second state is
what they resolve to in the first, up to new variables for those that some of the
pairs lead to. These are different for different variables, and gain the traits
in the pairs. -/
structure Relabels (K : Set TyVar) (u u' : Unifier) (pairs : List (TraitSet × Ty))
    (ρ : VarId → TyVar) : Prop where
  resolve : ∀ t : Ty, t.Over K → u'.resolve t = (Assignment.relabel ρ).apply (u.resolve t)
  kept : ∀ v ∈ K, (∀ p ∈ pairs, u.resolve p.2 ≠ .var v) → ρ v.id = v
  new : ∀ v ∈ K, ∀ p ∈ pairs, u.resolve p.2 = .var v → u.next ≤ (ρ v.id).id
  traits : ∀ v ∈ K, ∀ bound, bound ∈ (ρ v.id).traits ↔
    bound ∈ v.traits ∨ ∃ p ∈ pairs, u.resolve p.2 = .var v ∧ bound ∈ p.1
  injective : ∀ v ∈ K, ∀ w ∈ K, (ρ v.id).id = (ρ w.id).id → v = w

/-- The bindings are over the given variables, and the variables of the list are
different from these, unbound, and different from each other. -/
structure Aside (K : Set TyVar) (u : Unifier) (xs : List TyVar) : Prop extends
    Consistent K u where
  closed : u.subst.vars ⊆ K
  drawn : ∀ x ∈ xs, x.id < u.next
  unbound : ∀ x ∈ xs, u.subst.find? x.id = none
  apart : ∀ x ∈ xs, ∀ v ∈ K, v.id ≠ x.id
  nodup : (xs.map (·.id)).Nodup

/-- Variables that are known by their ids. -/
theorem Consistent.exists_named (h : Consistent K u) :
    ∃ ρ : VarId → TyVar, ∀ v ∈ K, ρ v.id = v := by
  classical
  refine ⟨fun id => if h : ∃ v ∈ K, v.id = id then h.choose else ⟨id, "", ∅⟩, fun v hv => ?_⟩
  have hex : ∃ w ∈ K, w.id = v.id := ⟨v, hv, rfl⟩
  refine (dif_pos hex).trans ?_
  exact h.unique _ (.inl hex.choose_spec.1) v (.inl hv) hex.choose_spec.2

/-- It is enough to say what unbound variables are relabelled by. -/
theorem resolve_relabelled (hext : u.subst.Extends u'.subst) (hu : u.Valid) (hu' : u'.Valid)
    {ρ : VarId → TyVar} (h : ∀ v ∈ (u.resolve t).vars, u'.resolve (.var v) = .var (ρ v.id)) :
    u'.resolve t = (Assignment.relabel ρ).apply (u.resolve t) := by
  calc u'.resolve t = u'.resolve (u.resolve t) := (hext.apply_apply hu.acyclic hu'.acyclic t).symm
    _ = (Assignment.relabel ρ).apply (u.resolve t) :=
      (hom_resolve hu').congr (Assignment.hom_apply _) h

/-! One state after the other. -/

namespace Relabels

variable {pairs pairs' : List (TraitSet × Ty)} {ρ ρ' : VarId → TyVar} {K' : Set TyVar}

theorem eq_var_iff (h : Relabels K u u' pairs ρ) (ht : t.Over K) (hover : (u.resolve t).Over K)
    {v : TyVar} (hv : v ∈ K) : u'.resolve t = .var (ρ v.id) ↔ u.resolve t = .var v := by
  rw [h.resolve t ht]
  cases hres : u.resolve t with
  | var w =>
    rw [hres] at hover
    have hw : w ∈ K := hover w (Ty.mem_vars_var.mpr rfl)
    constructor
    · intro heq
      exact congrArg Ty.var (h.injective w hw v hv (congrArg TyVar.id (Ty.var.inj heq)))
    · rintro ⟨⟩
      rfl
  | app head args =>
    rw [Assignment.apply_app]
    exact ⟨nofun, nofun⟩

theorem trans (h : Relabels K u u' pairs ρ) (h' : Relabels K' u' u'' pairs' ρ')
    (hnext : u.next ≤ u'.next) (hsub : K ⊆ K') (hmaps : ∀ v ∈ K, ρ v.id ∈ K')
    (hover : ∀ p ∈ pairs', p.2.Over K ∧ (u.resolve p.2).Over K) :
    Relabels K u u'' (pairs ++ pairs') fun id => ρ' (ρ id).id where
  resolve := fun t ht => by
    rw [h'.resolve t fun v hv => hsub (ht v hv), h.resolve t ht, Assignment.relabel_apply_relabel]
  kept := fun v hv hnone => by
    obtain ⟨hfirst, hsecond⟩ := List.forall_mem_append.mp hnone
    have hkept := h.kept v hv hfirst
    rw [hkept]
    refine h'.kept v (hsub hv) fun p hp heq => hsecond p hp ?_
    rw [← hkept] at heq
    exact (h.eq_var_iff (hover p hp).1 (hover p hp).2 hv).mp heq
  new := fun v hv p hp heq => by
    by_cases hlater : ∀ p ∈ pairs', u'.resolve p.2 ≠ .var (ρ v.id)
    · rw [h'.kept (ρ v.id) (hmaps v hv) hlater]
      rcases List.mem_append.mp hp with hp | hp
      · exact h.new v hv p hp heq
      · exact absurd ((h.eq_var_iff (hover p hp).1 (hover p hp).2 hv).mpr heq) (hlater p hp)
    · push Not at hlater
      obtain ⟨q, hq, hres⟩ := hlater
      exact hnext.trans (h'.new (ρ v.id) (hmaps v hv) q hq hres)
  traits := fun v hv bound => by
    have hlater : (∃ p ∈ pairs', u'.resolve p.2 = .var (ρ v.id) ∧ bound ∈ p.1) ↔
        ∃ p ∈ pairs', u.resolve p.2 = .var v ∧ bound ∈ p.1 := by
      refine exists_congr fun p => and_congr_right fun hp => and_congr_left fun _ => ?_
      exact h.eq_var_iff (hover p hp).1 (hover p hp).2 hv
    rw [h'.traits (ρ v.id) (hmaps v hv), h.traits v hv, hlater, or_assoc]
    refine or_congr_right ?_
    simp only [List.mem_append, or_and_right, exists_or]
  injective := fun v hv w hw heq =>
    h.injective v hv w hw (congrArg TyVar.id (h'.injective _ (hmaps v hv) _ (hmaps w hw) heq))

/-- Nothing that is a variable is met, and nothing else changes. -/
theorem of_resolve_eq (hu : Consistent K u)
    (hsame : ∀ t : Ty, t.Over K → u'.resolve t = u.resolve t)
    (hover : ∀ t : Ty, t.Over K → (u.resolve t).Over K)
    (hpairs : ∀ p ∈ pairs, ∀ v, u.resolve p.2 ≠ .var v) (hρ : ∀ v ∈ K, ρ v.id = v) :
    Relabels K u u' pairs ρ where
  resolve := fun t ht => by
    rw [hsame t ht]
    exact ((Assignment.relabel ρ).hom_apply.eq_self fun v hv =>
      congrArg Ty.var (hρ v (hover t ht v hv))).symm
  kept := fun v hv _ => hρ v hv
  new := fun v _ p hp heq => absurd heq (hpairs p hp v)
  traits := fun v hv _ => by
    rw [hρ v hv]
    refine ⟨.inl, fun h => h.resolve_right ?_⟩
    rintro ⟨p, hp, heq, _⟩
    exact hpairs p hp v heq
  injective := fun v hv w hw heq => by
    rw [hρ v hv, hρ w hw] at heq
    exact hu.unique v (.inl hv) w (.inl hw) heq

end Relabels

/-! A variable that was kept aside has its turn. -/

namespace Aside

theorem known_eq (h : Aside K u xs) : u.known K = K := Set.union_eq_self_of_subset_right h.closed

theorem knows (h : Aside K u xs) (ht : t.Over K) : Knows K u t :=
  ⟨h.toConsistent, fun v hv => .inl (ht v hv)⟩

theorem over_resolve (h : Aside K u xs) (ht : t.Over K) : (u.resolve t).Over K := by
  have hknown := (h.knows ht).resolve.known_vars
  rwa [h.known_eq] at hknown

theorem over_deref (h : Aside K u xs) (ht : t.Over K) : (u.subst.deref t).Over K := by
  have hknown := ((h.knows ht).deref rfl).known_vars
  rwa [h.known_eq] at hknown

theorem not_mentions (h : Aside K u xs) (hx : x ∈ xs) (ht : t.Over K) :
    ¬t.mentions x.id = true := by
  intro hmentions
  obtain ⟨v, hv, hid⟩ := Ty.mentions_iff.mp hmentions
  exact h.apart x hx v (ht v hv) hid

theorem owns (h : Aside K u xs) (hx : x ∈ xs) : u.Owns (.var x) :=
  ⟨h.valid, fun _ hw => Ty.mentions_var.mp hw ▸ h.drawn x hx⟩

theorem ne_head (h : Aside K u (x :: xs)) {y : TyVar} (hy : y ∈ xs) : y.id ≠ x.id :=
  fun heq => (List.nodup_cons.mp h.nodup).1 (List.mem_map.mpr ⟨y, hy, heq⟩)

/-! It meets another variable, and both are merged. -/

variable {w : TyVar}

theorem step_merge (h : Aside K u (x :: xs)) (hw : w ∈ K) (hfree : u.subst.find? w.id = none) :
    Step {} Owns u (u.merge x w).2 :=
  have hx : x ∈ x :: xs := List.mem_cons_self
  .merge (h.owns hx) ⟨h.valid, fun _ hid => Ty.mentions_var.mp hid ▸ h.lt w hw⟩ (h.unbound x hx)
    hfree (h.apart x hx w hw).symm

/-- Of what is not kept aside, only the other variable is bound. -/
theorem find?_merge (h : Aside K u (x :: xs)) {w : TyVar} (hw : w ∈ K) {id : VarId}
    (hx : id ≠ x.id) : (u.merge x w).2.subst.find? id =
      if id = w.id then some (.var (u.mergedVar x w)) else u.subst.find? id := by
  rw [Unifier.find?_merge (h.drawn x List.mem_cons_self) (h.lt w hw)]
  simp only [hx, or_false]

theorem merge (h : Aside K u (x :: xs)) {w : TyVar} (hw : w ∈ K)
    (hfree : u.subst.find? w.id = none) :
    Aside (insert (u.mergedVar x w) K) (u.merge x w).2 xs := by
  have hstep := h.step_merge hw hfree
  have hvars : (u.merge x w).2.subst.vars ⊆ insert (u.mergedVar x w) K := by
    rintro v ⟨id, s, hid, hv⟩
    rw [Unifier.find?_merge (h.drawn x List.mem_cons_self) (h.lt w hw)] at hid
    split at hid
    · cases hid
      exact .inl (Ty.mem_vars_var.mp hv)
    · exact .inr (h.closed ⟨id, s, hid, hv⟩)
  refine ⟨?_, hvars, fun y hy => ?_, fun y hy => ?_, fun y hy v hv => ?_,
    (List.nodup_cons.mp h.nodup).2⟩
  · refine h.toConsistent.grow hstep.valid ?_ (m := u.mergedVar x w) rfl ?_
    · rintro v (rfl | hv)
      · exact Nat.lt_succ_self u.next
      · exact Nat.lt_succ_of_lt (h.lt v hv)
    · rw [known, Set.union_eq_self_of_subset_right hvars, h.known_eq]
  · exact Nat.lt_succ_of_lt (h.drawn y (List.mem_cons_of_mem x hy))
  · have hy' := List.mem_cons_of_mem x hy
    rw [h.find?_merge hw (h.ne_head hy), if_neg (h.apart y hy' w hw).symm]
    exact h.unbound y hy'
  · have hy' := List.mem_cons_of_mem x hy
    rcases hv with rfl | hv
    · exact (Nat.ne_of_lt (h.drawn y hy')).symm
    · exact h.apart y hy' v hv

theorem resolve_merge (h : Aside K u (x :: xs)) (hw : w ∈ K) (hfree : u.subst.find? w.id = none)
    {v : TyVar} (hv : v ∈ K) (hvfree : u.subst.find? v.id = none) :
    (u.merge x w).2.resolve (.var v) = .var (if v.id = w.id then u.mergedVar x w else v) := by
  have hx : x ∈ x :: xs := List.mem_cons_self
  have hac := (h.step_merge hw hfree).valid.acyclic
  have hfind := h.find?_merge hw (h.apart x hx v hv)
  split
  · rename_i hid
    rw [if_pos hid] at hfind
    rw [Unifier.resolve, Subst.apply_bound hac hfind]
    -- the merged variable is newer than both
    apply Subst.apply_unbound hac
    refine (h.find?_merge hw (Nat.ne_of_lt (h.drawn x hx)).symm).trans ?_
    rw [if_neg (Nat.ne_of_lt (h.lt w hw)).symm]
    exact h.valid.find?_next le_rfl
  · rename_i hid
    rw [if_neg hid, hvfree] at hfind
    exact Subst.apply_unbound hac hfind

/-- The other variable is relabelled, and no other. -/
theorem relabels_merge (h : Aside K u (x :: xs)) (hw : w ∈ K) (hfree : u.subst.find? w.id = none)
    (ht : u.resolve t = .var w) : ∃ ρ, Relabels K u (u.merge x w).2 [(x.traits, t)] ρ ∧
      ∀ v ∈ K, ρ v.id ∈ insert (u.mergedVar x w) K := by
  obtain ⟨name, hname⟩ := h.exists_named
  let ρ : VarId → TyVar := fun id => if id = w.id then u.mergedVar x w else name id
  have hρ : ∀ v ∈ K, ρ v.id = if v.id = w.id then u.mergedVar x w else v := by
    intro v hv
    simp only [ρ, hname v hv]
  have heq : ∀ v ∈ K, v.id = w.id → v = w := fun v hv hid => h.unique v (.inl hv) w (.inl hw) hid
  have hres : ∀ v ∈ K, u.resolve t = .var v ↔ v.id = w.id := by
    intro v hv
    rw [ht]
    exact ⟨by rintro ⟨⟩; rfl, fun hid => congrArg Ty.var (heq v hv hid).symm⟩
  refine ⟨ρ, ⟨fun _ hs => ?_, fun v hv hnone => ?_, fun v hv _ hp hmet => ?_,
    fun v hv _ => ?_, fun v hv v' hv' hid => ?_⟩, fun v hv => ?_⟩
  · have hstep := h.step_merge hw hfree
    refine resolve_relabelled hstep.extends h.valid hstep.valid fun v hv => ?_
    have hvK := h.over_resolve hs v hv
    rw [hρ v hvK]
    exact h.resolve_merge hw hfree hvK
      (Subst.find?_of_mentions_apply h.valid.acyclic (Ty.mentions_of_mem_vars hv))
  · rw [hρ v hv, if_neg]
    exact fun hid => hnone (x.traits, t) (List.mem_singleton.mpr rfl) ((hres v hv).mpr hid)
  · obtain rfl := List.mem_singleton.mp hp
    rw [hρ v hv, if_pos ((hres v hv).mp hmet)]
    exact le_rfl
  · rw [hρ v hv]
    simp only [List.mem_singleton, exists_eq_left, hres v hv]
    split
    · rename_i hid
      simp only [true_and, heq v hv hid]
      exact TraitSet.mem_union.trans or_comm
    · rename_i hid
      simp only [hid, false_and, or_false]
  · have hlt := h.lt v hv
    have hlt' := h.lt v' hv'
    rw [hρ v hv, hρ v' hv'] at hid
    split at hid <;> split at hid
    · rename_i hvw hvw'
      rw [heq v hv hvw, heq v' hv' hvw']
    · exact absurd hid (Nat.ne_of_gt hlt')
    · exact absurd hid (Nat.ne_of_lt hlt)
    · exact h.unique v (.inl hv) v' (.inl hv') hid
  · rw [hρ v hv]
    split
    · exact .inl rfl
    · exact .inr hv

/-! It meets a concrete type and is bound to it. -/

theorem bind (h : Aside K u (x :: xs)) (ht : t.Over K) : Aside K (u.assign x.id (u.resolve t)) xs ∧
      ∀ s : Ty, s.Over K → (u.assign x.id (u.resolve t)).resolve s = u.resolve s := by
  have hx : x ∈ x :: xs := List.mem_cons_self
  have hself := h.not_mentions hx (h.over_resolve ht)
  have hadm := (h.knows ht).owns.admits_resolve (h.unbound x hx) hself
  have hvalid : (u.assign x.id (u.resolve t)).Valid :=
    h.valid.assign hadm (h.drawn x hx) fun _ hid => (h.knows ht).owns.resolve_lt hid
  have hvars : (u.assign x.id (u.resolve t)).subst.vars ⊆ K := fun v hv =>
    (Subst.vars_insert hself hv).elim (fun hv => h.closed hv) fun hv => h.over_resolve ht v hv
  constructor
  · refine ⟨⟨hvalid, h.lt, ?_⟩, hvars, fun y hy => h.drawn y (List.mem_cons_of_mem x hy),
      fun y hy => ?_, fun y hy => h.apart y (List.mem_cons_of_mem x hy),
      (List.nodup_cons.mp h.nodup).2⟩
    · rw [known, Set.union_eq_self_of_subset_right hvars]
      exact fun v hv w hw => h.unique v (.inl hv) w (.inl hw)
    · rw [assign, Subst.find?_insert hself, if_neg (h.ne_head hy)]
      exact h.unbound y (List.mem_cons_of_mem x hy)
  · intro s hs
    rw [Unifier.resolve, assign, Subst.apply_insert h.valid.acyclic hadm]
    apply Ty.replace_eq_self
    intro id hid
    refine if_neg fun heq => h.not_mentions hx (h.over_resolve hs) ?_
    rwa [← heq]

/-! Either of both. -/

/-- The variable that has its turn is unified with a type: this succeeds if the
type supports its traits, and then relabels the variable that the type stands
for, if it stands for one. -/
theorem step {r : Except Failure Ty} (h : Aside K u (x :: xs)) (ht : t.Over K)
    (hrun : Unifies registry u (.var x) t r u') :
    ((∃ c, r = .ok c) ↔ registry.Supports x.traits (u.resolve t)) ∧
      ((∃ c, r = .ok c) → ∃ K' ρ, K ⊆ K' ∧ Aside K' u' xs ∧ u.next ≤ u'.next ∧
        Relabels K u u' [(x.traits, t)] ρ ∧ ∀ v ∈ K, ρ v.id ∈ K') := by
  have hx : x ∈ x :: xs := List.mem_cons_self
  have hderef := Subst.deref_unbound u.subst (h.unbound x hx)
  have hres : u.resolve (u.subst.deref t) = u.resolve t := Subst.apply_deref h.valid.acyclic t
  cases hrun with
  | same ha hb heq =>
    cases ha.symm.trans hderef
    exact absurd heq.symm (h.apart x hx _ (h.over_deref ht _ (hb ▸ Ty.mem_vars_var.mpr rfl)))
  | @merged _ _ _ v w ha hb hne =>
    cases ha.symm.trans hderef
    have hw : w ∈ K := h.over_deref ht w (hb ▸ Ty.mem_vars_var.mpr rfl)
    have hfree := Subst.find?_of_deref_eq_var h.valid.acyclic hb
    have htw : u.resolve t = .var w := by
      rw [← hres, hb]
      exact Subst.apply_unbound h.valid.acyclic hfree
    obtain ⟨ρ, hρ, hmaps⟩ := h.relabels_merge hw hfree htw
    rw [htw]
    exact ⟨⟨fun _ => registry.supports_var _ w, fun _ => ⟨_, rfl⟩⟩, fun _ =>
      ⟨_, ρ, Set.subset_insert _ _, h.merge hw hfree, Nat.le_succ _, hρ, hmaps⟩⟩
  | @left _ _ _ _ v head args _ ha hb hbind =>
    cases ha.symm.trans hderef
    have htapp : u.resolve t = .app head (args.map u.resolve) := by
      rw [← hres, hb, resolve_app h.valid]
    have hsame : u.resolve (.app head args) = u.resolve t := by rw [← hres, hb]
    rw [htapp, Registry.supports_app]
    cases hbind with
    | infinite hself =>
      rw [hsame] at hself
      exact absurd hself (h.not_mentions hx (h.over_resolve ht))
    | missing _ hmissing =>
      refine ⟨⟨by rintro ⟨_, ⟨⟩⟩, fun hnone => ?_⟩, by rintro ⟨_, ⟨⟩⟩⟩
      cases hmissing.symm.trans hnone
    | bound hself hnone =>
      obtain ⟨name, hname⟩ := h.exists_named
      obtain ⟨haside, hkept⟩ := h.bind ht
      rw [hsame]
      refine ⟨⟨fun _ => hnone, fun _ => ⟨_, rfl⟩⟩, fun _ => ⟨K, name, subset_rfl, haside, le_rfl,
        .of_resolve_eq h.toConsistent hkept (fun _ hs => h.over_resolve hs) ?_ hname,
        fun v hv => (hname v hv).symm ▸ hv⟩⟩
      rintro p hp v hv
      obtain rfl := List.mem_singleton.mp hp
      cases htapp.symm.trans hv
  | right ha hb hbind => cases ha.symm.trans hderef
  | clash ha hb hne => cases ha.symm.trans hderef
  | args ha hb hlen hall => cases ha.symm.trans hderef

/-- All variables that are kept aside have their turn. -/
theorem run {r : Except Failure (List Ty)} (h : Aside K u xs) (hts : ∀ t ∈ ts, t.Over K)
    (hrun : UnifiesAll registry u (xs.map .var) ts r u') : ((∃ cs, r = .ok cs) ↔
        ∀ p ∈ (xs.map (·.traits)).zip ts, registry.Supports p.1 (u.resolve p.2)) ∧
      ((∃ cs, r = .ok cs) → ∃ ρ, Relabels K u u' ((xs.map (·.traits)).zip ts) ρ) := by
  induction xs generalizing K u ts r with
  | nil =>
    cases hrun
    obtain ⟨name, hname⟩ := h.exists_named
    refine ⟨⟨fun _ => by simp, fun _ => ⟨_, rfl⟩⟩, fun _ => ⟨name, ?_⟩⟩
    exact .of_resolve_eq h.toConsistent (fun _ _ => rfl) (fun _ ht => h.over_resolve ht) (by simp)
      hname
  | cons x xs ih =>
    cases hrun with
    | @stop _ _ _ t _ ts _ hfirst =>
      have hstep := (h.step (hts t List.mem_cons_self) hfirst).1
      refine ⟨⟨by rintro ⟨_, ⟨⟩⟩, fun hall => ?_⟩, by rintro ⟨_, ⟨⟩⟩⟩
      obtain ⟨_, ⟨⟩⟩ := hstep.mpr (hall (x.traits, t) List.mem_cons_self)
    | @cons _ u1 _ _ t c _ ts r hfirst hrest =>
      have hover := List.forall_mem_cons.mp hts
      obtain ⟨hsupports, hrelabels⟩ := h.step hover.1 hfirst
      obtain ⟨K', ρ, hsub, haside, hnext, hρ, hmaps⟩ := hrelabels ⟨c, rfl⟩
      obtain ⟨hiff, hmore⟩ := ih haside (fun t ht v hv => hsub (hover.2 t ht v hv)) hrest
      have hok : (∃ cs, Except.map (c :: ·) r = .ok cs) ↔ ∃ cs, r = .ok cs := by
        cases r with
        | error failure => exact ⟨by rintro ⟨_, ⟨⟩⟩, by rintro ⟨_, ⟨⟩⟩⟩
        | ok cs => exact ⟨fun _ => ⟨cs, rfl⟩, fun _ => ⟨_, rfl⟩⟩
      have hzip : ∀ p ∈ (xs.map (·.traits)).zip ts, p.2.Over K := fun p hp =>
        hover.2 p.2 (List.of_mem_zip hp).2
      rw [List.map_cons, List.zip_cons_cons, hok]
      constructor
      · rw [hiff, List.forall_mem_cons]
        have hlater : ∀ p ∈ (xs.map (·.traits)).zip ts, registry.Supports p.1 (u1.resolve p.2) ↔
            registry.Supports p.1 (u.resolve p.2) := by
          intro p hp
          rw [hρ.resolve p.2 (hzip p hp), Assignment.supports_relabel]
        exact ⟨fun hall => ⟨hsupports.mp ⟨c, rfl⟩, fun p hp => (hlater p hp).mp (hall p hp)⟩,
          fun hall p hp => (hlater p hp).mpr (hall.2 p hp)⟩
      · intro hsucceeds
        obtain ⟨ρ', hρ'⟩ := hmore hsucceeds
        exact ⟨_, hρ.trans hρ' hnext hsub hmaps fun p hp => ⟨hzip p hp, h.over_resolve (hzip p hp)⟩⟩

end Aside

end Unifier

end TraitCheck
