import TraitCheck.Proofs.Terms
import TraitCheck.Subst

/-!
Acyclic substitutions. In such a substitution the variables can be ordered so
that a binding only mentions later ones. Then following bindings ends, at the
root of a type (`Derefs`) and everywhere in it (`Applies`), and the bounded
traversals `deref` and `apply` of a substitution reach that end: their bound,
the number of bindings, is never felt. All later facts about substitutions use
the unfolding equations `deref_var` and `apply_eq` and the induction
`Acyclic.induction`.
-/

namespace TraitCheck.Subst

variable {σ τ : Subst}
variable {id : VarId} {t : Ty}

theorem find?_insert {id : VarId} {t : Ty} (h : ¬t.mentions id = true) (other : VarId) :
    (σ.insert id t).find? other = if other = id then some t else σ.find? other := by
  cases t with
  | var v =>
    have hne : v.id ≠ id := fun heq => h (Ty.mentions_var.mpr heq)
    simp only [insert, if_neg hne, find?, Assoc.find?_insert]
  | app head args => simp only [insert, find?, Assoc.find?_insert]

theorem mem_keys_of_find? (h : σ.find? id = some t) : id ∈ σ.bindings.keys := by
  apply (Assoc.find?_isSome σ.bindings id).mp
  have h' : σ.bindings.find? id = some t := h
  rw [h']
  rfl

theorem size_eq_length_keys (σ : Subst) : σ.size = σ.bindings.keys.length := by
  simp [size, Assoc.size, Assoc.keys]

/-- `rank` orders the variables, later ones having the smaller rank, so that a
binding mentions only variables later than the one it binds. -/
def RankedBy (σ : Subst) (rank : VarId → Nat) : Prop :=
  ∀ id t, σ.find? id = some t → ∀ w, t.mentions w = true → rank w < rank id

/-- The bindings do not run in a circle. -/
def Acyclic (σ : Subst) : Prop := ∃ rank, σ.RankedBy rank

theorem acyclic_empty : ({} : Subst).Acyclic := by
  refine ⟨fun _ => 0, ?_⟩
  intro id t h
  cases h

/-- What makes it safe to bind a variable to a type: the variable is unbound,
and the type mentions neither it nor any bound variable. -/
structure Admits (σ : Subst) (id : VarId) (t : Ty) : Prop where
  unbound : σ.find? id = none
  not_self : ¬t.mentions id = true
  resolved : ∀ w, t.mentions w = true → σ.find? w = none

/-- The new variable moves to the end of the order, just before the variables
that stay unbound. -/
theorem Acyclic.insert (h : σ.Acyclic) {id : VarId} {t : Ty} (hadm : σ.Admits id t) :
    (σ.insert id t).Acyclic := by
  obtain ⟨rank, hrank⟩ := h
  refine ⟨fun w => if w = id then 1 else if σ.find? w = none then 0 else rank w + 2, ?_⟩
  intro x s hx w hw
  rw [find?_insert hadm.not_self] at hx
  by_cases hxid : x = id
  · rw [if_pos hxid] at hx
    cases hx
    have hwid : w ≠ id := fun heq => hadm.not_self (heq ▸ hw)
    simp only [if_pos hxid, if_neg hwid, if_pos (hadm.resolved w hw)]
    omega
  · rw [if_neg hxid] at hx
    have hbound : σ.find? x ≠ none := by simp [hx]
    have hlt := hrank x s hx w hw
    simp only [if_neg hxid, if_neg hbound]
    split
    · omega
    · split <;> omega

/-- To prove something about all types read through an acyclic substitution,
follow the bindings. -/
@[elab_as_elim]
theorem Acyclic.induction (h : σ.Acyclic) {motive : Ty → Prop}
    (unbound : ∀ v : TyVar, σ.find? v.id = none → motive (.var v))
    (bound : ∀ (v : TyVar) t, σ.find? v.id = some t → motive t → motive (.var v))
    (app : ∀ head args, (∀ t ∈ args, motive t) → motive (.app head args)) : ∀ t, motive t := by
  obtain ⟨rank, hrank⟩ := h
  have lift : ∀ t : Ty, (∀ v ∈ t.vars, motive (.var v)) → motive t := by
    intro t
    induction t with
    | var v => exact fun hv => hv v (by simp)
    | app head args ih =>
      intro hv
      apply app head args
      intro t ht
      exact ih t ht fun v hvt => hv v (Ty.mem_vars_app.mpr ⟨t, ht, hvt⟩)
  have onVars : ∀ n, ∀ v : TyVar, rank v.id = n → motive (.var v) := by
    intro n
    induction n using Nat.strong_induction_on with
    | h n ih =>
      intro v hv
      cases hfind : σ.find? v.id with
      | none => exact unbound v hfind
      | some t =>
        apply bound v t hfind
        apply lift t
        intro w hw
        have hlt := hrank v.id t hfind w.id (Ty.mentions_of_mem_vars hw)
        exact ih (rank w.id) (by omega) w rfl
  intro t
  exact lift t fun v _ => onVars (rank v.id) v rfl

/-! The bound on the number of steps. Along a path the bound variables that
were followed are different keys, so there are no more of them than bindings. -/

variable {visited : List VarId} {rank : VarId → Nat} {v : TyVar}

theorem length_lt_size (hnodup : visited.Nodup) (hkeys : visited ⊆ σ.bindings.keys)
    (hid : id ∉ visited) (hfind : σ.find? id = some t) : visited.length < σ.size := by
  have hnodup' : (id :: visited).Nodup := List.nodup_cons.mpr ⟨hid, hnodup⟩
  have hkeys' : id :: visited ⊆ σ.bindings.keys :=
    List.cons_subset.mpr ⟨mem_keys_of_find? hfind, hkeys⟩
  have hle := (hnodup'.subperm hkeys').length_le
  rw [List.length_cons] at hle
  rw [size_eq_length_keys]
  omega

/-- The path that has been followed so far, and the type at its end. -/
structure Path (σ : Subst) (rank : VarId → Nat) (visited : List VarId) (t : Ty) : Prop where
  nodup : visited.Nodup
  keys : visited ⊆ σ.bindings.keys
  later : ∀ w, t.mentions w = true → ∀ x ∈ visited, rank w < rank x

namespace Path

variable {rank : VarId → Nat} {visited : List VarId} {t s : Ty} {w : VarId}

theorem nil (t : Ty) : Path σ rank [] t :=
  ⟨List.nodup_nil, List.nil_subset _, by simp⟩

theorem not_mem (p : Path σ rank visited t) (hw : t.mentions w = true) : w ∉ visited := by
  intro hmem
  exact lt_irrefl _ (p.later w hw w hmem)

theorem length_lt (p : Path σ rank visited t) (hw : t.mentions w = true)
    (hfind : σ.find? w = some s) : visited.length < σ.size :=
  length_lt_size p.nodup p.keys (p.not_mem hw) hfind

/-- Following one more binding. -/
theorem follow (p : Path σ rank visited t) (hrank : σ.RankedBy rank)
    (hw : t.mentions w = true) (hfind : σ.find? w = some s) : Path σ rank (w :: visited) s := by
  refine ⟨List.nodup_cons.mpr ⟨p.not_mem hw, p.nodup⟩,
    List.cons_subset.mpr ⟨mem_keys_of_find? hfind, p.keys⟩, ?_⟩
  intro x hx y hy
  have hxw := hrank w s hfind x hx
  rcases List.mem_cons.mp hy with rfl | hy
  · exact hxw
  · exact lt_trans hxw (p.later w hw y hy)

end Path

theorem applyWithin_succ (hrank : σ.RankedBy rank) (n : Nat) (p : Path σ rank visited t)
    (hn : σ.size ≤ visited.length + n) : σ.applyWithin (n + 1) t = σ.applyWithin n t := by
  induction n generalizing visited t with
  | zero =>
    rw [applyWithin, applyWithin]
    apply Ty.replace_eq_self
    intro w hw
    cases hfind : σ.find? w with
    | none => rfl
    | some s =>
      have hlt := p.length_lt hw hfind
      omega
  | succ n ih =>
    rw [applyWithin, applyWithin]
    apply Ty.replace_congr
    intro w hw
    cases hfind : σ.find? w with
    | none => rfl
    | some s =>
      rw [Option.map_some, Option.map_some]
      congr 1
      apply ih (p.follow hrank hw hfind)
      rw [List.length_cons]
      omega

/-- What `apply` does: it replaces every bound variable by its binding, in
which it has done the same. -/
theorem apply_eq (h : σ.Acyclic) (t : Ty) :
    σ.apply t = t.replace fun id => (σ.find? id).map σ.apply := by
  obtain ⟨rank, hrank⟩ := h
  calc σ.apply t = σ.applyWithin (σ.size + 1) t :=
        (applyWithin_succ hrank σ.size (.nil t) (by simp)).symm
    _ = t.replace fun id => (σ.find? id).map σ.apply := rfl

theorem derefWithin_succ (hrank : σ.RankedBy rank) (n : Nat) (p : Path σ rank visited t)
    (hn : σ.size ≤ visited.length + n) : σ.derefWithin (n + 1) t = σ.derefWithin n t := by
  induction n generalizing visited t with
  | zero =>
    cases t with
    | app head args => rfl
    | var v =>
      rw [derefWithin, derefWithin]
      cases hfind : σ.find? v.id with
      | none => rfl
      | some s =>
        have hlt := p.length_lt (Ty.mentions_var.mpr rfl) hfind
        omega
  | succ n ih =>
    cases t with
    | app head args => rfl
    | var v =>
      rw [derefWithin, derefWithin]
      cases hfind : σ.find? v.id with
      | none => rfl
      | some s =>
        apply ih (p.follow hrank (Ty.mentions_var.mpr rfl) hfind)
        rw [List.length_cons]
        omega

@[simp]
theorem deref_app (σ : Subst) (head : Head) (args : List Ty) :
    σ.deref (.app head args) = .app head args := by
  rw [deref]
  cases σ.size <;> rfl

theorem deref_bound (h : σ.Acyclic) (hfind : σ.find? v.id = some t) :
    σ.deref (.var v) = σ.deref t := by
  obtain ⟨rank, hrank⟩ := h
  rw [deref, ← derefWithin_succ hrank σ.size (.nil (.var v)) (by simp), derefWithin, hfind]
  rfl

theorem deref_unbound (σ : Subst) (hfind : σ.find? v.id = none) : σ.deref (.var v) = .var v := by
  rw [deref]
  cases σ.size with
  | zero => rfl
  | succ n => rw [derefWithin, hfind]

theorem apply_bound (h : σ.Acyclic) (hfind : σ.find? v.id = some t) :
    σ.apply (.var v) = σ.apply t := by
  rw [apply_eq h, Ty.replace_var, hfind, Option.map_some, Option.getD_some]

theorem apply_unbound (h : σ.Acyclic) (hfind : σ.find? v.id = none) :
    σ.apply (.var v) = .var v := by
  rw [apply_eq h, Ty.replace_var, hfind, Option.map_none, Option.getD_none]

theorem apply_app (h : σ.Acyclic) (head : Head) (args : List Ty) :
    σ.apply (.app head args) = .app head (args.map σ.apply) := by
  rw [apply_eq h, Ty.replace_app]
  congr 1
  apply List.map_congr_left
  intro t _
  exact (apply_eq h t).symm

/-! Following bindings without a bound. -/

/-- Following bindings at the root of the first type ends at the second. -/
inductive Derefs (σ : Subst) : Ty → Ty → Prop
  | app (head : Head) (args : List Ty) : Derefs σ (.app head args) (.app head args)
  | unbound {v : TyVar} : σ.find? v.id = none → Derefs σ (.var v) (.var v)
  | bound {v : TyVar} {t r : Ty} : σ.find? v.id = some t → Derefs σ t r → Derefs σ (.var v) r

/-- Following bindings everywhere in the first type ends with the second. -/
inductive Applies (σ : Subst) : Ty → Ty → Prop
  | var {t : Ty} {v : TyVar} : Derefs σ t (.var v) → Applies σ t (.var v)
  | app {t : Ty} {head : Head} {args results : List Ty} : Derefs σ t (.app head args) →
      List.Forall₂ (Applies σ) args results → Applies σ t (.app head results)

theorem derefs_deref (h : σ.Acyclic) (t : Ty) : σ.Derefs t (σ.deref t) := by
  induction t using h.induction with
  | unbound v hfind =>
    rw [deref_unbound σ hfind]
    exact .unbound hfind
  | bound v t hfind ih =>
    rw [deref_bound h hfind]
    exact .bound hfind ih
  | app head args =>
    rw [deref_app]
    exact .app head args

theorem Applies.bound {v : TyVar} {t r : Ty} (hfind : σ.find? v.id = some t)
    (h : σ.Applies t r) : σ.Applies (.var v) r := by
  cases h with
  | var hd => exact .var (.bound hfind hd)
  | app hd hargs => exact .app (.bound hfind hd) hargs

theorem applies_apply (h : σ.Acyclic) (t : Ty) : σ.Applies t (σ.apply t) := by
  induction t using h.induction with
  | unbound v hfind =>
    rw [apply_unbound h hfind]
    exact .var (.unbound hfind)
  | bound v t hfind ih =>
    rw [apply_bound h hfind]
    exact ih.bound hfind
  | app head args ih =>
    rw [apply_app h]
    refine .app (.app head args) ?_
    apply List.forall₂_map_right_iff.mpr
    exact List.forall₂_same.mpr ih

/-! Reading types through a substitution. -/

/-- The end of a chain of variables is not bound. -/
theorem find?_of_deref_eq_var (h : σ.Acyclic) (hv : σ.deref t = .var v) : σ.find? v.id = none := by
  induction t using h.induction with
  | unbound w hfind =>
    rw [deref_unbound σ hfind] at hv
    cases hv
    exact hfind
  | bound w t hfind ih =>
    rw [deref_bound h hfind] at hv
    exact ih hv
  | app head args =>
    rw [deref_app] at hv
    cases hv

theorem apply_deref (h : σ.Acyclic) (t : Ty) : σ.apply (σ.deref t) = σ.apply t := by
  induction t using h.induction with
  | unbound v hfind => rw [deref_unbound σ hfind]
  | bound v t hfind ih => rw [deref_bound h hfind, apply_bound h hfind, ih]
  | app head args => rw [deref_app]

/-- Nothing that is bound is left in a resolved type. -/
theorem find?_of_mentions_apply (h : σ.Acyclic) {w : VarId} (hw : (σ.apply t).mentions w = true) :
    σ.find? w = none := by
  induction t using h.induction with
  | unbound v hfind =>
    rw [apply_unbound h hfind] at hw
    exact Ty.mentions_var.mp hw ▸ hfind
  | bound v t hfind ih =>
    rw [apply_bound h hfind] at hw
    exact ih hw
  | app head args ih =>
    rw [apply_app h] at hw
    obtain ⟨s, hs, hw⟩ := Ty.mentions_app.mp hw
    obtain ⟨t, ht, rfl⟩ := List.mem_map.mp hs
    exact ih t ht hw

/-- The variables of a resolved type were in the type or in a binding. -/
theorem mem_vars_apply (h : σ.Acyclic) (hv : v ∈ (σ.apply t).vars) :
    v ∈ t.vars ∨ ∃ id s, σ.find? id = some s ∧ v ∈ s.vars := by
  induction t using h.induction with
  | unbound w hfind =>
    rw [apply_unbound h hfind] at hv
    exact .inl hv
  | bound w t hfind ih =>
    rw [apply_bound h hfind] at hv
    rcases ih hv with hv | hv
    · exact .inr ⟨w.id, t, hfind, hv⟩
    · exact .inr hv
  | app head args ih =>
    rw [apply_app h] at hv
    obtain ⟨s, hs, hv⟩ := Ty.mem_vars_app.mp hv
    obtain ⟨t, ht, rfl⟩ := List.mem_map.mp hs
    rcases ih t ht hv with hv | hv
    · exact .inl (Ty.mem_vars_app.mpr ⟨t, ht, hv⟩)
    · exact .inr hv

theorem mem_vars_deref (h : σ.Acyclic) (hv : v ∈ (σ.deref t).vars) :
    v ∈ t.vars ∨ ∃ id s, σ.find? id = some s ∧ v ∈ s.vars := by
  induction t using h.induction with
  | unbound w hfind =>
    rw [deref_unbound σ hfind] at hv
    exact .inl hv
  | bound w t hfind ih =>
    rw [deref_bound h hfind] at hv
    rcases ih hv with hv | hv
    · exact .inr ⟨w.id, t, hfind, hv⟩
    · exact .inr hv
  | app head args =>
    rw [deref_app] at hv
    exact .inl hv

/-! Extensions. -/

/-- All bindings of the first are bindings of the second. -/
def Extends (σ τ : Subst) : Prop := ∀ id t, σ.find? id = some t → τ.find? id = some t

theorem Extends.refl (σ : Subst) : σ.Extends σ := fun _ _ h => h

theorem Extends.trans {ρ : Subst} (h : σ.Extends τ) (h' : τ.Extends ρ) : σ.Extends ρ :=
  fun id t hid => h' id t (h id t hid)

theorem Admits.extends (hadm : σ.Admits id t) : σ.Extends (σ.insert id t) := by
  intro x s hx
  rw [find?_insert hadm.not_self]
  have hne : x ≠ id := by
    rintro rfl
    rw [hadm.unbound] at hx
    cases hx
  rw [if_neg hne, hx]

/-- Resolving by fewer bindings first makes no difference. -/
theorem Extends.apply_apply (hext : σ.Extends τ) (hσ : σ.Acyclic) (hτ : τ.Acyclic) (t : Ty) :
    τ.apply (σ.apply t) = τ.apply t := by
  induction t using hσ.induction with
  | unbound v hfind => rw [apply_unbound hσ hfind]
  | bound v t hfind ih => rw [apply_bound hσ hfind, ih, apply_bound hτ (hext v.id t hfind)]
  | app head args ih =>
    rw [apply_app hσ, apply_app hτ, apply_app hτ, List.map_map]
    congr 1
    exact List.map_congr_left ih

/-- One more binding replaces its variable in every resolved type. -/
theorem apply_insert (h : σ.Acyclic) (hadm : σ.Admits id t) (x : Ty) :
    (σ.insert id t).apply x = (σ.apply x).replace fun w => if w = id then some t else none := by
  have hτ := h.insert hadm
  have hresolved : (σ.insert id t).apply t = t := by
    rw [apply_eq hτ]
    apply Ty.replace_eq_self
    intro w hw
    have hne : w ≠ id := fun heq => hadm.not_self (heq ▸ hw)
    rw [find?_insert hadm.not_self, if_neg hne, hadm.resolved w hw, Option.map_none]
  rw [← hadm.extends.apply_apply h hτ x, apply_eq hτ]
  apply Ty.replace_congr
  intro w hw
  rw [find?_insert hadm.not_self]
  by_cases hwid : w = id
  · rw [if_pos hwid, if_pos hwid, Option.map_some, hresolved]
  · rw [if_neg hwid, if_neg hwid, find?_of_mentions_apply h hw, Option.map_none]

end TraitCheck.Subst
