import Mathlib.Data.Finset.Card
import Mathlib.Order.Interval.Finset.Nat
import TraitCheck.Ty.Basic

/-!
Types as first-order terms: the variables of a type, simultaneous replacement,
and the places below its root. The last section bounds the height of a type by
the number of different compound types inside it, which is what limits how deep
a unification can descend.
-/

namespace TraitCheck.Ty

variable {v : TyVar} {args : List Ty} {head : Head} {id : VarId} {t : Ty}

@[elab_as_elim, induction_eliminator]
theorem induction {motive : Ty → Prop} (var : ∀ v, motive (.var v))
    (app : ∀ head args, (∀ t ∈ args, motive t) → motive (.app head args)) : ∀ t, motive t := by
  intro t
  refine @Ty.rec motive (fun args => ∀ t ∈ args, motive t) var app ?_ ?_ t
  · intro t ht
    cases ht
  · intro t rest ht hrest s hs
    rcases List.mem_cons.mp hs with rfl | hs
    · exact ht
    · exact hrest s hs

mutual

/-- The variables of the type, from left to right, with repetitions. -/
def vars : Ty → List TyVar
  | .var v => [v]
  | .app _ args => allVars args

def allVars : List Ty → List TyVar
  | [] => []
  | t :: rest => t.vars ++ allVars rest

end

theorem mem_allVars : v ∈ allVars args ↔ ∃ t ∈ args, v ∈ t.vars := by
  induction args with
  | nil => simp [allVars]
  | cons t rest ih => simp [allVars, ih]

@[simp]
theorem mem_vars_var {w : TyVar} : v ∈ (Ty.var w).vars ↔ v = w := by
  simp [vars]

@[simp]
theorem mem_vars_app : v ∈ (Ty.app head args).vars ↔ ∃ t ∈ args, v ∈ t.vars := by
  rw [vars, mem_allVars]

@[simp]
theorem mentions_var : (Ty.var v).mentions id = true ↔ v.id = id := by
  simp [mentions]

@[simp]
theorem mentions_app :
    (Ty.app head args).mentions id = true ↔ ∃ t ∈ args, t.mentions id = true := by
  simp [mentions, anyMentions_eq_any]

theorem mentions_iff : t.mentions id = true ↔ ∃ v ∈ t.vars, v.id = id := by
  induction t with
  | var v => simp
  | app head args ih =>
    simp only [mentions_app, mem_vars_app]
    constructor
    · rintro ⟨t, ht, hid⟩
      obtain ⟨v, hv, rfl⟩ := (ih t ht).mp hid
      exact ⟨v, ⟨t, ht, hv⟩, rfl⟩
    · rintro ⟨v, ⟨t, ht, hv⟩, rfl⟩
      exact ⟨t, ht, (ih t ht).mpr ⟨v, hv, rfl⟩⟩

theorem mentions_of_mem_vars (h : v ∈ t.vars) : t.mentions v.id = true :=
  mentions_iff.mpr ⟨v, h, rfl⟩

/-! Simultaneous replacement. -/

variable {f : VarId → Option Ty}

@[simp]
theorem replace_var (map : VarId → Option Ty) (v : TyVar) :
    (Ty.var v).replace map = (map v.id).getD (.var v) := rfl

@[simp]
theorem replace_app (map : VarId → Option Ty) (head : Head) (args : List Ty) :
    (Ty.app head args).replace map = .app head (args.map (·.replace map)) := by
  rw [replace, replaceAll_eq_map]

/-- Replacement only looks at the variables of the type. -/
theorem replace_congr {g : VarId → Option Ty} (h : ∀ id, t.mentions id = true → f id = g id) :
    t.replace f = t.replace g := by
  induction t with
  | var v => rw [replace_var, replace_var, h v.id (by simp)]
  | app head args ih =>
    rw [replace_app, replace_app]
    congr 1
    apply List.map_congr_left
    intro t ht
    exact ih t ht fun id hid => h id (mentions_app.mpr ⟨t, ht, hid⟩)

theorem replace_eq_self (h : ∀ id, t.mentions id = true → f id = none) : t.replace f = t := by
  induction t with
  | var v => rw [replace_var, h v.id (by simp), Option.getD_none]
  | app head args ih =>
    rw [replace_app]
    congr 1
    calc args.map (·.replace f) = args.map id := by
          apply List.map_congr_left
          intro t ht
          exact ih t ht fun id hid => h id (mentions_app.mpr ⟨t, ht, hid⟩)
      _ = args := List.map_id args

/-! Places inside a type. -/

/-- The first type stands `k` levels below the root of the second. -/
inductive At : Nat → Ty → Ty → Prop
  | root (t : Ty) : At 0 t t
  | arg {k : Nat} {s t : Ty} {head : Head} {args : List Ty} :
      t ∈ args → At k s t → At (k + 1) s (.app head args)

namespace At

variable {head : Head} {args : List Ty} {t : Ty}

theorem replace {k : Nat} {s t : Ty} (h : At k s t) (f : VarId → Option Ty) :
    At k (s.replace f) (t.replace f) := by
  induction h with
  | root t => exact .root _
  | arg ht _ ih =>
    rw [replace_app]
    exact .arg (List.mem_map.mpr ⟨_, ht, rfl⟩) ih

/-- From a place one can go on to an argument of what stands there. -/
theorem down {k : Nat} {s : Ty} (h : At k (.app head args) t) (hs : s ∈ args) : At (k + 1) s t := by
  generalize hr : Ty.app head args = r at h
  induction h with
  | root t =>
    subst hr
    exact .arg hs (.root s)
  | arg ht _ ih => exact .arg ht (ih hr)

theorem mentions {k : Nat} {s t : Ty} (h : At k s t) {id : VarId}
    (hid : s.mentions id = true) : t.mentions id = true := by
  induction h with
  | root t => exact hid
  | arg ht _ ih => exact mentions_app.mpr ⟨_, ht, ih hid⟩

theorem exists_var (h : t.mentions id = true) : ∃ k v, At k (.var v) t ∧ v.id = id := by
  induction t with
  | var v => exact ⟨0, v, .root _, mentions_var.mp h⟩
  | app head args ih =>
    obtain ⟨t, ht, hid⟩ := mentions_app.mp h
    obtain ⟨k, v, hat, hv⟩ := ih t ht hid
    exact ⟨k + 1, v, .arg ht hat, hv⟩

/-- A compound type inside a replaced type is one of the old ones with the
replacement done in it, or it came in with one of the variables. -/
theorem of_replace {k : Nat} (h : At k (.app head args) (t.replace f)) :
    (∃ j as, At j (.app head as) t ∧ (Ty.app head as).replace f = .app head args) ∨
      ∃ v ∈ t.vars, ∃ j, At j (.app head args) ((f v.id).getD (.var v)) := by
  induction t generalizing k with
  | var v => exact .inr ⟨v, by simp, k, h⟩
  | app head' as ih =>
    rw [replace_app] at h
    cases h with
    | root => exact .inl ⟨0, as, .root _, replace_app f head as⟩
    | arg hs hat =>
      obtain ⟨t, ht, rfl⟩ := List.mem_map.mp hs
      rcases ih t ht hat with ⟨j, bs, hj, hbs⟩ | ⟨v, hv, j, hj⟩
      · exact .inl ⟨j + 1, bs, .arg ht hj, hbs⟩
      · exact .inr ⟨v, mem_vars_app.mpr ⟨t, ht, hv⟩, j, hj⟩

end At

/-! Height. -/

variable {s : Ty}

mutual

/-- The number of heads on the longest path of the type. -/
def height : Ty → Nat
  | .var _ => 0
  | .app _ args => 1 + maxHeight args

def maxHeight : List Ty → Nat
  | [] => 0
  | t :: rest => max t.height (maxHeight rest)

end

theorem height_le_maxHeight (h : t ∈ args) : t.height ≤ maxHeight args := by
  induction args with
  | nil => cases h
  | cons s rest ih =>
    rw [maxHeight]
    rcases List.mem_cons.mp h with rfl | h
    · exact le_max_left _ _
    · exact le_trans (ih h) (le_max_right _ _)

theorem exists_le_height {n : Nat} (hn : 0 < n) (h : n ≤ maxHeight args) :
    ∃ t ∈ args, n ≤ t.height := by
  induction args with
  | nil =>
    rw [maxHeight] at h
    omega
  | cons s rest ih =>
    rw [maxHeight] at h
    rcases le_max_iff.mp h with h | h
    · exact ⟨s, by simp, h⟩
    · obtain ⟨t, ht, hle⟩ := ih h
      exact ⟨t, List.mem_cons_of_mem s ht, hle⟩

theorem At.height_le {k : Nat} (h : At k s t) : k + s.height ≤ t.height := by
  induction h with
  | root t => omega
  | arg ht _ ih =>
    have hle := height_le_maxHeight ht
    rw [height]
    omega

/-- A type has compound types of every height up to its own inside it. -/
theorem exists_at_of_height {n : Nat} (hn : 0 < n) (h : n ≤ t.height) :
    ∃ k head args, At k (.app head args) t ∧ (Ty.app head args).height = n := by
  induction t with
  | var v =>
    rw [height] at h
    omega
  | app head args ih =>
    rw [height] at h
    by_cases heq : n = 1 + maxHeight args
    · exact ⟨0, head, args, .root _, by rw [height, heq]⟩
    · obtain ⟨t, ht, hle⟩ := exists_le_height hn (by omega : n ≤ maxHeight args)
      obtain ⟨k, head', as, hat, has⟩ := ih t ht hle
      exact ⟨k + 1, head', as, .arg ht hat, has⟩

/-- If all compound types inside `t` are in a list then `t` is no higher than
the list is long: those on a path of `t` have different heights. -/
theorem height_le_length {list : List Ty}
    (h : ∀ k head args, At k (.app head args) t → .app head args ∈ list) :
    t.height ≤ list.length := by
  classical
  have hsub : Finset.Icc 1 t.height ⊆ (list.map height).toFinset := by
    intro n hn
    obtain ⟨hpos, hle⟩ := Finset.mem_Icc.mp hn
    obtain ⟨k, head, args, hat, rfl⟩ := exists_at_of_height hpos hle
    exact List.mem_toFinset.mpr (List.mem_map.mpr ⟨_, h k head args hat, rfl⟩)
  calc t.height = (Finset.Icc 1 t.height).card := by simp
    _ ≤ (list.map height).toFinset.card := Finset.card_le_card hsub
    _ ≤ (list.map height).length := List.toFinset_card_le _
    _ = list.length := List.length_map _

mutual

/-- The type and all types inside it, one entry for each place. -/
def subterms : Ty → List Ty
  | .var v => [.var v]
  | .app head args => .app head args :: allSubterms args

def allSubterms : List Ty → List Ty
  | [] => []
  | t :: rest => t.subterms ++ allSubterms rest

end

theorem mem_allSubterms : s ∈ allSubterms args ↔ ∃ t ∈ args, s ∈ t.subterms := by
  induction args with
  | nil => simp [allSubterms]
  | cons t rest ih => simp [allSubterms, ih]

theorem length_allSubterms (h : ∀ t ∈ args, t.subterms.length = t.nodes) :
    (allSubterms args).length = allNodes args := by
  induction args with
  | nil => rfl
  | cons t rest ih =>
    rw [allSubterms, allNodes, List.length_append, h t (by simp),
      ih fun s hs => h s (List.mem_cons_of_mem t hs)]

theorem length_subterms (t : Ty) : t.subterms.length = t.nodes := by
  induction t with
  | var v => rfl
  | app head args ih =>
    rw [subterms, nodes, List.length_cons, length_allSubterms ih]
    omega

theorem mem_subterms_self (t : Ty) : t ∈ t.subterms := by
  cases t with
  | var v => simp [subterms]
  | app head args => simp [subterms]

/-- With a type, all its arguments are among the subterms. -/
theorem arg_mem_subterms (h : .app head args ∈ t.subterms) (hs : s ∈ args) : s ∈ t.subterms := by
  induction t with
  | var v => simp [subterms] at h
  | app head' as ih =>
    rw [subterms] at h ⊢
    rcases List.mem_cons.mp h with heq | h
    · obtain ⟨rfl, rfl⟩ := Ty.app.inj heq
      exact List.mem_cons_of_mem _ (mem_allSubterms.mpr ⟨s, hs, mem_subterms_self s⟩)
    · obtain ⟨t, ht, hmem⟩ := mem_allSubterms.mp h
      exact List.mem_cons_of_mem _ (mem_allSubterms.mpr ⟨t, ht, ih t ht hmem⟩)

end TraitCheck.Ty
