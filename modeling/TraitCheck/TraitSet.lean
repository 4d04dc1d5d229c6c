/-!
Finite sets of traits. A set is the strictly increasing list of its members,
so two sets with the same members are equal, and the members are always read
in the order of their names.
-/

namespace TraitCheck

/-- A trait, known by its name. -/
abbrev Trait := String

structure TraitSet where
  elems : List Trait
  sorted : elems.Pairwise (· < ·)
deriving DecidableEq

namespace TraitSet

def insertSorted (t : Trait) : List Trait → List Trait
  | [] => [t]
  | u :: rest =>
    if t < u then t :: u :: rest
    else if u < t then u :: insertSorted t rest
    else u :: rest

theorem eq_of_not_lt {t u : Trait} (htu : ¬t < u) (hut : ¬u < t) : t = u :=
  String.le_antisymm hut htu

theorem mem_insertSorted (t x : Trait) (elems : List Trait) :
    x ∈ insertSorted t elems ↔ x = t ∨ x ∈ elems := by
  induction elems with
  | nil => simp [insertSorted]
  | cons u rest ih =>
    simp only [insertSorted]
    split
    · simp
    · split
      · simp only [List.mem_cons, ih]
        exact or_left_comm
      · rename_i htu hut
        have := eq_of_not_lt htu hut
        subst this
        simp

theorem pairwise_insertSorted (t : Trait) {elems : List Trait}
    (h : elems.Pairwise (· < ·)) : (insertSorted t elems).Pairwise (· < ·) := by
  induction elems with
  | nil => simp [insertSorted]
  | cons u rest ih =>
    obtain ⟨hu, hrest⟩ := List.pairwise_cons.1 h
    simp only [insertSorted]
    split
    · rename_i htu
      refine List.pairwise_cons.2 ⟨fun x hx => ?_, h⟩
      rcases List.mem_cons.1 hx with rfl | hx
      · exact htu
      · exact String.lt_trans htu (hu x hx)
    · split
      · rename_i hut
        refine List.pairwise_cons.2 ⟨fun x hx => ?_, ih hrest⟩
        rcases (mem_insertSorted t x rest).1 hx with rfl | hx
        · exact hut
        · exact hu x hx
      · exact h

def empty : TraitSet := ⟨[], List.Pairwise.nil⟩

instance : EmptyCollection TraitSet := ⟨empty⟩

instance : Inhabited TraitSet := ⟨empty⟩

instance : Membership Trait TraitSet := ⟨fun s t => t ∈ s.elems⟩

def insert (s : TraitSet) (t : Trait) : TraitSet :=
  ⟨insertSorted t s.elems, pairwise_insertSorted t s.sorted⟩

def ofList (elems : List Trait) : TraitSet := elems.foldl insert empty

def singleton (t : Trait) : TraitSet := empty.insert t

def union (a b : TraitSet) : TraitSet := b.elems.foldl insert a

theorem mem_insert {s : TraitSet} {t x : Trait} : x ∈ s.insert t ↔ x = t ∨ x ∈ s :=
  mem_insertSorted t x s.elems

theorem mem_foldl_insert {elems : List Trait} {s : TraitSet} {x : Trait} :
    x ∈ elems.foldl insert s ↔ x ∈ s ∨ x ∈ elems := by
  induction elems generalizing s with
  | nil => simp
  | cons t rest ih =>
    simp only [List.foldl_cons, ih, mem_insert, List.mem_cons]
    grind

theorem mem_union {a b : TraitSet} {x : Trait} : x ∈ a.union b ↔ x ∈ a ∨ x ∈ b :=
  mem_foldl_insert

theorem mem_ofList {elems : List Trait} {x : Trait} : x ∈ ofList elems ↔ x ∈ elems := by
  simp only [ofList, mem_foldl_insert]
  exact or_iff_right (List.not_mem_nil)

theorem elems_eq_of_mem_iff {a b : List Trait} (ha : a.Pairwise (· < ·))
    (hb : b.Pairwise (· < ·)) (h : ∀ x, x ∈ a ↔ x ∈ b) : a = b := by
  induction a generalizing b with
  | nil =>
    cases b with
    | nil => rfl
    | cons y ys => exact absurd ((h y).2 (by simp)) List.not_mem_nil
  | cons x xs ih =>
    cases b with
    | nil => exact absurd ((h x).1 (by simp)) List.not_mem_nil
    | cons y ys =>
      obtain ⟨hx, hxs⟩ := List.pairwise_cons.1 ha
      obtain ⟨hy, hys⟩ := List.pairwise_cons.1 hb
      have hxy : x = y := by
        rcases List.mem_cons.1 ((h x).1 (by simp)) with rfl | hxy
        · rfl
        · rcases List.mem_cons.1 ((h y).2 (by simp)) with rfl | hyx
          · rfl
          · exact absurd (String.lt_trans (hx y hyx) (hy x hxy)) (String.lt_irrefl x)
      subst hxy
      refine congrArg (x :: ·) (ih hxs hys fun z => ?_)
      have hz := h z
      simp only [List.mem_cons] at hz
      constructor
      · intro hzx
        have hlt := hx z hzx
        rcases hz.1 (Or.inr hzx) with rfl | hzy
        · exact absurd hlt (String.lt_irrefl z)
        · exact hzy
      · intro hzy
        have hlt := hy z hzy
        rcases hz.2 (Or.inr hzy) with rfl | hzx
        · exact absurd hlt (String.lt_irrefl z)
        · exact hzx

/-- A set is determined by its members. -/
theorem ext_mem {a b : TraitSet} (h : ∀ x, x ∈ a ↔ x ∈ b) : a = b := by
  obtain ⟨as, ha⟩ := a
  obtain ⟨bs, hb⟩ := b
  have : as = bs := elems_eq_of_mem_iff ha hb h
  subst this
  rfl

theorem union_comm (a b : TraitSet) : a.union b = b.union a :=
  ext_mem fun x => by simp only [mem_union, or_comm]

end TraitSet

end TraitCheck
