import Mathlib.Data.List.Perm.Basic
import TraitCheck.Proofs.CheckerRuns

/-!
What is read back from a table. Fields, cases and methods are put into a table
key by key, in the order in which they are written, and then read in the order of
their declaration. If the table has no key twice and none that is not declared
(`Assoc.Within`), then just its values are read.
-/

namespace TraitCheck

namespace Assoc

variable {κ α : Type} [DecidableEq κ] {table : Assoc κ α} {key : κ} {value : α} {keys : List κ}
  {values : List α}

theorem mem_keys (h : table.find? key = some value) : key ∈ table.keys :=
  (find?_isSome table key).mp (Option.isSome_iff_exists.mpr ⟨value, h⟩)

theorem mem_of_find? (h : table.find? key = some value) : (key, value) ∈ table.entries := by
  obtain ⟨entries⟩ := table
  rw [find?] at h
  induction entries with
  | nil => cases h
  | cons entry rest ih =>
    obtain ⟨k, a⟩ := entry
    rw [find?.go] at h
    split at h
    · rename_i hk
      cases h
      rw [hk]
      exact List.mem_cons_self
    · exact List.mem_cons_of_mem _ (ih h)

theorem mem_values_of_find? (h : table.find? key = some value) : value ∈ table.values :=
  List.mem_map.mpr ⟨(key, value), mem_of_find? h, rfl⟩

/-- In a table with different keys each entry is found by its key. -/
theorem find?_of_mem (h : table.keys.Nodup) {entry : κ × α} (hentry : entry ∈ table.entries) :
    table.find? entry.1 = some entry.2 := by
  obtain ⟨entries⟩ := table
  simp only [keys, find?] at h hentry ⊢
  induction entries with
  | nil => cases hentry
  | cons first rest ih =>
    obtain ⟨hfirst, hrest⟩ := List.nodup_cons.mp h
    rw [find?.go]
    split
    · rename_i heq
      rcases List.mem_cons.mp hentry with rfl | hmem
      · rfl
      · exact absurd (heq ▸ List.mem_map_of_mem hmem) hfirst
    · rename_i hne
      rcases List.mem_cons.mp hentry with rfl | hmem
      · exact absurd rfl hne
      · exact ih hrest hmem

/-- A key that is located has its value at that place. -/
theorem getElem?_of_locate? {index : Nat} (h : table.locate? key = some (index, value)) :
    table.keys[index]? = some key ∧ table.values[index]? = some value := by
  obtain ⟨entries⟩ := table
  simp only [locate?, keys, values] at h ⊢
  induction entries generalizing index with
  | nil => cases h
  | cons entry rest ih =>
    obtain ⟨k, a⟩ := entry
    rw [locate?.go] at h
    split at h
    · rename_i hk
      cases h
      exact ⟨congrArg some hk, rfl⟩
    · obtain ⟨⟨i, b⟩, hrest, heq⟩ := Option.map_eq_some_iff.mp h
      cases heq
      exact ih hrest

/-! Tables with another entry. -/

theorem contains_insert {other : κ} (h : table.contains other = true) :
    (table.insert key value).contains other = true := by
  rw [contains, find?_insert]
  split
  · rfl
  · exact h

theorem entries_insert (table : Assoc κ α) (value : α) (h : ¬table.contains key) :
    (table.insert key value).entries = table.entries ++ [(key, value)] := by
  rw [contains, find?_isSome] at h
  obtain ⟨entries⟩ := table
  change Assoc.insert.go key value entries = entries ++ [(key, value)]
  change key ∉ entries.map Prod.fst at h
  induction entries with
  | nil => rfl
  | cons entry rest ih =>
    obtain ⟨k, a⟩ := entry
    rw [List.map_cons, List.mem_cons, not_or] at h
    rw [Assoc.insert.go, if_neg (Ne.symm h.1), ih h.2, List.cons_append]

theorem entries_insertNew (table : Assoc κ α) (key : κ) (value : α) :
    (table.insertNew key value).entries =
      if key ∈ table.keys then table.entries else table.entries ++ [(key, value)] := by
  rw [insertNew]
  by_cases hkey : table.contains key
  · rw [if_pos hkey, if_pos ((find?_isSome table key).mp hkey)]
  · rw [if_neg hkey, if_neg (fun h => hkey ((find?_isSome table key).mpr h))]
    exact entries_insert table value hkey

theorem values_insert (value : α) (h : ¬table.contains key) :
    (table.insert key value).values = table.values ++ [value] := by
  rw [values, entries_insert table value h, List.map_append]
  rfl

theorem mem_values_insert {a : α} (h : a ∈ (table.insert key value).values) :
    a = value ∨ a ∈ table.values := by
  obtain ⟨entries⟩ := table
  simp only [insert, values] at h ⊢
  induction entries with
  | nil => exact .inl (List.mem_singleton.mp h)
  | cons entry rest ih =>
    obtain ⟨k, b⟩ := entry
    rw [insert.go] at h
    split at h
    · exact (List.mem_cons.mp h).imp_right (List.mem_cons_of_mem _)
    · rcases List.mem_cons.mp h with h | h
      · exact .inr (List.mem_cons.mpr (.inl h))
      · exact (ih h).imp_right (List.mem_cons_of_mem _)

theorem mem_values_insertNew {a : α} (h : a ∈ (table.insertNew key value).values) :
    a = value ∨ a ∈ table.values := by
  rw [insertNew] at h
  split at h
  · exact .inr h
  · exact mem_values_insert h

/-- What holds of all values of a table holds of them with another one. -/
theorem forall_values_insert {P : α → Prop} (hvalue : P value) (htable : ∀ a ∈ table.values, P a) :
    ∀ a ∈ (table.insert key value).values, P a := by
  intro a ha
  rcases mem_values_insert ha with rfl | ha
  · exact hvalue
  · exact htable a ha

/-! Tables that are read in the order of the keys. -/

/-- The values that are read in order are those of the keys. -/
theorem forall₂_of_inOrder (h : table.inOrder keys = .ok values) :
    List.Forall₂ (fun key value => table.find? key = some value) keys values := by
  induction keys generalizing values with
  | nil =>
    cases h
    exact .nil
  | cons key rest ih =>
    rw [inOrder] at h
    split at h
    · cases h
    · rename_i a hfind
      obtain ⟨more, hmore, rfl⟩ := Checker.Except.map_eq_ok h
      exact .cons hfind (ih hmore)

theorem mem_values_of_inOrder (h : table.inOrder keys = .ok values) (hvalue : value ∈ values) :
    value ∈ table.values := by
  obtain ⟨hlength, hfind⟩ := List.forall₂_iff_get.mp (forall₂_of_inOrder h)
  obtain ⟨i, hi, rfl⟩ := List.getElem_of_mem hvalue
  exact mem_values_of_find? (hfind i (hlength ▸ hi) hi)

/-- The table has no key twice, and only these. -/
structure Within (table : Assoc κ α) (keys : List κ) : Prop where
  nodup : table.keys.Nodup
  subset : table.keys ⊆ keys

namespace Within

omit [DecidableEq κ] in
theorem empty (keys : List κ) : (∅ : Assoc κ α).Within keys :=
  ⟨List.nodup_nil, List.nil_subset _⟩

theorem insert {β : Type} {declared : Assoc κ β} (h : table.Within declared.keys) {b : β}
    (hkey : declared.find? key = some b) (value : α) :
    (table.insert key value).Within declared.keys := by
  refine ⟨nodup_keys_insert _ _ _ h.nodup, ?_⟩
  rw [keys_insert]
  split
  · exact h.subset
  · exact List.append_subset.mpr ⟨h.subset, List.cons_subset.mpr ⟨mem_keys hkey, List.nil_subset _⟩⟩

/-- Each value that is read stands at its key, and all keys are read. -/
theorem inOrder (h : table.Within keys) (hkeys : keys.Nodup)
    (hvalues : table.inOrder keys = .ok values) : table.keys.Perm keys ∧
      List.Forall₂ (fun key value => (key, value) ∈ table.entries) keys values := by
  have hread := (forall₂_of_inOrder hvalues).imp fun _ _ hfind => mem_of_find? hfind
  have hall : ∀ key ∈ keys, key ∈ table.keys :=
    ((List.forall₂_and_left _ _).mp (hread.imp fun key _ hmem =>
      (⟨List.mem_map_of_mem hmem, hmem⟩ : key ∈ table.keys ∧ _))).1
  exact ⟨(List.perm_ext_iff_of_nodup h.nodup hkeys).mpr fun key => ⟨(h.subset ·), hall key⟩, hread⟩

/-- Just the values of the table are read. -/
theorem mem_inOrder (h : table.Within keys) (hvalues : table.inOrder keys = .ok values) :
    value ∈ values ↔ value ∈ table.values := by
  refine ⟨mem_values_of_inOrder hvalues, fun hvalue => ?_⟩
  obtain ⟨hlength, hfind⟩ := List.forall₂_iff_get.mp (forall₂_of_inOrder hvalues)
  obtain ⟨⟨key, _⟩, hentry, rfl⟩ := List.mem_map.mp hvalue
  obtain ⟨i, hi, rfl⟩ := List.getElem_of_mem (h.subset (List.mem_map_of_mem hentry))
  have hread := hfind i hi (hlength ▸ hi)
  rw [List.get_eq_getElem, find?_of_mem h.nodup hentry] at hread
  rw [Option.some.inj hread]
  exact List.get_mem _ _

/-- Each of them as often as it is there. -/
theorem perm_inOrder (h : table.Within keys) (hkeys : keys.Nodup)
    (hvalues : table.inOrder keys = .ok values) : values.Perm table.values := by
  have hread : keys.map table.find? = values.map some := by
    rw [← List.forall₂_eq_eq_eq, List.forall₂_map_left_iff, List.forall₂_map_right_iff]
    exact forall₂_of_inOrder hvalues
  have hfind : table.keys.map table.find? = table.values.map some := by
    rw [Assoc.keys, Assoc.values, List.map_map, List.map_map]
    exact List.map_congr_left fun _ hentry => find?_of_mem h.nodup hentry
  have hperm := ((h.inOrder hkeys hvalues).1.map table.find?).symm
  rw [hread, hfind] at hperm
  exact (List.map_perm_map_iff fun _ _ => Option.some.inj).mp hperm

end Within

end Assoc

namespace Checker

variable {s s' : Checker} {room : Nat} {out : Assoc String Core.Expr}

theorem within_checkInits {inst : Instance} {fields : Fields} {supplied : Assoc String Core.Expr}
    {inits : List Surface.FieldInit} (hsupplied : supplied.Within fields.keys) :
    Results (·.Within fields.keys) (checkInits room inst fields supplied inits) := by
  induction inits generalizing supplied with
  | nil =>
    rw [checkInits]
    exact .pure hsupplied
  | cons init rest ih =>
    obtain ⟨name, e⟩ := init
    rw [checkInits]
    split
    · exact .after fun _ => .fail
    · rename_i hfind
      exact .after fun _ => .after fun value => ih (hsupplied.insert hfind value)

theorem within_checkCases {hint before : Option Ty} {m : Match} {done : Assoc String Core.Block}
    {cases : List Surface.Case} (hdone : done.Within m.tags.keys) :
    Results (·.1.Within m.tags.keys) (checkCases room hint m before done cases) := by
  induction cases generalizing before done with
  | nil =>
    rw [checkCases]
    exact .pure hdone
  | cons case rest ih =>
    obtain ⟨tag, bindings, ⟨stmts, bodySpan⟩, span⟩ := case
    rw [checkCases]
    split
    · exact .fail
    · rename_i hfind
      exact .after fun _ => .after fun block => .after fun _ => ih (hdone.insert hfind block)

theorem within_checkMethods {impl : Impl} {done : Assoc String Core.Expr}
    {methods : List Surface.FuncDecl} (hdone : done.Within impl.decl.methods.keys) :
    Results (·.Within impl.decl.methods.keys) (checkMethods room impl done methods) := by
  induction methods generalizing done with
  | nil =>
    rw [checkMethods]
    exact .pure hdone
  | cons method rest ih =>
    rw [checkMethods]
    split
    · exact .fail
    · rename_i hfind
      exact .after fun _ => .after fun _ => .after fun _ => .after fun _ => .after fun _ =>
        ih (hdone.insert hfind _)

end Checker

end TraitCheck
