/-!
Association lists that keep the order in which keys were first inserted.
Inserting a key again replaces its value and leaves its place. Every table of
the checker is one of these, so what is read back from a table is said once,
by `find?_insert`.
-/

namespace TraitCheck

structure Assoc (κ α : Type) where
  entries : List (κ × α) := []

namespace Assoc

variable {κ α : Type} [DecidableEq κ]

def empty : Assoc κ α := {}

instance : EmptyCollection (Assoc κ α) := ⟨empty⟩

instance : Inhabited (Assoc κ α) := ⟨empty⟩

def keys (table : Assoc κ α) : List κ := table.entries.map Prod.fst

def values (table : Assoc κ α) : List α := table.entries.map Prod.snd

def size (table : Assoc κ α) : Nat := table.entries.length

def find? (table : Assoc κ α) (key : κ) : Option α := go table.entries
where
  go : List (κ × α) → Option α
    | [] => none
    | (k, a) :: rest => if k = key then some a else go rest

def contains (table : Assoc κ α) (key : κ) : Bool := (table.find? key).isSome

/-- The place of a key in insertion order, with its value. -/
def locate? (table : Assoc κ α) (key : κ) : Option (Nat × α) := go table.entries
where
  go : List (κ × α) → Option (Nat × α)
    | [] => none
    | (k, a) :: rest =>
      if k = key then some (0, a) else (go rest).map fun (i, b) => (i + 1, b)

def insert (table : Assoc κ α) (key : κ) (value : α) : Assoc κ α :=
  ⟨go table.entries⟩
where
  go : List (κ × α) → List (κ × α)
    | [] => [(key, value)]
    | (k, a) :: rest => if k = key then (key, value) :: rest else (k, a) :: go rest

/-- Inserts only a key that is not there yet. -/
def insertNew (table : Assoc κ α) (key : κ) (value : α) : Assoc κ α :=
  if table.contains key then table else table.insert key value

/-- Changes the value of a key that is there. -/
def modify (table : Assoc κ α) (key : κ) (f : α → α) : Assoc κ α :=
  match table.find? key with
  | none => table
  | some a => table.insert key (f a)

/-- The values of the given keys in their order, or the first key without one. -/
def inOrder (table : Assoc κ α) : List κ → Except κ (List α)
  | [] => .ok []
  | key :: rest =>
    match table.find? key with
    | none => .error key
    | some a => (table.inOrder rest).map (a :: ·)

def ofList (entries : List (κ × α)) : Assoc κ α :=
  entries.foldl (fun table (k, a) => table.insert k a) empty

theorem find?_insert (table : Assoc κ α) (key other : κ) (value : α) :
    (table.insert key value).find? other =
      if other = key then some value else table.find? other := by
  obtain ⟨entries⟩ := table
  simp only [find?, insert]
  induction entries with
  | nil => simp only [insert.go, find?.go, eq_comm]
  | cons entry rest ih =>
    obtain ⟨k, a⟩ := entry
    by_cases hk : k = key
    · subst hk
      by_cases ho : other = k <;> simp [insert.go, find?.go, ho, eq_comm]
    · simp only [insert.go, hk, if_false, find?.go, ih]
      by_cases ho : k = other
      · subst ho
        simp [hk]
      · simp [ho]

theorem find?_insert_self (table : Assoc κ α) (key : κ) (value : α) :
    (table.insert key value).find? key = some value := by
  simp [find?_insert]

theorem find?_insert_of_ne (table : Assoc κ α) {key other : κ} (value : α)
    (h : other ≠ key) : (table.insert key value).find? other = table.find? other := by
  simp [find?_insert, h]

/-- What holds of all entries holds of them with a new one. -/
theorem forall_insert {table : Assoc κ α} {key : κ} {value : α} {P : κ → α → Prop}
    (hnew : P key value) (hold : ∀ key a, table.find? key = some a → P key a) (other : κ) (a : α)
    (h : (table.insert key value).find? other = some a) : P other a := by
  rw [find?_insert] at h
  split at h
  · rename_i heq
    cases h
    exact heq ▸ hnew
  · exact hold other a h

theorem forall_modify {table : Assoc κ α} {key : κ} {f : α → α} {P : κ → α → Prop}
    (hnew : ∀ a, table.find? key = some a → P key (f a))
    (hold : ∀ key a, table.find? key = some a → P key a) (other : κ) (a : α)
    (h : (table.modify key f).find? other = some a) : P other a := by
  rw [modify] at h
  split at h
  · exact hold other a h
  · rename_i found hfound
    exact forall_insert (hnew found hfound) hold other a h

/-- A known key keeps its place, a new one comes last. -/
theorem keys_insert (table : Assoc κ α) (key : κ) (value : α) :
    (table.insert key value).keys =
      if key ∈ table.keys then table.keys else table.keys ++ [key] := by
  obtain ⟨entries⟩ := table
  simp only [keys, insert]
  induction entries with
  | nil => simp [insert.go]
  | cons entry rest ih =>
    obtain ⟨k, a⟩ := entry
    by_cases hk : k = key
    · simp [insert.go, hk]
    · have hk' : key ≠ k := fun h => hk h.symm
      by_cases hm : key ∈ rest.map Prod.fst
      · simp only [insert.go, hk, if_false, List.map_cons, ih, List.mem_cons, hm, or_true, if_true]
      · simp only [insert.go, hk, if_false, List.map_cons, ih, List.mem_cons, hk', hm, or_false,
          List.cons_append]

theorem find?_isSome (table : Assoc κ α) (key : κ) :
    (table.find? key).isSome = true ↔ key ∈ table.keys := by
  obtain ⟨entries⟩ := table
  simp only [find?, keys]
  induction entries with
  | nil => simp [find?.go]
  | cons entry rest ih =>
    obtain ⟨k, a⟩ := entry
    by_cases hk : k = key
    · simp [find?.go, hk]
    · have hk' : key ≠ k := fun h => hk h.symm
      simp [find?.go, hk, hk', ih]

theorem nodup_keys_insert (table : Assoc κ α) (key : κ) (value : α)
    (h : table.keys.Nodup) : (table.insert key value).keys.Nodup := by
  rw [keys_insert]
  split
  · exact h
  · rename_i hkey
    refine List.nodup_append.2 ⟨h, by simp, ?_⟩
    intro a ha b hb
    simp only [List.mem_singleton] at hb
    subst hb
    exact fun hab => hkey (hab ▸ ha)

end Assoc

end TraitCheck
