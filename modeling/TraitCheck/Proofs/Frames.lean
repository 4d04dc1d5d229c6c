import TraitCheck.Proofs.Tables

/-!
Frames and captures. Binding ids are handed out in order, so what a function
captures can be told by its id: it is the ids from before the function was
entered. `Marks` keeps for each open function the index of its frame and the
first id from its inside, and the index of a frame and the ids that it binds
lie on the same side of every mark (`Placed`). A capture changes nothing but
the upvalues of the innermost function.
-/

namespace TraitCheck

namespace Frame

variable {value : Value} {depth : Nat} {name : String} {frames : List Frame}

/-- A frame without what its function has captured. -/
def bare (frame : Frame) : Frame := { frame with upvalues := frame.upvalues.map fun _ => ∅ }

/-- What each of the open functions has captured, innermost first. -/
def tables (frames : List Frame) : List (Assoc BindingId Upvalue) :=
  frames.filterMap (·.upvalues)

/-- The indices of the frames of functions, innermost first. -/
def functionDepths : List Frame → List Nat
  | [] => []
  | frame :: below =>
    if frame.upvalues.isSome then below.length :: functionDepths below else functionDepths below

/-- The frame with the given index binds the name to the value. -/
def Binds (name : String) (value : Value) (depth : Nat) : List Frame → Prop
  | [] => False
  | frame :: below =>
    (depth = below.length ∧ frame.values.find? name = some value) ∨ Binds name value depth below

theorem Binds.lt_length (h : Binds name value depth frames) : depth < frames.length := by
  induction frames with
  | nil => cases h
  | cons frame below ih =>
    rw [List.length_cons]
    rcases h with ⟨rfl, _⟩ | h
    · omega
    · have hlt := ih h
      omega

theorem binds_of_lookup (h : lookup name frames = some (value, depth)) :
    Binds name value depth frames := by
  induction frames with
  | nil => cases h
  | cons frame below ih =>
    rw [lookup] at h
    split at h
    · rename_i found hfind
      cases h
      exact .inl ⟨rfl, hfind⟩
    · exact .inr (ih h)

/-! What does not depend on captures. -/

variable {frames' : List Frame}

theorem binds_bare (frames : List Frame) :
    Binds name value depth (frames.map bare) ↔ Binds name value depth frames := by
  induction frames with
  | nil => exact Iff.rfl
  | cons frame below ih =>
    simp only [List.map_cons, Binds, ih, List.length_map]
    rfl

theorem Binds.congr (heq : frames'.map bare = frames.map bare)
    (h : Binds name value depth frames') : Binds name value depth frames := by
  rw [← binds_bare, ← heq, binds_bare]
  exact h

theorem functionDepths_bare (frames : List Frame) :
    functionDepths (frames.map bare) = functionDepths frames := by
  induction frames with
  | nil => rfl
  | cons frame below ih =>
    rw [List.map_cons, functionDepths, functionDepths, ih, List.length_map]
    congr 1
    rw [bare, Option.isSome_map]

theorem functionDepths_congr (h : frames'.map bare = frames.map bare) :
    functionDepths frames' = functionDepths frames := by
  rw [← functionDepths_bare, h, functionDepths_bare]

theorem lt_of_mem_functionDepths {k : Nat} (h : k ∈ functionDepths frames) : k < frames.length := by
  induction frames with
  | nil => cases h
  | cons frame below ih =>
    rw [functionDepths] at h
    rw [List.length_cons]
    split at h
    · rcases List.mem_cons.mp h with rfl | h
      · omega
      · have hlt := ih h
        omega
    · have hlt := ih h
      omega

/-! Captures. -/

theorem map_bare_capture (up : Upvalue) (frames : List Frame) :
    (capture up frames).map bare = frames.map bare := by
  induction frames with
  | nil => rfl
  | cons frame below ih =>
    rw [capture]
    split
    · rw [List.map_cons, List.map_cons, ih]
    · rename_i ups hups
      split
      · rw [List.map_cons, List.map_cons]
        congr 1
        simp only [bare, hups, Option.map_some]
      · rfl

theorem capture_outside {up : Upvalue} (h : functionDepths frames = []) :
    capture up frames = frames := by
  induction frames with
  | nil => rfl
  | cons frame below ih =>
    rw [functionDepths] at h
    split at h
    · cases h
    · rename_i hnone
      rw [capture, Option.not_isSome_iff_eq_none.mp hnone]
      simp only [ih h]

/-- A function captures what lies below its frame. -/
theorem tables_capture (up : Upvalue) {depths : List Nat}
    (h : functionDepths frames = depth :: depths) :
    ∃ ups rest, tables frames = ups :: rest ∧ tables (capture up frames) =
      (if up.depth < depth then ups.insertNew up.binding up else ups) :: rest := by
  induction frames with
  | nil => cases h
  | cons frame below ih =>
    rw [functionDepths] at h
    split at h
    · rename_i hsome
      obtain ⟨ups, hups⟩ := Option.isSome_iff_exists.mp hsome
      cases h
      refine ⟨ups, tables below, by simp [tables, hups], ?_⟩
      rw [capture, hups]
      dsimp only
      split <;> simp [tables, hups]
    · rename_i hnone
      obtain ⟨ups, rest, htables, hcapture⟩ := ih h
      have hnone' := Option.not_isSome_iff_eq_none.mp hnone
      refine ⟨ups, rest, ?_, ?_⟩
      · rw [← htables]
        simp [tables, hnone']
      · rw [← hcapture, capture, hnone']
        simp [tables, hnone']

/-- The ids that the innermost function has captured. -/
def capturedIds (frames : List Frame) : List BindingId := (captured frames).map (·.binding)

theorem captured_eq (frames : List Frame) :
    captured frames = (tables frames).head?.elim [] Assoc.values := by
  induction frames with
  | nil => rfl
  | cons frame below ih =>
    rw [captured]
    cases hups : frame.upvalues with
    | none =>
      rw [ih]
      simp [tables, hups]
    | some ups => simp [tables, hups]

end Frame

/-! Marks. -/

/-- For each open function, innermost first, the index of its frame and the
first id that was handed out inside it. -/
abbrev Marks := List (Nat × BindingId)

/-- Ids below this one are outside the innermost function. -/
def Marks.base (marks : Marks) : BindingId := (marks.head?.map Prod.snd).getD 0

/-- A binding of the frame with the given index is outside of the same
functions as the frame is. -/
def Marks.Placed (marks : Marks) (id : BindingId) (depth : Nat) : Prop :=
  ∀ m ∈ marks, depth < m.1 ↔ id < m.2

/-- What a function has captured: each id once, and placed among the functions
around it. -/
structure Marks.Holds (marks : Marks) (ups : Assoc BindingId Upvalue) : Prop where
  nodup : ups.keys.Nodup
  entry : ∀ p ∈ ups.entries, p.2.binding = p.1 ∧ marks.Placed p.1 p.2.depth

/-- The same for every open function. -/
def Marks.HoldsAll : Marks → List (Assoc BindingId Upvalue) → Prop
  | [], [] => True
  | _ :: marks, ups :: rest => Marks.Holds marks ups ∧ HoldsAll marks rest
  | _, _ => False

namespace Marks

variable {marks : Marks} {ups : Assoc BindingId Upvalue}

theorem Holds.map_binding (h : marks.Holds ups) : ups.values.map (·.binding) = ups.keys := by
  rw [Assoc.values, Assoc.keys, List.map_map]
  apply List.map_congr_left
  intro p hp
  exact (h.entry p hp).1

theorem holds_empty (marks : Marks) : marks.Holds ∅ := by
  refine ⟨List.nodup_nil, ?_⟩
  intro p hp
  cases hp

theorem Holds.insertNew (h : marks.Holds ups) {up : Upvalue}
    (hup : marks.Placed up.binding up.depth) : marks.Holds (ups.insertNew up.binding up) := by
  constructor
  · rw [Assoc.insertNew]
    split
    · exact h.nodup
    · exact Assoc.nodup_keys_insert ups up.binding up h.nodup
  · rw [Assoc.entries_insertNew]
    intro p hp
    split at hp
    · exact h.entry p hp
    · rcases List.mem_append.mp hp with hp | hp
      · exact h.entry p hp
      · rw [List.mem_singleton.mp hp]
        exact ⟨rfl, hup⟩

theorem mem_keys_insertNew {id : BindingId} {up : Upvalue} :
    id ∈ (ups.insertNew up.binding up).keys ↔ id ∈ ups.keys ∨ id = up.binding := by
  rw [Assoc.keys, Assoc.entries_insertNew]
  split
  · rename_i hkey
    constructor
    · exact .inl
    · rintro (hid | rfl)
      · exact hid
      · exact hkey
  · simp [Assoc.keys]

end Marks

/-- The frames fit the marks. -/
structure Frame.Marked (marks : Marks) (frames : List Frame) : Prop where
  depths : functionDepths frames = marks.map Prod.fst
  holds : marks.HoldsAll (tables frames)

namespace Frame.Marked

variable {marks : Marks} {frames : List Frame}

/-- A capture leaves the functions further out alone, and the innermost one
captures what is from outside of it. -/
theorem capture (h : Marked marks frames) {up : Upvalue} (hup : marks.Placed up.binding up.depth) :
    Marked marks (capture up frames) ∧
      (tables (Frame.capture up frames)).tail = (tables frames).tail ∧
      ∀ id, id ∈ capturedIds (Frame.capture up frames) ↔
        id ∈ capturedIds frames ∨ id = up.binding ∧ id < marks.base := by
  have hdepths := functionDepths_congr (map_bare_capture up frames)
  cases marks with
  | nil =>
    rw [capture_outside h.depths]
    refine ⟨h, rfl, ?_⟩
    intro id
    simp [Marks.base]
  | cons m rest =>
    obtain ⟨ups, others, htables, hcapture⟩ := tables_capture up h.depths
    have hholds := h.holds
    rw [htables] at hholds
    have hplaced := hup m List.mem_cons_self
    have houter : Marks.Placed rest up.binding up.depth :=
      fun m' hm' => hup m' (List.mem_cons_of_mem m hm')
    have hinsert := hholds.1.insertNew houter
    have hids : ∀ {frames' : List Frame} {ups' : Assoc BindingId Upvalue},
        tables frames' = ups' :: others → Marks.Holds rest ups' →
        capturedIds frames' = ups'.keys := by
      intro frames' ups' htables' hups'
      rw [capturedIds, captured_eq, htables']
      exact hups'.map_binding
    rw [hids htables hholds.1]
    by_cases hlt : up.depth < m.1
    · rw [if_pos hlt] at hcapture
      refine ⟨⟨hdepths.trans h.depths, hcapture ▸ ⟨hinsert, hholds.2⟩⟩, by
        rw [hcapture, htables, List.tail_cons, List.tail_cons], ?_⟩
      intro id
      rw [hids hcapture hinsert, Marks.mem_keys_insertNew]
      have hbase : up.binding < m.2 := hplaced.mp hlt
      constructor
      · rintro (hid | rfl)
        · exact .inl hid
        · exact .inr ⟨rfl, hbase⟩
      · rintro (hid | ⟨rfl, _⟩)
        · exact .inl hid
        · exact .inr rfl
    · rw [if_neg hlt] at hcapture
      refine ⟨⟨hdepths.trans h.depths, hcapture ▸ hholds⟩, by
        rw [hcapture, htables], ?_⟩
      intro id
      rw [hids hcapture hholds.1]
      have hbase : ¬up.binding < m.2 := fun hid => hlt (hplaced.mpr hid)
      constructor
      · exact .inl
      · rintro (hid | ⟨rfl, hid⟩)
        · exact hid
        · exact absurd hid hbase

end Frame.Marked

/-! Captures in a scope. -/

namespace Scope

variable {marks : Marks} {scope scope' scope'' : Scope}

theorem frames_capture (scope : Scope) (up : Upvalue) :
    (scope.capture up).frames = Frame.capture up scope.frames := by
  have hne : Frame.capture up scope.frames ≠ [] := by
    intro h
    have hbare := Frame.map_bare_capture up scope.frames
    rw [h] at hbare
    cases hbare
  rw [capture]
  split
  · contradiction
  · rename_i top below h
    rw [h]
    rfl

theorem nextBinding_capture (scope : Scope) (up : Upvalue) :
    (scope.capture up).nextBinding = scope.nextBinding := by
  rw [capture]
  split <;> rfl

theorem frames_pop (h : scope.below ≠ []) : scope.pop.frames = scope.below := by
  cases hbelow : scope.below with
  | nil => exact absurd hbelow h
  | cons top below =>
    rw [pop, hbelow]
    rfl

theorem nextBinding_pop (scope : Scope) : scope.pop.nextBinding = scope.nextBinding := by
  rw [pop]
  split <;> rfl

/-- From the first scope to the second, the innermost function captures those
of the ids that are from outside of it, and nothing else happens. -/
structure Recaptures (marks : Marks) (scope scope' : Scope) (ids : List BindingId) : Prop where
  marked : Frame.Marked marks scope'.frames
  bare : scope'.frames.map Frame.bare = scope.frames.map Frame.bare
  outer : (Frame.tables scope'.frames).tail = (Frame.tables scope.frames).tail
  next : scope'.nextBinding = scope.nextBinding
  captured : ∀ id, id ∈ Frame.capturedIds scope'.frames ↔
    id ∈ Frame.capturedIds scope.frames ∨ id ∈ ids ∧ id < marks.base

theorem Recaptures.refl (h : Frame.Marked marks scope.frames) :
    Recaptures marks scope scope [] := by
  refine ⟨h, rfl, rfl, rfl, ?_⟩
  intro id
  simp

theorem Recaptures.trans {ids ids' : List BindingId} (h : Recaptures marks scope scope' ids)
    (h' : Recaptures marks scope' scope'' ids') : Recaptures marks scope scope'' (ids ++ ids') := by
  refine ⟨h'.marked, h'.bare.trans h.bare, h'.outer.trans h.outer, h'.next.trans h.next, ?_⟩
  intro id
  rw [h'.captured, h.captured, List.mem_append, or_assoc, ← or_and_right]

theorem recaptures_capture (h : Frame.Marked marks scope.frames) {up : Upvalue}
    (hup : marks.Placed up.binding up.depth) :
    Recaptures marks scope (scope.capture up) [up.binding] := by
  obtain ⟨hmarked, houter, hcaptured⟩ := h.capture hup
  refine ⟨?_, ?_, ?_, nextBinding_capture scope up, ?_⟩
  · rw [frames_capture]
    exact hmarked
  · rw [frames_capture, Frame.map_bare_capture]
  · rw [frames_capture, houter]
  · intro id
    rw [frames_capture, hcaptured, List.mem_singleton]

theorem recaptures_foldl (h : Frame.Marked marks scope.frames) {ups : List Upvalue}
    (hups : ∀ up ∈ ups, marks.Placed up.binding up.depth) :
    Recaptures marks scope (ups.foldl capture scope) (ups.map (·.binding)) := by
  induction ups generalizing scope with
  | nil => exact .refl h
  | cons up rest ih =>
    have hfirst := recaptures_capture h (hups up List.mem_cons_self)
    have hrest := ih hfirst.marked fun up' hup' => hups up' (List.mem_cons_of_mem up hup')
    exact hfirst.trans hrest

end Scope

end TraitCheck
