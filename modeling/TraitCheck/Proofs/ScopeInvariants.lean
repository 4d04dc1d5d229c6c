import TraitCheck.Proofs.Frames

/-!
Invariants of a scope that speak of one entry at a time. What holds of all
values, types and upvalues in the frames of a scope keeps holding when frames
are opened and closed and values are looked up; where an entry is added, it has
to hold of the new one.
-/

namespace TraitCheck

/-- What holds of each entry of a frame, by the index of the frame. -/
structure EntryRules where
  value : Nat → Value → Prop
  type : Nat → String → Ty → Prop
  upvalue : Upvalue → Prop

/-- What holds of an upvalue follows from what holds of the value. -/
def EntryRules.Captures (rules : EntryRules) : Prop :=
  ∀ {value id depth}, rules.value depth value → value.kind = .binding id →
    rules.upvalue ⟨id, value.ty, depth⟩

variable {rules rules' : EntryRules}

namespace Frame

variable {depth : Nat} {frame : Frame}

/-- The rules hold of each entry of the frame with the given index. Upvalues are
bound below it. -/
structure Every (rules : EntryRules) (depth : Nat) (frame : Frame) : Prop where
  values : ∀ name value, frame.values.find? name = some value → rules.value depth value
  types : ∀ name ty, frame.types.find? name = some ty → rules.type depth name ty
  upvalues : ∀ ups, frame.upvalues = some ups → ∀ up ∈ ups.values,
    rules.upvalue up ∧ up.depth < depth

/-- The rules hold of each entry of each frame. -/
def All (rules : EntryRules) : List Frame → Prop
  | [] => True
  | frame :: below => frame.Every rules below.length ∧ All rules below

theorem every_empty : Every rules depth {} :=
  ⟨by nofun, by nofun, by nofun⟩

theorem every_function : Every rules depth { upvalues := some ∅ } := by
  refine ⟨by nofun, by nofun, ?_⟩
  intro ups hups up hup
  cases hups
  cases hup

theorem Every.imp {depth : Nat} {frame : Frame} (h : frame.Every rules depth)
    (hvalue : ∀ v, rules.value depth v → rules'.value depth v)
    (htype : ∀ n t, rules.type depth n t → rules'.type depth n t)
    (hup : ∀ up, up.depth < depth → rules.upvalue up → rules'.upvalue up) :
    frame.Every rules' depth where
  values := fun name v hv => hvalue v (h.values name v hv)
  types := fun name t ht => htype name t (h.types name t ht)
  upvalues := fun ups hups up hmem =>
    ⟨hup up (h.upvalues ups hups up hmem).2 (h.upvalues ups hups up hmem).1,
      (h.upvalues ups hups up hmem).2⟩

theorem All.mem {frames : List Frame} (h : All rules frames) (hframe : frame ∈ frames) :
    ∃ depth < frames.length, frame.Every rules depth := by
  induction frames with
  | nil => cases hframe
  | cons top below ih =>
    rcases List.mem_cons.mp hframe with rfl | hframe
    · exact ⟨_, Nat.lt_succ_self _, h.1⟩
    · obtain ⟨depth, hlt, hevery⟩ := ih h.2 hframe
      exact ⟨depth, Nat.lt_succ_of_lt hlt, hevery⟩

/-- Rules that follow for the entries of these frames. -/
theorem All.imp {frames : List Frame} (h : All rules frames)
    (hvalue : ∀ d < frames.length, ∀ v, rules.value d v → rules'.value d v)
    (htype : ∀ d < frames.length, ∀ n t, rules.type d n t → rules'.type d n t)
    (hup : ∀ up, up.depth < frames.length → rules.upvalue up → rules'.upvalue up) :
    All rules' frames := by
  induction frames with
  | nil => trivial
  | cons frame below ih =>
    rw [List.length_cons] at hvalue htype hup
    refine ⟨h.1.imp (hvalue _ (Nat.lt_succ_self _)) (htype _ (Nat.lt_succ_self _))
      fun up hlt => hup up (Nat.lt_succ_of_lt hlt), ?_⟩
    exact ih h.2 (fun d hd => hvalue d (Nat.lt_succ_of_lt hd))
      (fun d hd => htype d (Nat.lt_succ_of_lt hd)) fun up hlt => hup up (Nat.lt_succ_of_lt hlt)

theorem length_capture (up : Upvalue) (frames : List Frame) :
    (capture up frames).length = frames.length := by
  have h := congrArg List.length (map_bare_capture up frames)
  rwa [List.length_map, List.length_map] at h

theorem All.capture {frames : List Frame} {up : Upvalue} (hup : rules.upvalue up)
    (h : All rules frames) : All rules (Frame.capture up frames) := by
  induction frames with
  | nil => exact h
  | cons first below ih =>
    obtain ⟨hfirst, hbelow⟩ := h
    rw [Frame.capture]
    split
    · refine ⟨?_, ih hbelow⟩
      rw [length_capture]
      exact hfirst
    · rename_i ups hups
      split
      · rename_i hlt
        refine ⟨⟨hfirst.values, hfirst.types, ?_⟩, hbelow⟩
        intro ups' hups' x hx
        cases hups'
        rcases Assoc.mem_values_insertNew hx with rfl | hx
        · exact ⟨hup, hlt⟩
        · exact hfirst.upvalues ups hups x hx
      · exact ⟨hfirst, hbelow⟩

theorem All.lookup {frames : List Frame} {name : String} {value : Value} {depth : Nat}
    (h : All rules frames)
    (hlookup : Frame.lookup name frames = some (value, depth)) : rules.value depth value := by
  induction frames with
  | nil => cases hlookup
  | cons first below ih =>
    rw [Frame.lookup] at hlookup
    split at hlookup
    · rename_i found hfind
      cases hlookup
      exact h.1.values name value hfind
    · exact ih h.2 hlookup

theorem All.lookupType {frames : List Frame} {name : String} {ty : Ty} (h : All rules frames)
    (hlookup : Frame.lookupType name frames = some ty) :
    ∃ depth < frames.length, rules.type depth name ty := by
  induction frames with
  | nil => cases hlookup
  | cons first below ih =>
    rw [Frame.lookupType, Option.or_eq_some_iff] at hlookup
    rcases hlookup with hfind | ⟨_, hlookup⟩
    · exact ⟨below.length, Nat.lt_succ_self _, h.1.types name ty hfind⟩
    · obtain ⟨depth, hlt, hty⟩ := ih h.2 hlookup
      exact ⟨depth, Nat.lt_succ_of_lt hlt, hty⟩

end Frame

namespace Scope

/-- The rules hold of each entry of each frame. -/
def Every (rules : EntryRules) (scope : Scope) : Prop := Frame.All rules scope.frames

namespace Every

variable {scope : Scope}

theorem imp (h : scope.Every rules)
    (hvalue : ∀ d ≤ scope.depth, ∀ v, rules.value d v → rules'.value d v)
    (htype : ∀ d ≤ scope.depth, ∀ n t, rules.type d n t → rules'.type d n t)
    (hup : ∀ up, up.depth ≤ scope.depth → rules.upvalue up → rules'.upvalue up) :
    scope.Every rules' :=
  Frame.All.imp h (fun d hd => hvalue d (Nat.le_of_lt_succ hd))
    (fun d hd => htype d (Nat.le_of_lt_succ hd)) fun up hlt => hup up (Nat.le_of_lt_succ hlt)

theorem top (h : scope.Every rules) : scope.top.Every rules scope.depth := h.1

/-- A change of the innermost frame. -/
theorem changeTop (h : scope.Every rules) {frame : Frame}
    (hframe : frame.Every rules scope.depth) : Every rules { scope with top := frame } :=
  ⟨hframe, h.2⟩

theorem enter (h : scope.Every rules) {frame : Frame}
    (hframe : frame.Every rules (scope.depth + 1)) : (scope.enter frame).Every rules :=
  ⟨hframe, h⟩

theorem push (h : scope.Every rules) : scope.push.Every rules := h.enter Frame.every_empty

theorem pushFunction (h : scope.Every rules) : scope.pushFunction.Every rules :=
  h.enter Frame.every_function

theorem pop (h : scope.Every rules) : scope.pop.Every rules := by
  rw [Scope.pop]
  split
  · exact h
  · rename_i frame below hbelow
    have hall := h.2
    rw [hbelow] at hall
    exact hall

theorem capture (h : scope.Every rules) {up : Upvalue} (hup : rules.upvalue up) :
    (scope.capture up).Every rules := by
  rw [Every, frames_capture]
  exact Frame.All.capture hup h

theorem foldl_capture (h : scope.Every rules) {ups : List Upvalue}
    (hups : ∀ up ∈ ups, rules.upvalue up) : (ups.foldl Scope.capture scope).Every rules := by
  induction ups generalizing scope with
  | nil => exact h
  | cons up rest ih =>
    exact ih (h.capture (hups up List.mem_cons_self))
      fun x hx => hups x (List.mem_cons_of_mem up hx)

/-- Closing the frame of a function. -/
theorem popFunction (h : scope.Every rules) :
    (∀ up ∈ scope.popFunction.1, rules.upvalue up ∧ up.depth < scope.depth) ∧
      scope.popFunction.2.Every rules := by
  rw [Scope.popFunction]
  split
  · exact ⟨by simp, h⟩
  · have hups : ∀ up ∈ (scope.top.upvalues.getD ∅).values,
        rules.upvalue up ∧ up.depth < scope.depth := by
      intro up hup
      cases hsome : scope.top.upvalues with
      | none =>
        rw [hsome] at hup
        cases hup
      | some ups =>
        rw [hsome] at hup
        exact h.top.upvalues ups hsome up hup
    exact ⟨hups, h.pop.foldl_capture fun up hup => (hups up hup).1⟩

theorem bindValue (h : scope.Every rules) {name : String} {value : Value}
    (hvalue : rules.value scope.depth value) : (scope.bindValue name value).Every rules :=
  h.changeTop ⟨Assoc.forall_insert hvalue h.top.values, h.top.types, h.top.upvalues⟩

theorem bindType (h : scope.Every rules) {name : String} {ty : Ty}
    (hty : rules.type scope.depth name ty) : (scope.bindType name ty).Every rules :=
  h.changeTop ⟨h.top.values, Assoc.forall_insert hty h.top.types, h.top.upvalues⟩

theorem setValueType (h : scope.Every rules) {name : String} {ty : Ty}
    (hvalue : ∀ value, scope.top.values.find? name = some value →
      rules.value scope.depth value → rules.value scope.depth { value with ty }) :
    (scope.setValueType name ty).Every rules :=
  h.changeTop ⟨Assoc.forall_modify (fun value hfind => hvalue value hfind
    (h.top.values name value hfind)) h.top.values, h.top.types, h.top.upvalues⟩

/-- A value that is found, and the scope after it was looked up. -/
theorem getValue (h : scope.Every rules) (hcaptures : rules.Captures) (name : String) :
    (∀ value, (scope.getValue name).1 = some value → ∃ depth, rules.value depth value) ∧
      (scope.getValue name).2.Every rules := by
  rw [Scope.getValue]
  split
  · exact ⟨by nofun, h⟩
  · rename_i value depth hlookup
    have hvalue := Frame.All.lookup h hlookup
    split
    · rename_i id hkind
      refine ⟨?_, h.capture (hcaptures hvalue hkind)⟩
      intro value' heq
      cases heq
      exact ⟨depth, hvalue⟩
    · refine ⟨?_, h⟩
      intro value' heq
      cases heq
      exact ⟨depth, hvalue⟩

theorem type? (h : scope.Every rules) {name : String} {ty : Ty}
    (hty : scope.type? name = some ty) : ∃ depth ≤ scope.depth, rules.type depth name ty := by
  obtain ⟨depth, hlt, hrule⟩ := Frame.All.lookupType h hty
  exact ⟨depth, Nat.le_of_lt_succ hlt, hrule⟩

end Every

/-! Names that are bound. -/

/-- A frame up to the given index binds the name. -/
def Names (scope : Scope) (name : String) (depth : Nat) : Prop :=
  ∃ value, ∃ index ≤ depth, Frame.Binds name value index scope.frames

namespace Names

variable {scope scope' : Scope} {name : String} {depth depth' : Nat}

theorem mono (h : scope.Names name depth) (hdepth : depth ≤ depth') : scope.Names name depth' := by
  obtain ⟨value, index, hle, hbinds⟩ := h
  exact ⟨value, index, Nat.le_trans hle hdepth, hbinds⟩

theorem congr (h : scope.Names name depth)
    (hframes : scope'.frames.map Frame.bare = scope.frames.map Frame.bare) :
    scope'.Names name depth := by
  obtain ⟨value, index, hle, hbinds⟩ := h
  exact ⟨value, index, hle, hbinds.congr hframes.symm⟩

/-- The innermost frame may bind more names. -/
theorem changeTop (h : scope.Names name depth)
    (hbelow : scope'.below.map Frame.bare = scope.below.map Frame.bare)
    (htop : ∀ other, scope.top.values.contains other = true →
      scope'.top.values.contains other = true) : scope'.Names name depth := by
  obtain ⟨value, index, hle, ⟨hindex, hfind⟩ | hbinds⟩ := h
  · have hlength : scope'.below.length = scope.below.length := by
      simpa using congrArg List.length hbelow
    obtain ⟨value', hfind'⟩ := Option.isSome_iff_exists.mp
      (htop name (Option.isSome_iff_exists.mpr ⟨value, hfind⟩))
    exact ⟨value', index, hle, .inl ⟨hlength.symm ▸ hindex, hfind'⟩⟩
  · exact ⟨value, index, hle, .inr (hbinds.congr hbelow.symm)⟩

theorem enter (h : scope.Names name depth) (frame : Frame) :
    (scope.enter frame).Names name depth := by
  obtain ⟨value, index, hle, hbinds⟩ := h
  exact ⟨value, index, hle, .inr hbinds⟩

theorem pop (h : scope.Names name depth) (hdepth : depth < scope.depth) :
    scope.pop.Names name depth := by
  obtain ⟨value, index, hle, ⟨hindex, _⟩ | hbinds⟩ := h
  · exact absurd hindex (Nat.ne_of_lt (Nat.lt_of_le_of_lt hle hdepth))
  · have hne : scope.below ≠ [] := by
      intro hnil
      rw [hnil] at hbinds
      exact hbinds
    refine ⟨value, index, hle, ?_⟩
    rw [frames_pop hne]
    exact hbinds

theorem bindValue (name : String) (value : Value) :
    (scope.bindValue name value).Names name scope.depth :=
  ⟨value, scope.depth, Nat.le_refl _, .inl ⟨rfl, Assoc.find?_insert_self _ _ _⟩⟩

/-- A name that is bound is found. -/
theorem getValue (h : scope.Names name depth) : (scope.getValue name).1.isSome = true := by
  obtain ⟨value, index, _, hbinds⟩ := h
  have hlookup : (Frame.lookup name scope.frames).isSome = true := by
    generalize scope.frames = frames at hbinds
    induction frames with
    | nil => exact hbinds.elim
    | cons frame below ih =>
      rw [Frame.lookup]
      split
      · rfl
      · rename_i hnone
        rcases hbinds with ⟨_, hfind⟩ | hbinds
        · rw [hnone] at hfind
          cases hfind
        · exact ih hbinds
  obtain ⟨⟨found, depth'⟩, hfound⟩ := Option.isSome_iff_exists.mp hlookup
  rw [Scope.getValue, hfound]
  dsimp only
  split <;> rfl

end Names

/-! The number of frames, and the outermost one. -/

/-- The outermost frame. -/
def root (scope : Scope) : Frame := scope.below.getLast?.getD scope.top

theorem getLast?_frames (scope : Scope) : scope.frames.getLast? = some scope.root := by
  rw [frames, List.getLast?_cons, root]

theorem root_enter (scope : Scope) (frame : Frame) : (scope.enter frame).root = scope.root := by
  rw [root, enter, getLast?_frames, Option.getD_some]

theorem root_pop (scope : Scope) : scope.pop.root = scope.root := by
  rw [pop]
  split
  · rfl
  · rename_i frame below hbelow
    rw [root, root, hbelow, List.getLast?_cons, Option.getD_some]

/-- The two scopes have the same entries, but for upvalues. -/
structure Steady (scope scope' : Scope) : Prop where
  next : scope'.nextBinding = scope.nextBinding
  frames : scope'.frames.map Frame.bare = scope.frames.map Frame.bare

theorem Steady.refl (scope : Scope) : Steady scope scope := ⟨rfl, rfl⟩

theorem Steady.trans {scope scope' scope'' : Scope} (h : Steady scope scope')
    (h' : Steady scope' scope'') : Steady scope scope'' :=
  ⟨h'.next.trans h.next, h'.frames.trans h.frames⟩

theorem Steady.below {scope scope' : Scope} (h : Steady scope scope') :
    scope'.below.map Frame.bare = scope.below.map Frame.bare :=
  (List.cons.inj h.frames).2

theorem Steady.values {scope scope' : Scope} (h : Steady scope scope') :
    scope'.top.values = scope.top.values := by
  have hvalues := congrArg Frame.values (List.cons.inj h.frames).1
  exact hvalues

theorem Steady.types_root {scope scope' : Scope} (h : Steady scope scope') :
    scope'.root.types = scope.root.types := by
  have hlast := congrArg List.getLast? h.frames
  rw [List.getLast?_map, List.getLast?_map, getLast?_frames, getLast?_frames, Option.map_some,
    Option.map_some] at hlast
  have htypes := congrArg Frame.types (Option.some.inj hlast)
  exact htypes

theorem steady_capture (scope : Scope) (up : Upvalue) : Steady scope (scope.capture up) := by
  refine ⟨nextBinding_capture scope up, ?_⟩
  rw [frames_capture, Frame.map_bare_capture]

theorem steady_foldl_capture (scope : Scope) (ups : List Upvalue) :
    Steady scope (ups.foldl capture scope) := by
  induction ups generalizing scope with
  | nil => exact .refl scope
  | cons up rest ih => exact (steady_capture scope up).trans (ih _)

theorem steady_getValue (scope : Scope) (name : String) : Steady scope (scope.getValue name).2 := by
  rw [getValue]
  split
  · exact .refl scope
  · split
    · exact steady_capture scope _
    · exact .refl scope

/-- Closing the frame of a function closes its frame. -/
theorem steady_popFunction (scope : Scope) : Steady scope.pop scope.popFunction.2 := by
  rw [popFunction]
  split
  · rename_i hbelow
    rw [pop, hbelow]
    exact .refl scope
  · exact steady_foldl_capture _ _

end Scope

end TraitCheck
