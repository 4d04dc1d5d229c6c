import TraitCheck.Proofs.ScopeInvariants

/-!
Exact upvalues. A lookup is reported to the innermost function only, and the
functions around it hear of it when that one is closed, and then only of what it
kept. In a run of actions on a scope that closes what it opens, each function
still ends up with the first of the lookups of each binding from below its frame.

A run does to the upvalues what reporting all of its lookups at once does
(`Traces`). For a function inside the run this is the question whether the lookups
that it did not keep matter to the functions around it. They do not if a binding
is always found in the same frame, which holds if each id is bound once (`Once`).
-/

namespace TraitCheck

/-- The first of the upvalues of each binding, in their order. -/
def firstUses : List Upvalue → List Upvalue
  | [] => []
  | up :: rest => up :: (firstUses rest).filter (·.binding ≠ up.binding)

theorem mem_of_mem_firstUses {up : Upvalue} {found : List Upvalue} (h : up ∈ firstUses found) :
    up ∈ found := by
  induction found with
  | nil => exact h
  | cons first rest ih =>
    rcases List.mem_cons.mp h with rfl | h
    · exact List.mem_cons_self
    · exact List.mem_cons_of_mem first (ih (List.mem_filter.mp h).1)

/-- Upvalues reported to one function. -/
def Assoc.report (ups : Assoc BindingId Upvalue) (found : List Upvalue) :
    Assoc BindingId Upvalue :=
  found.foldl (fun ups up => ups.insertNew up.binding up) ups

theorem Assoc.values_report (ups : Assoc BindingId Upvalue) (found : List Upvalue) :
    (ups.report found).values = ups.values ++ (firstUses found).filter (·.binding ∉ ups.keys) := by
  induction found generalizing ups with
  | nil => simp [report, firstUses]
  | cons up rest ih =>
    change ((ups.insertNew up.binding up).report rest).values = _
    rw [ih, firstUses, values, keys, entries_insertNew]
    by_cases hkey : up.binding ∈ ups.keys
    · rw [if_pos hkey, List.filter_cons_of_neg (by simpa using hkey), List.filter_filter]
      congr 1
      apply List.filter_congr
      intro x _
      by_cases hx : x.binding ∈ ups.keys
      · rw [← keys]
        simp only [hx, not_true, decide_false, Bool.false_and]
      · have hne : x.binding ≠ up.binding := fun h => hx (h ▸ hkey)
        rw [← keys]
        simp only [hx, hne, not_false_iff, ne_eq, decide_true, Bool.true_and]
    · rw [if_neg hkey, List.filter_cons_of_pos (by simpa using hkey), List.filter_filter,
        List.map_append, List.append_assoc]
      congr 1
      change up :: List.filter _ _ = up :: List.filter _ _
      congr 1
      apply List.filter_congr
      intro x _
      rw [List.map_append, ← keys]
      simp only [List.mem_append, List.map_cons, List.map_nil, List.mem_singleton, not_or, ne_eq,
        Bool.decide_and]

namespace Frame

/-! Reports that change nothing. -/

variable {up : Upvalue} {frames : List Frame}

theorem capture_of_le (h : frames.length ≤ up.depth) : capture up frames = frames := by
  induction frames with
  | nil => rfl
  | cons frame below ih =>
    rw [List.length_cons] at h
    rw [capture]
    split
    · rw [ih (by omega)]
    · rw [if_neg (by omega)]

/-- The innermost function has the binding of the frame with the given index
already, or does not ask for it. -/
def Absorbs (id : BindingId) (depth : Nat) : List Frame → Prop
  | [] => True
  | frame :: below =>
    match frame.upvalues with
    | none => Absorbs id depth below
    | some ups => depth < below.length → id ∈ ups.keys

theorem Absorbs.capture_eq (h : Absorbs up.binding up.depth frames) :
    capture up frames = frames := by
  induction frames with
  | nil => rfl
  | cons frame below ih =>
    rw [capture]
    rw [Absorbs] at h
    cases hups : frame.upvalues with
    | none =>
      rw [hups] at h
      simp only [ih h]
    | some ups =>
      rw [hups] at h
      dsimp only at h ⊢
      split
      · rename_i hlt
        rw [Assoc.insertNew, Assoc.contains, if_pos ((Assoc.find?_isSome ups _).mpr (h hlt)),
          ← hups]
      · rfl

theorem absorbs_capture (up : Upvalue) (frames : List Frame) :
    Absorbs up.binding up.depth (capture up frames) := by
  induction frames with
  | nil => trivial
  | cons frame below ih =>
    rw [capture]
    cases hups : frame.upvalues with
    | none =>
      dsimp only
      rw [Absorbs, hups]
      exact ih
    | some ups =>
      dsimp only
      split
      · exact fun _ => Marks.mem_keys_insertNew.mpr (.inr rfl)
      · rename_i hge
        rw [Absorbs, hups]
        exact fun hlt => absurd hlt hge

theorem Absorbs.capture {id : BindingId} {depth : Nat} {frames : List Frame}
    (h : Absorbs id depth frames) (up : Upvalue) : Absorbs id depth (capture up frames) := by
  induction frames with
  | nil => trivial
  | cons frame below ih =>
    rw [Frame.capture]
    cases hups : frame.upvalues with
    | none =>
      rw [Absorbs, hups] at h
      dsimp only
      rw [Absorbs, hups]
      exact ih h
    | some ups =>
      dsimp only
      split
      · rw [Absorbs, hups] at h
        exact fun hlt => Marks.mem_keys_insertNew.mpr (.inl (h hlt))
      · exact h

/-! Bindings. -/

theorem Binds.below {name : String} {value : Value} {depth : Nat} {frame : Frame}
    {below : List Frame} (h : Binds name value depth (frame :: below))
    (hlt : depth < below.length) : Binds name value depth below := by
  rcases h with ⟨rfl, _⟩ | h
  · exact absurd hlt (Nat.lt_irrefl _)
  · exact h

/-- Each id that the frames bind is among the used ones, and bound in one frame. -/
structure Once (used : List BindingId) (frames : List Frame) : Prop where
  used : ∀ {name value depth id}, Binds name value depth frames → value.kind = .binding id →
    id ∈ used
  depth : ∀ {name value depth name' value' depth' id}, Binds name value depth frames →
    Binds name' value' depth' frames → value.kind = .binding id → value'.kind = .binding id →
    depth = depth'

theorem Once.of_binds {used : List BindingId} {frames' : List Frame} (h : Once used frames)
    (hbinds : ∀ {name value depth}, Binds name value depth frames' →
      ∃ value', Binds name value' depth frames ∧ value'.kind = value.kind) : Once used frames' := by
  constructor
  · intro name value depth id hb hkind
    obtain ⟨value', hb', hkind'⟩ := hbinds hb
    exact h.used hb' (hkind'.trans hkind)
  · intro name value depth name' value' depth' id hb hb' hkind hkind'
    obtain ⟨v, hv, hvkind⟩ := hbinds hb
    obtain ⟨v', hv', hvkind'⟩ := hbinds hb'
    exact h.depth hv hv' (hvkind.trans hkind) (hvkind'.trans hkind')

end Frame

namespace Scope

variable {s s' s'' : Scope}

/-! Many reports at once. -/

variable {ups : Assoc BindingId Upvalue} {frame : Frame}

theorem capture_of_none (h : s.top.upvalues = none) (up : Upvalue) :
    s.capture up = { s with below := Frame.capture up s.below } := by
  simp [capture, frames, Frame.capture, h]

theorem capture_of_some (h : s.top.upvalues = some ups) (up : Upvalue) :
    s.capture up = { s with top := { s.top with
      upvalues := some (ups.report ([up].filter (·.depth < s.below.length))) } } := by
  by_cases hlt : up.depth < s.below.length
  · simp [capture, frames, Frame.capture, h, hlt, Assoc.report]
  · have hnone : [up].filter (·.depth < s.below.length) = [] :=
      List.filter_cons_of_neg (by simpa using hlt)
    simp only [capture, frames, Frame.capture, h, if_neg hlt, hnone, Assoc.report, List.foldl_nil]
    rw [← h]

theorem capture_enter (s : Scope) (h : frame.upvalues = none) (up : Upvalue) :
    (s.enter frame).capture up = (s.capture up).enter frame := by
  rw [capture_of_none (s := s.enter frame) h]
  simp only [enter, frames_capture, nextBinding_capture]

theorem foldl_capture_enter (s : Scope) (h : frame.upvalues = none) (found : List Upvalue) :
    found.foldl capture (s.enter frame) = (found.foldl capture s).enter frame := by
  induction found generalizing s with
  | nil => rfl
  | cons up rest ih => rw [List.foldl_cons, List.foldl_cons, capture_enter s h, ih]

/-- Inside a function nothing is reported further out. -/
theorem foldl_capture_of_some (h : s.top.upvalues = some ups) (found : List Upvalue) :
    found.foldl capture s = { s with top := { s.top with
      upvalues := some (ups.report (found.filter (·.depth < s.below.length))) } } := by
  induction found generalizing s ups with
  | nil => simp [Assoc.report, ← h]
  | cons up rest ih =>
    rw [List.foldl_cons, capture_of_some h, ih rfl]
    congr 3
    rw [← List.singleton_append (l := rest), List.filter_append, Assoc.report, Assoc.report,
      Assoc.report, List.foldl_append]

theorem ext_frames (hframes : s.frames = s'.frames) (hnext : s.nextBinding = s'.nextBinding) :
    s = s' := by
  obtain ⟨top, below, next⟩ := s
  cases hframes
  cases hnext
  rfl

theorem capture_eq_self {up : Upvalue} (h : Frame.capture up s.frames = s.frames) :
    s.capture up = s :=
  ext_frames ((frames_capture s up).trans h) (nextBinding_capture s up)

theorem foldl_capture_filter (s : Scope) (found : List Upvalue) :
    (found.filter (·.depth < s.frames.length)).foldl capture s = found.foldl capture s := by
  induction found generalizing s with
  | nil => rfl
  | cons up rest ih =>
    by_cases hlt : up.depth < s.frames.length
    · rw [List.filter_cons_of_pos (by simpa using hlt), List.foldl_cons, List.foldl_cons,
        ← ih, frames_capture, Frame.length_capture]
    · rw [List.filter_cons_of_neg (by simpa using hlt), List.foldl_cons,
        capture_eq_self (Frame.capture_of_le (by omega)), ih]

theorem foldl_capture_absorbed {id : BindingId} {depth : Nat} {found : List Upvalue}
    (habsorbs : Frame.Absorbs id depth s.frames)
    (hdepth : ∀ up ∈ found, up.binding = id → up.depth = depth) :
    (found.filter (·.binding ≠ id)).foldl capture s = found.foldl capture s := by
  induction found generalizing s with
  | nil => rfl
  | cons up rest ih =>
    have hrest := fun x hx => hdepth x (List.mem_cons_of_mem up hx)
    by_cases hid : up.binding = id
    · have hself := hdepth up List.mem_cons_self hid
      subst hid hself
      rw [List.filter_cons_of_neg (by simp), List.foldl_cons,
        capture_eq_self habsorbs.capture_eq, ih habsorbs hrest]
    · rw [List.filter_cons_of_pos (by simpa using hid), List.foldl_cons, List.foldl_cons]
      refine ih ?_ hrest
      rw [frames_capture]
      exact habsorbs.capture up

/-- Of the reports of a binding that is always found in the same frame, only the
first matters. -/
theorem foldl_capture_firstUses (s : Scope) {found : List Upvalue}
    (hdepth : ∀ up ∈ found, ∀ up' ∈ found, up.binding = up'.binding → up.depth = up'.depth) :
    (firstUses found).foldl capture s = found.foldl capture s := by
  induction found generalizing s with
  | nil => rfl
  | cons up rest ih =>
    have hrest := fun x hx y hy =>
      hdepth x (List.mem_cons_of_mem up hx) y (List.mem_cons_of_mem up hy)
    have hup : ∀ x ∈ firstUses rest, x.binding = up.binding → x.depth = up.depth :=
      fun x hx => hdepth x (List.mem_cons_of_mem up (mem_of_mem_firstUses hx)) up
        List.mem_cons_self
    have habsorbs : Frame.Absorbs up.binding up.depth (s.capture up).frames := by
      rw [frames_capture]
      exact Frame.absorbs_capture up s.frames
    rw [firstUses, List.foldl_cons, List.foldl_cons, foldl_capture_absorbed habsorbs hup,
      ih (s.capture up) hrest]

/-- The two scopes differ at most in what the innermost frame binds. -/
structure Alike (s s' : Scope) : Prop where
  below : s'.below = s.below
  upvalues : s'.top.upvalues = s.top.upvalues

theorem Alike.trans (h : Alike s s') (h' : Alike s' s'') : Alike s s'' :=
  ⟨h'.below.trans h.below, h'.upvalues.trans h.upvalues⟩

theorem Alike.capture (h : Alike s s') (up : Upvalue) : Alike (s.capture up) (s'.capture up) := by
  cases hups : s.top.upvalues with
  | none =>
    rw [capture_of_none hups, capture_of_none (h.upvalues.trans hups), h.below]
    exact ⟨rfl, h.upvalues⟩
  | some ups =>
    rw [capture_of_some hups, capture_of_some (h.upvalues.trans hups), h.below]
    exact ⟨rfl, rfl⟩

theorem Alike.foldl_capture (h : Alike s s') (found : List Upvalue) :
    Alike (found.foldl Scope.capture s) (found.foldl Scope.capture s') := by
  induction found generalizing s s' with
  | nil => exact h
  | cons up rest ih => exact ih (h.capture up)

theorem alike_of_frames (h : s'.frames = s.frames) : Alike s s' := by
  obtain ⟨htop, hbelow⟩ := List.cons.inj h
  exact ⟨hbelow, congrArg Frame.upvalues htop⟩

/-! Actions. -/

/-- What may be done to a scope, apart from reading that leaves no trace. -/
inductive Action where
  | push
  | pop
  | pushFunction
  | popFunction
  | bindValue (name : String) (value : Value)
  | bindLocal (name : String) (ty : Ty)
  | bindParam (name : String) (ty : Ty)
  | freshBinding
  | setValueType (name : String) (ty : Ty)
  | getValue (name : String)
  | bindType (name : String) (ty : Ty)

def perform (s : Scope) : Action → Scope
  | .push => s.push
  | .pop => s.pop
  | .pushFunction => s.pushFunction
  | .popFunction => s.popFunction.2
  | .bindValue name value => s.bindValue name value
  | .bindLocal name ty => (s.bindLocal name ty).2
  | .bindParam name ty =>
    match s.bindParam name ty with
    | .ok (_, s) => s
    | .error _ => s
  | .freshBinding => s.freshBinding.2
  | .setValueType name ty => s.setValueType name ty
  | .getValue name => (s.getValue name).2
  | .bindType name ty => s.bindType name ty

def run (s : Scope) (actions : List Action) : Scope := actions.foldl perform s

/-- What the actions of a run yield, each in the scope that it is done to. -/
def along {α : Type} (f : Scope → Action → List α) (s : Scope) : List Action → List α
  | [] => []
  | action :: rest => f s action ++ along f (s.perform action) rest

/-- The ids that an action binds. -/
def bound (s : Scope) : Action → List BindingId
  | .bindValue _ ⟨.binding id, _, _⟩ => [id]
  | .bindLocal _ _ => [s.nextBinding]
  | .bindParam name _ => if s.top.values.contains name then [] else [s.nextBinding]
  | _ => []

/-- The binding that an action looks up, with its type and the index of the
frame where it is found. -/
def found (s : Scope) : Action → List Upvalue
  | .getValue name =>
    match Frame.lookup name s.frames with
    | some (⟨.binding id, ty, _⟩, depth) => [⟨id, ty, depth⟩]
    | _ => []
  | _ => []

def Action.IsBracket : Action → Prop
  | .push | .pop | .pushFunction | .popFunction => True
  | _ => False

/-- Actions that close what they open, each frame in the way that fits it. -/
inductive Balanced : List Action → Prop
  | nil : Balanced []
  | cons {action : Action} {rest : List Action} : ¬action.IsBracket → Balanced rest →
      Balanced (action :: rest)
  | block {body rest : List Action} : Balanced body → Balanced rest →
      Balanced (.push :: (body ++ .pop :: rest))
  | function {body rest : List Action} : Balanced body → Balanced rest →
      Balanced (.pushFunction :: (body ++ .popFunction :: rest))

theorem run_append (s : Scope) (as bs : List Action) : s.run (as ++ bs) = (s.run as).run bs :=
  List.foldl_append

theorem along_append {α : Type} (f : Scope → Action → List α) (s : Scope) (as bs : List Action) :
    along f s (as ++ bs) = along f s as ++ along f (s.run as) bs := by
  induction as generalizing s with
  | nil => rfl
  | cons action rest ih =>
    rw [List.cons_append, along, along, ih, List.append_assoc]
    rfl

/-! Each id is bound once. -/

variable {used : List BindingId}

theorem once_bindValue (h : Frame.Once used s.frames) (name : String) (value : Value)
    (hfresh : ∀ id, value.kind = .binding id → id ∉ used) {ids : List BindingId}
    (hids : ∀ id, value.kind = .binding id → id ∈ ids) :
    Frame.Once (used ++ ids) (s.bindValue name value).frames := by
  have hcases : ∀ {n v d}, Frame.Binds n v d (s.bindValue name value).frames →
      (v = value ∧ d = s.below.length) ∨ Frame.Binds n v d s.frames := by
    rintro n v d (⟨rfl, hfind⟩ | hbelow)
    · change (s.top.values.insert name value).find? n = some v at hfind
      rw [Assoc.find?_insert] at hfind
      split at hfind
      · cases hfind
        exact .inl ⟨rfl, rfl⟩
      · exact .inr (.inl ⟨rfl, hfind⟩)
    · exact .inr (.inr hbelow)
  constructor
  · intro n v d id hb hkind
    rcases hcases hb with ⟨rfl, _⟩ | hold
    · exact List.mem_append_right used (hids id hkind)
    · exact List.mem_append_left ids (h.used hold hkind)
  · intro n v d n' v' d' id hb hb' hkind hkind'
    rcases hcases hb with ⟨rfl, rfl⟩ | hold <;> rcases hcases hb' with ⟨rfl, rfl⟩ | hold'
    · rfl
    · exact absurd (h.used hold' hkind') (hfresh id hkind)
    · exact absurd (h.used hold hkind) (hfresh id hkind')
    · exact h.depth hold hold' hkind hkind'

theorem once_bindLocal (h : Frame.Once used s.frames) (name : String) (ty : Ty)
    (hfresh : s.nextBinding ∉ used) :
    Frame.Once (used ++ [s.nextBinding]) (s.bindLocal name ty).2.frames := by
  refine once_bindValue (s := s.freshBinding.2) h name ⟨.binding s.nextBinding, ty, []⟩ ?_ ?_
  · rintro id ⟨⟩
    exact hfresh
  · rintro id ⟨⟩
    exact List.mem_singleton_self _

theorem once_enter (h : Frame.Once used s.frames) (hframe : frame.values = ∅) :
    Frame.Once used (s.enter frame).frames := by
  refine h.of_binds ?_
  rintro name value depth (⟨_, hfind⟩ | hb)
  · change frame.values.find? name = some value at hfind
    rw [hframe] at hfind
    cases hfind
  · exact ⟨value, hb, rfl⟩

theorem once_pop (h : Frame.Once used s.frames) : Frame.Once used s.pop.frames := by
  cases hbelow : s.below with
  | nil =>
    rw [pop, hbelow]
    exact h
  | cons frame below =>
    rw [frames_pop (by simp [hbelow])]
    exact h.of_binds fun hb => ⟨_, .inr hb, rfl⟩

theorem once_steady (h : Frame.Once used s.frames) (hs : Steady s s') : Frame.Once used s'.frames :=
  h.of_binds fun hb => ⟨_, hb.congr hs.frames, rfl⟩

theorem once_setValueType (h : Frame.Once used s.frames) (name : String) (ty : Ty) :
    Frame.Once used (s.setValueType name ty).frames := by
  refine h.of_binds ?_
  rintro n v d (⟨rfl, hfind⟩ | hb)
  · change (s.top.values.modify name _).find? n = some v at hfind
    rw [Assoc.modify] at hfind
    split at hfind
    · exact ⟨v, .inl ⟨rfl, hfind⟩, rfl⟩
    · rename_i old hold
      rw [Assoc.find?_insert] at hfind
      split at hfind
      · rename_i hname
        cases hfind
        exact ⟨old, .inl ⟨rfl, hname ▸ hold⟩, rfl⟩
      · exact ⟨v, .inl ⟨rfl, hfind⟩, rfl⟩
  · exact ⟨v, .inr hb, rfl⟩

/-- An action that binds no id in use leaves each id bound once. -/
theorem once_perform (h : Frame.Once used s.frames) (action : Action)
    (hfresh : ∀ id ∈ s.bound action, id ∉ used) :
    Frame.Once (used ++ s.bound action) (s.perform action).frames := by
  cases action with
  | push => exact (List.append_nil used).symm ▸ once_enter h rfl
  | pushFunction => exact (List.append_nil used).symm ▸ once_enter h rfl
  | pop => exact (List.append_nil used).symm ▸ once_pop h
  | popFunction =>
    exact (List.append_nil used).symm ▸ once_steady (once_pop h) (steady_popFunction s)
  | bindValue name value =>
    obtain ⟨kind, ty, generics⟩ := value
    cases kind with
    | binding id =>
      refine once_bindValue h name _ ?_ ?_
      · rintro id' ⟨⟩
        exact hfresh id List.mem_cons_self
      · rintro id' ⟨⟩
        exact List.mem_singleton_self _
    | builtin op => exact once_bindValue h name _ (by rintro id ⟨⟩) (by rintro id ⟨⟩)
    | method bound index => exact once_bindValue h name _ (by rintro id ⟨⟩) (by rintro id ⟨⟩)
  | bindLocal name ty => exact once_bindLocal h name ty (hfresh _ List.mem_cons_self)
  | bindParam name ty =>
    simp only [bound, perform, bindParam] at hfresh ⊢
    split
    · exact (List.append_nil used).symm ▸ h
    · rename_i hname
      rw [if_neg hname] at hfresh
      exact once_bindLocal h name ty (hfresh _ List.mem_cons_self)
  | freshBinding => exact (List.append_nil used).symm ▸ h
  | setValueType name ty => exact (List.append_nil used).symm ▸ once_setValueType h name ty
  | getValue name => exact (List.append_nil used).symm ▸ once_steady h (steady_getValue s name)
  | bindType name ty =>
    refine (List.append_nil used).symm ▸ h.of_binds ?_
    rintro n v d (⟨rfl, hfind⟩ | hb)
    · exact ⟨v, .inl ⟨rfl, hfind⟩, rfl⟩
    · exact ⟨v, .inr hb, rfl⟩

theorem once_run (h : Frame.Once used s.frames) (actions : List Action)
    (hnodup : (used ++ along bound s actions).Nodup) :
    Frame.Once (used ++ along bound s actions) (s.run actions).frames := by
  induction actions generalizing s used with
  | nil => exact (List.append_nil used).symm ▸ h
  | cons action rest ih =>
    rw [along, ← List.append_assoc] at hnodup ⊢
    have hused := (List.nodup_append.mp hnodup).1
    have hfresh : ∀ id ∈ s.bound action, id ∉ used :=
      fun id hid hmem => (List.nodup_append.mp hused).2.2 id hmem id hid rfl
    exact ih (once_perform h action hfresh) hnodup

/-! Runs. -/

/-- What a run does to the upvalues, and where its lookups from below the frame
that it starts in come from. -/
structure Traces (s s' : Scope) (found : List Upvalue) : Prop where
  alike : Alike (found.foldl capture s) s'
  outside : ∀ up ∈ found, up.depth < s.below.length →
    ∃ name value, Frame.Binds name value up.depth s.below ∧ value.kind = .binding up.binding

theorem Traces.append {found found' : List Upvalue} (h : Traces s s' found)
    (h' : Traces s' s'' found') : Traces s s'' (found ++ found') := by
  refine ⟨?_, ?_⟩
  · rw [List.foldl_append]
    exact (h.alike.foldl_capture found').trans h'.alike
  · have hbelow : s'.below.map Frame.bare = s.below.map Frame.bare := by
      rw [h.alike.below]
      exact (steady_foldl_capture s found).below
    have hlength : s'.below.length = s.below.length := by
      have hmap := congrArg List.length hbelow
      rwa [List.length_map, List.length_map] at hmap
    intro up hup hlt
    rcases List.mem_append.mp hup with hup | hup
    · exact h.outside up hup hlt
    · obtain ⟨name, value, hb, hkind⟩ := h'.outside up hup (hlength ▸ hlt)
      exact ⟨name, value, hb.congr hbelow, hkind⟩

theorem traces_of_alike (h : Alike s s') : Traces s s' [] :=
  ⟨h, by intro up hup; cases hup⟩

theorem traces_getValue (s : Scope) (name : String) :
    Traces s (s.getValue name).2 (s.found (.getValue name)) := by
  rw [getValue, found]
  cases hlookup : Frame.lookup name s.frames with
  | none => exact traces_of_alike ⟨rfl, rfl⟩
  | some entry =>
    obtain ⟨⟨kind, ty, generics⟩, depth⟩ := entry
    cases kind with
    | binding id =>
      refine ⟨⟨rfl, rfl⟩, ?_⟩
      intro up hup hlt
      cases List.mem_singleton.mp hup
      exact ⟨name, _, (Frame.binds_of_lookup hlookup).below hlt, rfl⟩
    | builtin op => exact traces_of_alike ⟨rfl, rfl⟩
    | method bound index => exact traces_of_alike ⟨rfl, rfl⟩

theorem traces_perform (s : Scope) {action : Action} (h : ¬action.IsBracket) :
    Traces s (s.perform action) (s.found action) := by
  cases action with
  | push | pop | pushFunction | popFunction => exact absurd trivial h
  | getValue name => exact traces_getValue s name
  | bindParam name ty =>
    refine traces_of_alike ?_
    rw [perform, bindParam]
    by_cases hname : s.top.values.contains name
    · rw [if_pos hname]
      exact ⟨rfl, rfl⟩
    · rw [if_neg hname]
      exact ⟨rfl, rfl⟩
  | bindValue name value => exact traces_of_alike ⟨rfl, rfl⟩
  | bindLocal name ty => exact traces_of_alike ⟨rfl, rfl⟩
  | freshBinding => exact traces_of_alike ⟨rfl, rfl⟩
  | setValueType name ty => exact traces_of_alike ⟨rfl, rfl⟩
  | bindType name ty => exact traces_of_alike ⟨rfl, rfl⟩

/-- What is below a frame that was entered is below it, or in the frame around. -/
theorem outside_of_enter {found : List Upvalue} (h : Traces (s.enter frame) s' found) :
    ∀ up ∈ found, up.depth < s.below.length →
      ∃ name value, Frame.Binds name value up.depth s.below ∧ value.kind = .binding up.binding := by
  intro up hup hlt
  obtain ⟨name, value, hb, hkind⟩ := h.outside up hup (Nat.lt_succ_of_lt hlt)
  exact ⟨name, value, hb.below hlt, hkind⟩

theorem Traces.pop {found : List Upvalue} (h : Traces s.push s' found) : Traces s s'.pop found := by
  refine ⟨alike_of_frames ?_, outside_of_enter h⟩
  have hbelow : s'.below = (found.foldl capture s).frames := by
    rw [h.alike.below, push, foldl_capture_enter s rfl]
    rfl
  rw [frames_pop (by simp [hbelow, frames]), hbelow]

/-- The upvalues of a function at its end. -/
theorem Traces.upvalues {found : List Upvalue} (h : Traces s.pushFunction s' found) :
    s'.below = s.frames ∧
      s'.popFunction.1 = firstUses (found.filter (·.depth < s.frames.length)) := by
  have hfold := foldl_capture_of_some (s := s.pushFunction) rfl found
  have hbelow : s'.below = s.frames := by
    rw [h.alike.below, hfold]
    rfl
  refine ⟨hbelow, ?_⟩
  have hups := h.alike.upvalues
  rw [hfold] at hups
  rw [popFunction, hbelow]
  change (s'.top.upvalues.getD ∅).values = _
  rw [hups, Option.getD_some, Assoc.values_report]
  exact List.filter_eq_self.mpr fun _ _ => decide_eq_true List.not_mem_nil

/-- The functions around a function learn from it what they would have learned
from its lookups. -/
theorem Traces.popFunction {used : List BindingId} {found : List Upvalue}
    (h : Traces s.pushFunction s' found) (hs : Frame.Once used s.frames) :
    Traces s s'.popFunction.2 found := by
  refine ⟨?_, outside_of_enter h⟩
  obtain ⟨hbelow, hups⟩ := h.upvalues
  have hkept : s'.popFunction.2 = s'.popFunction.1.foldl capture s'.pop := by
    rw [Scope.popFunction, hbelow]
    rfl
  have hdepth : ∀ up ∈ found.filter (·.depth < s.frames.length),
      ∀ up' ∈ found.filter (·.depth < s.frames.length),
      up.binding = up'.binding → up.depth = up'.depth := by
    intro up hup up' hup' hid
    rw [List.mem_filter, decide_eq_true_eq] at hup hup'
    obtain ⟨_, _, hb, hkind⟩ := h.outside up hup.1 hup.2
    obtain ⟨_, _, hb', hkind'⟩ := h.outside up' hup'.1 hup'.2
    exact hs.depth hb hb' hkind (hid ▸ hkind')
  have hpop : Alike s s'.pop := by
    apply alike_of_frames
    rw [frames_pop (by simp [hbelow, frames]), hbelow]
  rw [hkept, hups, ← foldl_capture_filter s found, ← foldl_capture_firstUses s hdepth]
  exact hpop.foldl_capture _

theorem traces_run {actions : List Action} (h : Balanced actions) (hs : Frame.Once used s.frames)
    (hnodup : (used ++ along bound s actions).Nodup) :
    Traces s (s.run actions) (along found s actions) := by
  induction h generalizing s used with
  | nil => exact traces_of_alike ⟨rfl, rfl⟩
  | @cons action rest hplain _ ih =>
    have hnext := once_run hs [action]
    rw [along, ← List.append_assoc] at hnodup
    have hfresh := (List.nodup_append.mp hnodup).1
    simp only [along, List.append_nil] at hnext
    exact (traces_perform s hplain).append (ih (hnext hfresh) hnodup)
  | @block body rest _ _ ihbody ihrest =>
    have hpush : Frame.Once used s.push.frames := once_enter hs rfl
    rw [along, along_append, along] at hnodup ⊢
    change (used ++ (along bound s.push body ++ along bound (s.push.run body).pop rest)).Nodup
      at hnodup
    rw [← List.append_assoc] at hnodup
    have hbody := (List.nodup_append.mp hnodup).1
    have hinner := ihbody hpush hbody
    have hclosed := once_pop (once_run hpush body hbody)
    have hrest := ihrest hclosed hnodup
    have hrun : s.run (.push :: (body ++ .pop :: rest)) = (s.push.run body).pop.run rest :=
      run_append s.push body (.pop :: rest)
    rw [hrun]
    exact hinner.pop.append hrest
  | @function body rest _ _ ihbody ihrest =>
    have hpush : Frame.Once used s.pushFunction.frames := once_enter hs rfl
    rw [along, along_append, along] at hnodup ⊢
    change (used ++ (along bound s.pushFunction body ++
      along bound (s.pushFunction.run body).popFunction.2 rest)).Nodup at hnodup
    rw [← List.append_assoc] at hnodup
    have hbody := (List.nodup_append.mp hnodup).1
    have hinner := ihbody hpush hbody
    have hclosed := once_steady (once_pop (once_run hpush body hbody)) (steady_popFunction _)
    have hrest := ihrest hclosed hnodup
    have hrun : s.run (.pushFunction :: (body ++ .popFunction :: rest)) =
        (s.pushFunction.run body).popFunction.2.run rest :=
      run_append s.pushFunction body (.popFunction :: rest)
    rw [hrun]
    exact (hinner.popFunction hs).append hrest

/-- The upvalues of a function are the first lookups of each binding from below
its frame, made anywhere inside of it. -/
theorem popFunction_exact (before : List Action) {body : List Action} (hbody : Balanced body)
    (hids : (along bound {} (before ++ .pushFunction :: body)).Nodup) :
    let outside := run {} before
    let inside := outside.pushFunction.run body
    inside.depth = outside.depth + 1 ∧
      inside.popFunction.1 =
        firstUses ((along found outside.pushFunction body).filter (·.depth < inside.depth)) := by
  intro outside inside
  rw [along_append] at hids
  have hnew : Frame.Once [] (frames {}) := by
    refine ⟨?_, ?_⟩
    · rintro _ _ _ _ (⟨_, ⟨⟩⟩ | ⟨⟨⟩⟩)
    · rintro _ _ _ _ _ _ _ (⟨_, ⟨⟩⟩ | ⟨⟨⟩⟩)
  have houtside := once_run hnew before (List.nodup_append.mp hids).1
  have hinside := traces_run hbody (once_enter houtside rfl) hids
  obtain ⟨hbelow, hups⟩ := hinside.upvalues
  have hdepth : inside.depth = outside.frames.length := congrArg List.length hbelow
  exact ⟨hdepth, hdepth ▸ hups⟩

/-- A function looks up the local of the function around it, and the function
inside it a global. -/
theorem popFunction_exact_nested :
    let outside := run {} [.bindLocal "x" .int, .pushFunction, .bindLocal "y" .bool]
    let inside := outside.pushFunction.run [.getValue "y", .pushFunction, .getValue "x",
      .getValue "y", .popFunction, .bindLocal "z" .int, .getValue "z"]
    inside.depth = 2 ∧ inside.popFunction.1 = [⟨1, .bool, 1⟩, ⟨0, .int, 0⟩] := by
  have hcall : Balanced [.getValue "x", .getValue "y"] := .cons id (.cons id .nil)
  have hend : Balanced [.bindLocal "z" .int, .getValue "z"] := .cons id (.cons id .nil)
  have hbody : Balanced (.getValue "y" :: _) := .cons id (.function hcall hend)
  exact popFunction_exact [.bindLocal "x" .int, .pushFunction, .bindLocal "y" .bool] hbody
    (by decide)

end Scope

end TraitCheck
