import Mathlib.Data.List.Forall2
import TraitCheck.Proofs.ExactUpvalues

/-!
Scopes restore what they shadow. Whatever is done between opening a frame and
closing it, the frames below bind the same names to the same values and types
afterwards. What may be left of it is in the upvalues of the functions around:
those reported meanwhile stand after the ones that were there (`Frame.Grown`).

The frame that is open changes with each action, so the step and the run speak of
the frames below it only. Closing it then gives the step for the frames of the
scope in which it was opened (`grown_bracket`).
-/

namespace TraitCheck

namespace Frame

variable {frames frames' : List Frame}

/-- The same names are bound, and the upvalues are those that were there with
possibly others after them. -/
structure Grown (frame frame' : Frame) : Prop where
  values : frame'.values = frame.values
  types : frame'.types = frame.types
  upvalues : Option.Rel (fun ups ups' => ups.entries <+: ups'.entries)
    frame.upvalues frame'.upvalues

theorem Grown.refl (frame : Frame) : Grown frame frame := by
  refine ⟨rfl, rfl, ?_⟩
  cases frame.upvalues with
  | none => exact .none
  | some ups => exact .some (List.prefix_refl _)

theorem Grown.trans {first second third : Frame} (h : Grown first second)
    (h' : Grown second third) : Grown first third := by
  refine ⟨h'.values.trans h.values, h'.types.trans h.types, ?_⟩
  have hups := h.upvalues
  have hups' := h'.upvalues
  revert hups hups'
  generalize first.upvalues = a
  generalize second.upvalues = b
  generalize third.upvalues = c
  rintro (⟨hab⟩ | _) (⟨hbc⟩ | _)
  · exact .some (hab.trans hbc)
  · exact .none

theorem grown_refl (frames : List Frame) : List.Forall₂ Grown frames frames :=
  List.forall₂_same.mpr fun frame _ => Grown.refl frame

theorem grown_trans {first second third : List Frame} (h : List.Forall₂ Grown first second)
    (h' : List.Forall₂ Grown second third) : List.Forall₂ Grown first third := by
  induction h generalizing third with
  | nil => exact h'
  | cons hframe _ ih =>
    cases h' with
    | cons hframe' hrest' => exact .cons (hframe.trans hframe') (ih hrest')

/-- A report changes one frame at most, where it comes last. -/
theorem grown_capture (up : Upvalue) (frames : List Frame) :
    List.Forall₂ Grown frames (capture up frames) := by
  induction frames with
  | nil => exact .nil
  | cons frame below ih =>
    rw [capture]
    split
    · exact .cons (Grown.refl frame) ih
    · rename_i ups hups
      split
      · refine .cons ⟨rfl, rfl, ?_⟩ (grown_refl below)
        rw [hups]
        refine .some ?_
        rw [Assoc.entries_insertNew]
        split
        · exact List.prefix_refl _
        · exact List.prefix_append _ _
      · exact grown_refl _

theorem lookup_grown (h : List.Forall₂ Grown frames frames') (name : String) :
    lookup name frames' = lookup name frames := by
  induction h with
  | nil => rfl
  | cons hframe hbelow ih => rw [lookup, lookup, hframe.values, ih, hbelow.length_eq]

theorem lookupType_grown (h : List.Forall₂ Grown frames frames') (name : String) :
    lookupType name frames' = lookupType name frames := by
  induction h with
  | nil => rfl
  | cons hframe _ ih => rw [lookupType, lookupType, hframe.types, ih]

end Frame

namespace Scope

variable {closing opening : Action} {s : Scope}

theorem grown_capture (s : Scope) (up : Upvalue) :
    List.Forall₂ Frame.Grown s.frames (s.capture up).frames := by
  rw [frames_capture]
  exact Frame.grown_capture up s.frames

theorem grown_foldl_capture (s : Scope) (ups : List Upvalue) :
    List.Forall₂ Frame.Grown s.frames (ups.foldl capture s).frames := by
  induction ups generalizing s with
  | nil => exact Frame.grown_refl _
  | cons up rest ih => exact Frame.grown_trans (grown_capture s up) (ih (s.capture up))

theorem grown_getValue (s : Scope) (name : String) :
    List.Forall₂ Frame.Grown s.frames (s.getValue name).2.frames := by
  rw [getValue]
  split
  · exact Frame.grown_refl _
  · split
    · exact grown_capture s _
    · exact Frame.grown_refl _

theorem grown_popFunction (s : Scope) :
    List.Forall₂ Frame.Grown s.pop.frames s.popFunction.2.frames := by
  rw [popFunction]
  split
  · rename_i hbelow
    rw [pop, hbelow]
    exact Frame.grown_refl _
  · exact grown_foldl_capture s.pop _

/-- Between brackets, the frames below the innermost one only grow. -/
theorem grown_below_perform (s : Scope) {action : Action} (h : ¬action.IsBracket) :
    List.Forall₂ Frame.Grown s.below (s.perform action).below := by
  cases action with
  | push | pop | pushFunction | popFunction => exact absurd trivial h
  | bindParam name ty =>
    rw [perform, bindParam]
    by_cases hdup : s.top.values.contains name
    · rw [if_pos hdup]
      exact Frame.grown_refl _
    · rw [if_neg hdup]
      exact Frame.grown_refl _
  | getValue name =>
    obtain _ | ⟨_, hbelow⟩ := grown_getValue s name
    exact hbelow
  | bindValue | bindLocal | freshBinding | setValueType | bindType => exact Frame.grown_refl _

/-- The action that opens a frame, and the one that closes a frame opened so. -/
inductive Matching : Action → Action → Prop
  | block : Matching .push .pop
  | function : Matching .pushFunction .popFunction

/-- A frame is opened and closed; meanwhile the frames below it grow. -/
theorem grown_bracket {inside : Scope} (h : Matching opening closing)
    (hbelow : List.Forall₂ Frame.Grown (s.perform opening).below inside.below) :
    List.Forall₂ Frame.Grown s.frames (inside.perform closing).frames := by
  have hframes : List.Forall₂ Frame.Grown s.frames inside.below := by cases h <;> exact hbelow
  have hpop : inside.pop.frames = inside.below := by
    apply frames_pop
    intro hnil
    rw [hnil] at hframes
    cases hframes
  cases h with
  | block => exact hpop ▸ hframes
  | function => exact Frame.grown_trans (hpop ▸ hframes) (grown_popFunction inside)

/-- A frame is opened and closed, and a run goes on. -/
theorem grown_below_bracket {body rest : List Action} (h : Matching opening closing)
    (hbody : ∀ s : Scope, List.Forall₂ Frame.Grown s.below (s.run body).below)
    (hrest : ∀ s : Scope, List.Forall₂ Frame.Grown s.below (s.run rest).below) :
    List.Forall₂ Frame.Grown s.below (s.run (opening :: (body ++ closing :: rest))).below := by
  have hrun : s.run (opening :: (body ++ closing :: rest)) =
      (((s.perform opening).run body).perform closing).run rest :=
    run_append (s.perform opening) body (closing :: rest)
  rw [hrun]
  obtain _ | ⟨_, hbelow⟩ := grown_bracket h (hbody (s.perform opening))
  exact Frame.grown_trans hbelow (hrest _)

theorem grown_below_run {actions : List Action} (h : Balanced actions) (s : Scope) :
    List.Forall₂ Frame.Grown s.below (s.run actions).below := by
  induction h generalizing s with
  | nil => exact Frame.grown_refl _
  | cons haction _ ih => exact Frame.grown_trans (grown_below_perform s haction) (ih _)
  | block _ _ ihbody ihrest => exact grown_below_bracket .block ihbody ihrest
  | function _ _ ihbody ihrest => exact grown_below_bracket .function ihbody ihrest

/-- Looking a value up with or without a trace gives the same. -/
theorem getValue_fst (s : Scope) (name : String) : (s.getValue name).1 = s.peek? name := by
  rw [getValue, peek?]
  split
  · rename_i hlookup
    rw [hlookup]
    rfl
  · rename_i hlookup
    rw [hlookup]
    split <;> rfl

/-! Ids. -/

/-- The ids that an action hands out. -/
def drawn (s : Scope) : Action → List BindingId
  | .freshBinding => [s.freshBinding.1]
  | .bindLocal name ty => [(s.bindLocal name ty).1]
  | .bindParam name ty =>
    match s.bindParam name ty with
    | .ok (id, _) => [id]
    | .error _ => []
  | _ => []

theorem nextBinding_foldl_capture (s : Scope) (ups : List Upvalue) :
    (ups.foldl capture s).nextBinding = s.nextBinding := by
  induction ups generalizing s with
  | nil => rfl
  | cons up rest ih => rw [List.foldl_cons, ih, nextBinding_capture]

theorem drawn_perform (s : Scope) (action : Action) :
    s.drawn action = List.range' s.nextBinding (s.drawn action).length ∧
      (s.perform action).nextBinding = s.nextBinding + (s.drawn action).length := by
  cases action with
  | bindParam name ty =>
    rw [perform, drawn, bindParam]
    by_cases hdup : s.top.values.contains name
    · rw [if_pos hdup]
      exact ⟨rfl, rfl⟩
    · rw [if_neg hdup]
      exact ⟨rfl, rfl⟩
  | pop => exact ⟨rfl, nextBinding_pop s⟩
  | popFunction =>
    refine ⟨rfl, ?_⟩
    rw [perform, popFunction]
    split
    · rfl
    · exact (nextBinding_foldl_capture _ _).trans (nextBinding_pop s)
  | getValue name =>
    refine ⟨rfl, ?_⟩
    rw [perform, getValue]
    split
    · rfl
    · split
      · exact nextBinding_capture s _
      · rfl
  | push | pushFunction | bindValue | bindLocal | freshBinding | setValueType | bindType =>
    exact ⟨rfl, rfl⟩

/-- Over a run, ids are handed out by counting up. -/
theorem drawn_run (s : Scope) (actions : List Action) :
    along drawn s actions = List.range' s.nextBinding (along drawn s actions).length := by
  induction actions generalizing s with
  | nil => rfl
  | cons action rest ih =>
    obtain ⟨hdrawn, hnext⟩ := drawn_perform s action
    rw [along, List.length_append, ← List.range'_append_1, ← hdrawn, ← hnext, ← ih]

/-- Closing a frame restores the scope in which it was opened: whatever was done
meanwhile, names stand for what they stood for, the frames have at most more
upvalues, and no id is handed out a second time, also not later. -/
theorem bracket_restores (s : Scope) {opening closing : Action} (h : Matching opening closing)
    {body : List Action} (hbody : Balanced body) :
    let after := s.run (opening :: (body ++ [closing]))
    List.Forall₂ Frame.Grown s.frames after.frames ∧
      after.depth = s.depth ∧
      (∀ name, after.peek? name = s.peek? name ∧
        (after.getValue name).1 = (s.getValue name).1 ∧
        after.type? name = s.type? name) ∧
      (∀ (scope : Scope) (name : String), (scope.getValue name).1 = scope.peek? name) ∧
      ∀ later : List Action,
        (along drawn s (opening :: (body ++ [closing])) ++ along drawn after later).Nodup := by
  intro after
  have hafter : after = ((s.perform opening).run body).perform closing :=
    run_append (s.perform opening) body [closing]
  have hframes : List.Forall₂ Frame.Grown s.frames after.frames := by
    rw [hafter]
    exact grown_bracket h (grown_below_run hbody (s.perform opening))
  have hpeek : ∀ name, after.peek? name = s.peek? name := fun name =>
    congrArg (Option.map Prod.fst) (Frame.lookup_grown hframes name)
  refine ⟨hframes, Nat.succ.inj hframes.length_eq.symm, fun name => ⟨hpeek name, ?_, ?_⟩,
    getValue_fst, fun _ => ?_⟩
  · rw [getValue_fst, getValue_fst, hpeek]
  · exact Frame.lookupType_grown hframes name
  · rw [← along_append, drawn_run]
    exact List.nodup_range'

/-- A function shadows a parameter, changes the type of its own, and looks up the
name in a block and in a function of its own. -/
theorem bracket_restores_shadowed :
    let s := run {} [.bindLocal "x" .int, .pushFunction, .bindParam "y" .bool]
    let after := s.run [.pushFunction, .bindParam "y" .string, .setValueType "y" .int,
      .push, .bindLocal "x" .bool, .getValue "y", .pop,
      .pushFunction, .getValue "x", .popFunction, .popFunction]
    s.upvalues = [] ∧ after.upvalues = [⟨0, .int, 0⟩] ∧ after.peek? "y" = s.peek? "y" ∧
      ∀ later : List Action, 3 ∉ along drawn after later := by
  have hblock : Balanced [.bindLocal "x" .bool, .getValue "y"] := .cons id (.cons id .nil)
  have hcall : Balanced [.getValue "x"] := .cons id .nil
  have hbody : Balanced (.bindParam "y" .string :: .setValueType "y" .int :: _) :=
    .cons id (.cons id (.block hblock (.function hcall .nil)))
  obtain ⟨_, _, hnames, _, hids⟩ := bracket_restores
    (run {} [.bindLocal "x" .int, .pushFunction, .bindParam "y" .bool]) .function hbody
  refine ⟨by decide, by decide, (hnames "y").1, fun later hlater => ?_⟩
  exact (List.nodup_append.mp (hids later)).2.2 3 (by decide) 3 hlater rfl

end Scope

end TraitCheck
