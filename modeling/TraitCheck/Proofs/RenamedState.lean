import TraitCheck.Proofs.CheckerRuns
import TraitCheck.Proofs.RenamedCore
import TraitCheck.Proofs.RenamedUnifier
import TraitCheck.Proofs.ScopeInvariants

/-!
States of the checker that differ by a renaming. One state mirrors another if all
it holds is renamed, apart from evidence for constructors that the other one
cannot know, and from further types that only it knows. The counters may stand
anywhere, as long as the renaming follows them; then both states draw ids that
correspond. The steps that every part of the walk is made of run alike in such
states (`renamed`). Where there are further types, only the runs that succeed in
the first state are alike, since the second one may know what the first one asks
for in vain.
-/

namespace TraitCheck

/-! Tables of which the second may hold more. -/

namespace Assoc

variable {κ α β : Type} [DecidableEq κ]

def append (a b : Assoc κ α) : Assoc κ α := ⟨a.entries ++ b.entries⟩

theorem find?_append (a b : Assoc κ α) (key : κ) :
    (a.append b).find? key = (a.find? key).or (b.find? key) := by
  obtain ⟨entries⟩ := a
  simp only [append, find?]
  induction entries with
  | nil => rfl
  | cons entry rest ih =>
    obtain ⟨k, v⟩ := entry
    by_cases hk : k = key
    · simp [find?.go, hk]
    · simp [find?.go, hk, ih]

/-- The second table has the values of the first, exchanged, and else those of
`more`. -/
def Covers (g : α → β) (more : κ → Option β) (table : Assoc κ α) (table' : Assoc κ β) : Prop :=
  ∀ key, table'.find? key = ((table.find? key).map g).or (more key)

theorem covers_append (g : α → β) (table : Assoc κ α) (more : Assoc κ β) :
    Covers g more.find? table ((table.mapVal g).append more) := by
  intro key
  rw [find?_append, find?_mapVal]

namespace Covers

variable {g : α → β} {more : κ → Option β} {table : Assoc κ α} {table' : Assoc κ β}

theorem found (h : Covers g more table table') {key : κ} {a : α} (ha : table.find? key = some a) :
    table'.find? key = some (g a) := by
  rw [h key, ha]
  rfl

theorem map (h : Covers g more table table') {key : κ} (hmore : more key = none) :
    table'.find? key = (table.find? key).map g := by
  rw [h key, hmore, Option.or_none]

theorem contains (h : Covers g more table table') {key : κ} (hmore : more key = none) :
    table'.contains key = table.contains key := by
  rw [Assoc.contains, Assoc.contains, h.map hmore, Option.isSome_map]

theorem insert (h : Covers g more table table') (key : κ) (a : α) :
    Covers g more (table.insert key a) (table'.insert key (g a)) := by
  intro other
  rw [find?_insert, find?_insert]
  split
  · rfl
  · exact h other

/-- Both tables change a value that both have. -/
theorem modify (h : Covers g more table table') {m : α → α} {m' : β → β}
    (hm : ∀ a, g (m a) = m' (g a)) {key : κ} {a : α} (ha : table.find? key = some a) :
    Covers g more (table.modify key m) (table'.modify key m') := by
  rw [Assoc.modify, Assoc.modify, ha, h.found ha]
  dsimp only
  rw [← hm]
  exact h.insert key (m a)

end Covers

end Assoc

section Definitions

variable (ρ : Renaming)

def ValueKind.rename : ValueKind → ValueKind
  | .binding id => .binding (ρ.binding id)
  | kind => kind

def Value.rename (value : Value) : Value :=
  ⟨value.kind.rename ρ, value.ty.rename ρ, value.generics.map (TyVar.rename ρ)⟩

def Upvalue.rename (up : Upvalue) : Upvalue := ⟨ρ.binding up.binding, up.ty.rename ρ, up.depth⟩

def Fields.rename (fields : Fields) : Fields := Assoc.mapVal (Ty.rename ρ) fields

def AdtKind.rename : AdtKind → AdtKind
  | .pending => .pending
  | .struct fields => .struct (Fields.rename ρ fields)
  | .enum tags => .enum (tags.mapVal (Fields.rename ρ))

def Adt.rename (adt : Adt) : Adt :=
  ⟨adt.name, adt.generics.map (TyVar.rename ρ), adt.kind.rename ρ⟩

noncomputable def TypeError.rename (e : TypeError) : TypeError := ⟨e.failure.rename ρ, e.span⟩

def Returning.rename (r : Returning) : Returning := ⟨r.ret.map (Ty.rename ρ), r.returned⟩

/-- The second frame holds what the first holds, renamed, and `more` types. -/
structure Frame.Mirrors (more : String → Option Ty) (f f' : Frame) : Prop where
  values : f'.values = f.values.bimap ρ.name (Value.rename ρ)
  types : Assoc.Covers (Ty.rename ρ) more f.types f'.types
  upvalues : f'.upvalues = f.upvalues.map (Assoc.bimap ρ.binding (Upvalue.rename ρ))

/-- Frames that mirror each other one by one. Only the outermost may hold more. -/
inductive Frame.MirrorAll (more : String → Option Ty) : List Frame → List Frame → Prop
  | root {f f' : Frame} (h : f.Mirrors ρ more f') : MirrorAll more [f] [f']
  | inner {f f' : Frame} {below below' : List Frame} (h : f.Mirrors ρ (fun _ => none) f')
    (hbelow : MirrorAll more below below') : MirrorAll more (f :: below) (f' :: below')

noncomputable def Frame.rename (more : Assoc String Ty) (frame : Frame) : Frame where
  values := frame.values.bimap ρ.name (Value.rename ρ)
  types := (frame.types.mapVal (Ty.rename ρ)).append more
  upvalues := frame.upvalues.map (Assoc.bimap ρ.binding (Upvalue.rename ρ))

noncomputable def Frame.renameAll (more : Assoc String Ty) : List Frame → List Frame
  | [] => []
  | frame :: below => frame.rename ρ (if below.isEmpty then more else ∅) :: renameAll more below

end Definitions

variable {ρ : Renaming} {more : String → Option Ty}

/-! Frames and scopes. -/

namespace Frame

theorem mirrors_rename (more : Assoc String Ty) (frame : Frame) :
    frame.Mirrors ρ more.find? (frame.rename ρ more) :=
  ⟨rfl, Assoc.covers_append _ _ _, rfl⟩

theorem mirrorAll_rename (more : Assoc String Ty) (top : Frame) (below : List Frame) :
    MirrorAll ρ more.find? (top :: below) (renameAll ρ more (top :: below)) := by
  induction below generalizing top with
  | nil => exact .root (mirrors_rename more top)
  | cons frame below ih => exact .inner (mirrors_rename ∅ top) (ih frame)

namespace Mirrors

variable {f f' : Frame}

theorem empty : Mirrors ρ (fun _ => none) {} {} := ⟨rfl, fun _ => rfl, rfl⟩

theorem function : Mirrors ρ (fun _ => none) { upvalues := some ∅ } { upvalues := some ∅ } :=
  ⟨rfl, fun _ => rfl, rfl⟩

theorem contains (h : f.Mirrors ρ more f') (name : String) :
    f'.values.contains (ρ.name name) = f.values.contains name := by
  rw [h.values]
  exact Assoc.contains_bimap ρ.name_injective f.values name

theorem bindValue (h : f.Mirrors ρ more f') (name : String) (value : Value) :
    Mirrors ρ more { f with values := f.values.insert name value }
      { f' with values := f'.values.insert (ρ.name name) (value.rename ρ) } :=
  { h with
    values := by
      dsimp only
      rw [h.values, Assoc.insert_bimap ρ.name_injective] }

theorem setValueType (h : f.Mirrors ρ more f') (name : String) (ty : Ty) :
    Mirrors ρ more { f with values := f.values.modify name ({ · with ty }) }
      { f' with values := f'.values.modify (ρ.name name) ({ · with ty := ty.rename ρ }) } := by
  have hmodify : (f.values.modify name ({ · with ty })).bimap ρ.name (Value.rename ρ) =
      (f.values.bimap ρ.name (Value.rename ρ)).modify (ρ.name name)
        ({ · with ty := ty.rename ρ }) :=
    Assoc.modify_bimap ρ.name_injective f.values (by intro; rfl) name
  refine ⟨?_, h.types, h.upvalues⟩
  dsimp only
  rw [h.values, hmodify]

theorem bindType (h : f.Mirrors ρ more f') (name : String) (ty : Ty) :
    Mirrors ρ more { f with types := f.types.insert name ty }
      { f' with types := f'.types.insert name (ty.rename ρ) } :=
  { h with types := h.types.insert name ty }

end Mirrors

namespace MirrorAll

variable {f f' g g' : Frame} {frames frames' : List Frame}

theorem length (h : MirrorAll ρ more frames frames') : frames'.length = frames.length := by
  induction h with
  | root h => rfl
  | inner h hbelow ih => rw [List.length_cons, List.length_cons, ih]

theorem head (h : MirrorAll ρ more (f :: frames) (f' :: frames')) :
    ∃ more', (∀ name, more name = none → more' name = none) ∧ f.Mirrors ρ more' f' := by
  cases h with
  | root h => exact ⟨more, fun _ => id, h⟩
  | inner h _ => exact ⟨fun _ => none, fun _ _ => rfl, h⟩

/-- A change to the innermost frame. -/
theorem change (h : MirrorAll ρ more (f :: frames) (f' :: frames'))
    (hchange : ∀ more, f.Mirrors ρ more f' → g.Mirrors ρ more g') :
    MirrorAll ρ more (g :: frames) (g' :: frames') := by
  cases h with
  | root h => exact .root (hchange _ h)
  | inner h hbelow => exact .inner (hchange _ h) hbelow

theorem lookup (h : MirrorAll ρ more frames frames') (name : String) :
    Frame.lookup (ρ.name name) frames' =
      (Frame.lookup name frames).map (Prod.map (Value.rename ρ) id) := by
  induction h with
  | root h =>
    rename_i f _
    simp only [Frame.lookup, h.values, Assoc.find?_bimap ρ.name_injective]
    cases f.values.find? name <;> rfl
  | inner h hbelow ih =>
    rename_i f _ _ _
    simp only [Frame.lookup, ih, hbelow.length, h.values, Assoc.find?_bimap ρ.name_injective]
    cases f.values.find? name <;> rfl

theorem lookupType (h : MirrorAll ρ more frames frames') (name : String) :
    Frame.lookupType name frames' =
      ((Frame.lookupType name frames).map (Ty.rename ρ)).or (more name) := by
  induction h with
  | root h =>
    simp only [Frame.lookupType, Option.or_none, h.types name]
  | inner h hbelow ih =>
    rename_i f _ _ _
    simp only [Frame.lookupType, h.types.map rfl, ih]
    cases f.types.find? name <;> rfl

/-- Reporting an upvalue to a frame. -/
theorem capture (h : MirrorAll ρ more frames frames') (up : Upvalue) :
    MirrorAll ρ more (Frame.capture up frames) (Frame.capture (up.rename ρ) frames') := by
  induction h with
  | root h =>
    rename_i f f'
    have hups := h.upvalues
    cases hf : f.upvalues with
    | none =>
      rw [hf, Option.map_none] at hups
      simp only [Frame.capture, hf, hups]
      exact .root h
    | some ups =>
      rw [hf, Option.map_some] at hups
      simp only [Frame.capture, hf, hups, List.length_nil, Nat.not_lt_zero, if_false]
      exact .root h
  | inner h hbelow ih =>
    rename_i f f' below below'
    have hups := h.upvalues
    cases hf : f.upvalues with
    | none =>
      rw [hf, Option.map_none] at hups
      simp only [Frame.capture, hf, hups]
      exact .inner h ih
    | some ups =>
      rw [hf, Option.map_some] at hups
      simp only [Frame.capture, hf, hups, hbelow.length]
      change MirrorAll ρ more (if up.depth < below.length then _ else _)
        (if up.depth < below.length then _ else _)
      split
      · refine .inner { h with upvalues := ?_ } hbelow
        exact congrArg some (Assoc.insertNew_bimap ρ.binding_injective ups up.binding up).symm
      · exact .inner h hbelow

end MirrorAll

end Frame

namespace Scope

/-- The frames of the second scope mirror those of the first. -/
structure Mirrors (ρ : Renaming) (more : String → Option Ty) (s s' : Scope) : Prop where
  frames : Frame.MirrorAll ρ more s.frames s'.frames

theorem mirrors_root {s s' : Scope} (hs : s.below = []) (hs' : s'.below = []) :
    s.Mirrors ρ more s' ↔ s.top.Mirrors ρ more s'.top := by
  constructor
  · rintro ⟨h⟩
    rw [Scope.frames, Scope.frames, hs, hs'] at h
    cases h with
    | root h => exact h
    | inner _ hbelow => cases hbelow
  · intro h
    constructor
    rw [Scope.frames, Scope.frames, hs, hs']
    exact .root h

namespace Mirrors

variable {s s' : Scope}

theorem isRoot (h : s.Mirrors ρ more s') : s'.isRoot = s.isRoot := by
  have hlength : s'.below.length = s.below.length := Nat.succ.inj h.frames.length
  rw [Scope.isRoot, Scope.isRoot, Bool.eq_iff_iff, List.isEmpty_iff_length_eq_zero,
    List.isEmpty_iff_length_eq_zero, hlength]

theorem type? (h : s.Mirrors ρ more s') (name : String) :
    s'.type? name = ((s.type? name).map (Ty.rename ρ)).or (more name) :=
  h.frames.lookupType name

theorem declaresType (h : s.Mirrors ρ more s') {name : String} (hmore : more name = none) :
    s'.declaresType name = s.declaresType name := by
  obtain ⟨more', hnone, htop⟩ := h.frames.head
  exact htop.types.contains (hnone name hmore)

theorem contains (h : s.Mirrors ρ more s') (name : String) :
    s'.top.values.contains (ρ.name name) = s.top.values.contains name := by
  obtain ⟨_, _, htop⟩ := h.frames.head
  exact htop.contains name

theorem push (h : s.Mirrors ρ more s') : s.push.Mirrors ρ more s'.push :=
  ⟨.inner .empty h.frames⟩

theorem pushFunction (h : s.Mirrors ρ more s') : s.pushFunction.Mirrors ρ more s'.pushFunction :=
  ⟨.inner .function h.frames⟩

theorem pop (h : s.Mirrors ρ more s') : s.pop.Mirrors ρ more s'.pop := by
  obtain ⟨top, below, next⟩ := s
  obtain ⟨top', below', next'⟩ := s'
  obtain ⟨hframes⟩ := h
  cases hframes with
  | root htop => exact ⟨.root htop⟩
  | inner _ hbelow =>
    cases hbelow with
    | root htop => exact ⟨.root htop⟩
    | inner htop hrest => exact ⟨.inner htop hrest⟩

theorem capture (h : s.Mirrors ρ more s') (up : Upvalue) :
    (s.capture up).Mirrors ρ more (s'.capture (up.rename ρ)) := by
  constructor
  rw [frames_capture, frames_capture]
  exact h.frames.capture up

theorem foldl_capture (h : s.Mirrors ρ more s') (ups : List Upvalue) :
    (ups.foldl Scope.capture s).Mirrors ρ more
      ((ups.map (Upvalue.rename ρ)).foldl Scope.capture s') := by
  induction ups generalizing s s' with
  | nil => exact h
  | cons up rest ih => exact ih (h.capture up)

theorem popFunction (h : s.Mirrors ρ more s') :
    s'.popFunction.1 = s.popFunction.1.map (Upvalue.rename ρ) ∧
      s.popFunction.2.Mirrors ρ more s'.popFunction.2 := by
  have hups : (s'.top.upvalues.getD ∅).values =
      (s.top.upvalues.getD ∅).values.map (Upvalue.rename ρ) := by
    obtain ⟨_, _, htop⟩ := h.frames.head
    rw [htop.upvalues]
    cases s.top.upvalues with
    | none => rfl
    | some ups => exact Assoc.values_bimap ρ.binding (Upvalue.rename ρ) ups
  have hpop := h.pop
  have hroot := h.isRoot
  rw [Scope.isRoot, Scope.isRoot] at hroot
  cases hs : s.below with
  | nil =>
    rw [hs, List.isEmpty_nil, List.isEmpty_iff] at hroot
    rw [Scope.popFunction, Scope.popFunction, hs, hroot]
    exact ⟨rfl, h⟩
  | cons frame below =>
    cases hs' : s'.below with
    | nil =>
      rw [hs, hs'] at hroot
      cases hroot
    | cons frame' below' =>
      rw [Scope.popFunction, Scope.popFunction, hs, hs']
      refine ⟨hups, ?_⟩
      dsimp only
      rw [hups]
      exact hpop.foldl_capture _

theorem bindValue (h : s.Mirrors ρ more s') (name : String) (value : Value) :
    (s.bindValue name value).Mirrors ρ more (s'.bindValue (ρ.name name) (value.rename ρ)) :=
  ⟨h.frames.change fun _ htop => htop.bindValue name value⟩

theorem bindType (h : s.Mirrors ρ more s') (name : String) (ty : Ty) :
    (s.bindType name ty).Mirrors ρ more (s'.bindType name (ty.rename ρ)) :=
  ⟨h.frames.change fun _ htop => htop.bindType name ty⟩

theorem setValueType (h : s.Mirrors ρ more s') (name : String) (ty : Ty) :
    (s.setValueType name ty).Mirrors ρ more (s'.setValueType (ρ.name name) (ty.rename ρ)) :=
  ⟨h.frames.change fun _ htop => htop.setValueType name ty⟩

theorem getValue (h : s.Mirrors ρ more s') (name : String) :
    (s'.getValue (ρ.name name)).1 = (s.getValue name).1.map (Value.rename ρ) ∧
      (s.getValue name).2.Mirrors ρ more (s'.getValue (ρ.name name)).2 := by
  rw [Scope.getValue, Scope.getValue, h.frames.lookup]
  cases Frame.lookup name s.frames with
  | none => exact ⟨rfl, h⟩
  | some found =>
    obtain ⟨⟨kind, ty, generics⟩, depth⟩ := found
    cases kind with
    | binding id => exact ⟨rfl, h.capture ⟨id, ty, depth⟩⟩
    | builtin op => exact ⟨rfl, h⟩
    | method bound index => exact ⟨rfl, h⟩

end Mirrors

/-- Types in scope are written without ids. A name that the second scope knows
more about does not stand for a type of that name. -/
def displayed (ρ : Renaming) (more : String → Option Ty) : EntryRules where
  value _ _ := True
  type _ name ty := (∀ con, ty.con? = some con → ρ.Fixes con.display) ∧
    ((more name).isSome → ty.isNamed name = false)
  upvalue _ := True

theorem captures_displayed : (displayed ρ more).Captures := fun _ _ => trivial

end Scope

namespace Checker

variable {α β : Type}

/-- In what else two runs may differ. Ids may be drawn up to a limit, the second
run may know further structs and enums, and unless they are aligned they may have
different limits of nesting. -/
structure Leeway where
  vars : Nat
  bindings : Nat
  known : AdtTable := ∅
  aligned : Prop := True

namespace Leeway

/-- What only the second run takes for a type. -/
def types (leeway : Leeway) (name : String) : Option Ty :=
  (Assoc.find? leeway.known name).map Adt.ty

/-- Neither run knows more than the other. -/
def Strict (leeway : Leeway) : Prop := ∀ name, Assoc.find? leeway.known name = none

theorem types_eq_none {leeway : Leeway} {name : String} :
    leeway.types name = none ↔ Assoc.find? leeway.known name = none :=
  Option.map_eq_none_iff

theorem Strict.types {leeway : Leeway} (h : leeway.Strict) (name : String) :
    leeway.types name = none :=
  types_eq_none.mpr (h name)

end Leeway

/-- What reading the second state shows is what reading the first shows, renamed. -/
structure Mirrors (ρ : Renaming) (leeway : Leeway) (s s' : Checker) : Prop where
  prelude : s'.options.prelude = s.options.prelude
  limit : leeway.aligned → s'.options.maxDepth = ρ.limit s.options.maxDepth
  installed : s'.preludeInstalled = s.preludeInstalled
  subst : s'.unifier.subst = s.unifier.subst.rename ρ
  registry : s.registry.Mirrors ρ s'.registry
  adts : Assoc.Covers (Adt.rename ρ) (Assoc.find? leeway.known) s.adts s'.adts
  scope : s.scope.Mirrors ρ leeway.types s'.scope
  functions : s'.functions = s.functions.map (Returning.rename ρ)

noncomputable def rename (ρ : Renaming) (leeway : Leeway) (s : Checker) : Checker where
  options := { s.options with maxDepth := ρ.limit s.options.maxDepth }
  unifier := { s.unifier with subst := s.unifier.subst.rename ρ }
  registry :=
    { traits := s.registry.traits.mapVal (TraitDecl.rename ρ)
      evidence := s.registry.evidence.bimap (Prod.map (Con.rename ρ) id) (Evidence.rename ρ) }
  adts := (Assoc.mapVal (Adt.rename ρ) s.adts).append leeway.known
  scope :=
    { top := s.scope.top.rename ρ
        (if s.scope.below.isEmpty then Assoc.mapVal Adt.ty leeway.known else ∅)
      below := Frame.renameAll ρ (Assoc.mapVal Adt.ty leeway.known) s.scope.below
      nextBinding := s.scope.nextBinding }
  functions := s.functions.map (Returning.rename ρ)
  preludeInstalled := s.preludeInstalled

theorem mirrors_rename (leeway : Leeway) (s : Checker) :
    s.Mirrors ρ leeway (s.rename ρ leeway) where
  prelude := rfl
  limit _ := rfl
  installed := rfl
  subst := rfl
  registry := ⟨rfl, fun con bound => Assoc.find?_bimap
    (Function.Injective.prodMap (Con.rename_injective ρ) Function.injective_id) _ (con, bound)⟩
  adts := Assoc.covers_append _ _ _
  scope := by
    have htypes : leeway.types = (Assoc.mapVal Adt.ty leeway.known).find? :=
      funext fun name => (Assoc.find?_mapVal leeway.known name).symm
    rw [htypes]
    exact ⟨Frame.mirrorAll_rename _ _ _⟩
  functions := rfl

/-- The states mirror each other, and the renaming follows their counters up to
the limit. -/
structure Related (ρ : Renaming) (leeway : Leeway) (s s' : Checker) : Prop extends
    Mirrors ρ leeway s s' where
  vars : Tracks ρ.var leeway.vars s.unifier.next s'.unifier.next
  bindings : Tracks ρ.binding leeway.bindings s.scope.nextBinding s'.scope.nextBinding

/-- No name of a type or a trait holds an id that is renamed. -/
structure Plain (ρ : Renaming) (leeway : Leeway) (s : Checker) : Prop where
  types : s.scope.Every (Scope.displayed ρ leeway.types)
  traits : ∀ name decl, s.registry.trait? name = some decl → ρ.Fixes name ∧ ρ.Fixes decl.name

/-- Ids are drawn and traits are declared, and none are taken back. -/
structure Ahead (s t : Checker) : Prop where
  vars : s.unifier.next ≤ t.unifier.next
  bindings : s.scope.nextBinding ≤ t.scope.nextBinding
  traits : ∀ name, s.registry.isDeclared name = true → t.registry.isDeclared name = true

theorem Ahead.refl (s : Checker) : Ahead s s := ⟨Nat.le_refl _, Nat.le_refl _, fun _ h => h⟩

theorem Ahead.trans {s t u : Checker} (h : Ahead s t) (h' : Ahead t u) : Ahead s u :=
  ⟨Nat.le_trans h.vars h'.vars, Nat.le_trans h.bindings h'.bindings,
    fun name hname => h'.traits name (h.traits name hname)⟩

/-- The ids that are drawn are below the limit, and what only the second run knows
as a type is not declared as a trait. -/
structure Inside (leeway : Leeway) (s : Checker) : Prop where
  vars : s.unifier.next ≤ leeway.vars
  bindings : s.scope.nextBinding ≤ leeway.bindings
  traits : ∀ name, s.registry.isDeclared name = true → Assoc.find? leeway.known name = none

/-- Steps that run alike in states that differ by the renaming. -/
noncomputable def renamed (ρ : Renaming) (leeway : Leeway) : Simulation Checker TypeError where
  valid := Plain ρ leeway
  rel := Related ρ leeway
  view := Mirrors ρ leeway
  mirror := rename ρ leeway
  error := TypeError.rename ρ
  ahead := Ahead
  inside := Inside leeway
  strict := leeway.Strict
  rel_view h := h.toMirrors
  view_mirror := mirrors_rename leeway
  ahead_refl := .refl
  ahead_trans := .trans
  inside_of_ahead h h' := ⟨Nat.le_trans h.vars h'.vars, Nat.le_trans h.bindings h'.bindings,
    fun name hname => h'.traits name (h.traits name hname)⟩

/-- The second step does in states that differ by the renaming what the first one
does. -/
abbrev Echoes (ρ : Renaming) (leeway : Leeway) (x y : CheckM α) (f : α → α) : Prop :=
  Follows (renamed ρ leeway) x y f

variable {leeway : Leeway} {s s' : Checker}

/-- A step that changes neither the scope nor the registry. -/
theorem Plain.unifier (h : Plain ρ leeway s) {unifier : Unifier}
    (hnext : s.unifier.next ≤ unifier.next) :
    Plain ρ leeway { s with unifier } ∧ Ahead s { s with unifier } :=
  ⟨⟨h.types, h.traits⟩, hnext, Nat.le_refl _, fun _ h => h⟩

namespace Related

theorem setUnifier (h : Related ρ leeway s s') {u u' : Unifier}
    (hsubst : u'.subst = u.subst.rename ρ) (hvars : Tracks ρ.var leeway.vars u.next u'.next) :
    Related ρ leeway { s with unifier := u } { s' with unifier := u' } :=
  { h with subst := hsubst, vars := hvars }

theorem setScope (h : Related ρ leeway s s') {scope scope' : Scope}
    (hscope : scope.Mirrors ρ leeway.types scope')
    (hbindings : Tracks ρ.binding leeway.bindings scope.nextBinding scope'.nextBinding) :
    Related ρ leeway { s with scope } { s' with scope := scope' } :=
  { h with scope := hscope, bindings := hbindings }

theorem setFunctions (h : Related ρ leeway s s') {functions functions' : List Returning}
    (hfunctions : functions' = functions.map (Returning.rename ρ)) :
    Related ρ leeway { s with functions } { s' with functions := functions' } :=
  { h with functions := hfunctions }

theorem setAdts (h : Related ρ leeway s s') {adts adts' : AdtTable}
    (hadts : Assoc.Covers (Adt.rename ρ) (Assoc.find? leeway.known) adts adts') :
    Related ρ leeway { s with adts } { s' with adts := adts' } :=
  { h with adts := hadts }

theorem setRegistry (h : Related ρ leeway s s') {registry registry' : Registry}
    (hregistry : registry.Mirrors ρ registry') :
    Related ρ leeway { s with registry } { s' with registry := registry' } :=
  { h with registry := hregistry }

end Related

/-! Failures. -/

variable {span : Span}

theorem follows_fail {f : α → α} {failure failure' : Failure} (h : failure' = failure.rename ρ) :
    Echoes ρ leeway (fail failure span : CheckM α) (fail failure' span) f :=
  .throw fun _ => congrArg (fun failure => fail failure span) h

theorem follows_ensure {c c' : Prop} [Decidable c] [Decidable c'] {failure failure' : Failure}
    {span : Span} (hc : c' ↔ c) (h : failure' = failure.rename ρ) :
    Echoes ρ leeway (ensure c failure span) (ensure c' failure' span) id :=
  .ite hc (.pure rfl) (follows_fail h)

theorem follows_ofExcept {f : α → α} {r r' : Except Failure α}
    (h : r' = outcome (Failure.rename ρ) f r) :
    Echoes ρ leeway (ofExcept span r) (ofExcept span r') f := by
  subst h
  cases r with
  | ok a => exact .pure rfl
  | error failure => exact follows_fail rfl

/-! Variables and their bindings. -/

theorem follows_fresh {name : String} {traits : TraitSet} :
    Echoes ρ leeway (fresh name traits) (fresh name traits) (TyVar.rename ρ) := by
  refine .modifyGet (fun s h => h.unifier (Nat.le_succ _)) fun s s' hrel hinside => ?_
  have hnext : ρ.var s.unifier.next = s'.unifier.next := hrel.vars.next hinside.vars
  refine ⟨?_, hrel.setUnifier hrel.subst (hrel.vars.add 1)⟩
  change TyVar.mk s'.unifier.next name traits = TyVar.mk (ρ.var s.unifier.next) name traits
  rw [hnext]

theorem follows_freshId : Echoes ρ leeway freshId freshId ρ.var := by
  refine .modifyGet (fun _ h => h.unifier (Nat.le_succ _)) fun _ _ hrel hinside => ?_
  exact ⟨(hrel.vars.next hinside.vars).symm, hrel.setUnifier hrel.subst (hrel.vars.add 1)⟩

theorem follows_resolve {ty : Ty} :
    Echoes ρ leeway (resolve ty) (resolve (ty.rename ρ)) (Ty.rename ρ) :=
  .get fun _ _ _ h => .pure (Unifier.resolve_renamed h.subst ty)

theorem follows_resolve? {ty : Option Ty} :
    Echoes ρ leeway (resolve? ty) (resolve? (ty.map (Ty.rename ρ))) (Option.map (Ty.rename ρ)) := by
  cases ty with
  | none => exact .pure rfl
  | some ty => exact .bind follows_resolve fun _ => .pure rfl

/-- Unifying changes the unifier only. -/
theorem run_unify (span : Span) (expected found : Ty) (s : Checker) :
    (unify span expected found).run.run s =
      (((Unifier.unify s.registry expected found).run.run s.unifier).1.mapError (⟨·, span⟩),
        { s with unifier :=
          ((Unifier.unify s.registry expected found).run.run s.unifier).2 }) := by
  change (ofExcept span ((Unifier.unify s.registry expected found).run.run s.unifier).1).run.run
    { s with unifier := ((Unifier.unify s.registry expected found).run.run s.unifier).2 } = _
  cases ((Unifier.unify s.registry expected found).run.run s.unifier).1 <;> rfl

theorem follows_unify (span : Span) (expected found : Ty) :
    Echoes ρ leeway (unify span expected found)
      (unify span (expected.rename ρ) (found.rename ρ)) (Ty.rename ρ) := by
  have hunify : ∀ {s s' : Checker}, Mirrors ρ leeway s s' → Follows (Unifier.simulation ρ leeway.vars)
      (Unifier.unify s.registry expected found)
      (Unifier.unify s'.registry (expected.rename ρ) (found.rename ρ)) (Ty.rename ρ) :=
    fun h => Unifier.follows_unify h.registry expected found
  refine fun s hplain => ⟨?_, fun s' hrel hinside _ => ?_⟩
  · rw [run_unify]
    exact hplain.unifier (hunify (mirrors_rename leeway s) s.unifier trivial).proceeds.2
  · rw [run_unify] at hinside ⊢
    rw [run_unify]
    obtain ⟨hresult, hsubst, hvars⟩ := (hunify hrel.toMirrors s.unifier trivial).agrees
      s'.unifier ⟨hrel.subst, hrel.vars⟩ hinside.vars (.inl trivial)
    refine ⟨?_, hrel.setUnifier hsubst hvars⟩
    dsimp only
    rw [hresult]
    cases ((Unifier.unify s.registry expected found).run.run s.unifier).1 <;> rfl

theorem follows_join {span : Span} {before : Option Ty} {ty : Ty} :
    Echoes ρ leeway (join span before ty)
      (join span (before.map (Ty.rename ρ)) (ty.rename ρ)) (Ty.rename ρ) := by
  cases before with
  | none => exact .pure rfl
  | some before => exact follows_unify span before ty

theorem follows_expecting {expected : Ty} {span : Span} {check check' : Option Ty → CheckM Core.Expr}
    (h : ∀ hint, Echoes ρ leeway (check hint) (check' (hint.map (Ty.rename ρ)))
      (Core.Expr.rename ρ)) : Echoes ρ leeway (expecting expected span check)
      (expecting (expected.rename ρ) span check') (Core.Expr.rename ρ) := by
  refine .bind follows_resolve fun hint => .bind (h (some hint)) fun value => ?_
  rw [Core.Expr.ty_rename]
  exact .bind (follows_unify span expected value.ty) fun _ => .pure rfl

/-- A unit of inference has bindings of its own. -/
theorem follows_isolated {x y : CheckM α} {f : α → α} (h : Echoes ρ leeway x y f) :
    Echoes ρ leeway (isolated x) (isolated y) f :=
  .bracket (fun s r => (r.1, { r.2 with unifier.subst := s.unifier.subst }))
    (fun _ => rfl) (fun _ => rfl) h (fun _ hs => ⟨hs.types, hs.traits⟩)
    (fun _ _ _ ht hahead => ⟨⟨ht.types, ht.traits⟩, hahead.vars, hahead.bindings, hahead.traits⟩)
    (fun _ _ _ => ⟨fun ht => ⟨ht.vars, ht.bindings, ht.traits⟩, id⟩)
    fun _ _ hs => ⟨hs.setUnifier rfl hs.vars, fun _ _ _ ht =>
      ⟨rfl, ht.setUnifier hs.subst ht.vars⟩⟩

theorem follows_inUnit {x y : CheckM (List Core.Stmt)}
    (h : Echoes ρ leeway x y (List.map (Core.Stmt.rename ρ))) :
    Echoes ρ leeway (inUnit x) (inUnit y) (List.map (Core.Stmt.rename ρ)) := by
  refine follows_isolated (.bind h fun stmts => .get fun _ _ _ hview => .pure ?_)
  have hmap := Core.rename_mapTyStmts
    (fun t => (Unifier.resolve_renamed hview.subst t).symm) stmts
  rw [Core.renameStmts_eq_map, Core.renameStmts_eq_map] at hmap
  exact hmap.symm

/-! Bindings and names. -/

variable {name : String}

theorem follows_freshBinding : Echoes ρ leeway freshBinding freshBinding ρ.binding := by
  refine .modifyGet (fun _ h => ⟨⟨h.types, h.traits⟩, Nat.le_refl _, Nat.le_succ _, fun _ h => h⟩)
    fun _ _ hrel hinside => ?_
  exact ⟨(hrel.bindings.next hinside.bindings).symm,
    hrel.setScope ⟨hrel.scope.frames⟩ (hrel.bindings.add 1)⟩

/-- A step that changes the innermost frame only. -/
theorem Plain.setScope (h : Plain ρ leeway s) {scope : Scope}
    (htypes : scope.Every (Scope.displayed ρ leeway.types))
    (hnext : s.scope.nextBinding ≤ scope.nextBinding) :
    Plain ρ leeway { s with scope } ∧ Ahead s { s with scope } :=
  ⟨⟨htypes, h.traits⟩, Nat.le_refl _, hnext, fun _ h => h⟩

theorem follows_bindValue (hname : ρ.Fixes name) {value : Value} :
    Echoes ρ leeway (bindValue name value) (bindValue name (value.rename ρ)) id := by
  refine .modify (fun _ h => h.setScope (h.types.bindValue trivial) (Nat.le_refl _))
    fun _ _ hrel _ => ?_
  have hscope := hrel.scope.bindValue name value
  rw [ρ.name_of_fixes hname] at hscope
  exact hrel.setScope hscope hrel.bindings

/-- A value in a binding of its own. -/
theorem Related.bindLocal (hrel : Related ρ leeway s s') (name : String) (ty : Ty)
    (hinside : s.scope.nextBinding < leeway.bindings) :
    s'.scope.nextBinding = ρ.binding s.scope.nextBinding ∧
      Related ρ leeway { s with scope := (s.scope.bindLocal name ty).2 }
        { s' with scope := (s'.scope.bindLocal (ρ.name name) (ty.rename ρ)).2 } := by
  have hnext := hrel.bindings.next hinside
  refine ⟨hnext.symm, hrel.setScope ?_ (hrel.bindings.add 1)⟩
  have hfresh : s.scope.freshBinding.2.Mirrors ρ leeway.types s'.scope.freshBinding.2 :=
    ⟨hrel.scope.frames⟩
  have hscope := hfresh.bindValue name ⟨.binding s.scope.nextBinding, ty, []⟩
  rw [Value.rename, ValueKind.rename, hnext] at hscope
  exact hscope

theorem Plain.bindLocal (h : Plain ρ leeway s) (name : String) (ty : Ty) :
    Plain ρ leeway { s with scope := (s.scope.bindLocal name ty).2 } ∧
      Ahead s { s with scope := (s.scope.bindLocal name ty).2 } := by
  have hfresh : s.scope.freshBinding.2.Every (Scope.displayed ρ leeway.types) := h.types
  exact h.setScope (hfresh.bindValue trivial) (Nat.le_succ _)

theorem follows_bindLocal (hname : ρ.Fixes name) {ty : Ty} :
    Echoes ρ leeway (bindLocal name ty) (bindLocal name (ty.rename ρ)) ρ.binding := by
  refine .modifyGet (fun _ h => h.bindLocal name ty) fun _ _ hrel hinside => ?_
  have hlocal := hrel.bindLocal name ty hinside.bindings
  rw [ρ.name_of_fixes hname] at hlocal
  exact hlocal

theorem run_bindParam (span : Span) (name : String) (ty : Ty) (s : Checker) :
    (bindParam span name ty).run.run s =
      if s.scope.top.values.contains name then (.error ⟨.duplicateDeclaration name, span⟩, s)
      else (.ok s.scope.nextBinding, { s with scope := (s.scope.bindLocal name ty).2 }) := by
  rw [bindParam, Runs.run_get_bind, Scope.bindParam]
  split <;> rfl

/-- A parameter, whose name may end in the id of a tracer. -/
theorem follows_bindParam {span : Span} {name : String} {ty : Ty} :
    Echoes ρ leeway (bindParam span name ty)
      (bindParam span (ρ.name name) (ty.rename ρ)) ρ.binding := by
  refine fun s hplain => ⟨?_, fun _ hrel hinside _ => ?_⟩
  · rw [run_bindParam]
    split
    · exact ⟨hplain, .refl s⟩
    · exact hplain.bindLocal name ty
  · rw [run_bindParam] at hinside ⊢
    rw [run_bindParam, hrel.scope.contains]
    by_cases hname : s.scope.top.values.contains name = true
    · rw [if_pos hname, if_pos hname]
      exact ⟨rfl, hrel⟩
    · rw [if_neg hname] at hinside
      rw [if_neg hname, if_neg hname]
      obtain ⟨hnext, hrel'⟩ := hrel.bindLocal name ty hinside.bindings
      exact ⟨congrArg Except.ok hnext, hrel'⟩

theorem follows_bindType {name : String} {ty : Ty}
    (hty : ∀ con, ty.con? = some con → ρ.Fixes con.display)
    (hname : (leeway.types name).isSome → ty.isNamed name = false) :
    Echoes ρ leeway (bindType name ty) (bindType name (ty.rename ρ)) id := by
  refine .modify (fun _ h => h.setScope (h.types.bindType ⟨hty, hname⟩) (Nat.le_refl _))
    fun _ _ hrel _ => ?_
  exact hrel.setScope (hrel.scope.bindType name ty) hrel.bindings

theorem follows_bindTypeVar {name : String} {v : TyVar} :
    Echoes ρ leeway (bindType name (.var v)) (bindType name (.var (v.rename ρ))) id := by
  rw [← Ty.rename_var]
  exact follows_bindType (by rintro _ ⟨⟩) fun _ => rfl

theorem follows_setValueType (hname : ρ.Fixes name) {ty : Ty} :
    Echoes ρ leeway (setValueType name ty) (setValueType name (ty.rename ρ)) id := by
  refine .modify (fun _ h => h.setScope (h.types.setValueType fun _ _ _ => trivial)
    (Nat.le_refl _)) fun _ _ hrel _ => ?_
  have hscope := hrel.scope.setValueType name ty
  rw [ρ.name_of_fixes hname] at hscope
  exact hrel.setScope hscope hrel.bindings

/-! Frames and functions. -/

theorem follows_inScope {x y : CheckM α} {f : α → α} (h : Echoes ρ leeway x y f) :
    Echoes ρ leeway (inScope x) (inScope y) f := by
  have hnext := Scope.nextBinding_pop
  refine .bracket (fun _ r => (r.1, { r.2 with scope := r.2.scope.pop })) (fun _ => rfl)
    (fun _ => rfl) h (fun _ hs => ⟨hs.types.push, hs.traits⟩)
    (fun _ _ _ ht hahead => ⟨⟨ht.types.pop, ht.traits⟩, hahead.vars,
      le_of_le_of_eq hahead.bindings (hnext _).symm, hahead.traits⟩)
    (fun _ _ _ => ⟨fun ht => ⟨ht.vars, le_of_eq_of_le (hnext _).symm ht.bindings, ht.traits⟩, id⟩)
    fun _ _ hs => ⟨hs.setScope hs.scope.push hs.bindings, fun _ _ _ ht =>
      ⟨rfl, ht.setScope ht.scope.pop ?_⟩⟩
  rw [hnext, hnext]
  exact ht.bindings

theorem follows_inFunctionFrame {x y : CheckM α} {f : α → α} (h : Echoes ρ leeway x y f) :
    Echoes ρ leeway (inFunctionFrame x) (inFunctionFrame y)
      (Prod.map f (List.map (Upvalue.rename ρ))) := by
  have hnext : ∀ s : Scope, s.popFunction.2.nextBinding = s.nextBinding :=
    fun s => (Scope.steady_popFunction s).next.trans (Scope.nextBinding_pop s)
  refine .bracket (fun _ r => (r.1.map (·, r.2.scope.popFunction.1),
      { r.2 with scope := r.2.scope.popFunction.2 })) (fun _ => rfl) (fun _ => rfl) h
    (fun _ hs => ⟨hs.types.pushFunction, hs.traits⟩)
    (fun _ _ _ ht hahead => ⟨⟨ht.types.popFunction.2, ht.traits⟩, hahead.vars,
      le_of_le_of_eq hahead.bindings (hnext _).symm, hahead.traits⟩)
    (fun _ _ _ => ⟨fun ht => ⟨ht.vars, le_of_eq_of_le (hnext _).symm ht.bindings, ht.traits⟩,
      .of_map⟩)
    fun _ _ hs => ⟨hs.setScope hs.scope.pushFunction hs.bindings, fun r _ _ ht => ?_⟩
  obtain ⟨hups, hscope⟩ := ht.scope.popFunction
  refine ⟨?_, ht.setScope hscope ?_⟩
  · dsimp only
    rw [hups]
    cases r <;> rfl
  · rw [hnext, hnext]
    exact ht.bindings

theorem follows_inFunction {declared : Option Ty} {x y : CheckM α} {f : α → α}
    (h : Echoes ρ leeway x y f) : Echoes ρ leeway (inFunction declared x)
      (inFunction (declared.map (Ty.rename ρ)) y) f := by
  refine .bracket (fun _ r => (r.1, { r.2 with functions := r.2.functions.tail })) (fun _ => rfl)
    (fun _ => rfl) h (fun _ hs => ⟨hs.types, hs.traits⟩)
    (fun _ _ _ ht hahead => ⟨⟨ht.types, ht.traits⟩, hahead.vars, hahead.bindings, hahead.traits⟩)
    (fun _ _ _ => ⟨fun ht => ⟨ht.vars, ht.bindings, ht.traits⟩, id⟩)
    fun _ _ hs => ⟨hs.setFunctions ?_, fun _ _ _ ht => ⟨rfl, ht.setFunctions ?_⟩⟩
  · rw [hs.functions, List.map_cons]
    rfl
  · rw [ht.functions, List.map_tail]

theorem follows_currentReturn :
    Echoes ρ leeway currentReturn currentReturn (Option.map (Ty.rename ρ)) := by
  refine .get fun s _ _ h => .pure ?_
  rw [h.functions]
  cases s.functions <;> rfl

theorem follows_requireFunction {span : Span} :
    Echoes ρ leeway (requireFunction span) (requireFunction span) id := by
  refine .get fun _ _ _ h => follows_ensure ?_ rfl
  rw [h.functions, ne_eq, ne_eq, List.map_eq_nil_iff]

theorem follows_recordReturn {ty : Ty} {span : Span} :
    Echoes ρ leeway (recordReturn ty span) (recordReturn (ty.rename ρ) span) id := by
  refine .bind follows_requireFunction fun _ => .bind follows_currentReturn fun _ =>
    .bind follows_join fun _ => .bind follows_resolve fun _ => ?_
  refine .modify (fun _ h => ⟨⟨h.types, h.traits⟩, Nat.le_refl _, Nat.le_refl _, fun _ h => h⟩)
    fun _ _ hrel _ => hrel.setFunctions ?_
  rw [hrel.functions, List.map_cons, List.map_tail]
  rfl

theorem follows_requireTopLevel {what : String} {span : Span} :
    Echoes ρ leeway (requireTopLevel what span) (requireTopLevel what span) id :=
  .get fun _ _ _ h => follows_ensure (by rw [h.scope.isRoot]) rfl

end Checker

end TraitCheck
