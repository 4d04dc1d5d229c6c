import Mathlib.Data.Set.Insert
import TraitCheck.Proofs.DictionaryNames
import TraitCheck.Proofs.Endings
import TraitCheck.Proofs.Frames
import TraitCheck.Proofs.FreeBindings

/-!
What the checker does to its scope while it makes a piece of core program.
`Coherent` is the invariant of its states: every binding in a frame is visible
and placed among the open functions, and the name of a dictionary is bound to
that dictionary only. `Made` says of a run that the invariant holds afterwards,
that the ids free in what it made are visible, and that just those from outside
of the innermost function were captured by it. The runs of the walk are put
together from the steps in this module, and the function that is closed after
its body is exact (`Coherent.closeFunction`).
-/

namespace TraitCheck

variable {registry : Registry} {bound : Trait}

/-- Evidence that is held in a binding is found by the name of the dictionary,
and traits are kept by their names. -/
structure Registry.Lawful (registry : Registry) : Prop where
  evidence : ∀ {con : Con} {bound : Trait} {name : String} {id : BindingId},
    registry.lookup con bound = some (.binding name id) →
      name = dictionaryName bound con ∧ con.Named ∧ Ordinary bound
  trait : ∀ {name : Trait} {decl : TraitDecl}, registry.trait? name = some decl →
    decl.name = name ∧ Ordinary name

/-- No evidence is lost or changed. -/
def Registry.Grows (registry registry' : Registry) : Prop :=
  ∀ con bound evidence, registry.lookup con bound = some evidence →
    registry'.lookup con bound = some evidence

theorem Registry.Grows.refl (registry : Registry) : registry.Grows registry := fun _ _ _ h => h

/-- Two names of dictionaries are the same only for the same evidence. -/
theorem Registry.Lawful.binding_inj (h : registry.Lawful) {con con' : Con} {bound' : Trait}
    {name : String} {id id' : BindingId}
    (hlookup : registry.lookup con bound = some (.binding name id))
    (hlookup' : registry.lookup con' bound' = some (.binding name id')) : id = id' := by
  obtain ⟨hname, hcon, hbound⟩ := h.evidence hlookup
  obtain ⟨hname', hcon', hbound'⟩ := h.evidence hlookup'
  obtain ⟨rfl, rfl⟩ := dictionaryName_inj hbound hbound' hcon hcon' (hname.symm.trans hname')
  rw [hlookup] at hlookup'
  cases hlookup'
  rfl

/-- Evidence is provided where there was none. -/
theorem Registry.Lawful.provide {registry registry' : Registry} (h : registry.Lawful) {con : Con}
    {size : Nat} {bounds : List Trait} {args : List Ty} {bound : Trait} {id : BindingId}
    (hcon : con.Named) (hbound : Ordinary bound)
    (hprovide : registry.provide (.app ⟨con, size, bounds⟩ args) bound
      (.binding (dictionaryName bound con) id) = .ok registry') :
    registry.Grows registry' ∧ registry'.Lawful ∧
      registry'.lookup con bound = some (.binding (dictionaryName bound con) id) := by
  rw [Registry.provide] at hprovide
  split at hprovide
  · cases hprovide
  · rename_i hnone
    cases hprovide
    have hlookup : ∀ con' bound', Registry.lookup { registry with
        evidence := registry.evidence.insert (con, bound)
          (.binding (dictionaryName bound con) id) } con' bound' =
        if (con', bound') = (con, bound) then some (.binding (dictionaryName bound con) id)
        else registry.lookup con' bound' := by
      intro con' bound'
      rw [Registry.lookup, Assoc.find?_insert]
      rfl
    refine ⟨?_, ⟨?_, h.trait⟩, by rw [hlookup, if_pos rfl]⟩
    · intro con' bound' evidence hevidence
      rw [hlookup, if_neg, hevidence]
      intro heq
      cases heq
      rw [hevidence] at hnone
      exact hnone rfl
    · intro con' bound' name id' hevidence
      rw [hlookup] at hevidence
      split at hevidence
      · rename_i heq
        cases heq
        cases hevidence
        exact ⟨rfl, hcon, hbound⟩
      · exact h.evidence hevidence

theorem Registry.Lawful.declare {registry registry' : Registry} (h : registry.Lawful)
    {decl : TraitDecl} (hname : Ordinary decl.name)
    (hdeclare : registry.declare decl = .ok registry') :
    registry.Grows registry' ∧ registry'.Lawful := by
  rw [Registry.declare] at hdeclare
  split at hdeclare
  · cases hdeclare
  · cases hdeclare
    refine ⟨fun _ _ _ hlookup => hlookup, h.evidence, fun htrait => ?_⟩
    exact Assoc.forall_insert (P := fun name (decl : TraitDecl) => decl.name = name ∧ Ordinary name)
      ⟨rfl, hname⟩ (fun _ _ htrait => h.trait htrait) _ _ htrait

/-- What matters of a piece of core program: the ids that are free in it and the
expressions inside. -/
structure Piece where
  free : List BindingId := []
  inside : List Core.Expr := []

instance : EmptyCollection Piece := ⟨{}⟩

instance : Append Piece := ⟨fun p q => ⟨p.free ++ q.free, p.inside ++ q.inside⟩⟩

namespace Piece

def expr (e : Core.Expr) : Piece := ⟨e.free, e.walk⟩

def exprs (es : List Core.Expr) : Piece := ⟨Core.freeExprs es, Core.walkExprs es⟩

def branches (branches : List Core.Branch) : Piece :=
  ⟨Core.freeBranches branches, Core.walkBranches branches⟩

def block (block : Core.Block) : Piece := ⟨block.free, block.walk⟩

def blocks (blocks : List Core.Block) : Piece := ⟨Core.freeBlocks blocks, Core.walkBlocks blocks⟩

/-- The binder is visible in the piece and nowhere else. -/
def without (p : Piece) (id : BindingId) : Piece := ⟨p.free.filter (· ≠ id), p.inside⟩

/-- In both the same ids are free, and the second is exact if the first is. -/
structure Becomes (p q : Piece) : Prop where
  free : ∀ id, id ∈ q.free ↔ id ∈ p.free
  exact : Core.Exact p.inside → Core.Exact q.inside

end Piece

/-- The frame names only declared types, and no type parameter. -/
def Frame.NamesTypes (frame : Frame) : Prop :=
  ∀ name ty, frame.types.find? name = some ty → ∃ n, ty.con? = some (.named n) ∧ Ordinary n

namespace Checker

variable {marks : Marks} {V V' V'' : Set BindingId} {s s' s'' : Checker}
variable {p q : Piece} {ids : List BindingId}

/-- What holds of a value that a frame binds. A method asks for one dictionary
only, and the name of a dictionary is bound to the dictionary. -/
structure Sound (marks : Marks) (V : Set BindingId) (registry : Registry) (name : String)
    (value : Value) (depth : Nat) : Prop where
  binding : ∀ id, value.kind = .binding id → id ∈ V ∧ marks.Placed id depth
  method : ∀ bound index, value.kind = .method bound index →
    ∃ head args, value.ty = .app head args ∧ head.bounds.length ≤ 1
  dictionary : Reserved name → ∃ con bound id,
    registry.lookup con bound = some (.binding name id) ∧ value.kind = .binding id

theorem Sound.mono {registry' : Registry} {name : String} {value : Value} {depth : Nat}
    (h : Sound marks V registry name value depth) (hV : V ⊆ V')
    (hgrows : registry.Grows registry') : Sound marks V' registry' name value depth := by
  refine ⟨?_, h.method, ?_⟩
  · intro id hid
    exact ⟨hV (h.binding id hid).1, (h.binding id hid).2⟩
  · intro hname
    obtain ⟨con, bound, id, hlookup, hkind⟩ := h.dictionary hname
    exact ⟨con, bound, id, hgrows con bound _ hlookup, hkind⟩

/-- The invariant of the states of the checker, with the marks of the open
functions and the ids of all binders that are open. -/
structure Coherent (marks : Marks) (V : Set BindingId) (s : Checker) : Prop where
  lt_next : ∀ id ∈ V, id < s.scope.nextBinding
  base_le : ∀ m ∈ marks, m.2 ≤ s.scope.nextBinding
  marked : Frame.Marked marks s.scope.frames
  values : ∀ {name value depth}, Frame.Binds name value depth s.scope.frames →
    Sound marks V s.registry name value depth
  rootTypes : ∀ frame, s.scope.frames.getLast? = some frame → frame.NamesTypes
  lawful : s.registry.Lawful

/-- What stays as it was, up to the innermost frame and what its function
captured. -/
structure Moves (s s' : Checker) : Prop where
  next_le : s.scope.nextBinding ≤ s'.scope.nextBinding
  grows : s.registry.Grows s'.registry
  below : s'.scope.below.map Frame.bare = s.scope.below.map Frame.bare
  kind : s'.scope.top.upvalues.isSome = s.scope.top.upvalues.isSome
  outer : (Frame.tables s'.scope.frames).tail = (Frame.tables s.scope.frames).tail

theorem Moves.trans (h : Moves s s') (h' : Moves s' s'') : Moves s s'' where
  next_le := le_trans h.next_le h'.next_le
  grows := fun con bound e he => h'.grows con bound e (h.grows con bound e he)
  below := h'.below.trans h.below
  kind := h'.kind.trans h.kind
  outer := h'.outer.trans h.outer

/-- From the first state to the second the piece of core program was made. The
binders `V` were open before, and `V'` are now. -/
structure Made (p : Piece) (marks : Marks) (V V' : Set BindingId) (s s' : Checker) : Prop
    extends Moves s s' where
  before : Coherent marks V s
  coherent : Coherent marks V' s'
  subset : V ⊆ V'
  fresh : ∀ id ∈ V', id ∈ V ∨ s.scope.nextBinding ≤ id
  captured : ∀ id, id ∈ Frame.capturedIds s'.scope.frames ↔
    id ∈ Frame.capturedIds s.scope.frames ∨ id ∈ p.free ∧ id < marks.base
  visible : ∀ id ∈ p.free, id ∈ V
  exact : Core.Exact p.inside

/-- The same for an expression, which binds nothing in the innermost frame. -/
structure MadeExpr (p : Piece) (marks : Marks) (V : Set BindingId) (s s' : Checker) : Prop
    extends Made p marks V V s s' where
  top : s'.scope.top.bare = s.scope.top.bare

/-- One piece after the other. Of what is free in the whole, only the ids from
outside of the innermost function matter here: the first piece binds none. -/
theorem Made.seq {C : List BindingId} (h : Made p marks V V' s s') (h' : Made q marks V' V'' s' s'')
    (hvisible : ∀ id ∈ C, id ∈ V) (hfree : ∀ id < marks.base, id ∈ C ↔ id ∈ p.free ∨ id ∈ q.free) :
    Made ⟨C, p.inside ++ q.inside⟩ marks V V'' s s'' where
  toMoves := h.toMoves.trans h'.toMoves
  before := h.before
  coherent := h'.coherent
  subset := h.subset.trans h'.subset
  fresh := by
    intro id hid
    rcases h'.fresh id hid with hid | hid
    · exact h.fresh id hid
    · exact .inr (le_trans h.next_le hid)
  captured := by
    intro id
    rw [h'.captured, h.captured, or_assoc, ← or_and_right]
    refine or_congr_right (and_congr_left fun hid => ?_)
    exact (hfree id hid).symm
  visible := hvisible
  exact := Core.exact_append.mpr ⟨h.exact, h'.exact⟩

theorem MadeExpr.seq (h : MadeExpr p marks V s s') (h' : MadeExpr q marks V s' s'') :
    MadeExpr (p ++ q) marks V s s'' := by
  refine ⟨h.toMade.seq h'.toMade ?_ ?_, h'.top.trans h.top⟩
  · intro id hid
    rcases List.mem_append.mp hid with hid | hid
    · exact h.visible id hid
    · exact h'.visible id hid
  · intro id _
    exact List.mem_append

theorem Made.conv (h : Made p marks V V' s s') (hpq : p.Becomes q) : Made q marks V V' s s' where
  toMoves := h.toMoves
  before := h.before
  coherent := h.coherent
  subset := h.subset
  fresh := h.fresh
  captured := by
    intro id
    rw [h.captured, hpq.free]
  visible := fun id hid => h.visible id ((hpq.free id).mp hid)
  exact := hpq.exact h.exact

/-- After the first step nothing more is made. -/
theorem Made.silent (h : Made p marks V V' s s') (h' : Made ∅ marks V' V'' s' s'') :
    Made p marks V V'' s s'' := by
  refine (h.seq h' h.visible fun _ _ => ?_).conv ⟨fun _ => Iff.rfl, ?_⟩
  · exact (or_iff_left List.not_mem_nil).symm
  · exact fun hexact => (Core.exact_append.mp hexact).1

theorem MadeExpr.conv (h : MadeExpr p marks V s s') (hpq : p.Becomes q) : MadeExpr q marks V s s' :=
  ⟨h.toMade.conv hpq, h.top⟩

/-- The binders with the given ids were opened. -/
structure Opens (ids : List BindingId) (marks : Marks) (V : Set BindingId) (s s' : Checker) :
    Prop where
  made : Made ∅ marks V (V ∪ {id | id ∈ ids}) s s'
  new : ∀ id ∈ ids, s.scope.nextBinding ≤ id

theorem union_append (V : Set BindingId) (ids ids' : List BindingId) :
    V ∪ {id | id ∈ ids} ∪ {id | id ∈ ids'} = V ∪ {id | id ∈ ids ++ ids'} := by
  ext id
  simp only [Set.mem_union, Set.mem_ofPred_eq, List.mem_append, or_assoc]

theorem union_nil (V : Set BindingId) : V ∪ {id | id ∈ ([] : List BindingId)} = V := by
  ext id
  simp

theorem Opens.append {ids' : List BindingId} (h : Opens ids marks V s s')
    (h' : Opens ids' marks (V ∪ {id | id ∈ ids}) s' s'') : Opens (ids ++ ids') marks V s s'' := by
  constructor
  · rw [← union_append]
    exact h.made.silent h'.made
  · intro id hid
    rcases List.mem_append.mp hid with hid | hid
    · exact h.new id hid
    · exact le_trans h.made.next_le (h'.new id hid)

/-! Steps that bind nothing. -/

namespace Coherent

theorem base_le_next (h : Coherent marks V s) : marks.base ≤ s.scope.nextBinding := by
  cases marks with
  | nil => exact Nat.zero_le _
  | cons m rest => exact h.base_le m List.mem_cons_self

/-- The frames have the same names as before, and the innermost function has
captured what it should. -/
theorem keep (h : Coherent marks V s)
    (hbare : s'.scope.frames.map Frame.bare = s.scope.frames.map Frame.bare)
    (hmarked : Frame.Marked marks s'.scope.frames)
    (houter : (Frame.tables s'.scope.frames).tail = (Frame.tables s.scope.frames).tail)
    (hnext : s.scope.nextBinding ≤ s'.scope.nextBinding)
    (hgrows : s.registry.Grows s'.registry) (hlawful : s'.registry.Lawful)
    (hcaptured : ∀ id, id ∈ Frame.capturedIds s'.scope.frames ↔
      id ∈ Frame.capturedIds s.scope.frames ∨ id ∈ p.free ∧ id < marks.base)
    (hvisible : ∀ id ∈ p.free, id ∈ V) (hexact : Core.Exact p.inside) :
    MadeExpr p marks V s s' := by
  have htop : s'.scope.top.bare = s.scope.top.bare := (List.cons.inj hbare).1
  have hkind : s'.scope.top.upvalues.isSome = s.scope.top.upvalues.isSome := by
    have hups := congrArg (·.upvalues.isSome) htop
    simpa only [Frame.bare, Option.isSome_map] using hups
  have hcoherent : Coherent marks V s' := by
    refine ⟨?_, ?_, hmarked, ?_, ?_, hlawful⟩
    · exact fun id hid => lt_of_lt_of_le (h.lt_next id hid) hnext
    · exact fun m hm => le_trans (h.base_le m hm) hnext
    · intro name value depth hbinds
      exact (h.values (hbinds.congr hbare)).mono (fun _ hid => hid) hgrows
    · intro frame hframe
      have hlast := congrArg List.getLast? hbare
      rw [List.getLast?_map, List.getLast?_map, hframe, Option.map_some] at hlast
      obtain ⟨frame', hframe', heq⟩ := Option.map_eq_some_iff.mp hlast.symm
      have htypes : frame'.bare.types = frame.bare.types := congrArg Frame.types heq
      intro name ty hty
      exact h.rootTypes frame' hframe' name ty (by rw [← hty]; exact congrArg (·.find? name) htypes)
  exact ⟨⟨⟨hnext, hgrows, (List.cons.inj hbare).2, hkind, houter⟩, h, hcoherent, fun _ hid => hid,
    fun _ hid => .inl hid, hcaptured, hvisible, hexact⟩, htop⟩

/-- Binders that were open in between only. What is free outside of them has
to be the same as far as the innermost function captures it. -/
theorem narrow (h : Coherent marks V s) (hmade : MadeExpr p marks V' s s')
    (hvisible : ∀ id ∈ q.free, id ∈ V) (hfree : ∀ id < marks.base, id ∈ q.free ↔ id ∈ p.free)
    (hexact : Core.Exact p.inside → Core.Exact q.inside) : MadeExpr q marks V s s' := by
  have hbare : s'.scope.frames.map Frame.bare = s.scope.frames.map Frame.bare := by
    rw [Scope.frames, Scope.frames, List.map_cons, List.map_cons, hmade.top, hmade.below]
  refine h.keep hbare hmade.coherent.marked hmade.outer hmade.next_le hmade.grows
    hmade.coherent.lawful ?_ hvisible (hexact hmade.exact)
  intro id
  rw [hmade.captured]
  refine or_congr_right (and_congr_left fun hid => ?_)
  exact (hfree id hid).symm

theorem recaptures (h : Coherent marks V s) (hscope : s.scope.Recaptures marks s'.scope ids)
    (hregistry : s'.registry = s.registry) (hids : ∀ id ∈ ids, id ∈ V) :
    MadeExpr { free := ids } marks V s s' :=
  h.keep hscope.bare hscope.marked hscope.outer hscope.next.ge (hregistry ▸ .refl _)
    (hregistry ▸ h.lawful) hscope.captured hids Core.exact_nil

theorem quiet (h : Coherent marks V s) (hs : Alike s s') : MadeExpr ∅ marks V s s' := by
  refine h.recaptures ?_ hs.registry (List.forall_mem_nil _)
  rw [hs.scope]
  exact .refl h.marked

theorem stay (h : Coherent marks V s) : MadeExpr ∅ marks V s s := h.quiet (.refl s)

end Coherent

theorem Opens.nil (h : Coherent marks V s) : Opens [] marks V s s :=
  ⟨(union_nil V).symm ▸ h.stay.toMade, List.forall_mem_nil _⟩

/-! Steps that bind in the innermost frame. -/

namespace Coherent

variable {id : BindingId} {value : Value} {name : String}

/-- A new id is placed in the innermost frame. -/
theorem placed_new (h : Coherent marks V s) (hid : s.scope.nextBinding ≤ id) :
    marks.Placed id s.scope.depth := by
  intro m hm
  have hdepth : m.1 ∈ Frame.functionDepths s.scope.frames := by
    rw [h.marked.depths]
    exact List.mem_map.mpr ⟨m, hm, rfl⟩
  have hlt : m.1 < s.scope.below.length + 1 := Frame.lt_of_mem_functionDepths hdepth
  have hbase : m.2 ≤ id := le_trans (h.base_le m hm) hid
  have hnot : ¬s.scope.depth < m.1 := by
    rw [Scope.depth]
    omega
  exact ⟨fun hd => absurd hd hnot, fun hd => absurd hd (Nat.not_lt.mpr hbase)⟩

/-- The innermost frame changes, with ids drawn and evidence provided on the
way. Only the outermost frame has to keep its types. -/
theorem changeTop (h : Coherent marks V s) (hbelow : s'.scope.below = s.scope.below)
    (hups : s'.scope.top.upvalues = s.scope.top.upvalues)
    (htypes : s.scope.below = [] → s'.scope.top.types = s.scope.top.types)
    (hvalues : ∀ {name value}, s'.scope.top.values.find? name = some value →
      Sound marks V' s'.registry name value s.scope.depth)
    (hnext : s.scope.nextBinding ≤ s'.scope.nextBinding) (hsubset : V ⊆ V')
    (hfresh : ∀ id ∈ V', id ∈ V ∨ s.scope.nextBinding ≤ id ∧ id < s'.scope.nextBinding)
    (hgrows : s.registry.Grows s'.registry) (hlawful : s'.registry.Lawful) :
    Made ∅ marks V V' s s' := by
  have htables : Frame.tables s'.scope.frames = Frame.tables s.scope.frames := by
    rw [Scope.frames, Scope.frames, hbelow, Frame.tables, Frame.tables, List.filterMap_cons,
      List.filterMap_cons, hups]
  have hdepths : Frame.functionDepths s'.scope.frames = Frame.functionDepths s.scope.frames := by
    rw [Scope.frames, Scope.frames, hbelow, Frame.functionDepths, Frame.functionDepths, hups]
  have hcoherent : Coherent marks V' s' := by
    refine ⟨?_, ?_, ⟨hdepths ▸ h.marked.depths, htables ▸ h.marked.holds⟩, ?_, ?_, hlawful⟩
    · intro id hid
      rcases hfresh id hid with hid | ⟨_, hid⟩
      · exact lt_of_lt_of_le (h.lt_next id hid) hnext
      · exact hid
    · intro m hm
      exact le_trans (h.base_le m hm) hnext
    · intro name value depth hbinds
      rw [Scope.frames, hbelow] at hbinds
      rcases hbinds with ⟨rfl, hfind⟩ | hbinds
      · exact hvalues hfind
      · exact (h.values (.inr hbinds)).mono hsubset hgrows
    · intro frame hframe
      cases hrest : s.scope.below with
      | nil =>
        rw [Scope.frames, hbelow, hrest] at hframe
        obtain rfl : s'.scope.top = frame := Option.some.inj hframe
        intro name ty hty
        rw [htypes hrest] at hty
        exact h.rootTypes s.scope.top (by rw [Scope.frames, hrest]; rfl) name ty hty
      | cons frame' rest =>
        rw [Scope.frames, hbelow, hrest, List.getLast?_cons_cons, ← hrest] at hframe
        apply h.rootTypes frame
        rw [Scope.frames, hrest, List.getLast?_cons_cons, ← hrest, hframe]
  refine ⟨⟨hnext, hgrows, by rw [hbelow], by rw [hups], by rw [htables]⟩, h, hcoherent, hsubset,
    ?_, ?_, List.forall_mem_nil _, Core.exact_nil⟩
  · intro id hid
    exact (hfresh id hid).imp_right And.left
  · intro id
    rw [Frame.capturedIds, Frame.captured_eq, htables, ← Frame.captured_eq]
    exact (or_iff_left (by rintro ⟨⟨⟩, _⟩)).symm

theorem bind (h : Coherent marks V s) {next : Nat}
    (hscope : s'.scope = { s.scope.bindValue name value with nextBinding := next })
    (hnext : s.scope.nextBinding ≤ next) (hsubset : V ⊆ V')
    (hfresh : ∀ id ∈ V', id ∈ V ∨ s.scope.nextBinding ≤ id ∧ id < next)
    (hgrows : s.registry.Grows s'.registry) (hlawful : s'.registry.Lawful)
    (hsound : Sound marks V' s'.registry name value s.scope.depth) : Made ∅ marks V V' s s' := by
  have hnext' : s'.scope.nextBinding = next := by rw [hscope]
  refine h.changeTop (by rw [hscope]; rfl) (by rw [hscope]; rfl) (fun _ => by rw [hscope]; rfl) ?_
    (hnext'.symm ▸ hnext) hsubset (hnext'.symm ▸ hfresh) hgrows hlawful
  intro name' value' hfind
  have hvalues : s'.scope.top.values = s.scope.top.values.insert name value := by rw [hscope]; rfl
  rw [hvalues] at hfind
  refine Assoc.forall_insert
    (P := fun name value => Sound marks V' s'.registry name value s.scope.depth) hsound
    (fun _ _ hfind => ?_) _ _ hfind
  exact (h.values (.inl ⟨rfl, hfind⟩)).mono hsubset hgrows

/-- A new id that the innermost frame gives a name to. If it is the name of a
dictionary, then there is evidence for the dictionary. -/
theorem bindNew (h : Coherent marks V s) (hkind : value.kind = .binding s.scope.nextBinding)
    (hscope : s'.scope =
      { s.scope.bindValue name value with nextBinding := s.scope.nextBinding + 1 })
    (hgrows : s.registry.Grows s'.registry) (hlawful : s'.registry.Lawful)
    (hname : Reserved name → ∃ con bound,
      s'.registry.lookup con bound = some (.binding name s.scope.nextBinding)) :
    Opens [s.scope.nextBinding] marks V s s' := by
  have hid : ∀ id, id ∈ ({id | id ∈ [s.scope.nextBinding]} : Set BindingId) ↔
      id = s.scope.nextBinding := fun id => List.mem_singleton
  refine ⟨h.bind hscope (Nat.le_succ _) Set.subset_union_left ?_ hgrows hlawful ?_, ?_⟩
  · rintro id (hV | hnew)
    · exact .inl hV
    · rw [(hid id).mp hnew]
      exact .inr ⟨le_refl _, Nat.lt_succ_self _⟩
  · refine ⟨?_, ?_, ?_⟩
    · intro id hid
      rw [hkind] at hid
      cases hid
      exact ⟨.inr (List.mem_singleton.mpr rfl), h.placed_new (le_refl _)⟩
    · intro bound index hmethod
      rw [hkind] at hmethod
      cases hmethod
    · intro hreserved
      obtain ⟨con, bound, hlookup⟩ := hname hreserved
      exact ⟨con, bound, _, hlookup, hkind⟩
  · intro id hnew
    rw [(hid id).mp hnew]

theorem bindLocal (h : Coherent marks V s) (hname : Ordinary name) {ty : Ty}
    (hrun : Yields (bindLocal name ty) s id s') : Opens [id] marks V s s' := by
  obtain ⟨rfl, rfl⟩ := hrun.modifyGet
  exact h.bindNew rfl rfl (.refl _) h.lawful
    fun hreserved => absurd hreserved hname.not_reserved

theorem bindParam (h : Coherent marks V s) {span : Span} {name : String} (hname : Ordinary name)
    {ty : Ty} {id : BindingId} (hrun : Yields (bindParam span name ty) s id s') :
    Opens [id] marks V s s' := by
  obtain ⟨rfl, rfl⟩ := hrun.bindParam
  exact h.bindNew rfl rfl (.refl _) h.lawful
    fun hreserved => absurd hreserved hname.not_reserved

/-- A new id without a name. It may be used as that of a binder, or kept for
later. -/
theorem freshBinding (h : Coherent marks V s) {id : BindingId}
    (hrun : Yields freshBinding s id s') :
    id = s.scope.nextBinding ∧ MadeExpr ∅ marks V s s' ∧ Opens [id] marks V s s' := by
  obtain ⟨rfl, rfl⟩ := hrun.freshBinding
  refine ⟨rfl, ⟨h.changeTop rfl rfl (fun _ => rfl) ?_ (Nat.le_succ _) (fun _ hid => hid)
    (fun _ hid => .inl hid) (.refl _) h.lawful, rfl⟩, ⟨h.changeTop rfl rfl (fun _ => rfl) ?_
    (Nat.le_succ _) Set.subset_union_left ?_ (.refl _) h.lawful, ?_⟩⟩
  · intro name value hfind
    exact h.values (.inl ⟨rfl, hfind⟩)
  · intro name value hfind
    exact (h.values (.inl ⟨rfl, hfind⟩)).mono Set.subset_union_left (.refl _)
  · rintro id (hid | hid)
    · exact .inl hid
    · rw [List.mem_singleton.mp hid]
      exact .inr ⟨le_refl _, Nat.lt_succ_self _⟩
  · intro id hid
    rw [List.mem_singleton.mp hid]

/-- A frame that is not the outermost one names types. -/
theorem names (h : Coherent marks V s) (hs : Names s s') (hroot : s.scope.below ≠ []) :
    Made ∅ marks V V s s' := by
  obtain ⟨types, next, _, rfl⟩ := hs
  exact h.changeTop rfl rfl (fun hnil => absurd hnil hroot)
    (fun hfind => h.values (.inl ⟨rfl, hfind⟩)) (le_refl _) (fun _ hid => hid)
    (fun _ hid => .inl hid) (.refl _) h.lawful

/-! Lookups. -/

/-- A value that is found is bound in some frame. If it is a binding, then the
innermost function has captured it if it had to. -/
theorem lookup (h : Coherent marks V s) {name : String} {value : Value}
    (hrun : Yields (lookup? name) s (some value) s') :
    (∃ depth, Frame.Binds name value depth s.scope.frames) ∧
      (∀ id, value.kind = .binding id → MadeExpr { free := [id] } marks V s s') ∧
      ((∀ id, value.kind ≠ .binding id) → MadeExpr ∅ marks V s s') := by
  obtain ⟨hvalue, rfl⟩ := hrun.modifyGet
  dsimp only at hvalue ⊢
  rw [Scope.getValue] at hvalue ⊢
  cases hlookup : Frame.lookup name s.scope.frames with
  | none =>
    rw [hlookup] at hvalue
    cases hvalue
  | some found =>
    obtain ⟨value', depth⟩ := found
    rw [hlookup] at hvalue
    have hbinds := Frame.binds_of_lookup hlookup
    cases hkind : value'.kind with
    | binding id =>
      simp only [hkind] at hvalue ⊢
      cases hvalue
      obtain ⟨hid, hplaced⟩ := (h.values hbinds).binding id hkind
      refine ⟨⟨depth, hbinds⟩, ?_, fun hne => absurd hkind (hne id)⟩
      intro id' hid'
      rw [hkind] at hid'
      cases hid'
      refine h.recaptures (Scope.recaptures_capture h.marked hplaced) rfl ?_
      intro id' hid'
      rw [List.mem_singleton.mp hid']
      exact hid
    | builtin op =>
      simp only [hkind] at hvalue ⊢
      cases hvalue
      refine ⟨⟨depth, hbinds⟩, ?_, fun _ => h.quiet ⟨rfl, rfl⟩⟩
      intro id' hid'
      rw [hkind] at hid'
      cases hid'
    | method bound index =>
      simp only [hkind] at hvalue ⊢
      cases hvalue
      refine ⟨⟨depth, hbinds⟩, ?_, fun _ => h.quiet ⟨rfl, rfl⟩⟩
      intro id' hid'
      rw [hkind] at hid'
      cases hid'

/-! Blocks. -/

theorem push (h : Coherent marks V s) : Coherent marks V { s with scope := s.scope.push } := by
  refine ⟨h.lt_next, h.base_le, ⟨h.marked.depths, h.marked.holds⟩, ?_, ?_, h.lawful⟩
  · rintro name value depth (⟨_, hfind⟩ | hbinds)
    · cases hfind
    · exact h.values hbinds
  · exact h.rootTypes

end Coherent

/-- A block leaves the frames as they were. -/
theorem Coherent.pop (h : Coherent marks V s)
    (hbody : Made p marks V V' { s with scope := s.scope.push } s') :
    MadeExpr p marks V s { s' with scope := s'.scope.pop } := by
  have hbelow : s'.scope.below.map Frame.bare = s.scope.frames.map Frame.bare := hbody.below
  have hne : s'.scope.below ≠ [] := by
    intro hnil
    rw [hnil] at hbelow
    cases hbelow
  have hframes := Scope.frames_pop hne
  have hnone : s'.scope.top.upvalues = none := by
    have hkind : s'.scope.top.upvalues.isSome = false := hbody.kind
    exact Option.isSome_eq_false_iff.mp hkind |> Option.isNone_iff_eq_none.mp
  have htables : Frame.tables s'.scope.frames = Frame.tables s'.scope.below := by
    rw [Scope.frames, Frame.tables, List.filterMap_cons, hnone]
    rfl
  have hdepths : Frame.functionDepths s'.scope.frames = Frame.functionDepths s'.scope.below := by
    rw [Scope.frames, Frame.functionDepths, hnone]
    rfl
  have hmarked := hbody.coherent.marked
  have hcaptured : ∀ frames, Frame.tables frames = Frame.tables s'.scope.below →
      Frame.capturedIds frames = Frame.capturedIds s'.scope.below := by
    intro frames hframes
    rw [Frame.capturedIds, Frame.captured_eq, hframes, ← Frame.captured_eq, Frame.capturedIds]
  refine h.keep (hframes ▸ hbelow) ?_ ?_ ?_ hbody.grows hbody.coherent.lawful ?_
    hbody.visible hbody.exact
  · rw [hframes]
    exact ⟨hdepths ▸ hmarked.depths, htables ▸ hmarked.holds⟩
  · rw [hframes, ← htables]
    exact hbody.outer
  · rw [Scope.nextBinding_pop]
    exact hbody.next_le
  · intro id
    rw [hframes, ← hcaptured s'.scope.frames htables]
    exact hbody.captured id

/-! Functions. -/

/-- The mark of a function that is entered now. -/
def entry (s : Checker) : Nat × BindingId := (s.scope.frames.length, s.scope.nextBinding)

theorem Coherent.pushFunction (h : Coherent marks V s) :
    Coherent (s.entry :: marks) V { s with scope := s.scope.pushFunction } := by
  refine ⟨h.lt_next, ?_, ⟨congrArg (_ :: ·) h.marked.depths, Marks.holds_empty marks,
    h.marked.holds⟩, ?_, h.rootTypes, h.lawful⟩
  · intro m hm
    rcases List.mem_cons.mp hm with rfl | hm
    · exact le_refl _
    · exact h.base_le m hm
  · rintro name value depth (⟨_, hfind⟩ | hbinds)
    · cases hfind
    · have hsound := h.values hbinds
      refine ⟨?_, hsound.method, hsound.dictionary⟩
      intro id hid
      obtain ⟨hvisible, hplaced⟩ := hsound.binding id hid
      refine ⟨hvisible, ?_⟩
      intro m hm
      rcases List.mem_cons.mp hm with rfl | hm
      · exact ⟨fun _ => h.lt_next id hvisible, fun _ => hbinds.lt_length⟩
      · exact hplaced m hm

/-- A function whose body was checked is exact. Its captures are what is free
in it, and from these the function around it captures in turn. -/
theorem Coherent.closeFunction (h : Coherent marks V s) {s1 s2 : Checker} {V2 : Set BindingId}
    {params : List BindingId} {block : Core.Block}
    (hopen : Opens params (s.entry :: marks) V { s with scope := s.scope.pushFunction } s1)
    (hbody : Made (.block block) (s.entry :: marks) (V ∪ {id | id ∈ params}) V2 s1 s2)
    (name : Option String) (ty : Ty) :
    MadeExpr (.expr ⟨.func ⟨name, captures s2.scope.popFunction.1, params, block⟩, ty⟩) marks V s
      { s2 with scope := s2.scope.popFunction.2 } := by
  obtain ⟨hparams, hnew⟩ := hopen
  have hmoves := hparams.toMoves.trans hbody.toMoves
  have hbelow : s2.scope.below.map Frame.bare = s.scope.frames.map Frame.bare := hmoves.below
  have hne : s2.scope.below ≠ [] := by
    intro hnil
    rw [hnil] at hbelow
    cases hbelow
  have hframes := Scope.frames_pop hne
  have hkind : s2.scope.top.upvalues.isSome = true := hmoves.kind
  obtain ⟨ups, hups⟩ := Option.isSome_iff_exists.mp hkind
  have htables : Frame.tables s2.scope.frames = ups :: Frame.tables s2.scope.below := by
    rw [Scope.frames, Frame.tables, List.filterMap_cons, hups]
    rfl
  have hrest : Frame.tables s2.scope.below = Frame.tables s.scope.frames := by
    have houter := hmoves.outer
    rw [htables] at houter
    exact houter
  have hholds := hbody.coherent.marked.holds
  rw [htables] at hholds
  have hids : ups.values.map (·.binding) = ups.keys := hholds.1.map_binding
  have hpop : s2.scope.popFunction = (ups.values, ups.values.foldl Scope.capture s2.scope.pop) := by
    rw [Scope.popFunction]
    split
    · contradiction
    · rw [hups]
      rfl
  have hcaptured : ∀ id, id ∈ ups.keys ↔ id ∈ block.free ∧ id < s.scope.nextBinding := by
    intro id
    have hend := hbody.captured id
    rw [hparams.captured, Frame.capturedIds, Frame.captured_eq, htables] at hend
    rw [← hids]
    have hstart : Frame.capturedIds (Scope.pushFunction s.scope).frames = [] := rfl
    rw [hstart] at hend
    simpa [Marks.base, entry, Piece.block, show (∅ : Piece).free = [] from rfl] using hend
  have hfree : ∀ id ∈ block.free, id ∉ params → id ∈ V := fun id hid hparam =>
    (hbody.visible id hid).resolve_right hparam
  -- the frames below the function are those from before it
  have hleft : MadeExpr { inside := block.walk } marks V s { s2 with scope := s2.scope.pop } := by
    refine h.keep (hframes ▸ hbelow) ?_ ?_ ?_ hmoves.grows hbody.coherent.lawful ?_
      (List.forall_mem_nil _) hbody.exact
    · rw [hframes]
      refine ⟨?_, hrest ▸ h.marked.holds⟩
      rw [Frame.functionDepths_congr hbelow]
      exact h.marked.depths
    · rw [hframes, hrest]
    · rw [Scope.nextBinding_pop]
      exact hmoves.next_le
    · intro id
      rw [hframes, Frame.capturedIds, Frame.captured_eq, hrest, ← Frame.captured_eq]
      exact (or_iff_left (by rintro ⟨⟨⟩, _⟩)).symm
  have hpass : MadeExpr { free := ups.keys } marks V { s2 with scope := s2.scope.pop }
      { s2 with scope := ups.values.foldl Scope.capture s2.scope.pop } := by
    rw [← hids]
    refine hleft.coherent.recaptures (Scope.recaptures_foldl hleft.coherent.marked ?_) rfl ?_
    · intro up hup
      obtain ⟨p, hp, rfl⟩ := List.mem_map.mp hup
      obtain ⟨hkey, hplaced⟩ := hholds.1.entry p hp
      rw [hkey]
      exact hplaced
    · intro id hid
      rw [hids] at hid
      obtain ⟨hid, hlt⟩ := (hcaptured id).mp hid
      exact hfree id hid fun hparam => absurd hlt (Nat.not_lt.mpr (hnew id hparam))
  rw [hpop]
  have hfunc : (captures ups.values).map (·.binding) = ups.keys := by
    rw [captures, List.map_map, ← hids]
    rfl
  refine (hleft.seq hpass).conv ⟨?_, ?_⟩
  · intro id
    rw [Piece.expr, Core.Expr.free, Core.ExprKind.free, Core.FuncExpr.captured, hfunc]
    rfl
  · intro hexact
    refine Core.Exact.func ⟨?_, ?_⟩ (Core.exact_append.mp hexact).1
    · rw [Core.FuncExpr.captured, hfunc]
      exact hholds.1.nodup
    · intro id
      rw [Core.FuncExpr.captured, hfunc, hcaptured]
      refine and_congr_right fun hid => ?_
      constructor
      · exact fun hlt hparam => absurd hlt (Nat.not_lt.mpr (hnew id hparam))
      · exact fun hparam => h.lt_next id (hfree id hid hparam)

end Checker

end TraitCheck
