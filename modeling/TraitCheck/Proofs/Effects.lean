import TraitCheck.Proofs.Endings
import TraitCheck.Proofs.TypedDeclarations

/-!
What a step of the checker can do to its state, whether it succeeds or fails.
No step changes the options, leaves a frame or a function open, or takes back a
declaration (`Kept`). A step that belongs to an expression binds nothing in the
innermost frame and declares nothing at all, except for evidence for tracers
that it made itself (`Stays`). A statement may bind values in the innermost
frame, and declares something only in the outermost one (`Passes`). The walk is
put together from such steps, so this is said of it once, by induction over the
syntax.
-/

namespace TraitCheck

variable {adt : Adt} {registry registry' : Registry} {evidence : Evidence} {bound : Trait}
  {decl : TraitDecl}

/-- The constructor is no tracer that is still to be made. -/
def Con.Below (next : Nat) (con : Con) : Prop := ∀ id name, con = .tracer id name → id < next

theorem Con.Below.mono {next next' : Nat} {con : Con} (h : con.Below next) (hle : next ≤ next') :
    con.Below next' :=
  fun id name heq => lt_of_lt_of_le (h id name heq) hle

/-- A pending declaration may be replaced by one with the same type parameters. -/
theorem AdtTable.Grows.insert_pending (adts : AdtTable) {name : String} {adt' : Adt}
    (hfind : Assoc.find? adts name = some adt) (hpending : adt.isPending = true)
    (hgenerics : adt'.generics = adt.generics) : adts.Grows (Assoc.insert adts name adt') := by
  intro other found hother
  rw [Assoc.find?_insert]
  by_cases heq : other = name
  · rw [heq, hfind] at hother
    cases hother
    rw [if_pos heq]
    exact ⟨adt', rfl, hgenerics, fun h => absurd (h.symm.trans hpending) Bool.false_ne_true⟩
  · rw [if_neg heq]
    exact ⟨found, hother, rfl, fun _ => rfl⟩

theorem Registry.lookup_provide {ty : Ty} (h : registry.provide ty bound evidence = .ok registry') :
    ∃ con, ty.con? = some con ∧ registry.lookup con bound = none ∧
      registry'.traits = registry.traits ∧ ∀ con' bound', registry'.lookup con' bound' =
        if (con', bound') = (con, bound) then some evidence else registry.lookup con' bound' := by
  cases ty with
  | var v => cases h
  | app head args =>
    rw [provide] at h
    split at h
    · cases h
    · rename_i hnone
      cases h
      refine ⟨head.con, rfl, Option.not_isSome_iff_eq_none.mp hnone, rfl, ?_⟩
      intro con' bound'
      rw [lookup, Assoc.find?_insert]
      rfl

theorem Registry.keeps_provide {ty : Ty} (h : registry.provide ty bound evidence = .ok registry') :
    registry.Keeps registry' := by
  obtain ⟨con, _, hnone, htraits, hlookup⟩ := Registry.lookup_provide h
  refine ⟨fun _ _ hdecl => ?_, fun _ _ _ he => ?_⟩
  · rw [trait?, htraits]
    exact hdecl
  · rw [hlookup, if_neg, he]
    rintro ⟨⟩
    rw [hnone] at he
    cases he

theorem Registry.keeps_declare (h : registry.declare decl = .ok registry') :
    registry.Keeps registry' := by
  rw [declare] at h
  split at h
  · cases h
  · rename_i hnew
    cases h
    refine ⟨fun _ _ hdecl => ?_, fun _ _ _ he => he⟩
    rw [trait?, Assoc.find?_insert_of_ne]
    · exact hdecl
    · rintro rfl
      rw [isDeclared, hdecl] at hnew
      exact hnew rfl

/-! Tables in which no name comes twice. -/

variable {adts : AdtTable} {traits : Assoc Trait TraitDecl}

def AdtKind.Keyed : AdtKind → Prop
  | .pending => True
  | .struct fields => fields.keys.Nodup
  | .enum tags => tags.keys.Nodup ∧ ∀ fields ∈ tags.values, fields.keys.Nodup

/-- The fields and tags of all declared types and the methods of all traits have
different names. -/
structure Keyed (adts : AdtTable) (traits : Assoc Trait TraitDecl) : Prop where
  adts : ∀ name adt, Assoc.find? adts name = some adt → adt.kind.Keyed
  traits : ∀ name decl, traits.find? name = some decl → decl.methods.keys.Nodup

theorem Keyed.empty : Keyed ∅ ∅ where
  adts := by rintro _ _ ⟨⟩
  traits := by rintro _ _ ⟨⟩

theorem Keyed.insert_adt (h : Keyed adts traits) (name : String) (hadt : adt.kind.Keyed) :
    Keyed (Assoc.insert adts name adt) traits :=
  ⟨Assoc.forall_insert hadt h.adts, h.traits⟩

theorem Keyed.insert_trait (h : Keyed adts traits) (name : String)
    (hdecl : decl.methods.keys.Nodup) : Keyed adts (traits.insert name decl) :=
  ⟨h.adts, Assoc.forall_insert hdecl h.traits⟩

namespace Checker

variable {α β : Type} {s s' s'' : Checker}

/-! Relations between the states before and after a step. -/

variable {first : Nat} {scope : Scope}

/-- No frame and no function is left open or closed, no id is taken back, and no
name comes twice in a declaration. -/
structure Balanced (s s' : Checker) : Prop where
  options : s'.options = s.options
  functions : s'.functions.length = s.functions.length
  next : s.unifier.next ≤ s'.unifier.next
  binding : s.scope.nextBinding ≤ s'.scope.nextBinding
  below : s'.scope.below.map Frame.bare = s.scope.below.map Frame.bare
  keyed : Keyed s.adts s.registry.traits → Keyed s'.adts s'.registry.traits

/-- Also no declaration is taken back, and nothing built in comes in. -/
structure Kept (s s' : Checker) : Prop extends Balanced s s' where
  grows : s.adts.Grows s'.adts
  keeps : s.registry.Keeps s'.registry
  installed : s'.preludeInstalled = s.preludeInstalled

/-- Nothing is declared but evidence for tracers from `first` on. -/
structure Undeclared (first : Nat) (s s' : Checker) : Prop where
  adts : s'.adts = s.adts
  traits : s'.registry.traits = s.registry.traits
  evidence : ∀ con bound, con.Below first →
    s'.registry.lookup con bound = s.registry.lookup con bound

/-- What a step keeps that puts tracers in place of type parameters. -/
structure Traces (first : Nat) (s s' : Checker) : Prop extends Kept s s', Undeclared first s s'

/-- What a statement keeps. -/
structure Passes (s s' : Checker) : Prop extends Kept s s' where
  inside : s.scope.below ≠ [] → Undeclared s.unifier.next s s'

/-- What an expression keeps. -/
structure Stays (s s' : Checker) : Prop extends Traces s.unifier.next s s' where
  top : s'.scope.top.bare = s.scope.top.bare

theorem Balanced.depth (h : Balanced s s') : s'.scope.depth = s.scope.depth := by
  have hlength := congrArg List.length h.below
  rwa [List.length_map, List.length_map] at hlength

theorem Balanced.below_ne (h : Balanced s s') (hbelow : s.scope.below ≠ []) :
    s'.scope.below ≠ [] := by
  intro hnil
  have hbare := h.below
  rw [hnil] at hbare
  exact hbelow (List.map_eq_nil_iff.mp hbare.symm)

theorem Balanced.isRoot (h : Balanced s s') (hroot : s.scope.below = []) : s'.scope.below = [] := by
  have hbelow := h.below
  rwa [hroot, List.map_nil, List.map_eq_nil_iff] at hbelow

theorem Traces.passes (h : Traces s.unifier.next s s') : Passes s s' :=
  ⟨h.toKept, fun _ => h.toUndeclared⟩

theorem Stays.passes (h : Stays s s') : Passes s s' := h.toTraces.passes

theorem Stays.frames (h : Stays s s') :
    s'.scope.frames.map Frame.bare = s.scope.frames.map Frame.bare := by
  rw [Scope.frames, Scope.frames, List.map_cons, List.map_cons, h.top, h.below]

theorem Stays.types (h : Stays s s') : s'.scope.top.types = s.scope.top.types := by
  have hbare : s'.scope.top.bare.types = s.scope.top.bare.types := congrArg Frame.types h.top
  exact hbare

theorem Stays.declaresType (h : Stays s s') {name : String} :
    s'.scope.declaresType name = s.scope.declaresType name :=
  congrArg (·.contains name) h.types

theorem Balanced.refl (s : Checker) : Balanced s s := ⟨rfl, rfl, le_refl _, le_refl _, rfl, id⟩

theorem Balanced.trans (h : Balanced s s') (h' : Balanced s' s'') : Balanced s s'' where
  options := h'.options.trans h.options
  functions := h'.functions.trans h.functions
  next := le_trans h.next h'.next
  binding := le_trans h.binding h'.binding
  below := h'.below.trans h.below
  keyed := h'.keyed ∘ h.keyed

theorem Kept.refl (s : Checker) : Kept s s := ⟨.refl s, .refl _, .refl _, rfl⟩

theorem Kept.trans (h : Kept s s') (h' : Kept s' s'') : Kept s s'' :=
  ⟨h.toBalanced.trans h'.toBalanced, h.grows.trans h'.grows, h.keeps.trans h'.keeps,
    h'.installed.trans h.installed⟩

theorem Undeclared.refl (first : Nat) (s : Checker) : Undeclared first s s :=
  ⟨rfl, rfl, fun _ _ _ => rfl⟩

theorem Undeclared.trans {first first' : Nat} (h : Undeclared first s s') (hle : first ≤ first')
    (h' : Undeclared first' s' s'') : Undeclared first s s'' where
  adts := h'.adts.trans h.adts
  traits := h'.traits.trans h.traits
  evidence := fun con bound hcon =>
    (h'.evidence con bound (hcon.mono hle)).trans (h.evidence con bound hcon)

/-- At most bindings of type variables and counters have changed. -/
theorem Stays.of_eq (hoptions : s'.options = s.options)
    (hinstalled : s'.preludeInstalled = s.preludeInstalled)
    (hfunctions : s'.functions = s.functions) (hadts : s'.adts = s.adts)
    (hregistry : s'.registry = s.registry)
    (hframes : s'.scope.frames.map Frame.bare = s.scope.frames.map Frame.bare)
    (hnext : s.unifier.next ≤ s'.unifier.next)
    (hbinding : s.scope.nextBinding ≤ s'.scope.nextBinding) : Stays s s' where
  options := hoptions
  functions := by rw [hfunctions]
  next := hnext
  binding := hbinding
  below := (List.cons.inj hframes).2
  keyed := by rw [hadts, hregistry]; exact id
  grows := hadts ▸ .refl _
  keeps := hregistry ▸ .refl _
  installed := hinstalled
  adts := hadts
  traits := by rw [hregistry]
  evidence := fun _ _ _ => by rw [hregistry]
  top := (List.cons.inj hframes).1

/-- A frame is closed again, so of what was done to it nothing is left. -/
theorem Passes.leave {frame : Frame} (h : Passes { s with scope := s.scope.enter frame } s')
    (hframes : scope.frames.map Frame.bare = s'.scope.below.map Frame.bare)
    (hnext : scope.nextBinding = s'.scope.nextBinding) : Stays s { s' with scope } := by
  have hundeclared := h.inside (List.cons_ne_nil _ _)
  have hbare : scope.frames.map Frame.bare = s.scope.frames.map Frame.bare := hframes.trans h.below
  exact ⟨⟨⟨⟨h.options, h.functions, h.next, hnext ▸ h.binding, (List.cons.inj hbare).2,
    h.keyed⟩, h.grows, h.keeps, h.installed⟩,
      ⟨hundeclared.adts, hundeclared.traits, hundeclared.evidence⟩⟩,
      (List.cons.inj hbare).1⟩

/-! Steps that keep what an expression keeps. -/

/-- The counter of variables has moved on, and types may have been bound. -/
theorem stays_unifier (s : Checker) {unifier : Unifier} (h : s.unifier.next ≤ unifier.next) :
    Stays s { s with unifier } :=
  .of_eq rfl rfl rfl rfl rfl rfl h (le_refl _)

theorem stays_binding (s : Checker) : Stays s { s with scope := s.scope.freshBinding.2 } :=
  .of_eq rfl rfl rfl rfl rfl rfl (le_refl _) (Nat.le_succ _)

/-- Whatever an expression does is allowed. -/
class StaysClosed (R : Checker → Checker → Prop) : Prop
    extends UnifyClosed R, BindingClosed R where
  stays : ∀ {s s'}, Stays s s' → R s s'
  unifier := fun s _ h => stays (stays_unifier s h)
  draw := fun s _ h => stays (stays_unifier s h)
  binding := fun s => stays (stays_binding s)

theorem Stays.lift {R : Checker → Checker → Prop} [StaysClosed R] (h : Stays s s') : R s s' :=
  StaysClosed.stays h

instance : StaysClosed Balanced where
  refl := Balanced.refl
  trans := fun _ _ _ => Balanced.trans
  stays := fun h => h.toBalanced

instance : StaysClosed Kept where
  refl := Kept.refl
  trans := fun _ _ _ => Kept.trans
  stays := fun h => h.toKept

instance : StaysClosed Passes where
  refl := fun s => ⟨.refl s, fun _ => .refl _ s⟩
  trans := fun _ _ _ h h' => ⟨h.toKept.trans h'.toKept, fun hbelow =>
    (h.inside hbelow).trans h.next (h'.inside (h.below_ne hbelow))⟩
  stays := Stays.passes

instance : StaysClosed Stays where
  refl := fun s => ⟨⟨.refl s, .refl _ s⟩, rfl⟩
  trans := fun _ _ _ h h' => ⟨⟨h.toKept.trans h'.toKept,
    h.toUndeclared.trans h.next h'.toUndeclared⟩, h'.top.trans h.top⟩
  stays := id

instance (first : Nat) : UnifyClosed (Traces first) where
  refl := fun s => ⟨.refl s, .refl first s⟩
  trans := fun _ _ _ h h' => ⟨h.toKept.trans h'.toKept,
    h.toUndeclared.trans (le_refl _) h'.toUndeclared⟩
  unifier := fun s _ h => ⟨(stays_unifier s h).toKept, rfl, rfl, fun _ _ _ => rfl⟩

instance (first : Nat) : BindingClosed (Traces first) where
  binding := fun s => ⟨(stays_binding s).toKept, rfl, rfl, fun _ _ _ => rfl⟩

namespace EndsIn

variable {x body : CheckM α}

theorem lift {R : Checker → Checker → Prop} [StaysClosed R] (h : Ends Stays x) : Ends R x :=
  h.imp Stays.lift

theorem kept (h : Ends Passes x) : Ends Kept x := h.imp Passes.toKept

theorem balanced (h : Ends Kept x) : Ends Balanced x := h.imp Kept.toBalanced

theorem stays (h : Ends Stays x) {a : α} (hx : Yields x s a s') : Stays s s' := h.yields hx

/-! Frames, functions and units. -/

theorem inScope (h : Ends Passes body) : Ends Stays (inScope body) := by
  refine .of_rel fun s => ?_
  have hbody := h.rel { s with scope := s.scope.push }
  have hframes := Scope.frames_pop (hbody.below_ne (List.cons_ne_nil _ _))
  exact hbody.leave (congrArg (List.map Frame.bare) hframes) (Scope.nextBinding_pop _)

theorem inFunctionFrame (h : Ends Passes body) : Ends Stays (inFunctionFrame body) := by
  refine .of_rel fun s => ?_
  have hbody := h.rel { s with scope := s.scope.pushFunction }
  have hframes := Scope.frames_pop (hbody.below_ne (List.cons_ne_nil _ _))
  have hsteady := Scope.steady_popFunction
    (body.run.run { s with scope := s.scope.pushFunction }).2.scope
  exact hbody.leave (hsteady.frames.trans (congrArg (List.map Frame.bare) hframes))
    (hsteady.next.trans (Scope.nextBinding_pop _))

theorem inFunction (declared : Option Ty) (h : Ends Passes body) :
    Ends Passes (inFunction declared body) := by
  refine .of_rel fun s => ?_
  have hbody := h.rel { s with functions := { ret := declared } :: s.functions }
  refine ⟨⟨⟨hbody.options, ?_, hbody.next, hbody.binding, hbody.below, hbody.keyed⟩,
    hbody.grows, hbody.keeps, hbody.installed⟩,
    fun hbelow => ?_⟩
  · have hlength := hbody.functions
    rw [List.length_cons] at hlength
    exact (List.length_tail).trans (Nat.sub_eq_of_eq_add hlength)
  · have hundeclared := hbody.inside hbelow
    exact ⟨hundeclared.adts, hundeclared.traits, hundeclared.evidence⟩

end EndsIn

variable {name : String} {ty : Ty} {span : Span}

/-! References and calls. -/

variable {args : List Core.Expr} {callee : Callee}

theorem stays_lookup? : Ends Stays (lookup? name) := by
  refine .modifyGet fun s => ?_
  have hsteady := Scope.steady_getValue s.scope name
  exact .of_eq rfl rfl rfl rfl rfl hsteady.frames (le_refl _) (le_of_eq hsteady.next.symm)

theorem stays_lookupValue : Ends Stays (lookupValue name span) := by
  refine .bind stays_lookup? fun _ => ?_
  split
  · exact .pure
  · exact .fail rfl

theorem stays_reference : Ends Stays (reference name span) := by
  refine .bind stays_lookupValue fun _ => ?_
  split
  · exact .bind ends_instantiate fun _ => .pure
  · exact .fail rfl

theorem stays_namedCallee : Ends Stays (namedCallee name span) := by
  refine .bind stays_lookupValue fun _ =>
    .bind ends_instantiate fun _ => ?_
  split <;> exact .pure

theorem stays_calleeOf {callee : Surface.Expr} {check : CheckM Core.Expr}
    (h : Ends Stays check) : Ends Stays (calleeOf callee check) := by
  unfold calleeOf
  split
  · exact stays_namedCallee
  · exact .bind h fun _ => .pure

theorem stays_dictionary {obligation : Obligation} : Ends Stays (dictionary span obligation) := by
  refine .bind ends_resolve fun _ => .bind .get fun _ => .bind (.ofExcept False.elim) fun _ => ?_
  split
  · exact .pure
  · exact .bind stays_lookup? fun _ => .bind .test fun _ => .pure

theorem stays_dictionaries {obligations : List Obligation} :
    Ends Stays (dictionaries span obligations) := by
  induction obligations with
  | nil => exact .pure
  | cons obligation rest ih =>
    exact .bind stays_dictionary fun _ => .bind ih fun _ => .pure

theorem stays_closeCall {shape : FuncShape} : Ends Stays (closeCall callee shape args span) :=
  .bind stays_dictionaries fun _ => .bind ends_resolve fun _ =>
    .bind (.ensure rfl) fun _ => .bind .get fun _ => ends_applied

/-! Values and types bound in the innermost frame. -/

theorem passes_top (s : Checker) (hbelow : scope.below = s.scope.below)
    (hbinding : s.scope.nextBinding ≤ scope.nextBinding) : Passes s { s with scope } :=
  ⟨⟨⟨rfl, rfl, le_refl _, hbinding, congrArg (List.map Frame.bare) hbelow, id⟩, .refl _, .refl _,
    rfl⟩, fun _ => ⟨rfl, rfl, fun _ _ _ => rfl⟩⟩

theorem passes_bindValue {value : Value} : Ends Passes (bindValue name value) :=
  .modify fun s => passes_top s rfl (le_refl _)

theorem passes_allows : Allows Passes name := fun s _ _ _ => passes_top s rfl (le_refl _)

theorem kept_allows : Allows Kept name := fun s value id hvalue =>
  (passes_allows s value id hvalue).toKept

theorem passes_bindType : Ends Passes (bindType name ty) :=
  .modify fun s => passes_top s rfl (le_refl _)

theorem passes_setValueType : Ends Passes (setValueType name ty) :=
  .modify fun s => passes_top s rfl (le_refl _)

theorem traces_top (first : Nat) (s : Checker) (hbelow : scope.below = s.scope.below)
    (hbinding : s.scope.nextBinding ≤ scope.nextBinding) : Traces first s { s with scope } :=
  ⟨(passes_top s hbelow hbinding).toKept, rfl, rfl, fun _ _ _ => rfl⟩

theorem passes_bindCaseFields {m : Match} {fields : Fields} {seen : List String}
    {bindings : List Surface.CaseBinding} : Ends Passes (bindCaseFields m fields seen bindings) :=
  ends_bindCaseFields fun _ _ => passes_allows

theorem passes_bindMethods {selfVar : TyVar} {index : Nat} {methods : List (String × Ty)} :
    Ends Passes (bindMethods bound selfVar index methods) :=
  ends_bindMethods fun _ _ s _ => passes_top s rfl (le_refl _)

/-! Functions. -/

/-- Evidence for a tracer from `first` on. -/
theorem traces_provide {id : Nat} (hid : first ≤ id) (span : Span) (name : String) (bound : Trait)
    (evidence : Evidence) :
    Ends (Traces first) (provide span (.tracer id name) bound evidence) := by
  refine ends_provide fun _ _ hprovide => ?_
  obtain ⟨con, hcon, _, htraits, hlookup⟩ := Registry.lookup_provide hprovide
  obtain rfl : Con.tracer id name = con := Option.some.inj hcon
  refine ⟨⟨⟨rfl, rfl, le_refl _, le_refl _, rfl, fun h => htraits.symm ▸ h⟩, .refl _,
    Registry.keeps_provide hprovide, rfl⟩, rfl, htraits, fun con' bound' hbelow => ?_⟩
  refine (hlookup con' bound').trans (if_neg ?_)
  rintro ⟨⟩
  exact absurd (hbelow id name rfl) (Nat.not_lt.mpr hid)

theorem traces_bindDictionaries {id : Nat} (hid : first ≤ id) (span : Span) (name : String)
    (bounds : List Trait) : Ends (Traces first) (bindDictionaries span name id bounds) :=
  ends_bindDictionaries (fun _ _ s _ _ _ => traces_top first s rfl (le_refl _))
    (traces_provide hid span name)

theorem traces_bindTracers (span : Span) (generics : List Generic)
    (hfirst : first ≤ s.unifier.next) :
    Traces first s ((bindTracers span generics).run.run s).2 := by
  induction generics generalizing s with
  | nil => exact refl_of (Traces first) s
  | cons g rest ih =>
    refine Ends.rel_bind (ends_freshId.rel s) fun id s1 h1 => ?_
    have hid : first ≤ id := h1.modifyGet.1 ▸ hfirst
    have hfirst1 := le_trans hfirst (ends_freshId.stays h1).next
    have htype : Ends (Traces first) (bindType g.name (.tracer id g.name)) :=
      .modify fun s => traces_top first s rfl (le_refl _)
    have hdictionaries := traces_bindDictionaries hid span g.name g.bounds
    refine Ends.rel_bind (htype.rel s1) fun _ s2 h2 => ?_
    have hfirst2 := le_trans hfirst1 (htype.yields h2).next
    refine Ends.rel_bind (hdictionaries.rel s2) fun _ _ h3 => ?_
    have hfirst3 := le_trans hfirst2 (hdictionaries.yields h3).next
    exact Ends.rel_bind (ih hfirst3) fun _ s4 _ => refl_of (Traces first) s4

theorem passes_bindTracers {generics : List Generic} : Ends Passes (bindTracers span generics) :=
  .of_rel fun _ => (traces_bindTracers span generics (le_refl _)).passes

/-- A return is recorded in the innermost function, and there has to be one. -/
theorem stays_recordReturn : Ends Stays (recordReturn ty span) := by
  refine .of_rel fun s => ?_
  rw [recordReturn, requireFunction, bind_assoc, Runs.run_get_bind]
  refine Ends.rel_bind ((EndsIn.ensure rfl).rel s) fun _ _ h1 => ?_
  obtain ⟨hopen, rfl⟩ := h1.ensure
  refine Ends.rel_bind (ends_currentReturn.rel s) fun _ s2 h2 => ?_
  refine Ends.rel_bind (ends_join.rel s2) fun _ s3 h3 => ?_
  refine Ends.rel_bind (ends_resolve.rel s3) fun _ s4 h4 => ?_
  have hlength : s4.functions.length = s.functions.length :=
    (ends_resolve.stays h4).functions.trans
      ((ends_join.stays h3).functions.trans (ends_currentReturn.stays h2).functions)
  have hpos : 0 < s4.functions.length := hlength ▸ List.length_pos_iff.mpr hopen
  refine ⟨⟨⟨⟨rfl, ?_, le_refl _, le_refl _, rfl, id⟩, .refl _, .refl _, rfl⟩, rfl, rfl,
    fun _ _ _ => rfl⟩, rfl⟩
  exact (congrArg (· + 1) List.length_tail).trans (Nat.sub_add_cancel hpos)

theorem stays_returnVoid : Ends Stays (returnVoid span) := by
  refine .bind .get fun _ => ?_
  split
  · exact .pure
  · exact .isolated stays_recordReturn

theorem stays_closeBody {stmts : List Core.Stmt} {trailing : Bool} :
    Ends Stays (closeBody span stmts trailing) := by
  unfold closeBody
  split
  · exact .bind ends_currentReturn fun _ => .pure
  · exact .bind stays_returnVoid fun _ => .bind ends_currentReturn fun _ => .pure

/-! Declarations. -/

variable {fields : Fields} {decls : List Surface.FieldDecl} {generics : List TyVar}
variable {what : String} {tags : Assoc String Fields} {sigs : List Surface.MethodSig}
  {methods : Assoc String Ty}

/-- What is only done in the outermost frame may declare something. -/
theorem passes_topLevel {f : Unit → CheckM α} (h : ∀ u, Ends Kept (f u)) :
    Ends Passes (requireTopLevel what span >>= f) := by
  refine .of_rel fun s => ?_
  rw [requireTopLevel, bind_assoc, Runs.run_get_bind]
  by_cases hroot : s.scope.isRoot = true
  · rw [ensure, if_pos hroot]
    refine ⟨(h ()).rel s, fun hbelow => absurd (List.isEmpty_iff.mp hroot) hbelow⟩
  · rw [ensure, if_neg hroot]
    exact refl_of Passes s

theorem nodup_addFields (hfields : fields.keys.Nodup) :
    Results (·.keys.Nodup) (addFields fields decls) := by
  induction decls generalizing fields with
  | nil => exact .pure hfields
  | cons decl rest ih =>
    exact .after fun _ => .after fun _ => ih (Assoc.nodup_keys_insert _ _ _ hfields)

theorem nodup_resolveFields (h : Yields (resolveFields generics decls) s fields s') :
    fields.keys.Nodup := by
  obtain ⟨s1, hbody, _⟩ := h.inScope
  obtain ⟨_, s2, _, hbody⟩ := hbody.bind
  exact hbody.results (nodup_addFields List.nodup_nil)

theorem keyed_addTags {decls : List Surface.TagDecl} (htags : (AdtKind.enum tags).Keyed) :
    Results (fun out => (AdtKind.enum out).Keyed) (addTags generics tags decls) := by
  induction decls generalizing tags with
  | nil => exact .pure htags
  | cons decl rest ih =>
    refine .after fun _ => .bind (fun _ _ _ => nodup_resolveFields) fun fields hfields => ih ?_
    refine ⟨Assoc.nodup_keys_insert _ _ _ htags.1, fun fields' hmem => ?_⟩
    rcases Assoc.mem_values_insert hmem with rfl | hmem
    · exact hfields
    · exact htags.2 fields' hmem

theorem nodup_addMethods (hmethods : methods.keys.Nodup) :
    Results (·.keys.Nodup) (addMethods bound selfVar methods sigs) := by
  induction sigs generalizing methods with
  | nil => exact .pure hmethods
  | cons sig rest ih =>
    exact .after fun _ => .after fun _ => .after fun _ =>
      ih (Assoc.nodup_keys_insert _ _ _ hmethods)

/-- Completing a declaration changes none that is complete. -/
theorem kept_setAdtKind {kind : AdtKind} (hkind : kind.Keyed)
    (hfind : Assoc.find? s.adts name = some adt) (hpending : adt.isPending = true) :
    Kept s ((setAdtKind name kind).run.run s).2 := by
  change Kept s { s with adts := Assoc.modify s.adts name _ }
  rw [Assoc.modify, hfind]
  exact ⟨⟨rfl, rfl, le_refl _, le_refl _, rfl, fun h => h.insert_adt name hkind⟩,
    AdtTable.Grows.insert_pending _ hfind hpending rfl, .refl _, rfl⟩

theorem kept_define {x : Adt → CheckM AdtKind} (name : Name) (h : ∀ adt, Ends Stays (x adt))
    (hkeyed : ∀ {adt s kind s'}, Yields (x adt) s kind s' → kind.Keyed) : Ends Kept (do
      let adt ← pendingAdt name
      let kind ← x adt
      setAdtKind name.text kind) := by
  refine .of_rel fun s => ?_
  refine Ends.rel_bind (ends_pendingAdt.rel s) fun adt _ h1 => ?_
  obtain ⟨rfl, hfind, hpending⟩ := h1.pendingAdt
  refine Ends.rel_bind ((h adt).rel s).toKept fun _ _ h2 => ?_
  have hadts := ((h adt).yields h2).adts
  exact kept_setAdtKind (hkeyed h2) (hadts ▸ hfind) hpending

theorem kept_defineStruct {name : Name} {fields : List Surface.FieldDecl} :
    Ends Kept (defineStruct name fields) := by
  have h := kept_define name (x := fun adt => do
    return .struct (← resolveFields adt.generics fields))
      (fun _ => .bind ends_resolveFields fun _ => .pure) fun hrun => by
        obtain ⟨fields, s1, h1, hrun⟩ := hrun.bind
        obtain ⟨rfl, rfl⟩ := hrun.pure
        exact nodup_resolveFields h1
  simpa only [defineStruct, bind_assoc, pure_bind] using h

theorem kept_defineEnum {name : Name} {tags : List Surface.TagDecl} :
    Ends Kept (defineEnum name tags) := by
  have h := kept_define name (x := fun adt => do
    return .enum (← addTags adt.generics ∅ tags))
      (fun _ => .bind ends_addTags fun _ => .pure) fun hrun => by
        obtain ⟨tags, s1, h1, hrun⟩ := hrun.bind
        obtain ⟨rfl, rfl⟩ := hrun.pure
        exact h1.results
          (keyed_addTags ⟨List.nodup_nil, fun _ hmem => absurd hmem List.not_mem_nil⟩)
  simpa only [defineEnum, bind_assoc, pure_bind] using h

theorem kept_declareTrait {name : Name} {methods : List Surface.MethodSig} :
    Ends Kept (declareTrait name methods) := by
  refine .bind .get fun _ => .bind (.ensure rfl) fun _ =>
    .bind ends_fresh fun selfVar => .of_rel fun s => ?_
  refine Ends.rel_bind ((ends_traitMethods _ _ _).rel s) fun methods s1 h1 => ?_
  rw [Runs.run_get_bind]
  cases hdeclare : s1.registry.declare ⟨name.text, selfVar, methods⟩ with
  | error failure => exact Kept.refl s1
  | ok registry =>
    obtain ⟨s2, hbody, _⟩ := h1.inScope
    obtain ⟨_, s3, _, hbody⟩ := hbody.bind
    have hnodup := hbody.results (nodup_addMethods List.nodup_nil)
    have htraits := congrArg Registry.traits (Registry.eq_of_declare hdeclare).2
    have hset : Kept s1 { s1 with registry } := by
      refine ⟨⟨rfl, rfl, le_refl _, le_refl _, rfl, fun h => ?_⟩, .refl _,
        Registry.keeps_declare hdeclare, rfl⟩
      exact htraits ▸ h.insert_trait name.text hnodup
    exact hset.trans (passes_bindMethods.kept.rel _)

theorem kept_provide : Ends Kept (provide span ty bound evidence) := by
  refine ends_provide fun _ _ hprovide => ?_
  obtain ⟨_, _, _, htraits, _⟩ := Registry.lookup_provide hprovide
  exact ⟨⟨rfl, rfl, le_refl _, le_refl _, rfl, fun h => htraits.symm ▸ h⟩, .refl _,
    Registry.keeps_provide hprovide, rfl⟩

theorem kept_openImpl {bound : Name} {written : Surface.TypeExpr} :
    Ends Kept (openImpl bound written span) :=
  ends_openImpl (fun _ _ => kept_allows) fun _ _ _ => kept_provide

/-! The walk. -/

open Surface (Expr FieldInit Branch Case Block Stmt FuncDecl)

mutual

theorem stays_checkExpr {room : Nat} {hint : Option Ty} {e : Expr} :
    Ends Stays (checkExpr room hint e) := by
  cases room with
  | zero =>
    rw [checkExpr]
    exact .bind .get fun _ => .fail rfl
  | succ room =>
    match e with
    | .int value _ | .float bits _ | .bool value _ | .string text _ =>
      rw [checkExpr]
      exact .pure
    | .ident name span =>
      rw [checkExpr]
      exact stays_reference
    | .tuple elems _ =>
      rw [checkExpr]
      exact .bind ends_tupleHints fun _ =>
        .bind stays_checkElems fun _ => .pure
    | .array elems _ =>
      rw [checkExpr]
      exact .bind ends_arrayHint fun _ => .bind ends_fresh fun _ => .bind stays_checkItems fun _ =>
        .bind ends_resolve fun _ => .pure
    | .construct ty tag inits span =>
      rw [checkExpr]
      refine .bind ends_lookupAdt fun _ => .bind ends_instantiateAdt fun _ =>
        .bind ends_constructedFields fun r => .bind stays_checkInits fun _ => ?_
      split
      · exact .fail rfl
      · exact .bind ends_resolve fun _ => .pure
    | .field target field span =>
      rw [checkExpr]
      exact .bind stays_checkExpr fun _ => ends_select
    | .call callee args span =>
      rw [checkExpr]
      exact .bind (stays_calleeOf stays_checkExpr) fun r => .bind ends_openCall fun shape =>
        .bind (.ensure rfl) fun _ => .bind stays_checkArgs fun _ => stays_closeCall
    | .binary op lhs rhs span =>
      rw [checkExpr]
      refine .bind stays_namedCallee fun r => .bind ends_openCall fun shape => ?_
      split
      · exact .bind (ends_expecting fun hint => stays_checkExpr) fun _ =>
          .bind (ends_expecting fun hint => stays_checkExpr) fun _ => stays_closeCall
      · exact .fail rfl
    | .unary op operand span =>
      rw [checkExpr]
      refine .bind stays_namedCallee fun r => .bind ends_openCall fun shape => ?_
      split
      · exact .bind (ends_expecting fun _ => stays_checkExpr) fun _ => stays_closeCall
      · exact .fail rfl
    | .closure params body span =>
      rw [checkExpr]
      refine .bind ends_openClosure fun _ => .bind ends_closureParams
        fun _ => .bind ends_resolve fun _ => .bind (.inFunctionFrame ?_) fun r =>
          .bind ends_unify fun _ => .bind ends_resolve fun _ => .pure
      exact .bind (ends_bindClosureParams fun _ _ => passes_allows) fun _ =>
        .bind passes_checkBody fun _ => .pure
    | .cond branches otherwise span =>
      rw [checkExpr]
      exact .bind stays_checkBranches fun r => .bind stays_checkElse fun r' =>
        .bind ends_join fun _ => .bind ends_resolve fun _ => .pure
    | .cases target cases span =>
      rw [checkExpr]
      refine .bind stays_checkExpr fun _ => .bind ends_resolve fun _ => .bind ends_enumOf fun _ =>
        .bind ends_freshBinding fun _ => .bind stays_checkCases fun _ => ?_
      dsimp only
      split
      · exact .fail rfl
      · exact .bind ends_resolve fun _ => .pure
    | .block body _ =>
      rw [checkExpr]
      exact .bind stays_checkBlock fun _ => .pure

theorem stays_checkElems {room : Nat} {hints : List Ty} {es : List Expr} :
    Ends Stays (checkElems room hints es) := by
  match es with
  | [] =>
    rw [checkElems]
    exact .pure
  | e :: rest =>
    rw [checkElems]
    exact .bind stays_checkExpr fun _ =>
      .bind stays_checkElems fun _ => .pure

theorem stays_checkItems {room : Nat} {hint : Option Ty} {ty : Ty} {es : List Expr} :
    Ends Stays (checkItems room hint ty es) := by
  match es with
  | [] =>
    rw [checkItems]
    exact .pure
  | e :: rest =>
    rw [checkItems]
    exact .bind ends_resolve fun _ => .bind stays_checkExpr fun _ =>
      .bind ends_unify fun _ =>
        .bind stays_checkItems fun _ => .pure

theorem stays_checkArgs {room : Nat} {params : List Ty} {es : List Expr} :
    Ends Stays (checkArgs room params es) := by
  match es with
  | [] =>
    rw [checkArgs]
    exact .pure
  | e :: rest =>
    cases params with
    | nil =>
      rw [checkArgs]
      exact .pure
    | cons param params =>
      rw [checkArgs]
      exact .bind (ends_expecting fun _ => stays_checkExpr) fun _ =>
        .bind stays_checkArgs fun _ => .pure

theorem stays_checkInits {room : Nat} {inst : Instance} {fields : Fields}
    {supplied : Assoc String Core.Expr} {inits : List FieldInit} :
    Ends Stays (checkInits room inst fields supplied inits) := by
  match inits with
  | [] =>
    rw [checkInits]
    exact .pure
  | ⟨name, e⟩ :: rest =>
    rw [checkInits]
    split
    · exact .bind ends_resolve fun _ => .fail rfl
    · exact .bind (.ensure rfl) fun _ => .bind (ends_expecting fun _ => stays_checkExpr) fun _ =>
        stays_checkInits

theorem stays_checkBranches {room : Nat} {hint before : Option Ty} {branches : List Branch} :
    Ends Stays (checkBranches room hint before branches) := by
  match branches with
  | [] =>
    rw [checkBranches]
    exact .pure
  | ⟨cond, body⟩ :: rest =>
    rw [checkBranches]
    exact .bind (ends_expecting fun _ => stays_checkExpr) fun _ =>
      .bind stays_checkBlock fun _ => .bind ends_join fun _ =>
        .bind stays_checkBranches fun _ => .pure

theorem stays_checkElse {room : Nat} {hint : Option Ty} {span : Span} {otherwise : Option Block} :
    Ends Stays (checkElse room hint span otherwise) := by
  match otherwise with
  | none =>
    rw [checkElse]
    exact .pure
  | some block =>
    rw [checkElse]
    exact .bind stays_checkBlock fun _ => .pure

theorem stays_checkCases {room : Nat} {hint : Option Ty} {m : Match} {before : Option Ty}
    {done : Assoc String Core.Block} {cases : List Case} :
    Ends Stays (checkCases room hint m before done cases) := by
  match cases with
  | [] =>
    rw [checkCases]
    exact .pure
  | ⟨tag, bindings, ⟨stmts, bodySpan⟩, span⟩ :: rest =>
    rw [checkCases]
    split
    · exact .fail rfl
    · refine .bind (.ensure rfl) fun _ => .bind (.inScope ?_) fun _ =>
        .bind ends_join fun _ => stays_checkCases
      exact .bind passes_bindCaseFields fun _ =>
        .bind passes_checkStmts fun _ => .pure

theorem stays_checkBlock {room : Nat} {hint : Option Ty} {block : Block} :
    Ends Stays (checkBlock room hint block) := by
  match block with
  | ⟨stmts, _⟩ =>
    rw [checkBlock]
    exact .inScope passes_checkStmts

theorem passes_checkStmts {room : Nat} {hint : Option Ty} {stmts : List Stmt} :
    Ends Passes (checkStmts room hint stmts) := by
  match stmts with
  | [] =>
    rw [checkStmts]
    exact .pure
  | stmt :: rest =>
    refine checkStmts_cons (P := fun x => Ends Passes (x hint)) ?_ ?_
    · intro e span hstmt
      -- the expression is a part of its statement, so the induction covers it
      match stmt, hstmt with
      | .eval e _, rfl => exact .bind stays_checkExpr.lift fun _ => .pure
    · exact .bind (passes_checkStmt room stmt) fun _ =>
        .bind passes_checkStmts fun _ => .pure

theorem passes_checkStmt (room : Nat) (stmt : Stmt) : Ends Passes (checkStmt room stmt) := by
  match stmt with
  | .bind pattern written value _ =>
    rw [checkStmt]
    exact .bind ends_typeFor? fun _ =>
      .bind stays_checkExpr.lift fun _ => .bind ends_join
        fun _ => .bind ends_resolve fun _ => ends_bindPattern fun _ _ => passes_allows
  | .func decl =>
    rw [checkStmt]
    exact .bind ends_declareSignature fun sig => .bind ends_freshBinding fun _ =>
      .bind passes_bindValue fun _ => .bind (stays_checkFunc room sig decl).lift fun _ =>
      .bind passes_setValueType fun _ => .pure
  | .struct name generics fields span =>
    rw [checkStmt]
    exact passes_topLevel fun _ => .bind kept_defineStruct fun _ => .pure
  | .enum name generics tags span =>
    rw [checkStmt]
    exact passes_topLevel fun _ => .bind kept_defineEnum fun _ => .pure
  | .trait name methods span =>
    rw [checkStmt]
    exact passes_topLevel fun _ => .bind kept_declareTrait fun _ => .pure
  | .impl bound ty methods span =>
    rw [checkStmt]
    refine passes_topLevel fun _ => .bind kept_openImpl fun _ =>
      .bind stays_checkMethods.lift fun _ => ?_
    split
    · exact .fail rfl
    · exact .pure
  | .ret none span =>
    rw [checkStmt]
    exact .bind stays_recordReturn.lift fun _ => .pure
  | .ret (some e) span =>
    rw [checkStmt]
    exact .bind ends_requireFunction fun _ => .bind ends_currentReturn
      fun hint => .bind stays_checkExpr.lift fun _ =>
        .bind stays_recordReturn.lift fun _ => .pure
  | .whileDo cond body _ =>
    rw [checkStmt]
    exact .bind (ends_expecting fun _ => stays_checkExpr.lift) fun _ =>
      .bind stays_checkBlock.lift fun _ => .pure
  | .forEach name iterable body span =>
    rw [checkStmt]
    refine .bind stays_checkExpr.lift fun _ =>
      .bind ends_resolve fun _ => .bind ends_elementOf fun _ =>
        .bind (EndsIn.inScope ?_).lift fun _ => .pure
    exact .bind (ends_bindLocal passes_allows) fun _ =>
      .bind stays_checkBlock.lift fun _ => .pure
  | .eval e _ =>
    rw [checkStmt]
    exact .bind stays_checkExpr.lift fun _ => .pure

theorem stays_checkFunc (room : Nat) (sig : Signature) (decl : FuncDecl) :
    Ends Stays (checkFunc room sig decl) := by
  match decl with
  | ⟨name, _, params, ret, body, span⟩ =>
    rw [checkFunc]
    refine .bind (.inFunctionFrame ?_) fun _ => .pure
    exact .bind passes_bindTracers fun _ => .bind (ends_bindParams fun _ _ => passes_allows) fun _ =>
      .bind ends_typeFor? fun _ =>
        .bind passes_checkBody fun _ => .pure

theorem stays_checkMethods {room : Nat} {impl : Impl} {done : Assoc String Core.Expr}
    {methods : List FuncDecl} : Ends Stays (checkMethods room impl done methods) := by
  match methods with
  | [] =>
    rw [checkMethods]
    exact .pure
  | method :: rest =>
    rw [checkMethods]
    split
    · exact .fail rfl
    · exact .bind (.ensure rfl) fun _ => .bind ends_methodType fun _ =>
        .bind ends_declareSignature fun sig => .bind (stays_checkFunc room sig method) fun _ =>
        .bind (.isolated (.bind ends_unify fun _ => ends_resolve)) fun _ => stays_checkMethods

theorem passes_checkBody {room : Nat} {declared : Option Ty} {body : Block} :
    Ends Passes (checkBody room declared body) := by
  match body with
  | ⟨stmts, span⟩ =>
    rw [checkBody]
    exact .inFunction declared (.bind passes_checkBodyStmts fun _ =>
      stays_closeBody.lift)

theorem passes_checkBodyStmts {room : Nat} {stmts : List Stmt} :
    Ends Passes (checkBodyStmts room stmts) := by
  match stmts with
  | [] =>
    rw [checkBodyStmts]
    exact .pure
  | stmt :: rest =>
    refine checkBodyStmts_cons ?_ ?_
    · intro e span hstmt
      match stmt, hstmt with
      | .eval e _, rfl =>
        refine .bind (.inUnit ?_) fun _ => .pure
        exact .bind ends_currentReturn fun _ => .bind stays_checkExpr.lift fun _ =>
          .bind stays_recordReturn.lift fun _ => ends_returning
    · exact .bind (.inUnit (passes_checkStmt room stmt)) fun _ =>
        .bind passes_checkBodyStmts fun _ => .pure

end

end Checker

end TraitCheck
