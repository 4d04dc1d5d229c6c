import TraitCheck.Proofs.ShapedWalk

/-!
Every type is shaped, in every state of a session and in everything that comes
out of it. The built-in environment is well shaped, and every check leads from one
well-shaped state to another, also where it fails. So what the checker looks for
at an index is there: the result and the parameters of a function type, the
element of an array type, the slot of a field, a case or a method, and the frame
that binds a name.
-/

namespace TraitCheck

/-- How many parameters a type with the constructor has. -/
def Con.takes (arity : String → Option Nat) : Con → Option Nat
  | .named name => arity name
  | .tuple n => some n
  | .func n => some (n + 1)
  | .array => some 1
  | .tracer _ _ => some 0

/-- The type has what its constructor asks for, and nothing else. -/
structure Ty.Fits (arity : String → Option Nat) (t : Ty) : Prop where
  params : ∀ con, t.con? = some con → con.takes arity = some t.params.length
  obligations : t.obligations ≠ [] → ∃ n, t.con? = some (.func n)
  size : t.size ≠ 0 → t.con? = some .array

namespace Ty.Shaped

variable {arity : String → Option Nat} {next : Nat} {t : Ty}

theorem fits (h : t.Shaped arity next) : t.Fits arity := by
  cases t with
  | var v => exact ⟨by rintro _ ⟨⟩, fun h => absurd rfl h, fun h => absurd rfl h⟩
  | app head args =>
    obtain ⟨con, size, bounds⟩ := head
    have hadmits := Formed.admits h
    have hparams : (Ty.app ⟨con, size, bounds⟩ args).params.length = args.length - bounds.length := by
      rw [Ty.params, List.length_take]
      exact min_eq_left (Nat.sub_le _ _)
    have hobligations : bounds = [] → (Ty.app ⟨con, size, bounds⟩ args).obligations = [] := by
      rintro rfl
      rw [Ty.obligations, List.zipWith_nil_right]
    refine ⟨?_, fun hne => ?_, fun hne => ?_⟩
    · rintro _ ⟨⟩
      rw [hparams]
      cases con with
      | named name =>
        obtain rfl : bounds = [] := hadmits.2.1
        exact hadmits.2.2
      | tuple n =>
        obtain rfl : bounds = [] := hadmits.2.1
        exact congrArg some hadmits.2.2.symm
      | func n =>
        rw [hadmits.2]
        exact congrArg some (Nat.add_sub_cancel (n + 1) bounds.length).symm
      | array =>
        obtain rfl : bounds = [] := hadmits.1
        exact congrArg some hadmits.2.symm
      | tracer id name =>
        rw [hadmits.2.2.1]
        exact congrArg some (Nat.zero_sub _).symm
    · cases con with
      | func n => exact ⟨n, rfl⟩
      | array => exact absurd (hobligations hadmits.1) hne
      | named | tuple | tracer => exact absurd (hobligations hadmits.2.1) hne
    · cases con with
      | array => rfl
      | named | tuple | func | tracer => exact absurd hadmits.1 hne

/-- A function type can be taken apart. -/
theorem asFunc (h : t.Shaped arity next) {n : Nat} (hcon : t.con? = some (.func n)) :
    ∃ shape, t.asFunc? = some shape ∧ shape.params.length = n := by
  have hlength := Option.some.inj (h.fits.params _ hcon)
  cases hparams : t.params with
  | nil =>
    rw [hparams] at hlength
    cases hlength
  | cons ret ps =>
    rw [hparams, List.length_cons] at hlength
    refine ⟨⟨t.obligations, ps, ret⟩, ?_, Nat.succ.inj hlength.symm⟩
    rw [asFunc?, hcon, hparams]

/-- An array type has its element first. -/
theorem element (h : t.Shaped arity next) (hcon : t.con? = some .array) :
    ∃ elem, t.params = [elem] := by
  obtain ⟨elem, hparams, _⟩ := Formed.eq_array h hcon
  exact ⟨elem, hparams⟩

end Ty.Shaped

namespace Checker

open Surface (Program)

variable {s s' : Checker} {t : Ty}

/-! What a state holds. -/

/-- The type is somewhere in the state. -/
inductive Stores (s : Checker) : Ty → Prop
  | bound {id : VarId} {t : Ty} : s.unifier.subst.find? id = some t → Stores s t
  | value {frame : Frame} {name : String} {value : Value} {t : Ty} : frame ∈ s.scope.frames →
      frame.values.find? name = some value → t ∈ value.types → Stores s t
  | type {frame : Frame} {name : String} {t : Ty} : frame ∈ s.scope.frames →
      frame.types.find? name = some t → Stores s t
  | upvalue {frame : Frame} {ups : Assoc BindingId Upvalue} {up : Upvalue} :
      frame ∈ s.scope.frames → frame.upvalues = some ups → up ∈ ups.values → Stores s up.ty
  | result {f : Returning} {t : Ty} : f ∈ s.functions → f.ret = some t → Stores s t
  | adt {name : String} {adt : Adt} {t : Ty} : Assoc.find? s.adts name = some adt →
      t ∈ adt.types → Stores s t
  | trait {name : Trait} {decl : TraitDecl} {t : Ty} : s.registry.trait? name = some decl →
      t ∈ decl.types → Stores s t

theorem Fitting.stores (hs : Fitting s) (h : Stores s t) : s.extent.Shapes t := by
  cases h with
  | bound hfind => exact hs.unifier _ t hfind
  | value hframe hfind hmem =>
    obtain ⟨depth, _, hevery⟩ := Frame.All.mem hs.scope hframe
    exact (hevery.values _ _ hfind).1 t hmem
  | type hframe hfind =>
    obtain ⟨depth, _, hevery⟩ := Frame.All.mem hs.scope hframe
    exact (hevery.types _ t hfind).shapes
  | upvalue hframe hups hmem =>
    obtain ⟨depth, _, hevery⟩ := Frame.All.mem hs.scope hframe
    exact (hevery.upvalues _ hups _ hmem).1.1
  | result hf hret => exact Extent.covers_toList.mp (hs.functions _ hf) t hret
  | adt hfind hmem => exact (hs.adts _ _ hfind).2 t hmem
  | trait hfind hmem => exact (hs.traits _ _ hfind).2 t hmem

/-- What is looked for at an index is there: the slot of a field, a case or a
method, and the frame that binds a name. -/
structure InRange (s : Checker) : Prop where
  fields : ∀ name adt tag fields, Assoc.find? s.adts name = some adt →
    adt.fieldsAt tag = some fields → ∀ field index ty, fields.locate? field = some (index, ty) →
      fields.values[index]? = some ty
  tags : ∀ name adt tags, Assoc.find? s.adts name = some adt → adt.tags? = some tags →
    ∀ tag index fields, tags.locate? tag = some (index, fields) → tags.values[index]? = some fields
  methods : ∀ frame ∈ s.scope.frames, ∀ name value bound index,
    frame.values.find? name = some value → value.kind = .method bound index →
      ∃ decl, s.registry.trait? bound = some decl ∧ index < decl.methods.size
  lookup : ∀ name value depth, Frame.lookup name s.scope.frames = some (value, depth) →
    ∃ frame, s.scope.frames.reverse[depth]? = some frame ∧ frame.values.find? name = some value
  upvalues : ∀ frame ∈ s.scope.frames, ∀ ups, frame.upvalues = some ups →
    ∀ up ∈ ups.values, up.depth < s.scope.frames.length

theorem getElem?_of_lookup {name : String} {value : Value} {depth : Nat} {frames : List Frame}
    (h : Frame.lookup name frames = some (value, depth)) :
    ∃ frame, frames.reverse[depth]? = some frame ∧ frame.values.find? name = some value := by
  induction frames with
  | nil => cases h
  | cons frame below ih =>
    rw [Frame.lookup] at h
    rw [List.reverse_cons]
    split at h
    · rename_i found hfind
      cases h
      refine ⟨frame, ?_, hfind⟩
      rw [List.getElem?_append_right (le_of_eq List.length_reverse), List.length_reverse,
        Nat.sub_self]
      rfl
    · obtain ⟨frame', hget, hfind⟩ := ih h
      refine ⟨frame', ?_, hfind⟩
      rw [List.getElem?_append_left (List.getElem?_eq_some_iff.mp hget).1]
      exact hget

theorem Fitting.inRange (hs : Fitting s) : InRange s where
  fields := fun _ _ _ _ _ _ _ _ _ hlocate => (Assoc.getElem?_of_locate? hlocate).2
  tags := fun _ _ _ _ _ _ _ _ hlocate => (Assoc.getElem?_of_locate? hlocate).2
  methods := by
    intro frame hframe name value bound index hfind hkind
    obtain ⟨depth, _, hevery⟩ := Frame.All.mem hs.scope hframe
    have hknows := (hevery.values name value hfind).2
    rw [hkind] at hknows
    obtain ⟨count, hslots, hindex⟩ := hknows
    obtain ⟨decl, hdecl, rfl⟩ := Option.map_eq_some_iff.mp hslots
    exact ⟨decl, hdecl, hindex⟩
  lookup := fun _ _ _ => getElem?_of_lookup
  upvalues := by
    intro frame hframe ups hups up hup
    obtain ⟨depth, hlt, hevery⟩ := Frame.All.mem hs.scope hframe
    exact lt_trans (hevery.upvalues ups hups up hup).2 hlt

/-! The built-in environment. -/

theorem Basic.fitting (h : Basic s) : Fitting s where
  unifier := by
    intro id t ht
    rw [h.subst] at ht
    cases ht
  scope := by
    rw [Scope.Every, Scope.frames, h.below]
    refine ⟨⟨fun name value hfind => ?_, fun name ty hfind => ?_, fun _ hups => ?_⟩, trivial⟩
    · obtain ⟨⟨op, hkind, hvalue⟩, hlt⟩ := h.values name value hfind
      refine ⟨Extent.covers_cons.mpr ⟨?_, ?_⟩, ?_⟩
      · exact (hvalue.formed h.arity_builtin fun _ _ _ => trivial).mono hlt
      · exact Extent.covers_map.mpr fun v hv => Ty.shaped_var (hlt v hv)
      · rw [hkind]
        trivial
    · obtain ⟨n, hn, rfl⟩ := h.types name ty hfind
      exact Ty.formed_named (h.arity_builtin n hn) fun _ ht => absurd ht List.not_mem_nil
    · rw [h.upvalues] at hups
      cases hups
  functions := by
    rw [h.functions]
    exact fun _ hf => absurd hf List.not_mem_nil
  adts := by
    rw [h.adts]
    rintro _ _ ⟨⟩
  traits := by
    intro name decl hdecl
    obtain ⟨hname, _, _, hmethods⟩ := h.traits name decl hdecl
    refine ⟨hname, Extent.covers_cons.mpr ⟨Ty.shaped_var (h.drawn name decl hdecl), ?_⟩⟩
    rw [hmethods]
    exact Extent.covers_nil.mpr trivial
  evidence := by
    intro con bound evidence hlookup
    obtain ⟨hdeclared, n, hn, rfl, rfl⟩ := h.evidence con bound evidence hlookup
    exact ⟨isSome_slots.trans hdeclared, by rintro _ _ ⟨⟩, by rintro _ _ ⟨⟩⟩
  apart := by
    refine ⟨?_, fun name decl hdecl => (h.traits name decl hdecl).2.1⟩
    rw [h.adts]
    rintro _ _ ⟨⟩

theorem wellShaped_install (options : Options) : WellShaped (Prelude.install (new options)) where
  toFitting := (Basic.new options).install.fitting
  installed := rfl
  builtins := contains_install options
  declared := by
    rw [(Basic.new options).install.adts]
    rintro _ ⟨⟩

/-- The checker is new, with the built-in environment to come, or well shaped. -/
def Ready (s : Checker) : Prop :=
  s.scope.below = [] ∧ (WellShaped s ∨ ∃ options, options.prelude = true ∧ s = new options)

theorem Ready.fitting (h : Ready s) : Fitting s := by
  rcases h.2 with hs | ⟨options, _, rfl⟩
  · exact hs.toFitting
  · exact (Basic.new options).fitting

theorem Ready.preparePrelude (h : Ready s) : Ended s preparePrelude fun _ _ => True := by
  refine ⟨?_, fun _ _ => trivial, by rintro _ ⟨⟩⟩
  change Reaches s (if _ then _ else _)
  rcases h.2 with hs | ⟨options, hprelude, rfl⟩
  · rw [hs.installed, Bool.not_true, Bool.and_false]
    exact hs.stay
  · have hinstall : (new options).options.prelude && !(new options).preludeInstalled := by
      rw [Bool.and_eq_true]
      exact ⟨hprelude, rfl⟩
    rw [if_pos hinstall]
    have hs := wellShaped_install options
    refine ⟨hs, ⟨fun name count hname => ?_, Nat.zero_le _, Nat.zero_le _, by rintro _ _ ⟨⟩⟩⟩
    change (if name ∈ Prelude.types then some 0 else none) = some count at hname
    split at hname
    · rename_i hbuiltin
      cases hname
      exact hs.arity_builtin hbuiltin
    · cases hname

/-! Whole programs. -/

theorem leaves_declareAdts (hroot : s.scope.below = []) {program : Program} :
    Leaves s (declareAdts program) fun _ _ => True := by
  induction program generalizing s with
  | nil => exact .pure trivial
  | cons stmt rest ih =>
    have hadt : ∀ name generics, Leaves s (do
        declareAdt name generics
        declareAdts rest) fun _ _ => True := fun name generics =>
      .bind (leaves_declareAdt hroot) fun _ _ hrun _ _ =>
        ih (((balanced_declareAdt name generics).yields hrun).isRoot hroot)
    cases stmt with
    | struct name generics fields span => exact hadt name generics
    | enum name generics tags span => exact hadt name generics
    | _ => exact ih hroot

theorem leaves_checkUnits {room : Nat} {program : Program} :
    Leaves s (checkUnits room program) fun e stmts => e.Covers (Core.typesStmts stmts) := by
  induction program generalizing s with
  | nil => exact .pure (Extent.covers_nil.mpr trivial)
  | cons stmt rest ih =>
    refine .bind (leaves_inUnit fun s1 h1 => leaves_checkStmt) ?_
    intro out s1 _ h1 hout
    refine .bind ih fun _ _ _ h2 hmore => .pure ?_
    exact Extent.covers_typesStmts_append.mpr ⟨h2.covers hout, hmore⟩

theorem Ready.checkProgram (h : Ready s) (program : Program) :
    Ended s (checkProgram program) fun e stmts => e.Covers (Core.typesStmts stmts) := by
  refine .bind h.preparePrelude fun _ _ hrun _ _ => ?_
  have hroot := (balanced_preparePrelude.yields hrun).isRoot h.1
  refine .bind (leaves_declareAdts hroot) fun _ _ _ _ _ => ?_
  exact .get leaves_checkUnits

/-- The types in a result, or in the failure in its place. -/
def emitted {α : Type} (types : α → List Ty) : Except TypeError α → List Ty
  | .ok a => types a
  | .error e => e.failure.types

theorem Ended.emits {α : Type} {x : CheckM α} {Q : Extent → α → Prop} {types : α → List Ty}
    (h : Ended s x Q) (hQ : ∀ e a, Q e a → e.Covers (types a)) :
    (x.run.run s).2.extent.Covers (emitted types (x.run.run s).1) := by
  cases hresult : (x.run.run s).1 with
  | ok a => exact hQ _ a (h.ok a hresult)
  | error e => exact h.error e hresult

theorem Ready.check (h : Ready s) (program : Program) : Ready (s.check program).2 ∧
    s.extent.Within (s.check program).2.extent ∧
      (s.check program).2.extent.Covers (emitted Core.typesStmts (s.check program).1) := by
  have hended := h.checkProgram program
  exact ⟨⟨(balanced_check s program).isRoot h.1, .inl hended.reaches.shaped⟩,
    hended.reaches.within, hended.emits fun _ _ h => h⟩

theorem Ready.session (h : Ready s) (programs : List Program) : Ready (s.session programs).2 ∧
    s.extent.Within (s.session programs).2.extent ∧ ∀ answer ∈ (s.session programs).1,
        (s.session programs).2.extent.Covers (emitted Core.typesStmts answer) := by
  induction programs generalizing s with
  | nil => exact ⟨h, .refl _, fun _ h => absurd h List.not_mem_nil⟩
  | cons program rest ih =>
    obtain ⟨hcheck, hwithin, hanswer⟩ := h.check program
    obtain ⟨hready, hwithin', hanswers⟩ := ih hcheck
    refine ⟨hready, hwithin.trans hwithin', List.forall_mem_cons.mpr ⟨?_, hanswers⟩⟩
    exact hwithin'.covers hanswer

/-! The calls of the walk. -/

/-- What a call is given is shaped. -/
def Call.Given (e : Extent) : Call → Prop
  | .expr hint _ | .otherwise hint _ _ | .block hint _ | .stmts hint _ => e.Covers hint.toList
  | .elems hints _ => e.Covers hints
  | .items hint ty _ => e.Covers hint.toList ∧ e.Shapes ty
  | .args params _ => e.Covers params
  | .inits inst fields supplied _ => e.Covers inst.types ∧ e.Covers fields.values ∧
      ∀ v ∈ supplied.values, e.Covers v.types
  | .branches hint before _ => e.Covers hint.toList ∧ e.Covers before.toList
  | .cases hint m before done _ => e.Covers hint.toList ∧ e.Matches m ∧
      e.Covers before.toList ∧ ∀ b ∈ done.values, e.Covers b.types
  | .func sig _ => e.Signs sig
  | .methods impl done _ => e.Implements impl ∧ ∀ v ∈ done.values, e.Covers v.types
  | .body declared _ => e.Covers declared.toList
  | .stmt _ | .bodyStmts _ => True

/-- The types in what a call returns, or in its failure. -/
def Call.emitted (room : Nat) (s : Checker) : Call → List Ty
  | .expr hint e => Checker.emitted (·.types) ((checkExpr room hint e).run.run s).1
  | .elems hints es => Checker.emitted Core.typesExprs ((checkElems room hints es).run.run s).1
  | .items hint ty es => Checker.emitted (fun r => r.2 :: Core.typesExprs r.1)
      ((checkItems room hint ty es).run.run s).1
  | .args params es => Checker.emitted Core.typesExprs ((checkArgs room params es).run.run s).1
  | .inits inst fields supplied list => Checker.emitted (·.values.flatMap (·.types))
      ((checkInits room inst fields supplied list).run.run s).1
  | .branches hint before list =>
      Checker.emitted (fun r => r.2.toList ++ Core.typesBranches r.1)
        ((checkBranches room hint before list).run.run s).1
  | .otherwise hint span last =>
      Checker.emitted (·.1.types) ((checkElse room hint span last).run.run s).1
  | .cases hint m before done list =>
      Checker.emitted (fun r => r.2.toList ++ r.1.values.flatMap (·.types))
        ((checkCases room hint m before done list).run.run s).1
  | .block hint b => Checker.emitted (·.types) ((checkBlock room hint b).run.run s).1
  | .stmts hint list => Checker.emitted (·.types) ((checkStmts room hint list).run.run s).1
  | .stmt one => Checker.emitted Core.typesStmts ((checkStmt room one).run.run s).1
  | .func sig decl => Checker.emitted (fun r => r.2 :: r.1.types)
      ((checkFunc room sig decl).run.run s).1
  | .methods impl done list => Checker.emitted (·.values.flatMap (·.types))
      ((checkMethods room impl done list).run.run s).1
  | .body declared b => Checker.emitted (·.types) ((checkBody room declared b).run.run s).1
  | .bodyStmts list => Checker.emitted (Core.typesStmts ·.1)
      ((checkBodyStmts room list).run.run s).1

theorem Ended.final {α : Type} {x : CheckM α} {Q : Extent → α → Prop} {types : α → List Ty}
    (h : Ended s x Q) (hQ : ∀ e a, Q e a → e.Covers (types a) := by exact fun _ _ h => h) :
    WellShaped (x.run.run s).2 ∧ (x.run.run s).2.extent.Covers (emitted types (x.run.run s).1) :=
  ⟨h.reaches.shaped, h.emits hQ⟩

theorem WellShaped.call (hs : WellShaped s) (room : Nat) (call : Call)
    (h : call.Given s.extent) : WellShaped (call.final room s) ∧
      (call.final room s).extent.Covers (call.emitted room s) := by
  cases call with
  | expr hint e => exact (leaves_checkExpr h hs).final
  | elems hints es => exact (leaves_checkElems h hs).final
  | items hint ty es =>
    exact (leaves_checkItems h.1 h.2 hs).final fun _ _ h => Extent.covers_cons.mpr h.symm
  | args params es => exact (leaves_checkArgs h hs).final
  | inits inst fields supplied list =>
    exact (leaves_checkInits h.1 h.2.1 h.2.2 hs).final fun _ _ h => Extent.covers_flatMap.mpr h
  | branches hint before list =>
    exact (leaves_checkBranches h.1 h.2 hs).final fun _ _ h => Extent.covers_append.mpr h.symm
  | otherwise hint span last => exact (leaves_checkElse h hs).final
  | cases hint m before done list =>
    exact (leaves_checkCases h.1 h.2.1 h.2.2.1 h.2.2.2 hs).final fun _ _ h =>
      Extent.covers_append.mpr ⟨h.2, Extent.covers_flatMap.mpr h.1⟩
  | block hint b => exact (leaves_checkBlock h hs).final
  | stmts hint list => exact (leaves_checkStmts h hs).final
  | stmt one => exact (leaves_checkStmt hs).final
  | func sig decl =>
    exact (leaves_checkFunc h hs).final fun _ _ h => Extent.covers_cons.mpr h.symm
  | methods impl done list =>
    exact (leaves_checkMethods h.1 h.2 hs).final fun _ _ h => Extent.covers_flatMap.mpr h
  | body declared b => exact (leaves_checkBody h hs).final
  | bodyStmts list => exact (leaves_checkBodyStmts hs).final

/-- With the built-in environment, every type that a checker holds or that comes
out of a session is shaped, and so it is at every call of the walk, whether it
succeeds or fails. A shaped type has the parameters that its constructor asks for,
so function types and array types can be taken apart, and what is looked for at an
index is there. -/
theorem session_types_shaped (options : Options) (hprelude : options.prelude = true)
    (programs : List Program) : (∀ t, (Stores ((new options).session programs).2 t ∨
        ∃ answer ∈ ((new options).session programs).1, t ∈ emitted Core.typesStmts answer) →
      t.Shaped ((new options).session programs).2.arities
        ((new options).session programs).2.unifier.next) ∧
    InRange ((new options).session programs).2 ∧
    (∀ program, WellShaped (((new options).session programs).2.check program).2) ∧
    (∀ room (s : Checker) (call : Call), WellShaped s → call.Given s.extent →
      WellShaped (call.final room s) ∧ InRange (call.final room s) ∧
        ∀ t, Stores (call.final room s) t ∨ t ∈ call.emitted room s →
          t.Shaped (call.final room s).arities (call.final room s).unifier.next) ∧
    ∀ arity next (t : Ty), t.Shaped arity next → t.Fits arity ∧ (∀ n, t.con? = some (.func n) →
        ∃ shape, t.asFunc? = some shape ∧ shape.params.length = n) ∧
      (t.con? = some .array → ∃ elem, t.params = [elem]) := by
  have hready : Ready (new options) := ⟨rfl, .inr ⟨options, hprelude, rfl⟩⟩
  obtain ⟨hfinal, _, hanswers⟩ := hready.session programs
  refine ⟨?_, hfinal.fitting.inRange, ?_, ?_, ?_⟩
  · rintro t (hstores | ⟨answer, hanswer, ht⟩)
    · exact hfinal.fitting.stores hstores
    · exact hanswers answer hanswer t ht
  · exact fun program => (hfinal.checkProgram program).reaches.shaped
  · intro room s call hs hgiven
    obtain ⟨hshaped, hemitted⟩ := hs.call room call hgiven
    refine ⟨hshaped, hshaped.inRange, ?_⟩
    rintro t (hstores | ht)
    · exact hshaped.stores hstores
    · exact hemitted t ht
  · exact fun _ _ _ h => ⟨h.fits, fun _ => h.asFunc, h.element⟩

/-- Declares a pair, and fails after that. -/
def pairs : Program :=
  [.struct ⟨"Pair", .dummy⟩ [⟨⟨"T", .dummy⟩, []⟩]
     [⟨⟨"fst", .dummy⟩, .ident "T" [] .dummy⟩, ⟨⟨"snd", .dummy⟩, .ident "T" [] .dummy⟩] .dummy,
   .eval (.ident "pair" .dummy) .dummy]

/-- Makes a pair of functions. -/
def pairUp : Program :=
  [.func ⟨⟨"succ", .dummy⟩, [], [⟨⟨"n", .dummy⟩, .ident "Int" [] .dummy⟩],
     some (.ident "Int" [] .dummy),
     ⟨[.eval (.binary .add (.ident "n" .dummy) (.int 1 .dummy) .dummy) .dummy], .dummy⟩, .dummy⟩,
   .bind (.name ⟨"p", .dummy⟩) none (.construct ⟨"Pair", .dummy⟩ none
     [⟨⟨"fst", .dummy⟩, .ident "succ" .dummy⟩, ⟨⟨"snd", .dummy⟩, .ident "succ" .dummy⟩]
       .dummy) .dummy]

theorem session_types_shaped_pairs : (∃ answer ∈ ((new {}).session [pairs, pairUp]).1,
      Ty.named "Pair" [.func [.int] .int] ∈ emitted Core.typesStmts answer) ∧
    (Ty.named "Pair" [.func [.int] .int]).Shaped ((new {}).session [pairs, pairUp]).2.arities
      ((new {}).session [pairs, pairUp]).2.unifier.next := by
  have hanswer : ∃ answer ∈ ((new {}).session [pairs, pairUp]).1,
      Ty.named "Pair" [.func [.int] .int] ∈ emitted Core.typesStmts answer := by
    decide +kernel
  exact ⟨hanswer, (session_types_shaped {} rfl [pairs, pairUp]).1 _ (.inr hanswer)⟩

end Checker

end TraitCheck
