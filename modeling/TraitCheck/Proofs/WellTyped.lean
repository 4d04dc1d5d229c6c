import TraitCheck.Proofs.BuiltIns
import TraitCheck.Proofs.TypedWalk

/-!
Programs whose check succeeds are well typed. Before the first statement only
what is built in is known, and no binding is settled; the walk leads from there
to the end. Then no type variable is bound, so the types in the result are read
as they stand.
-/

namespace TraitCheck

variable {bound : Trait}

/-- A dictionary holds functions that need no dictionary any more. -/
theorem TraitDecl.Typed.slotType_eq {L : Lexicon} {decl : TraitDecl} (h : decl.Typed L bound)
    {sig : Ty} (hsig : sig ∈ decl.methods.values) (ty : Ty) :
    ∃ ps ret, decl.slotType ty sig = .func ps ret := by
  obtain ⟨params, ret, rfl, _, _⟩ := h.sigs sig hsig
  rw [TraitDecl.slotType, (Ty.hom_substitute _).funcWith, Ty.asFunc?_funcWith]
  exact ⟨_, _, rfl⟩

/-- The components of a dictionary. -/
theorem Core.Layout.of_dictionary {adts : AdtTable} {registry : Registry} {ty target : Ty}
    {tag : Option Nat} {tys : List Ty} (h : Core.Layout adts registry target tag tys)
    (htarget : target = dictionaryType bound ty) (hbound : Assoc.find? adts bound = none) :
    ∃ decl, registry.trait? bound = some decl ∧
      tys = decl.methods.values.map (decl.slotType ty) := by
  have hcon := congrArg Ty.con? htarget
  cases h with
  | tuple elems => cases hcon
  | array elem size => cases hcon
  | data hfind =>
    cases hcon
    rw [hfind] at hbound
    cases hbound
  | dictionary ty' hnone hdecl =>
    rw [dictionaryType, dictionaryType, Ty.named, Ty.named, Ty.concrete_nil,
      Ty.concrete_nil] at htarget
    cases htarget
    exact ⟨_, hdecl, rfl⟩

namespace Checker

open Surface (Program Occurrence FuncDecl stmtsOfStmts functionsOf)

variable {options : Options} {program : Program} {core : List Core.Stmt} {s s' : Checker}

/-! The site of a whole program. -/

/-- No declaration of the program takes the name of a built-in type. -/
def PlainNames (program : Program) : Prop :=
  ∀ o ∈ stmtsOfStmts program, ∀ name, o.stmt.typeName? = some name → name ∉ Prelude.types

/-- Every function has a result type, and every binding that stands inside of an
expression or a loop has a type. -/
def Tidy (program : Program) : Prop :=
  ∀ o ∈ stmtsOfStmts program,
    o.stmt.isAnnotated = true ∨ (o.stmt.isBind = true ∧ o.nested = false)

/-- Where the units of a program stand. -/
def Site.whole (program : Program) : Site where
  source := {decl | decl ∈ functionsOf program}
  plain := PlainNames program
  tidy := Tidy program
  loose := True
  opening := False
  impls := True
  start := 0
  hidden := ∅
  result := none
  returns := True

theorem Site.admitsAll_whole (program : Program) :
    (Site.whole program).AdmitsAll (stmtsOfStmts program) := by
  intro o ho
  refine ⟨fun _ hdecl => List.mem_flatMap.mpr ⟨o, ho, hdecl⟩, fun hplain => hplain o ho, ?_,
    fun _ _ => trivial, id⟩
  exact fun htidy => (htidy o ho).imp_right fun h => ⟨trivial, h⟩

/-- The statements of a program are among those that occur in it. -/
theorem mem_stmtsOfStmts {stmt : Surface.Stmt} (h : stmt ∈ program) :
    ⟨stmt, false, false⟩ ∈ stmtsOfStmts program := by
  induction program with
  | nil => cases h
  | cons first rest ih =>
    rw [stmtsOfStmts, List.mem_append]
    rcases List.mem_cons.mp h with rfl | h
    · rw [Surface.Stmt.stmts.eq_def]
      exact .inl List.mem_cons_self
    · exact .inr (ih h)

/-! The state before the first statement. -/

variable {r : Unit}

/-- No variable may be bound, no binding is settled, and no tracer is in use. -/
def Ledger.empty : Ledger := ⟨∅, fun _ => none, fun _ => ∅, ∅, ∅, fun _ => none⟩

theorem Ledger.tracers_empty : Ledger.empty.tracers = ∅ :=
  Set.eq_empty_of_forall_notMem fun _ ⟨_, hid⟩ => hid

namespace Basic

theorem value (h : Basic s) {visible : Set BindingId} {name : String} {value : Value}
    (hfind : s.scope.top.values.find? name = some value) : ValueTyped .empty visible s 0 value := by
  obtain ⟨⟨op, hkind, hvalue⟩, hlt⟩ := h.values name value hfind
  refine ⟨(hvalue.formed h.arity_builtin fun _ _ h => h).mono Set.subset_union_right, ?_, ?_, ?_,
    ?_, ?_⟩
  · intro v hv
    refine ⟨hlt v hv, fun w hw _ => ?_⟩
    exact hvalue.generics_unique v hv w (hw.resolve_left fun hw => hw)
  · intro id hid
    rw [hkind] at hid
    cases hid
  · intro id ty hid
    rw [hkind] at hid
    cases hid
  · intro op' hop
    rw [hkind] at hop
    cases hop
    exact hvalue
  · intro bound index hmethod
    rw [hkind] at hmethod
    cases hmethod

theorem entries (h : Basic s) {visible : Set BindingId} :
    s.scope.Every (entryRules .empty visible s) := by
  have hframe : s.scope.top.Every (entryRules .empty visible s) 0 := by
    refine ⟨fun name _ hfind => h.value hfind, fun name ty hfind => ?_, fun _ hups => ?_⟩
    · obtain ⟨n, hn, rfl⟩ := h.types name ty hfind
      exact Ty.formed_named (h.arity_builtin n hn) (by simp)
    · rw [h.upvalues] at hups
      cases hups
  rw [Scope.Every, Scope.frames, h.below]
  exact ⟨hframe, trivial⟩

theorem supplied (h : Basic s) (L : Lexicon) : s.unifier.Supplied L ∅ := by
  have hunifier : s.unifier = { next := s.unifier.next } := by rw [← h.subst]
  have hfind : ∀ id, s.unifier.subst.find? id = none := by
    rw [h.subst]
    exact fun _ => rfl
  refine ⟨⟨hunifier ▸ Unifier.valid_empty _, by simp, ?_⟩, ?_, ?_, by nofun⟩
  · rintro v (⟨⟨⟩⟩ | ⟨id, t, ht, _⟩)
    rw [hfind] at ht
    cases ht
  · intro id t ht
    rw [hfind] at ht
    cases ht
  · intro id t ht
    rw [hfind] at ht
    cases ht

theorem wellformed (h : Basic s) (hnames : ¬PlainNames program → ∀ name ∈ Prelude.types,
      s.scope.root.types.contains name = true) : Wellformed (Site.whole program) .empty s where
  unifier := h.supplied _
  scope := h.entries
  start := Nat.zero_le _
  hidden := by nofun
  settled_lt := by nofun
  apart := by nofun
  rigid := fun hloose => absurd trivial hloose
  levels := by
    rw [Ledger.tracers_empty]
    exact fun _ _ => Set.empty_subset _
  root := rfl
  tracers_lt := by
    rw [Ledger.tracers_empty]
    nofun
  created := by nofun
  pending := fun _ _ => rfl
  dicts := by nofun
  impls := by nofun
  evidence := by
    intro con bound e he
    obtain ⟨hdeclared, n, hn, rfl, rfl⟩ := h.evidence con bound e he
    exact ⟨hdeclared, by rintro _ _ ⟨⟩; exact ⟨rfl, rfl, hn⟩, by nofun, by nofun, by nofun, by nofun⟩
  traits := by
    intro name decl hdecl
    obtain ⟨hname, hbuiltin, hbound, hmethods⟩ := h.traits name decl hdecl
    refine ⟨hname, hbuiltin, hbound, ?_, ?_⟩
    · rw [hmethods]
      exact List.nodup_nil
    · rw [hmethods]
      nofun
  adts := by
    rw [h.adts]
    nofun
  disjoint := by
    rw [h.adts]
    nofun
  names := by
    rintro name (⟨hplain, hname⟩ | hname)
    · exact hnames hplain name hname
    · rw [h.adts] at hname
      cases hname
  functions := by
    rw [h.functions]
    nofun
  result := by nofun
  returned := fun _ _ _ => trivial

end Basic

theorem basic_preparePrelude (h : Yields preparePrelude (new options) r s) : Basic s := by
  rw [h.modify]
  split
  · exact (Basic.new options).install
  · exact .new options

/-- With the built-in environment, the names of the built-in types are taken. -/
theorem contains_preparePrelude (h : Yields preparePrelude (new options) r s)
    (hprelude : options.prelude = true) :
    ∀ name ∈ Prelude.types, s.scope.root.types.contains name = true := by
  rw [h.modify]
  have hinstall : (new options).options.prelude && !(new options).preludeInstalled := by
    rw [Bool.and_eq_true]
    exact ⟨hprelude, rfl⟩
  rw [if_pos hinstall]
  exact contains_install options

/-! Whole programs. -/

variable {site : Site} {ledger : Ledger} {rules : Core.Rules} {e : Core.Expr}

theorem inert_declareAdts : Ends SameSubst (declareAdts program) :=
  ends_declareAdts fun _ _ => ends_declareAdt (fun _ => inert_bindType) fun _ _ => rfl

theorem inert_checkUnits {room : Nat} : Ends SameSubst (checkUnits room program) := by
  induction program with
  | nil => exact .pure
  | cons stmt rest ih => exact .bind (inert_isolated _) fun _ => .bind ih fun _ => .pure

/-- Reading the types as they stand, at the end. -/
def View.final (ledger : Ledger) (s : Checker) : View :=
  ⟨id, s.adts, s.registry, s.scope.nextBinding, ledger.settled, ledger.impls, ledger.created⟩

theorem Wellformed.sees_final (hs : Wellformed site ledger s) (hsubst : s.unifier.subst = {}) :
    (View.final ledger s).Sees ledger s := by
  refine ⟨⟨Ty.hom_id, fun _ => ?_⟩, .refl _, fun _ _ h => h, hs.disjoint, le_refl _,
    fun _ _ => rfl, subset_refl _, fun _ func hid => ?_⟩
  · refine (Unifier.hom_resolve hs.unifier.valid).eq_self fun _ _ => ?_
    exact Subst.apply_unbound hs.unifier.valid.acyclic (by rw [hsubst]; rfl)
  · exact hid.trans (congrArg some func.mapTy_id.symm)

/-- Outside of all functions no tracer is in use. -/
theorem View.Admits.outside {site : Site} {ledger : Ledger} (htracers : ledger.tracers = ∅)
    (hdicts : ledger.dicts = ∅) : (View.final ledger s).Admits site ledger .outside where
  cases := by nofun
  tracers := by
    rw [htracers]
    nofun
  vars := fun _ _ hid => nomatch hid
  dicts := by
    rw [hdicts]
    nofun

/-- The check of a program after the built-in environment is there. -/
theorem leads_program (hprepare : Yields preparePrelude (new options) r s)
    (hnames : options.prelude = true ∨ PlainNames program) :
    Leads (Site.whole program) .empty s (do
      declareAdts program
      checkUnits (← get).options.maxDepth program) fun ledger s' core =>
        (GivesStmts (Site.whole program) ledger s' core ∧ BindsImpls ∅ ledger core) ∧
          s'.unifier.subst = {} := by
  have hbasic := basic_preparePrelude hprepare
  have hs : Wellformed (Site.whole program) .empty s :=
    hbasic.wellformed fun hplain => contains_preparePrelude hprepare (hnames.resolve_right hplain)
  have hplain : PlainNames program →
      ∀ name ∈ program.filterMap (·.typeName?), name ∉ Prelude.types := by
    intro hplain name hname
    obtain ⟨stmt, hstmt, hname⟩ := List.mem_filterMap.mp hname
    exact hplain _ (mem_stmtsOfStmts hstmt) name hname
  refine .bind (Leads.unseal (hs.seal.declareAdts hbasic.below hplain)).run ?_
  rintro ledger1 s1 _ hadv1 ⟨⟨_, himpls⟩, hrun1⟩
  refine .get ((leads_checkUnits trivial (Site.admitsAll_whole program)
    hadv1.after).run.imp ?_)
  rintro ledger2 s2 core hadv2 ⟨⟨hcore, hmade⟩, hrun2⟩
  rw [himpls] at hmade
  refine ⟨⟨hcore, hmade⟩, ?_⟩
  rw [inert_checkUnits.subst hrun2, inert_declareAdts.subst hrun1]
  exact hbasic.subst

/-- A check ended in a state in order, and its result obeys all the rules as it
stands. -/
structure Finished (program : Program) (ledger : Ledger) (s : Checker) (core : List Core.Stmt) :
    Prop where
  state : Wellformed (Site.whole program) ledger s
  tracers : ledger.tracers = ∅
  impls : BindsImpls ∅ ledger core
  every : Core.EveryStmts ((View.final ledger s).rules (Site.whole program)) .outside core

theorem exists_finished (hnames : options.prelude = true ∨ PlainNames program)
    (h : check (new options) program = (.ok core, s')) :
    ∃ ledger, Finished program ledger s' core := by
  have hrun : Yields (checkProgram program) (new options) core s' := h
  obtain ⟨_, s1, h1, hrun⟩ := hrun.bind
  obtain ⟨ledger, hadv, ⟨hcore, hmade⟩, hsubst⟩ := (leads_program h1 hnames).ok core s' hrun
  have htracers := hadv.tracers.trans Ledger.tracers_empty
  have hevery := hcore _ (hadv.after.sees_final hsubst) _ (.outside htracers hadv.dicts)
  rw [View.final, Core.mapTyStmts_id] at hevery
  exact ⟨ledger, hadv.after, htracers, hmade, hevery⟩

/-- The rules hold for every expression in the result, and for those in it. -/
theorem every_of_mem_walk (h : Core.EveryStmts rules .outside core) (he : e ∈ Core.walkStmts core) :
    ∃ place, rules.expr place e := by
  obtain ⟨place, hevery⟩ := Core.everyStmts_walk h e he
  obtain ⟨kind, ty⟩ := e
  rw [Core.Expr.Every] at hevery
  exact ⟨place, hevery.1⟩

/-- What a method call calls is a component of a dictionary. -/
theorem methodTyped_of_every (hs : Wellformed site ledger s) {place : Core.Place}
    (hcall : ∀ place e, rules.expr place e → e.CallTyped)
    (hdata : ∀ place e, rules.expr place e → e.DataTyped s.adts s.registry place)
    (h : e.Every rules place) : e.MethodTyped s.registry := by
  rintro callee args hasValue target index bound ty hkind hfield htarget hbound
  obtain ⟨kind, ety⟩ := e
  obtain ⟨ckind, cty⟩ := callee
  obtain rfl : kind = _ := hkind
  obtain rfl : ckind = _ := hfield
  rw [Core.Expr.Every, Core.ExprKind.Every, Core.Expr.Every] at h
  obtain ⟨hexpr, ⟨hcallee, _⟩, _⟩ := h
  obtain ⟨os, ps, hcty, hpasses, _⟩ := hcall place _ hexpr
  -- whether the dictionary is a scrutinee makes no difference
  have hcomponent : ∃ tag, Core.HasComponent s.adts s.registry target.ty tag index cty := by
    have hdata := hdata place _ hcallee
    dsimp only [Core.Expr.DataTyped] at hdata
    split at hdata
    · exact ⟨_, hdata.1 ▸ hdata.2⟩
    · exact ⟨_, hdata⟩
  obtain ⟨tag, tys, hlayout, hty⟩ := hcomponent
  obtain ⟨decl, hdecl⟩ := Option.isSome_iff_exists.mp hbound
  have hnone : Assoc.find? s.adts bound = none := by
    by_contra hne
    obtain ⟨adt, hadt⟩ := Option.ne_none_iff_exists'.mp hne
    rw [hs.disjoint bound adt hadt] at hdecl
    cases hdecl
  obtain ⟨decl', hdecl', rfl⟩ := hlayout.of_dictionary htarget hnone
  obtain ⟨sig, hsig, rfl⟩ := List.mem_map.mp (List.mem_of_getElem? hty)
  obtain ⟨qs, ret, hslot⟩ := (hs.traits bound decl' hdecl').slotType_eq hsig ty
  dsimp only at hcty ⊢
  rw [hslot] at hcty ⊢
  obtain ⟨rfl, rfl, rfl⟩ := Ty.funcWith_inj hcty
  rw [hpasses]
  rfl

/-! What holds of every program whose check succeeds. -/

/-- A program with a trait, a generic function that calls its method, and a
match. -/
def shapes : Program :=
  [.trait ⟨"Area", .dummy⟩
     [⟨⟨"area", .dummy⟩, [.ident "Self" [] .dummy], .ident "Int" [] .dummy⟩] .dummy,
   .struct ⟨"Square", .dummy⟩ [] [⟨⟨"side", .dummy⟩, .ident "Int" [] .dummy⟩] .dummy,
   .enum ⟨"Shape", .dummy⟩ []
     [⟨⟨"Dot", .dummy⟩, []⟩,
      ⟨⟨"Box", .dummy⟩, [⟨⟨"square", .dummy⟩, .ident "Square" [] .dummy⟩]⟩] .dummy,
   .impl ⟨"Area", .dummy⟩ (.ident "Square" [] .dummy)
     [⟨⟨"area", .dummy⟩, [], [⟨⟨"s", .dummy⟩, .ident "Square" [] .dummy⟩],
       some (.ident "Int" [] .dummy),
       ⟨[.ret (some (.field (.ident "s" .dummy) (.name "side") .dummy)) .dummy], .dummy⟩,
       .dummy⟩] .dummy,
   .func ⟨⟨"grow", .dummy⟩, [⟨⟨"T", .dummy⟩, [⟨"Area", .dummy⟩]⟩],
     [⟨⟨"x", .dummy⟩, .ident "T" [] .dummy⟩], some (.ident "Int" [] .dummy),
     ⟨[.eval (.binary .add (.call (.ident "area" .dummy) [.ident "x" .dummy] .dummy)
         (.int 1 .dummy) .dummy) .dummy], .dummy⟩, .dummy⟩,
   .func ⟨⟨"measure", .dummy⟩, [], [⟨⟨"s", .dummy⟩, .ident "Shape" [] .dummy⟩],
     some (.ident "Int" [] .dummy),
     ⟨[.eval (.cases (.ident "s" .dummy)
         [⟨⟨"Dot", .dummy⟩, [], ⟨[.eval (.int 0 .dummy) .dummy], .dummy⟩, .dummy⟩,
          ⟨⟨"Box", .dummy⟩, [⟨⟨"square", .dummy⟩, ⟨"q", .dummy⟩⟩],
            ⟨[.eval (.call (.ident "grow" .dummy) [.ident "q" .dummy] .dummy) .dummy], .dummy⟩,
            .dummy⟩] .dummy) .dummy], .dummy⟩, .dummy⟩,
   .bind (.name ⟨"n", .dummy⟩) none
     (.call (.ident "measure" .dummy)
       [.construct ⟨"Shape", .dummy⟩ (some ⟨"Box", .dummy⟩)
         [⟨⟨"square", .dummy⟩, .construct ⟨"Square", .dummy⟩ none
           [⟨⟨"side", .dummy⟩, .int 2 .dummy⟩] .dummy⟩] .dummy] .dummy) .dummy]

theorem names_shapes : (check (new {}) shapes).1.toOption.map
    (fun core => (Core.functions core).map (·.name)) =
      some [some "area", some "grow", some "measure"] := by
  decide +kernel

theorem exists_check_shapes : ∃ core s', check (new {}) shapes = (.ok core, s') ∧
    (Core.functions core).map (·.name) = [some "area", some "grow", some "measure"] := by
  have hnames := names_shapes
  cases hrun : check (new {}) shapes with
  | mk r s' =>
    rw [hrun] at hnames
    cases r with
    | error e => cases hnames
    | ok core => exact ⟨core, s', rfl, Option.some.inj hnames⟩

/-- Every call passes the dictionaries that the type of its callee asks for and
then its arguments, and has its result type; every built-in operation has an
instance of its signature; every function has a parameter for each dictionary
and each parameter of its type. -/
theorem check_calls_typed (hprelude : options.prelude = true)
    (h : check (new options) program = (.ok core, s')) :
    ∀ e ∈ Core.walkStmts core, e.CallTyped ∧ e.MethodTyped s'.registry := by
  intro e he
  obtain ⟨ledger, hfinished⟩ := exists_finished (.inl hprelude) h
  obtain ⟨_, hnode⟩ := every_of_mem_walk hfinished.every he
  obtain ⟨place, hevery⟩ := Core.everyStmts_walk hfinished.every e he
  refine ⟨hnode.call, methodTyped_of_every hfinished.state ?_ ?_ hevery⟩
  · exact fun _ _ h => h.call
  · exact fun _ _ h => h.data

theorem check_calls_typed_shapes : ∃ core s', check (new {}) shapes = (.ok core, s') ∧
    (Core.functions core).map (·.name) = [some "area", some "grow", some "measure"] ∧
      ∀ e ∈ Core.walkStmts core, e.CallTyped ∧ e.MethodTyped s'.registry := by
  obtain ⟨core, s', hrun, hnames⟩ := exists_check_shapes
  exact ⟨core, s', hrun, hnames, check_calls_typed rfl hrun⟩

/-- Every value is laid out in the components of its type, every field is a
component of its target, and conditionals, matches and blocks have the types of
their parts. -/
theorem check_data_typed (hprelude : options.prelude = true)
    (h : check (new options) program = (.ok core, s')) :
    Core.EveryStmts
      { expr := fun place e => e.DataTyped s'.adts s'.registry place
        block := fun _ b => b.ValueTyped } .outside core := by
  obtain ⟨ledger, hfinished⟩ := exists_finished (.inl hprelude) h
  exact Core.everyStmts_imp hfinished.every
    ⟨fun _ _ h => h.data, fun _ _ h => h.1, fun _ _ _ _ => trivial, fun _ _ => trivial⟩

theorem check_data_typed_shapes : ∃ core s', check (new {}) shapes = (.ok core, s') ∧
    (Core.functions core).map (·.name) = [some "area", some "grow", some "measure"] ∧
      Core.EveryStmts
        { expr := fun place e => e.DataTyped s'.adts s'.registry place
          block := fun _ b => b.ValueTyped } .outside core := by
  obtain ⟨core, s', hrun, hnames⟩ := exists_check_shapes
  exact ⟨core, s', hrun, hnames, check_data_typed rfl hrun⟩

end Checker

end TraitCheck
