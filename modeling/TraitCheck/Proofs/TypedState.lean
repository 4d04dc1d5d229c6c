import TraitCheck.Proofs.CoreTyping
import TraitCheck.Proofs.Endings
import TraitCheck.Proofs.Readings
import TraitCheck.Proofs.ScopeInvariants
import TraitCheck.Proofs.Statements

/-!
States in which all types are in order, and steps that lead from one to the
next. The checker writes types down before all their variables are known, so
what is said of a type is said of every later view of it (`View`): a view reads
types by at least the bindings made so far, and sees at least the declarations
made so far. Beside the state goes a ledger of the variables that may be bound,
of the bindings whose type is settled, of the tracers in use and of the
dictionaries at hand. `Leads` says of a step that it leads to a state in order,
with something known about its result, and does not fail for lack of evidence;
it is put together along the steps of a computation.
-/

namespace TraitCheck

open Surface (FuncDecl)

/-! Declarations in order. -/

/-- The value is the built-in operation. -/
def Prelude.Provides (op : Op) (value : Value) : Prop :=
  (∃ f ∈ genericFuncs, ∃ var, f.op = op ∧ f.bound ∈ var.traits ∧ value.generics = [var] ∧
    value.ty = f.ty var) ∨
    ∃ name params ret, (name, op, .func params ret) ∈ plainFuncs ∧ value.generics = [] ∧
      value.ty = .func params ret

/-- The fields are over the generics of the declaration, and have different
names. -/
structure Adt.Typed (L : Lexicon) (adt : Adt) (name : String) : Prop where
  name_eq : adt.name = name
  not_builtin : name ∉ Prelude.types
  fields : ∀ tag fields, adt.fieldsAt tag = some fields →
    fields.keys.Nodup ∧ ∀ ty ∈ fields.values, ty.Formed L {v | v ∈ adt.generics}
  tags : ∀ tags, adt.tags? = some tags → tags.keys.Nodup

/-- Every method asks for a dictionary of the trait, and is over `Self`. -/
structure TraitDecl.Typed (L : Lexicon) (decl : TraitDecl) (name : Trait) : Prop where
  name_eq : decl.name = name
  not_builtin : name ∉ Prelude.types
  bound : name ∈ decl.selfVar.traits
  nodup : decl.methods.keys.Nodup
  sigs : ∀ sig ∈ decl.methods.values, ∃ params ret,
    sig = .funcWith [⟨.var decl.selfVar, name⟩] params ret ∧
      (∀ p ∈ params, p.Formed L {decl.selfVar}) ∧ ret.Formed L {decl.selfVar}

theorem Adt.Typed.extend {L L' : Lexicon} {adt : Adt} {name : String} (h : adt.Typed L name)
    (hL : L.Extends L') : adt.Typed L' name where
  name_eq := h.name_eq
  not_builtin := h.not_builtin
  fields := fun tag fields hfields =>
    ⟨(h.fields tag fields hfields).1, fun ty hty => ((h.fields tag fields hfields).2 ty hty).extend hL⟩
  tags := h.tags

theorem TraitDecl.Typed.extend {L L' : Lexicon} {decl : TraitDecl} {name : String}
    (h : decl.Typed L name) (hL : L.Extends L') : decl.Typed L' name where
  name_eq := h.name_eq
  not_builtin := h.not_builtin
  bound := h.bound
  nodup := h.nodup
  sigs := fun sig hsig => by
    obtain ⟨params, ret, heq, hparams, hret⟩ := h.sigs sig hsig
    exact ⟨params, ret, heq, fun p hp => (hparams p hp).extend hL, hret.extend hL⟩

/-- The second table still has all declarations, and those that are complete
unchanged. -/
def AdtTable.Grows (adts adts' : AdtTable) : Prop :=
  ∀ name adt, Assoc.find? adts name = some adt → ∃ adt', Assoc.find? adts' name = some adt' ∧
    adt'.generics = adt.generics ∧ (adt.isPending = false → adt' = adt)

theorem AdtTable.Grows.refl (adts : AdtTable) : adts.Grows adts :=
  fun _ adt h => ⟨adt, h, rfl, fun _ => rfl⟩

theorem AdtTable.Grows.trans {adts adts' adts'' : AdtTable} (h : adts.Grows adts')
    (h' : adts'.Grows adts'') : adts.Grows adts'' := by
  intro name adt hfind
  obtain ⟨adt', hfind', hgenerics, hsame⟩ := h name adt hfind
  obtain ⟨adt'', hfind'', hgenerics', hsame'⟩ := h' name adt' hfind'
  refine ⟨adt'', hfind'', hgenerics'.trans hgenerics, ?_⟩
  intro hdone
  obtain rfl := hsame hdone
  exact hsame' hdone

/-- The second registry still has all traits and all evidence. -/
structure Registry.Keeps (registry registry' : Registry) : Prop where
  traits : ∀ name decl, registry.trait? name = some decl → registry'.trait? name = some decl
  evidence : ∀ con bound e, registry.lookup con bound = some e →
    registry'.lookup con bound = some e

namespace Registry.Keeps

variable {registry registry' registry'' : Registry}

theorem refl (registry : Registry) : registry.Keeps registry := ⟨fun _ _ h => h, fun _ _ _ h => h⟩

theorem trans (h : registry.Keeps registry') (h' : registry'.Keeps registry'') :
    registry.Keeps registry'' :=
  ⟨fun name decl hname => h'.traits name decl (h.traits name decl hname),
    fun con bound e he => h'.evidence con bound e (h.evidence con bound e he)⟩

theorem isDeclared (h : registry.Keeps registry') {bound : Trait}
    (hbound : registry.isDeclared bound = true) : registry'.isDeclared bound = true := by
  obtain ⟨decl, hdecl⟩ := Option.isSome_iff_exists.mp hbound
  exact Option.isSome_iff_exists.mpr ⟨decl, h.traits bound decl hdecl⟩

theorem meets (h : registry.Keeps registry') (o : Obligation) (ho : registry.Meets o) :
    registry'.Meets o := by
  obtain ⟨ty, bound⟩ := o
  cases ty with
  | var v => exact ho
  | app head args =>
    obtain ⟨e, he⟩ := Option.isSome_iff_exists.mp ho
    exact Option.isSome_iff_exists.mpr ⟨e, h.evidence head.con bound e he⟩

end Registry.Keeps

/-- The type is the other one with types in place of some variables. -/
def Ty.InstanceOf (s t : Ty) : Prop := ∃ map, s = t.replace map

/-- No two variables of the type have the same id. -/
def Ty.Apart (t : Ty) : Prop := ∀ v ∈ t.vars, ∀ w ∈ t.vars, v.id = w.id → v = w

/-- Whatever reads a type gives an instance of it. -/
theorem Ty.Hom.instanceOf {f : Ty → Ty} {t : Ty} (hf : Hom f) (ht : t.Apart) :
    (f t).InstanceOf t := by
  classical
  let map : VarId → Option Ty := fun id =>
    if h : ∃ v ∈ t.vars, v.id = id then some (f (.var h.choose)) else none
  refine ⟨map, hf.congr (hom_replace map) ?_⟩
  intro v hv
  have hex : ∃ w ∈ t.vars, w.id = v.id := ⟨v, hv, rfl⟩
  have hmap : map v.id = some (f (.var hex.choose)) := dif_pos hex
  rw [replace_var, hmap, Option.getD_some]
  rw [ht _ hex.choose_spec.1 v hv hex.choose_spec.2]

namespace Checker

/-! Functions and their tracers. -/

/-- The parameters and the body of a declared function, in a frame of its own. -/
def checkFrame (room : Nat) (generics : List Generic) (decl : FuncDecl) :
    CheckM (List BindingId × Core.Block × List (Nat × Ty)) := do
  let (dicts, tracers) ← bindTracers decl.span generics
  let ids ← bindParams decl.params
  let declared ← typeFor? decl.ret
  let block ← checkBody room declared decl.body
  return (dicts ++ ids, block, tracers)

theorem checkFunc_eq (room : Nat) (sig : Signature) (decl : FuncDecl) :
    checkFunc room sig decl = (do
      let ((ids, block, tracers), upvalues) ← inFunctionFrame (checkFrame room sig.generics decl)
      let ret := sig.finalRet tracers block.ty
      return (⟨some decl.name.text, captures upvalues, ids, block⟩,
        .funcWith sig.obligations sig.params ret)) := by
  obtain ⟨name, generics, params, ret, body, span⟩ := decl
  rw [checkFunc]
  rfl

/-- The name of a type parameter, with its bounds. -/
def Generic.param (g : Generic) : String × List Trait := (g.name, g.bounds)

/-- The names of type parameters, with their bounds. -/
def paramBounds (generics : List Surface.GenericParam) : List (String × List Trait) :=
  generics.map fun g => (g.name.text, g.bounds.map (·.text))

/-- The types of the dictionary parameters for these tracers. -/
def dictionaryTypes (params : List (String × List Trait)) (tracers : List Nat) : List Ty :=
  (params.zip tracers).flatMap fun (p, id) =>
    p.2.map fun bound => dictionaryType bound (.tracer id p.1)

/-- The function is what checking the declaration gave, as read later, and these
are the tracers made for its type parameters. -/
def Introduces (decl : FuncDecl) (tracers : List Nat) (func : Core.FuncExpr) : Prop :=
  ∃ room generics s params block map s' captures f,
    generics.map Generic.param = paramBounds decl.generics ∧
    Yields (checkFrame room generics decl) s (params, block, map) s' ∧
      tracers = map.map Prod.fst ∧
        func = Core.FuncExpr.mapTy f ⟨some decl.name.text, captures, params, block⟩

/-- One of the functions made the tracer when it was checked. -/
def Introduced (source : Set FuncDecl) (id : Nat) (func : Core.FuncExpr) : Prop :=
  ∃ decl ∈ source, ∃ tracers, Introduces decl tracers func ∧ id ∈ tracers

/-! Ledgers and sites. -/

variable {ledger : Ledger} {s : Checker}

/-- What goes beside a state. -/
structure Ledger where
  /-- The type variables that may be bound. -/
  drawn : Set TyVar
  /-- The types of bindings that no later step changes. -/
  settled : BindingId → Option Ty
  /-- The tracers that types may have in the frame with the given index. -/
  level : Nat → Set Nat
  /-- The dictionary parameters of the functions around, with their types. -/
  dicts : Set (BindingId × Ty)
  /-- The dictionaries of implementations, with their types. -/
  impls : Set (BindingId × Ty)
  /-- The functions that were closed in this unit, by the tracers they made. -/
  created : Nat → Option Core.FuncExpr

/-- The tracers in use. -/
def Ledger.tracers (ledger : Ledger) : Set Nat := {id | ∃ depth, id ∈ ledger.level depth}

/-- Where the walk stands. -/
structure Site where
  /-- The functions that the program declares. -/
  source : Set FuncDecl
  /-- Whether the program leaves the names of built-in types alone. -/
  plain : Prop
  /-- Whether all bindings are to be settled. -/
  tidy : Prop
  /-- Whether settled types may have variables that are still bound. -/
  loose : Prop
  /-- Whether tracers are in use that are yet to be drawn. -/
  opening : Prop
  /-- Whether an implementation may be made. -/
  impls : Prop
  /-- All bindings made here are from this one on. -/
  start : BindingId
  /-- The scrutinees of the matches around, which no name refers to. -/
  hidden : Set BindingId
  /-- The result type of the function around, if it was written. -/
  result : Option Ty
  /-- Whether the function around has a return in it. -/
  returns : Prop

/-- The ids that names and evidence may refer to. -/
def Site.visible (site : Site) (s : Checker) : Set BindingId :=
  {id | id < s.scope.nextBinding ∧ id ∉ site.hidden}

/-- How many arguments the known type names take. The name of a trait is that of
its dictionaries. -/
def arities (s : Checker) : String → Option Nat := fun name =>
  match Assoc.find? s.adts name with
  | some adt => some adt.generics.length
  | none =>
    if name ∈ Prelude.types then some 0
    else if s.registry.isDeclared name then some 1
    else none

/-- What types are made of, with these tracers. -/
def lexicon (s : Checker) (tracers : Set Nat) : Lexicon := ⟨s.arities, tracers, s.registry.Meets⟩

/-- What written types are made of: they have no obligations. -/
def written (s : Checker) (tracers : Set Nat) : Lexicon := ⟨s.arities, tracers, fun _ => False⟩

theorem written_extends_lexicon (s : Checker) (tracers : Set Nat) :
    (s.written tracers).Extends (s.lexicon tracers) :=
  ⟨⟨fun _ _ h => h, subset_refl _⟩, fun _ h => h.elim⟩

/-- The type is over the variables that may be bound. -/
def Known (ledger : Ledger) (s : Checker) (ty : Ty) : Prop :=
  ty.Formed (s.lexicon ledger.tracers) ledger.drawn

/-- The type has no variables. -/
def Closed (ledger : Ledger) (s : Checker) (ty : Ty) : Prop :=
  ty.Formed (s.written ledger.tracers) ∅

theorem Closed.known {ty : Ty} (h : Closed ledger s ty) : Known ledger s ty :=
  (h.extend (written_extends_lexicon s _)).of_closed

/-- The variables of type parameters are known to no one else. -/
def Reserved (ledger : Ledger) (s : Checker) (generics : List TyVar) : Prop :=
  ∀ v ∈ generics, v.id < s.unifier.next ∧
    ∀ w ∈ ledger.drawn ∪ {v | v ∈ generics}, w.id = v.id → w = v

/-- A value in the frame with the given index is in order. -/
structure ValueTyped (ledger : Ledger) (visible : Set BindingId) (s : Checker) (depth : Nat)
    (value : Value) : Prop where
  formed : value.ty.Formed (s.lexicon (ledger.level depth))
    (ledger.drawn ∪ {v | v ∈ value.generics})
  generics : Reserved ledger s value.generics
  visible : ∀ id, value.kind = .binding id → id ∈ visible
  settled : ∀ id ty, value.kind = .binding id → ledger.settled id = some ty → value.ty = ty
  builtin : ∀ op, value.kind = .builtin op → Prelude.Provides op value
  method : ∀ bound index, value.kind = .method bound index → ∃ decl,
    s.registry.trait? bound = some decl ∧ value.generics = [decl.selfVar] ∧
      decl.methods.values[index]? = some value.ty

/-- The entries of a scope are in order. A type name stands for a type without
variables, unless it takes type arguments. -/
def entryRules (ledger : Ledger) (visible : Set BindingId) (s : Checker) : EntryRules where
  value := ValueTyped ledger visible s
  type depth name ty :=
    ty.Formed (s.written (ledger.level depth)) {_v | s.adts.arity name ty ≠ 0}
  upvalue up := up.binding ∈ visible ∧ (∀ ty, ledger.settled up.binding = some ty → up.ty = ty) ∧
    up.ty.Formed (s.lexicon (ledger.level up.depth)) Set.univ

/-- The constructor is none of the other tracers. -/
def ConWithin (tracers : Set Nat) (con : Con) : Prop :=
  ∀ id name, con = .tracer id name → id ∈ tracers

/-- The binding holds the dictionary of an implementation or of a type parameter,
for the only type of the constructor. -/
def Holds (ledger : Ledger) (s : Checker) (con : Con) (bound : Trait) (id : BindingId) : Prop :=
  ∃ target, target.con? = some con ∧ target.params = [] ∧ Closed ledger s target ∧
    (∀ ty, ledger.settled id = some ty → ty = dictionaryType bound target) ∧
      (id, dictionaryType bound target) ∈ ledger.impls ∪ ledger.dicts

/-- Evidence of a registry is in order. A dictionary is bound under its name,
except outside of the function whose type parameter it is for. -/
structure Registered (visible : Set BindingId) (ledger : Ledger) (s : Checker) (con : Con)
    (bound : Trait) (e : Evidence) : Prop where
  declared : s.registry.isDeclared bound = true
  intrinsic : ∀ trait primitive, e = .intrinsic trait primitive →
    trait = bound ∧ con = .named primitive ∧ primitive ∈ Prelude.types
  drawn : ∀ id name, con = .tracer id name → id < s.unifier.next
  visible : ∀ name id, e = .binding name id → id ∈ visible
  named : ∀ name id, e = .binding name id → ∀ depth ≤ s.scope.depth,
    ConWithin (ledger.level depth) con → s.scope.Names name depth
  held : ∀ name id, e = .binding name id → ConWithin ledger.tracers con →
    Holds ledger s con bound id

/-- The state is in order. -/
structure Wellformed (site : Site) (ledger : Ledger) (s : Checker) : Prop where
  unifier : s.unifier.Supplied (s.lexicon ledger.tracers) ledger.drawn
  scope : s.scope.Every (entryRules ledger (site.visible s) s)
  start : site.start ≤ s.scope.nextBinding
  hidden : ∀ id ∈ site.hidden, id < s.scope.nextBinding
  settled_lt : ∀ id ty, ledger.settled id = some ty → id < s.scope.nextBinding
  apart : ∀ id ty, ledger.settled id = some ty → ty.Apart
  /-- The variables of a settled type are never bound. -/
  rigid : ¬site.loose → ∀ id ty, site.start ≤ id → ledger.settled id = some ty → ∀ v ∈ ty.vars,
    v.id < s.unifier.next ∧ ∀ w ∈ ledger.drawn, w.id ≠ v.id
  levels : ∀ depth, s.scope.depth ≤ depth → ledger.tracers ⊆ ledger.level depth
  root : ledger.level 0 = ∅
  tracers_lt : ¬site.opening → ∀ id ∈ ledger.tracers, id < s.unifier.next
  created : ∀ id func, ledger.created id = some func →
    id < s.unifier.next ∧ ∀ f, Introduced site.source id (func.mapTy f)
  /-- The functions around are not closed yet. -/
  pending : ∀ id ∈ ledger.tracers, ledger.created id = none
  dicts : ∀ p ∈ ledger.dicts, ∃ bound id name,
    p.2 = dictionaryType bound (.tracer id name) ∧ id ∈ ledger.tracers
  impls : ∀ p ∈ ledger.impls, p.2.Formed (s.written ∅) ∅
  evidence : ∀ con bound e, s.registry.lookup con bound = some e →
    Registered (site.visible s) ledger s con bound e
  traits : ∀ name decl, s.registry.trait? name = some decl → decl.Typed (s.written ∅) name
  adts : ∀ name adt, Assoc.find? s.adts name = some adt → adt.Typed (s.written ∅) name
  disjoint : ∀ name adt, Assoc.find? s.adts name = some adt → s.registry.trait? name = none
  names : ∀ name, (¬site.plain ∧ name ∈ Prelude.types) ∨ (Assoc.find? s.adts name).isSome = true →
    s.scope.root.types.contains name = true
  functions : ∀ r ∈ s.functions, ∀ ty, r.ret = some ty → Known ledger s ty
  result : ∀ ty, site.result = some ty →
    Closed ledger s ty ∧ ∃ r rest, s.functions = r :: rest ∧ r.ret = some ty
  returned : ∀ r ∈ s.functions.head?, r.returned = true → site.returns

/-! Views. -/

/-- A way to read what the checker writes: how types are read, which
declarations are seen, which bindings there are and which of them are settled,
which of them hold implementations, and which functions made which tracers. -/
structure View where
  map : Ty → Ty
  adts : AdtTable
  registry : Registry
  next : BindingId
  settled : BindingId → Option Ty
  impls : Set (BindingId × Ty)
  created : Nat → Option Core.FuncExpr

/-- The view takes account of all that the state knows. -/
structure View.Sees (view : View) (ledger : Ledger) (s : Checker) : Prop where
  reads : s.unifier.Reads view.map
  adts : s.adts.Grows view.adts
  traits : ∀ name decl, s.registry.trait? name = some decl → view.registry.trait? name = some decl
  disjoint : ∀ name adt, Assoc.find? view.adts name = some adt → view.registry.trait? name = none
  next : s.scope.nextBinding ≤ view.next
  settled : ∀ id < s.scope.nextBinding, view.settled id = ledger.settled id
  impls : ledger.impls ⊆ view.impls
  created : ∀ id func, ledger.created id = some func →
    view.created id = some (func.mapTy view.map)

/-- No type has the name of a trait. -/
theorem View.Sees.find_trait {view : View} (h : view.Sees ledger s) {bound : Trait}
    {decl : TraitDecl} (hdecl : view.registry.trait? bound = some decl) :
    Assoc.find? view.adts bound = none := by
  by_contra hne
  obtain ⟨adt, hadt⟩ := Option.ne_none_iff_exists'.mp hne
  rw [h.disjoint bound adt hadt] at hdecl
  cases hdecl

/-- The two types are the same from now on. -/
def Same (ledger : Ledger) (s : Checker) (a b : Ty) : Prop :=
  ∀ view : View, view.Sees ledger s → view.map a = view.map b

/-! Steps. -/

/-- All that is declared in the first state is declared in the second. -/
structure Declares (s s' : Checker) : Prop where
  arities : ∀ name count, s.arities name = some count → s'.arities name = some count
  adts : s.adts.Grows s'.adts
  registry : s.registry.Keeps s'.registry

namespace Declares

variable {s s' s'' : Checker} {tracers tracers' : Set Nat}

theorem refl (s : Checker) : Declares s s := ⟨fun _ _ h => h, .refl _, .refl _⟩

theorem trans (h : Declares s s') (h' : Declares s' s'') : Declares s s'' where
  arities := fun name count hname => h'.arities name count (h.arities name count hname)
  adts := h.adts.trans h'.adts
  registry := h.registry.trans h'.registry

theorem of_eq (hadts : s'.adts = s.adts) (hregistry : s'.registry = s.registry) :
    Declares s s' := by
  have harities : s'.arities = s.arities := by
    funext name
    rw [Checker.arities, Checker.arities, hadts, hregistry]
  refine ⟨harities ▸ fun _ _ h => h, hadts ▸ .refl _, hregistry ▸ .refl _⟩

theorem lexicon (h : Declares s s') (htracers : tracers ⊆ tracers') :
    (s.lexicon tracers).Extends (s'.lexicon tracers') :=
  ⟨⟨h.arities, htracers⟩, h.registry.meets⟩

theorem written (h : Declares s s') (htracers : tracers ⊆ tracers') :
    (s.written tracers).Extends (s'.written tracers') :=
  ⟨⟨h.arities, htracers⟩, fun _ ho => ho⟩

end Declares

/-- What no step takes back. -/
structure Later (s s' : Checker) : Prop extends Declares s s' where
  next : s.unifier.next ≤ s'.unifier.next
  subst : s.unifier.subst.Extends s'.unifier.subst
  binding : s.scope.nextBinding ≤ s'.scope.nextBinding
  below : s'.scope.below.map Frame.bare = s.scope.below.map Frame.bare
  functions : s'.functions.tail = s.functions.tail

theorem Later.refl (s : Checker) : Later s s :=
  ⟨.refl s, le_refl _, .refl _, le_refl _, rfl, rfl⟩

theorem Later.trans {s s' s'' : Checker} (h : Later s s') (h' : Later s' s'') : Later s s'' where
  toDeclares := h.toDeclares.trans h'.toDeclares
  next := le_trans h.next h'.next
  subst := h.subst.trans h'.subst
  binding := le_trans h.binding h'.binding
  below := h'.below.trans h.below
  functions := h'.functions.trans h.functions

/-- What steps from the state on add to a ledger. The tracers in use and the
dictionary parameters change only where a function is entered. -/
structure Grows (site : Site) (s : Checker) (ledger ledger' : Ledger) : Prop where
  draws : Unifier.Draws s.unifier.next ledger.drawn ledger'.drawn
  settled : ∀ id < s.scope.nextBinding, ledger'.settled id = ledger.settled id
  level : ledger'.level = ledger.level
  dicts : ledger'.dicts = ledger.dicts
  impls : ledger.impls ⊆ ledger'.impls
  impls_eq : ¬site.impls → ledger'.impls = ledger.impls
  created : ∀ id func, ledger.created id = some func → ledger'.created id = some func
  created_new : ∀ id func, ledger'.created id = some func →
    ledger.created id = some func ∨ s.unifier.next ≤ id

theorem Grows.refl (site : Site) (s : Checker) (ledger : Ledger) : Grows site s ledger ledger :=
  ⟨.refl _ _, fun _ _ => rfl, rfl, rfl, subset_refl _, fun _ => rfl, fun _ _ h => h,
    fun _ _ h => .inl h⟩

theorem Grows.tracers {site : Site} {s : Checker} {ledger ledger' : Ledger}
    (h : Grows site s ledger ledger') : ledger'.tracers = ledger.tracers := by
  rw [Ledger.tracers, Ledger.tracers, h.level]

theorem Grows.trans {site : Site} {s s' : Checker} {ledger ledger' ledger'' : Ledger}
    (h : Grows site s ledger ledger') (h' : Grows site s' ledger' ledger'') (hs : Later s s') :
    Grows site s ledger ledger'' where
  draws := h.draws.trans h'.draws hs.next
  settled := fun id hid => by
    rw [h'.settled id (lt_of_lt_of_le hid hs.binding), h.settled id hid]
  level := h'.level.trans h.level
  dicts := h'.dicts.trans h.dicts
  impls := h.impls.trans h'.impls
  impls_eq := fun hsite => (h'.impls_eq hsite).trans (h.impls_eq hsite)
  created := fun id func hid => h'.created id func (h.created id func hid)
  created_new := fun id func hid => by
    rcases h'.created_new id func hid with hid | hle
    · exact h.created_new id func hid
    · exact .inr (le_trans hs.next hle)

/-- From one state in order to the next. -/
structure Advance (site : Site) (ledger : Ledger) (s : Checker) (ledger' : Ledger)
    (s' : Checker) : Prop extends Grows site s ledger ledger' where
  before : Wellformed site ledger s
  after : Wellformed site ledger' s'
  later : Later s s'

variable {α β : Type} {site : Site} {ledger ledger' ledger'' : Ledger} {s s' s'' : Checker}
  {a b c t : Ty} {view : View}

theorem Wellformed.stay (hs : Wellformed site ledger s) : Advance site ledger s ledger s :=
  ⟨.refl site s ledger, hs, hs, .refl s⟩

/-- What was said of types in the first state holds of them in the second. -/
structure Carries (ledger : Ledger) (s : Checker) (ledger' : Ledger) (s' : Checker) : Prop where
  sees : ∀ {view : View}, view.Sees ledger' s' → view.Sees ledger s
  drawn : ledger.drawn ⊆ ledger'.drawn
  tracers : ledger.tracers ⊆ ledger'.tracers
  dicts : ledger.dicts ⊆ ledger'.dicts
  declares : Declares s s'
  binding : s.scope.nextBinding ≤ s'.scope.nextBinding
  settled : ∀ id < s.scope.nextBinding, ledger'.settled id = ledger.settled id

namespace Carries

theorem known (h : Carries ledger s ledger' s') (ht : Known ledger s t) : Known ledger' s' t :=
  (ht.mono h.drawn).extend (h.declares.lexicon h.tracers)

theorem closed (h : Carries ledger s ledger' s') (ht : Closed ledger s t) : Closed ledger' s' t :=
  ht.extend (h.declares.written h.tracers)

theorem same (h : Carries ledger s ledger' s') (hab : Same ledger s a b) : Same ledger' s' a b :=
  fun view hview => hab view (h.sees hview)

/-- Frames and functions are of no account. -/
theorem of_eq (hunifier : s'.unifier = s.unifier) (hadts : s'.adts = s.adts)
    (hregistry : s'.registry = s.registry)
    (hnext : s'.scope.nextBinding = s.scope.nextBinding) : Carries ledger s ledger s' where
  sees := fun hview => ⟨hunifier ▸ hview.reads, hadts ▸ hview.adts, hregistry ▸ hview.traits,
    hview.disjoint, hnext ▸ hview.next, fun id hid => hview.settled id (hnext ▸ hid), hview.impls,
    hview.created⟩
  drawn := subset_refl _
  tracers := subset_refl _
  dicts := subset_refl _
  declares := .of_eq hadts hregistry
  binding := le_of_eq hnext.symm
  settled := fun _ _ => rfl

end Carries

/-- What carries over from state to state. -/
def Lasting (P : Ledger → Checker → α → Prop) : Prop :=
  ∀ {ledger s ledger' s' r}, Carries ledger s ledger' s' → P ledger s r → P ledger' s' r

namespace Advance

theorem trans (h : Advance site ledger s ledger' s')
    (h' : Advance site ledger' s' ledger'' s'') : Advance site ledger s ledger'' s'' where
  toGrows := h.toGrows.trans h'.toGrows h.later
  before := h.before
  after := h'.after
  later := h.later.trans h'.later

/-- What sees the later state sees the one before. -/
theorem carries (h : Advance site ledger s ledger' s') : Carries ledger s ledger' s' where
  sees := fun hview => by
    refine ⟨?_, h.later.adts.trans hview.adts, ?_, hview.disjoint,
      le_trans h.later.binding hview.next, ?_, h.impls.trans hview.impls, ?_⟩
    · exact hview.reads.of_extends h.before.unifier.valid h.after.unifier.valid h.later.subst
    · exact fun name decl hname => hview.traits name decl (h.later.registry.traits name decl hname)
    · intro id hid
      rw [hview.settled id (lt_of_lt_of_le hid h.later.binding), h.settled id hid]
    · exact fun id func hid => hview.created id func (h.created id func hid)
  drawn := h.draws.subset
  tracers := subset_of_eq h.tracers.symm
  dicts := subset_of_eq h.dicts.symm
  declares := h.later.toDeclares
  binding := h.later.binding
  settled := h.settled

theorem known (h : Advance site ledger s ledger' s') (ht : Known ledger s t) : Known ledger' s' t :=
  h.carries.known ht

theorem closed (h : Advance site ledger s ledger' s') (ht : Closed ledger s t) :
    Closed ledger' s' t :=
  h.carries.closed ht

/-- A type with other variables than those that may be bound. -/
theorem formed (h : Advance site ledger s ledger' s') {D : Set TyVar}
    (ht : t.Formed (s.lexicon ledger.tracers) (ledger.drawn ∪ D)) :
    t.Formed (s'.lexicon ledger'.tracers) (ledger'.drawn ∪ D) :=
  (ht.mono (Set.union_subset_union_left D h.draws.subset)).extend
    (h.later.toDeclares.lexicon (subset_of_eq h.tracers.symm))

theorem same (h : Advance site ledger s ledger' s') (hab : Same ledger s a b) :
    Same ledger' s' a b :=
  h.carries.same hab

end Advance

namespace Same

theorem refl (ledger : Ledger) (s : Checker) (a : Ty) : Same ledger s a a := fun _ _ => rfl

theorem symm (h : Same ledger s a b) : Same ledger s b a := fun view hview => (h view hview).symm

theorem trans (h : Same ledger s a b) (h' : Same ledger s b c) : Same ledger s a c :=
  fun view hview => (h view hview).trans (h' view hview)

end Same

/-- If the step succeeds, then in a state in order, and this holds of its
result. It does not fail for lack of evidence. -/
structure Leads (site : Site) (ledger : Ledger) (s : Checker) (x : CheckM α)
    (post : Ledger → Checker → α → Prop) : Prop where
  ok : ∀ r s', Yields x s r s' → ∃ ledger', Advance site ledger s ledger' s' ∧ post ledger' s' r
  safe : Safe x s

namespace Leads

variable {x : CheckM α} {f : α → CheckM β} {P Q : Ledger → Checker → α → Prop}
  {R : Ledger → Checker → β → Prop}

theorem bind (hx : Leads site ledger s x P)
    (hf : ∀ ledger1 s1 r, Advance site ledger s ledger1 s1 → P ledger1 s1 r →
      Leads site ledger1 s1 (f r) R) : Leads site ledger s (x >>= f) R where
  ok := by
    intro r s' hrun
    obtain ⟨r1, s1, h1, hrun⟩ := hrun.bind
    obtain ⟨ledger1, hadv, hP⟩ := hx.ok r1 s1 h1
    obtain ⟨ledger2, hadv', hR⟩ := (hf ledger1 s1 r1 hadv hP).ok r s' hrun
    exact ⟨ledger2, hadv.trans hadv', hR⟩
  safe := by
    refine hx.safe.bind ?_
    intro r1 s1 h1
    obtain ⟨ledger1, hadv, hP⟩ := hx.ok r1 s1 h1
    exact (hf ledger1 s1 r1 hadv hP).safe

theorem pure (hs : Wellformed site ledger s) {r : α} (hP : P ledger s r) :
    Leads site ledger s (Pure.pure r) P where
  ok := by
    intro r' s' hrun
    obtain ⟨rfl, rfl⟩ := hrun.pure
    exact ⟨ledger, hs.stay, hP⟩
  safe := .pure

theorem imp (hx : Leads site ledger s x P)
    (h : ∀ ledger1 s1 r, Advance site ledger s ledger1 s1 → P ledger1 s1 r → Q ledger1 s1 r) :
    Leads site ledger s x Q where
  ok := by
    intro r s' hrun
    obtain ⟨ledger', hadv, hP⟩ := hx.ok r s' hrun
    exact ⟨ledger', hadv, h ledger' s' r hadv hP⟩
  safe := hx.safe

theorem fail {failure : Failure} {span : Span} (h : failure.isDefect = false := by rfl) :
    Leads site ledger s (fail failure span : CheckM α) P :=
  ⟨fun _ _ hrun => hrun.fail.elim, .fail h⟩

/-- A step that leaves the state as it is, before others. -/
theorem still (hsafe : Safe x s) (hx : ∀ r s', Yields x s r s' → s = s' ∧
    Leads site ledger s (f r) R) : Leads site ledger s (x >>= f) R where
  ok := by
    intro r s' hrun
    obtain ⟨r1, s1, h1, hrun⟩ := hrun.bind
    obtain ⟨rfl, h⟩ := hx r1 s1 h1
    exact h.ok r s' hrun
  safe := by
    refine hsafe.bind ?_
    intro r1 s1 h1
    obtain ⟨rfl, h⟩ := hx r1 s1 h1
    exact h.safe

/-- Reading the state. -/
theorem get {f : Checker → CheckM β} (h : Leads site ledger s (f s) R) :
    Leads site ledger s (MonadState.get >>= f) R := by
  refine still Runs.FailsWith.get ?_
  intro r s' hrun
  obtain ⟨rfl, rfl⟩ := hrun.get
  exact ⟨rfl, h⟩

theorem ensure {condition : Prop} [Decidable condition] {failure : Failure} {span : Span}
    {f : Unit → CheckM β} (h : condition → Leads site ledger s (f ()) R)
    (hfailure : failure.isDefect = false := by rfl) :
    Leads site ledger s (ensure condition failure span >>= f) R := by
  refine still (.ensure hfailure) ?_
  intro r s' hrun
  obtain ⟨hcondition, rfl⟩ := hrun.ensure
  exact ⟨rfl, h hcondition⟩

/-- A test that holds. -/
theorem ensured {condition : Prop} [Decidable condition] {failure : Failure} {span : Span}
    {f : Unit → CheckM β} (hcondition : condition) (h : Leads site ledger s (f ()) R) :
    Leads site ledger s (Checker.ensure condition failure span >>= f) R := by
  rw [Checker.ensure, if_pos hcondition]
  exact h

theorem ofExcept {span : Span} {result : Except Failure α}
    (hresult : ∀ failure, result = .error failure → failure.isDefect = false)
    (h : ∀ r, result = .ok r → Leads site ledger s (f r) R) :
    Leads site ledger s (ofExcept span result >>= f) R := by
  refine still (.ofExcept hresult) ?_
  intro r s' hrun
  obtain ⟨hok, rfl⟩ := hrun.ofExcept
  exact ⟨rfl, h r hok⟩

theorem resolve {f : Ty → CheckM β} (h : Leads site ledger s (f (s.unifier.resolve t)) R) :
    Leads site ledger s (resolve t >>= f) R := by
  refine still (safe_of ends_resolve) ?_
  intro r s' hrun
  have h1 := hrun.get_bind
  obtain ⟨rfl, rfl⟩ := h1.pure
  exact ⟨rfl, h⟩

/-- A step that changes the state in a known way. -/
theorem change {g : Checker → α × Checker} (hadv : Advance site ledger s ledger' (g s).2)
    (hP : P ledger' (g s).2 (g s).1) : Leads site ledger s (modifyGet g) P where
  ok := by
    intro r s' hrun
    obtain ⟨rfl, rfl⟩ := hrun.modifyGet
    exact ⟨ledger', hadv, hP⟩
  safe := .modifyGet g

theorem update {g : Checker → Checker} {P : Ledger → Checker → Unit → Prop}
    (hadv : Advance site ledger s ledger' (g s)) (hP : P ledger' (g s) ()) :
    Leads site ledger s (modify g) P :=
  change hadv hP

end Leads

end Checker

end TraitCheck
