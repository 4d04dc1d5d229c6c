import TraitCheck.Proofs.BuiltIns
import TraitCheck.Proofs.ShapedTypes

/-!
States in which all types are shaped. What a type, a value or a piece of evidence
may refer to is given by an extent: the type names with their arguments, the ids
drawn so far and the slots of each trait. An extent only ever grows, so what is
shaped stays shaped. `Leaves` says of a step that it leaves a well-shaped state,
and that what it returns or names in its failure is shaped there too; it is put
together along the steps of a computation, whether they succeed or fail.
-/

namespace TraitCheck

/-- What there is to refer to. -/
structure Extent where
  /-- How many arguments each known type name takes. -/
  arity : String → Option Nat
  /-- The variables and tracers below are drawn. -/
  vars : Nat
  /-- The bindings below are made. -/
  bindings : Nat
  /-- The number of methods of each declared trait. -/
  slots : Trait → Option Nat

namespace Extent

/-- All that is in the first is in the second. -/
structure Within (e e' : Extent) : Prop where
  arity : ∀ name count, e.arity name = some count → e'.arity name = some count
  vars : e.vars ≤ e'.vars
  bindings : e.bindings ≤ e'.bindings
  slots : ∀ bound count, e.slots bound = some count → e'.slots bound = some count

def Shapes (e : Extent) (t : Ty) : Prop := t.Shaped e.arity e.vars

def Covers (e : Extent) (ts : List Ty) : Prop := ∀ t ∈ ts, e.Shapes t

/-- The type is shaped and has no obligations, as if it were written. -/
def Writes (e : Extent) (t : Ty) : Prop :=
  t.Formed ⟨e.arity, {id | id < e.vars}, fun _ => False⟩ {v | v.id < e.vars}

/-- The binding is made, the slot is there. -/
def Knows (e : Extent) : ValueKind → Prop
  | .binding id => id < e.bindings
  | .builtin _ => True
  | .method bound index => ∃ count, e.slots bound = some count ∧ index < count

variable {e e' e'' : Extent} {ts ts' : List Ty} {t : Ty}

theorem Within.refl (e : Extent) : e.Within e :=
  ⟨fun _ _ h => h, le_refl _, le_refl _, fun _ _ h => h⟩

theorem Within.trans (h : e.Within e') (h' : e'.Within e'') : e.Within e'' where
  arity := fun name count hname => h'.arity name count (h.arity name count hname)
  vars := le_trans h.vars h'.vars
  bindings := le_trans h.bindings h'.bindings
  slots := fun bound count hbound => h'.slots bound count (h.slots bound count hbound)

theorem Within.isSome_slots (h : e.Within e') {bound : Trait}
    (hbound : (e.slots bound).isSome = true) : (e'.slots bound).isSome = true := by
  obtain ⟨count, hcount⟩ := Option.isSome_iff_exists.mp hbound
  exact Option.isSome_iff_exists.mpr ⟨count, h.slots bound count hcount⟩

theorem Within.shapes (h : e.Within e') (ht : e.Shapes t) : e'.Shapes t :=
  ht.mono h.arity h.vars

theorem Within.covers (h : e.Within e') (hts : e.Covers ts) : e'.Covers ts :=
  fun t ht => h.shapes (hts t ht)

theorem Writes.shapes (h : e.Writes t) : e.Shapes t :=
  Ty.Formed.extend h ⟨⟨fun _ _ h => h, subset_refl _⟩, fun _ h => h.elim⟩

theorem Within.writes (h : e.Within e') (ht : e.Writes t) : e'.Writes t := by
  have hextends : Lexicon.Extends ⟨e.arity, {id | id < e.vars}, fun _ => False⟩
      ⟨e'.arity, {id | id < e'.vars}, fun _ => False⟩ :=
    ⟨⟨h.arity, fun _ hid => lt_of_lt_of_le hid h.vars⟩, fun _ h => h⟩
  exact (Ty.Formed.extend ht hextends).mono fun _ hv => lt_of_lt_of_le hv h.vars

theorem Within.knows (h : e.Within e') {kind : ValueKind} (hkind : e.Knows kind) :
    e'.Knows kind := by
  cases kind with
  | binding id => exact lt_of_lt_of_le hkind h.bindings
  | builtin op => trivial
  | method bound index =>
    obtain ⟨count, hcount, hindex⟩ := hkind
    exact ⟨count, h.slots bound count hcount, hindex⟩

theorem Covers.nil : e.Covers [] :=
  fun _ ht => absurd ht List.not_mem_nil

@[simp] theorem covers_nil : e.Covers [] ↔ True :=
  iff_of_true .nil trivial

@[simp] theorem covers_cons : e.Covers (t :: ts) ↔ e.Shapes t ∧ e.Covers ts :=
  List.forall_mem_cons

theorem covers_singleton : e.Covers [t] ↔ e.Shapes t := List.forall_mem_singleton

@[simp] theorem covers_append : e.Covers (ts ++ ts') ↔ e.Covers ts ∧ e.Covers ts' :=
  List.forall_mem_append

@[simp] theorem covers_flatMap {γ : Type} {l : List γ} {f : γ → List Ty} :
    e.Covers (l.flatMap f) ↔ ∀ c ∈ l, e.Covers (f c) := by
  refine ⟨fun h c hc t ht => h t (List.mem_flatMap.mpr ⟨c, hc, ht⟩), fun h t ht => ?_⟩
  obtain ⟨c, hc, ht⟩ := List.mem_flatMap.mp ht
  exact h c hc t ht

@[simp] theorem covers_map {γ : Type} {l : List γ} {f : γ → Ty} :
    e.Covers (l.map f) ↔ ∀ c ∈ l, e.Shapes (f c) :=
  List.forall_mem_map

theorem covers_toList {ty : Option Ty} : e.Covers ty.toList ↔ ∀ t, ty = some t → e.Shapes t := by
  cases ty <;> simp

theorem shapes_func {ps : List Ty} {ret : Ty} (hps : e.Covers ps) (hret : e.Shapes ret) :
    e.Shapes (.func ps ret) :=
  Ty.formed_func hps hret

end Extent

/-! The types of entries. -/

def Value.types (value : Value) : List Ty := value.ty :: value.generics.map .var

def AdtKind.types : AdtKind → List Ty
  | .pending => []
  | .struct fields => fields.values
  | .enum tags => tags.values.flatMap (·.values)

def Adt.types (adt : Adt) : List Ty := adt.ty :: adt.kind.types

def TraitDecl.types (decl : TraitDecl) : List Ty := .var decl.selfVar :: decl.methods.values

/-- The entries of a scope refer to what is there. -/
def Extent.rules (e : Extent) : EntryRules where
  value := fun _ value => e.Covers value.types ∧ e.Knows value.kind
  type := fun _ _ ty => e.Writes ty
  upvalue := fun up => e.Shapes up.ty ∧ up.binding < e.bindings

theorem Extent.captures_rules (e : Extent) : e.rules.Captures := by
  intro value id depth hvalue hkind
  obtain ⟨htypes, hknows⟩ := hvalue
  rw [hkind] at hknows
  exact ⟨htypes _ List.mem_cons_self, hknows⟩

theorem Extent.Within.rules {e e' : Extent} (h : e.Within e') {scope : Scope}
    (hscope : scope.Every e.rules) : scope.Every e'.rules :=
  hscope.imp (fun _ _ _ hvalue => ⟨h.covers hvalue.1, h.knows hvalue.2⟩)
    (fun _ _ _ _ hty => h.writes hty)
    fun _ _ hup => ⟨h.shapes hup.1, lt_of_lt_of_le hup.2 h.bindings⟩

/-- The evidence is for a declared trait, and is not about ids to be drawn. -/
structure Extent.Admits (e : Extent) (con : Con) (bound : Trait) (evidence : Evidence) : Prop where
  declared : (e.slots bound).isSome = true
  con : con.Below e.vars
  binding : ∀ name id, evidence = .binding name id → id < e.bindings

theorem Extent.Within.admits {e e' : Extent} (h : e.Within e') {con : Con} {bound : Trait}
    {evidence : Evidence} (hev : e.Admits con bound evidence) : e'.Admits con bound evidence where
  declared := h.isSome_slots hev.declared
  con := hev.con.mono h.vars
  binding := fun name id heq => lt_of_lt_of_le (hev.binding name id heq) h.bindings

namespace Checker

variable {α β : Type} {s s' s'' : Checker} {t : Ty} {ts : List Ty}

def extent (s : Checker) : Extent :=
  ⟨s.arities, s.unifier.next, s.scope.nextBinding,
    fun bound => (s.registry.trait? bound).map (·.methods.size)⟩

/-- No declared type has the name of a trait, and none of them that of a built-in
type. -/
structure Apart (adts : AdtTable) (registry : Registry) : Prop where
  adts : ∀ name adt, Assoc.find? adts name = some adt →
    name ∉ Prelude.types ∧ registry.trait? name = none
  traits : ∀ name decl, registry.trait? name = some decl → name ∉ Prelude.types

/-- The types in the state are shaped, and all that entries refer to is there. -/
structure Fitting (s : Checker) : Prop where
  unifier : s.unifier.Shaped s.arities
  scope : s.scope.Every s.extent.rules
  functions : ∀ f ∈ s.functions, s.extent.Covers f.ret.toList
  adts : ∀ name adt, Assoc.find? s.adts name = some adt →
    adt.name = name ∧ s.extent.Covers adt.types
  traits : ∀ name decl, s.registry.trait? name = some decl →
    decl.name = name ∧ s.extent.Covers decl.types
  evidence : ∀ con bound evidence, s.registry.lookup con bound = some evidence →
    s.extent.Admits con bound evidence
  apart : Apart s.adts s.registry

/-- Also the built-in environment is there, and the outermost frame has the names
of all built-in and declared types. -/
structure WellShaped (s : Checker) : Prop extends Fitting s where
  installed : s.preludeInstalled = true
  builtins : ∀ name ∈ Prelude.types, s.scope.root.types.contains name = true
  declared : ∀ name, (Assoc.find? s.adts name).isSome = true →
    s.scope.root.types.contains name = true

/-! Names of types. -/

namespace Fitting

variable {name : String} {bound : Trait}

theorem arity_builtin (hs : Fitting s) (hname : name ∈ Prelude.types) :
    s.arities name = some 0 := by
  rw [arities]
  split
  · rename_i adt hfind
    exact absurd hname (hs.apart.adts name adt hfind).1
  · rw [if_pos hname]

theorem arity_trait (hs : Fitting s) (hbound : s.registry.isDeclared bound = true) :
    s.arities bound = some 1 := by
  obtain ⟨decl, hdecl⟩ := Option.isSome_iff_exists.mp hbound
  rw [arities]
  split
  · rename_i adt hfind
    rw [(hs.apart.adts bound adt hfind).2] at hdecl
    cases hdecl
  · rw [if_neg (hs.apart.traits bound decl hdecl), if_pos hbound]

theorem shapes_builtin (hs : Fitting s) (hname : name ∈ Prelude.types) :
    s.extent.Shapes (.named name []) :=
  Ty.formed_named (hs.arity_builtin hname) fun _ ht => absurd ht List.not_mem_nil

theorem shapes_bool (hs : Fitting s) : s.extent.Shapes .bool := hs.shapes_builtin (by decide)

theorem shapes_void (hs : Fitting s) : s.extent.Shapes .void := hs.shapes_builtin (by decide)

theorem shapes_dictionary (hs : Fitting s) (hbound : s.registry.isDeclared bound = true)
    (ht : s.extent.Shapes t) : s.extent.Shapes (dictionaryType bound t) :=
  Ty.formed_dictionaryType (hs.arity_trait hbound) ht

end Fitting

theorem isSome_slots {bound : Trait} :
    (s.extent.slots bound).isSome = s.registry.isDeclared bound :=
  Option.isSome_map

theorem arities_congr (hadts : s'.adts = s.adts) (htraits : s'.registry.traits = s.registry.traits) :
    s'.arities = s.arities := by
  funext name
  rw [arities, arities, hadts, Registry.isDeclared, Registry.isDeclared, Registry.trait?,
    Registry.trait?, htraits]

theorem within_congr (hadts : s'.adts = s.adts) (htraits : s'.registry.traits = s.registry.traits)
    (hvars : s.unifier.next ≤ s'.unifier.next)
    (hbindings : s.scope.nextBinding ≤ s'.scope.nextBinding) : s.extent.Within s'.extent := by
  have harities := arities_congr hadts htraits
  refine ⟨fun name _ hname => ?_, hvars, hbindings, fun bound _ hbound => ?_⟩
  · exact (congrFun harities name).trans hname
  · change (s'.registry.traits.find? bound).map _ = _
    rw [htraits]
    exact hbound

/-! Steps from one well-shaped state to another. -/

/-- The second state is well shaped, and nothing is taken back. -/
structure Reaches (s s' : Checker) : Prop where
  shaped : WellShaped s'
  within : s.extent.Within s'.extent

theorem WellShaped.stay (hs : WellShaped s) : Reaches s s := ⟨hs, .refl _⟩

namespace Reaches

theorem trans (h : Reaches s s') (h' : Reaches s' s'') : Reaches s s'' :=
  ⟨h'.shaped, h.within.trans h'.within⟩

theorem shapes (h : Reaches s s') (ht : s.extent.Shapes t) : s'.extent.Shapes t :=
  h.within.shapes ht

theorem covers (h : Reaches s s') (hts : s.extent.Covers ts) : s'.extent.Covers ts :=
  h.within.covers hts

end Reaches

/-- However the step has ended, the state is well shaped, and so are the types in
its result or in its failure. -/
structure Ended (s : Checker) (x : CheckM α) (Q : Extent → α → Prop) : Prop where
  reaches : Reaches s (x.run.run s).2
  ok : ∀ a, (x.run.run s).1 = .ok a → Q (x.run.run s).2.extent a
  error : ∀ e, (x.run.run s).1 = .error e → (x.run.run s).2.extent.Covers e.failure.types

/-- From a well-shaped state the step ends in one. -/
def Leaves (s : Checker) (x : CheckM α) (Q : Extent → α → Prop) : Prop :=
  WellShaped s → Ended s x Q

variable {x : CheckM α} {f : α → CheckM β} {P : Extent → α → Prop} {Q : Extent → β → Prop}

theorem Ended.bind (hx : Ended s x P)
    (hf : ∀ a s1, Yields x s a s1 → Reaches s s1 → P s1.extent a → Leaves s1 (f a) Q) :
    Ended s (x >>= f) Q := by
  obtain ⟨hreaches, hok, herror⟩ := hx
  cases hrun : x.run.run s with
  | mk r s1 =>
    rw [hrun] at hreaches hok herror
    cases r with
    | error e =>
      have hbind : (x >>= f).run.run s = (.error e, s1) := by rw [Runs.run_bind, hrun]
      refine ⟨hbind ▸ hreaches, ?_, ?_⟩
      · rw [hbind]
        rintro _ ⟨⟩
      · rw [hbind]
        rintro _ ⟨⟩
        exact herror e rfl
    | ok a =>
      have hbind : (x >>= f).run.run s = (f a).run.run s1 := by rw [Runs.run_bind, hrun]
      obtain ⟨hreaches', hok', herror'⟩ := hf a s1 hrun hreaches (hok a rfl) hreaches.shaped
      rw [← hbind] at hreaches' hok' herror'
      exact ⟨hreaches.trans hreaches', hok', herror'⟩

namespace Leaves

theorem of (h : WellShaped s → Leaves s x P) : Leaves s x P := fun hs => h hs hs

theorem bind (hx : Leaves s x P)
    (hf : ∀ a s1, Yields x s a s1 → Reaches s s1 → P s1.extent a → Leaves s1 (f a) Q) :
    Leaves s (x >>= f) Q :=
  fun hs => (hx hs).bind hf

/-- A step that changes the state in a known way. -/
theorem change {g : Checker → α × Checker} (h : WellShaped s → Reaches s (g s).2)
    (hP : P (g s).2.extent (g s).1) : Leaves s (modifyGet g) P := by
  refine fun hs => ⟨h hs, ?_, by rintro _ ⟨⟩⟩
  rintro _ ⟨⟩
  exact hP

theorem update {g : Checker → Checker} {P : Extent → Unit → Prop}
    (h : WellShaped s → Reaches s (g s)) (hP : P (g s).extent ()) : Leaves s (modify g) P :=
  change h hP

theorem pure {a : α} (ha : P s.extent a) : Leaves s (Pure.pure a) P := by
  refine fun hs => ⟨hs.stay, ?_, by rintro _ ⟨⟩⟩
  rintro _ ⟨⟩
  exact ha

theorem throw {e : TypeError} (h : s.extent.Covers e.failure.types) :
    Leaves s (throw e : CheckM α) P := by
  refine fun hs => ⟨hs.stay, by rintro _ ⟨⟩, ?_⟩
  rintro _ ⟨⟩
  exact h

theorem fail {failure : Failure} {span : Span} (h : s.extent.Covers failure.types) :
    Leaves s (fail failure span : CheckM α) P :=
  .throw h

/-- A failure that names one type. -/
theorem failAt {failure : Failure} {span : Span} (ht : s.extent.Shapes t)
    (h : failure.types = [t]) : Leaves s (Checker.fail failure span : CheckM α) P := by
  refine .fail ?_
  rw [h]
  exact Extent.covers_singleton.mpr ht

/-- Reading the state. -/
theorem get {g : Checker → CheckM β} (h : Leaves s (g s) Q) : Leaves s (get >>= g) Q :=
  fun hs => ⟨(h hs).reaches, (h hs).ok, (h hs).error⟩

theorem resolve {g : Ty → CheckM β} (h : Leaves s (g (s.unifier.resolve t)) Q) :
    Leaves s (resolve t >>= g) Q :=
  get h

theorem ensure {condition : Prop} [Decidable condition] {failure : Failure} {span : Span}
    {g : Unit → CheckM β} (hfailure : s.extent.Covers failure.types)
    (h : condition → Leaves s (g ()) Q) : Leaves s (ensure condition failure span >>= g) Q := by
  by_cases hcondition : condition
  · rw [Checker.ensure, if_pos hcondition]
    exact h hcondition
  · rw [Checker.ensure, if_neg hcondition]
    exact .bind (.fail hfailure (P := fun _ _ => False)) fun _ _ _ _ hfalse => hfalse.elim

theorem ofExcept {r : Except Failure α} {span : Span} (hok : ∀ a, r = .ok a → P s.extent a)
    (herror : ∀ failure, r = .error failure → s.extent.Covers failure.types) :
    Leaves s (ofExcept span r) P := by
  cases r with
  | ok a => exact .pure (hok a rfl)
  | error failure => exact .fail (herror failure rfl)

theorem forM {γ : Type} {names : List γ} {g : γ → CheckM Unit}
    (hg : ∀ c ∈ names, ∀ s', s.extent.Within s'.extent → Leaves s' (g c) fun _ _ => True) :
    Leaves s (names.forM g) fun _ _ => True := by
  induction names generalizing s with
  | nil => exact .pure trivial
  | cons c rest ih =>
    rw [List.forM]
    refine .bind (hg c List.mem_cons_self s (.refl _)) fun _ _ _ h1 _ => ?_
    exact ih fun c' hc' s' h' => hg c' (List.mem_cons_of_mem c hc') s' (h1.within.trans h')

end Leaves

/-! Changes of one part of the state. -/

/-- The declarations are the same, and what is drawn and what is in scope has
grown. -/
theorem Fitting.change (hs : Fitting s) {unifier : Unifier} {scope : Scope}
    {functions : List Returning} (hnext : s.unifier.next ≤ unifier.next)
    (hunifier : unifier.Shaped s.arities) (hbinding : s.scope.nextBinding ≤ scope.nextBinding)
    (hscope : scope.Every (extent { s with unifier, scope, functions }).rules)
    (hfunctions : ∀ f ∈ functions, (extent { s with unifier, scope, functions }).Covers f.ret.toList) :
    Fitting { s with unifier, scope, functions } := by
  have hwithin : s.extent.Within (extent { s with unifier, scope, functions }) :=
    within_congr rfl rfl hnext hbinding
  exact ⟨hunifier, hscope, hfunctions,
    fun name adt hfind => ⟨(hs.adts name adt hfind).1, hwithin.covers (hs.adts name adt hfind).2⟩,
    fun name decl hfind =>
      ⟨(hs.traits name decl hfind).1, hwithin.covers (hs.traits name decl hfind).2⟩,
    fun con bound evidence h => hwithin.admits (hs.evidence con bound evidence h), hs.apart⟩

namespace WellShaped

theorem setUnifier (hs : WellShaped s) {unifier : Unifier} (hnext : s.unifier.next ≤ unifier.next)
    (hunifier : unifier.Shaped s.arities) : Reaches s { s with unifier } := by
  have hwithin : s.extent.Within (extent { s with unifier }) :=
    within_congr rfl rfl hnext (le_refl _)
  refine ⟨⟨?_, hs.installed, hs.builtins, hs.declared⟩, hwithin⟩
  exact hs.change hnext hunifier (le_refl _) (hwithin.rules hs.scope)
    fun f hf => hwithin.covers (hs.functions f hf)

/-- Variables are drawn. -/
theorem draw (hs : WellShaped s) {next : Nat} (hnext : s.unifier.next ≤ next) :
    Reaches s { s with unifier := { s.unifier with next } } :=
  hs.setUnifier hnext fun id t ht => (hs.unifier id t ht).next_le hnext

theorem setScope (hs : WellShaped s) {scope : Scope}
    (hbinding : s.scope.nextBinding ≤ scope.nextBinding)
    (hscope : scope.Every (extent { s with scope }).rules)
    (hroot : ∀ name, s.scope.root.types.contains name = true →
      scope.root.types.contains name = true) : Reaches s { s with scope } := by
  have hwithin : s.extent.Within (extent { s with scope }) :=
    within_congr rfl rfl (le_refl _) hbinding
  refine ⟨⟨?_, hs.installed, fun name hname => hroot name (hs.builtins name hname),
    fun name hname => hroot name (hs.declared name hname)⟩, hwithin⟩
  exact hs.change (le_refl _) hs.unifier hbinding hscope
    fun f hf => hwithin.covers (hs.functions f hf)

theorem setFunctions (hs : WellShaped s) {functions : List Returning}
    (hfunctions : ∀ f ∈ functions, s.extent.Covers f.ret.toList) : Reaches s { s with functions } :=
  ⟨⟨hs.change (le_refl _) hs.unifier (le_refl _) hs.scope hfunctions, hs.installed, hs.builtins,
    hs.declared⟩, .refl _⟩

theorem resolve (hs : WellShaped s) (ht : s.extent.Shapes t) :
    s.extent.Shapes (s.unifier.resolve t) :=
  hs.unifier.resolve ht

theorem covers_resolve (hs : WellShaped s) (hts : s.extent.Covers ts) :
    s.extent.Covers (ts.map s.unifier.resolve) :=
  Extent.covers_map.mpr fun t ht => hs.resolve (hts t ht)

end WellShaped

/-! Steps that draw ids and bind type variables. -/

variable {span : Span}

theorem leaves_fresh {name : String} {traits : TraitSet} :
    Leaves s (fresh name traits) fun e v => e.Shapes (.var v) :=
  .change (·.draw (Nat.le_succ _)) (Ty.shaped_var (Nat.lt_succ_self _))

theorem leaves_freshId : Leaves s freshId fun e id => id < e.vars :=
  .change (·.draw (Nat.le_succ _)) (Nat.lt_succ_self _)

theorem leaves_freshBinding : Leaves s freshBinding fun e id => id < e.bindings := by
  refine .change (fun hs => hs.setScope (Nat.le_succ _) ?_ fun _ h => h) (Nat.lt_succ_self _)
  have hwithin : s.extent.Within (extent { s with scope := s.scope.freshBinding.2 }) :=
    within_congr rfl rfl (le_refl _) (Nat.le_succ _)
  exact hwithin.rules hs.scope

theorem leaves_instantiate {value : Value} (h : s.extent.Shapes value.ty) :
    Leaves s (instantiate value) fun e ty => e.Shapes ty :=
  .change (·.draw (Nat.le_add_right _ _)) (h.relabel value.generics)

theorem leaves_resolve? {ty : Option Ty} (h : s.extent.Covers ty.toList) :
    Leaves s (resolve? ty) fun e ty => e.Covers ty.toList := by
  refine .of fun hs => ?_
  cases ty with
  | none => exact .pure h
  | some ty =>
    refine .resolve (.pure ?_)
    simp only [Option.toList_some, Extent.covers_cons, Extent.covers_nil, and_true] at h ⊢
    exact hs.resolve h

theorem leaves_unify {expected found : Ty}
    (hexpected : s.extent.Shapes expected) (hfound : s.extent.Shapes found) :
    Leaves s (unify span expected found) fun e ty => e.Shapes ty := by
  intro hs
  have hends : Unifier.Ends s.arities s.unifier (Unifier.unify s.registry expected found) _ :=
    Unifier.ends_unify hs.unifier hexpected hfound
  have hreaches := hs.setUnifier hends.next hends.shaped
  have hresult : Ended _ (ofExcept span _) fun e ty => e.Shapes ty :=
    Leaves.ofExcept hends.ok hends.error hreaches.shaped
  exact ⟨hreaches.trans hresult.reaches, hresult.ok, hresult.error⟩

theorem leaves_join {before : Option Ty} {ty : Ty}
    (hbefore : s.extent.Covers before.toList) (hty : s.extent.Shapes ty) :
    Leaves s (join span before ty) fun e ty => e.Shapes ty := by
  cases before with
  | none => exact .pure hty
  | some before => exact leaves_unify (hbefore before List.mem_cons_self) hty

end Checker

end TraitCheck
