import TraitCheck.Checker.Prelude
import TraitCheck.Proofs.TraitBounds

/-!
Well-shaped types. A lexicon says what types are made of: the arguments that a
constructor takes, the tracers in use, and the obligations that a function may
have. A type is formed over a set of variables if all its heads and obligations
are in the lexicon and all its variables in the set. Whatever reads a type or
puts types in place of variables keeps this, and so does unification: what it
binds and what it returns is formed over the variables that are then drawn.
-/

namespace TraitCheck

/-- The obligation can be met: its variable has the trait, or there is evidence
for its constructor. -/
def Registry.Meets (registry : Registry) (o : Obligation) : Prop :=
  match o.ty with
  | .var v => o.bound ∈ v.traits
  | .app head _ => (registry.lookup head.con o.bound).isSome = true

theorem Registry.fits_iff {registry : Registry} {traits : TraitSet} {t : Ty} :
    registry.Fits traits t ↔ ∀ bound ∈ traits, registry.Meets ⟨t, bound⟩ := by
  cases t <;> exact Iff.rfl

/-- What types are made of. -/
structure Lexicon where
  /-- How many arguments each known type name takes. -/
  arity : String → Option Nat
  /-- The tracers in use. -/
  tracers : Set Nat
  /-- The obligations that a function type may have. -/
  meets : Obligation → Prop

/-- The head takes that many arguments. Only functions have bounds, and only
arrays have a size. -/
def Head.Admits (L : Lexicon) (head : Head) (count : Nat) : Prop :=
  match head.con with
  | .named name => head.size = 0 ∧ head.bounds = [] ∧ L.arity name = some count
  | .tuple arity => head.size = 0 ∧ head.bounds = [] ∧ count = arity
  | .func arity => head.size = 0 ∧ count = arity + 1 + head.bounds.length
  | .array => head.bounds = [] ∧ count = 1
  | .tracer id _ => head.size = 0 ∧ head.bounds = [] ∧ count = 0 ∧ id ∈ L.tracers

namespace Lexicon

/-- The heads of the first are in the second. -/
structure Includes (L L' : Lexicon) : Prop where
  arity : ∀ name count, L.arity name = some count → L'.arity name = some count
  tracers : L.tracers ⊆ L'.tracers

/-- All that is in the first is in the second. -/
structure Extends (L L' : Lexicon) : Prop extends Includes L L' where
  meets : ∀ o, L.meets o → L'.meets o

theorem Extends.refl (L : Lexicon) : L.Extends L :=
  ⟨⟨fun _ _ h => h, subset_refl _⟩, fun _ h => h⟩

theorem Extends.trans {L L' L'' : Lexicon} (h : L.Extends L') (h' : L'.Extends L'') :
    L.Extends L'' :=
  ⟨⟨fun name count hname => h'.arity name count (h.arity name count hname),
    h.tracers.trans h'.tracers⟩, fun o ho => h'.meets o (h.meets o ho)⟩

end Lexicon

theorem Head.Admits.include {L L' : Lexicon} {head : Head} {count : Nat} (h : head.Admits L count)
    (hL : L.Includes L') : head.Admits L' count := by
  obtain ⟨con, size, bounds⟩ := head
  cases con with
  | named name => exact ⟨h.1, h.2.1, hL.arity name count h.2.2⟩
  | tracer id name => exact ⟨h.1, h.2.1, h.2.2.1, hL.tracers h.2.2.2⟩
  | tuple | func | array => exact h

def Obligation.map (f : Ty → Ty) (o : Obligation) : Obligation := ⟨f o.ty, o.bound⟩

namespace Ty

variable {L L' : Lexicon} {D D' : Set TyVar} {t : Ty} {head : Head} {args : List Ty}

/-- Keeps the head of a type and goes through its arguments. -/
structure Hom (f : Ty → Ty) : Prop where
  app : ∀ head args, f (.app head args) = .app head (args.map f)

theorem hom_replace (map : VarId → Option Ty) : Hom (·.replace map) := ⟨replace_app map⟩

theorem obligations_map (f : Ty → Ty) (head : Head) (args : List Ty) :
    (Ty.app head (args.map f)).obligations =
      (Ty.app head args).obligations.map (Obligation.map f) := by
  rw [obligations, obligations, List.length_map, ← List.map_drop, List.zipWith_map_left,
    List.map_zipWith]
  rfl

theorem ty_mem_of_obligation {o : Obligation} (ho : o ∈ (Ty.app head args).obligations) :
    o.ty ∈ args := by
  rw [obligations, ← List.map_uncurry_zip_eq_zipWith] at ho
  obtain ⟨⟨s, bound⟩, hmem, rfl⟩ := List.mem_map.mp ho
  exact List.mem_of_mem_drop (List.of_mem_zip hmem).1

/-- The tracer occurs in the type. -/
inductive Traces (id : Nat) : Ty → Prop
  | here {name : String} {size : Nat} {bounds : List Trait} {args : List Ty} :
      Traces id (.app ⟨.tracer id name, size, bounds⟩ args)
  | arg {head : Head} {args : List Ty} {t : Ty} : t ∈ args → Traces id t →
      Traces id (.app head args)

/-- All heads and obligations are in the lexicon, and all variables are among
the given ones. -/
inductive Formed (L : Lexicon) (D : Set TyVar) : Ty → Prop
  | var {v : TyVar} : v ∈ D → Formed L D (.var v)
  | app {head : Head} {args : List Ty} : head.Admits L args.length → (∀ t ∈ args, Formed L D t) →
      (∀ o ∈ (Ty.app head args).obligations, L.meets o) → Formed L D (.app head args)

namespace Formed

variable {f : Ty → Ty}

theorem var_mem {v : TyVar} (h : (Ty.var v).Formed L D) : v ∈ D := by
  cases h
  assumption

theorem admits (h : (Ty.app head args).Formed L D) : head.Admits L args.length := by
  cases h
  assumption

theorem arg (h : (Ty.app head args).Formed L D) (ht : t ∈ args) : t.Formed L D := by
  cases h with
  | app _ hargs _ => exact hargs t ht

theorem meets (h : t.Formed L D) {o : Obligation} (ho : o ∈ t.obligations) : L.meets o := by
  cases h with
  | var hv => cases ho
  | app _ _ hmeets => exact hmeets o ho

theorem mono (h : t.Formed L D) (hD : D ⊆ D') : t.Formed L D' := by
  induction h with
  | var hv => exact .var (hD hv)
  | app hadmits _ hmeets ih => exact .app hadmits ih hmeets

theorem isOver (h : t.Formed L D) : t.Over D := by
  induction h with
  | var hv =>
    intro w hw
    rw [mem_vars_var.mp hw]
    exact hv
  | app _ _ _ ih =>
    intro w hw
    obtain ⟨s, hs, hmem⟩ := mem_vars_app.mp hw
    exact ih s hs w hmem

theorem traces (h : t.Formed L D) {id : Nat} (hid : t.Traces id) : id ∈ L.tracers := by
  induction hid with
  | here => exact h.admits.2.2.2
  | arg ht _ ih => exact ih (h.arg ht)

theorem extend (h : t.Formed L D) (hL : L.Extends L') : t.Formed L' D := by
  induction h with
  | var hv => exact .var hv
  | app hadmits _ hmeets ih =>
    exact .app (hadmits.include hL.toIncludes) ih fun o ho => hL.meets o (hmeets o ho)

/-- A type without variables is formed over any set. -/
theorem of_closed (h : t.Formed L ∅) : t.Formed L D := h.mono (Set.empty_subset D)

/-- A head over the arguments of a formed type, read in some way. -/
theorem map_args (h : (Ty.app head args).Formed L D) (hL : L.Includes L')
    (hargs : ∀ t ∈ args, (f t).Formed L' D')
    (hmeets : ∀ t ∈ args, ∀ bound, L.meets ⟨t, bound⟩ → L'.meets ⟨f t, bound⟩) :
    (Ty.app head (args.map f)).Formed L' D' := by
  refine .app ?_ ?_ ?_
  · rw [List.length_map]
    exact h.admits.include hL
  · intro s hs
    obtain ⟨t, ht, rfl⟩ := List.mem_map.mp hs
    exact hargs t ht
  · intro o ho
    rw [obligations_map] at ho
    obtain ⟨o', ho', rfl⟩ := List.mem_map.mp ho
    exact hmeets o'.ty (ty_mem_of_obligation ho') o'.bound (h.meets ho')

/-- A head over other arguments that meet what those before met. -/
theorem exchange {args' : List Ty} (h : (Ty.app head args).Formed L D)
    (hargs : List.Forall₂ (fun t t' => t'.Formed L D' ∧
      ∀ bound, L.meets ⟨t, bound⟩ → L.meets ⟨t', bound⟩) args args') :
    (Ty.app head args').Formed L D' := by
  have hlength := hargs.length_eq
  refine .app (hlength ▸ h.admits) ?_ ?_
  · intro t' ht'
    obtain ⟨i, hi, rfl⟩ := List.getElem_of_mem ht'
    exact (hargs.get (hlength ▸ hi) hi).1
  · intro o ho
    rw [obligations] at ho
    obtain ⟨i, hi, rfl⟩ := List.getElem_of_mem ho
    rw [List.getElem_zipWith, List.getElem_drop]
    rw [List.length_zipWith, List.length_drop] at hi
    refine (hargs.get (by omega) (by omega)).2 _ (h.meets ?_)
    rw [obligations, List.mem_iff_getElem]
    refine ⟨i, by rw [List.length_zipWith, List.length_drop]; omega, ?_⟩
    rw [List.getElem_zipWith, List.getElem_drop]
    simp only [List.get_eq_getElem, hlength]

/-- What the variables are read as says how a type is read, where obligations
can still be met. -/
theorem read (hf : Hom f) (h : t.Formed L D) (hL : L.Includes L')
    (hvar : ∀ v ∈ D, (f (.var v)).Formed L' D')
    (hmeets : ∀ t bound, t.Formed L D → L.meets ⟨t, bound⟩ → L'.meets ⟨f t, bound⟩) :
    (f t).Formed L' D' := by
  induction h with
  | var hv => exact hvar _ hv
  | @app head args hadmits hargs hobligations ih =>
    rw [hf.app]
    exact map_args (.app hadmits hargs hobligations) hL ih fun t ht bound =>
      hmeets t bound (hargs t ht)

end Formed

/-! The constructors. -/

variable {ps : List Ty}

theorem concrete_nil (con : Con) (ps : List Ty) (n : Nat) :
    concrete con ps [] n = .app ⟨con, n, []⟩ ps := by
  simp [concrete]

theorem formed_concrete {con : Con} {n : Nat} (hadmits : Head.Admits L ⟨con, n, []⟩ ps.length)
    (hps : ∀ p ∈ ps, p.Formed L D) : (concrete con ps [] n).Formed L D := by
  rw [concrete_nil]
  exact .app hadmits hps (by simp [obligations])

theorem formed_named {name : String} (hname : L.arity name = some ps.length)
    (hps : ∀ p ∈ ps, p.Formed L D) : (named name ps).Formed L D :=
  formed_concrete ⟨rfl, rfl, hname⟩ hps

theorem formed_tuple {elems : List Ty} (h : ∀ t ∈ elems, t.Formed L D) : (tuple elems).Formed L D :=
  formed_concrete ⟨rfl, rfl, rfl⟩ h

theorem formed_array {elem : Ty} (h : elem.Formed L D) (n : Nat) : (array elem n).Formed L D := by
  refine formed_concrete ⟨rfl, rfl⟩ ?_
  intro t ht
  rw [List.mem_singleton.mp ht]
  exact h

theorem formed_tracer {id : Nat} (hid : id ∈ L.tracers) (name : String) :
    (tracer id name).Formed L D :=
  formed_concrete ⟨rfl, rfl, rfl, hid⟩ (by simp)

theorem formed_funcWith {os : List Obligation} {ret : Ty}
    (hos : ∀ o ∈ os, o.ty.Formed L D ∧ L.meets o) (hps : ∀ p ∈ ps, p.Formed L D)
    (hret : ret.Formed L D) : (funcWith os ps ret).Formed L D := by
  refine .app ⟨rfl, ?_⟩ ?_ ?_
  · simp only [List.length_append, List.length_cons, List.length_map]
  · intro t ht
    rcases List.mem_append.mp ht with ht | ht
    · rcases List.mem_cons.mp ht with rfl | ht
      · exact hret
      · exact hps t ht
    · obtain ⟨o, ho, rfl⟩ := List.mem_map.mp ht
      exact (hos o ho).1
  · intro o ho
    have hobligations := obligations_concrete (.func ps.length) (ret :: ps) os 0
    rw [concrete] at hobligations
    rw [hobligations] at ho
    exact (hos o ho).2

theorem formed_func {ret : Ty} (hps : ∀ p ∈ ps, p.Formed L D) (hret : ret.Formed L D) :
    (func ps ret).Formed L D :=
  formed_funcWith (by simp) hps hret

theorem formed_dictionaryType {bound : Trait} (hbound : L.arity bound = some 1) (h : t.Formed L D) :
    (dictionaryType bound t).Formed L D := by
  refine formed_named hbound ?_
  intro p hp
  rw [List.mem_singleton.mp hp]
  exact h

/-! Reading a formed type. -/

namespace Formed

variable {shape : FuncShape}

theorem param (h : t.Formed L D) {p : Ty} (hp : p ∈ t.params) : p.Formed L D := by
  cases h with
  | var hv => cases hp
  | app _ hargs _ => exact hargs p (List.mem_of_mem_take hp)

theorem eq_tuple (h : t.Formed L D) {arity : Nat} (hcon : t.con? = some (.tuple arity)) :
    t = tuple t.params := by
  cases h with
  | var hv => cases hcon
  | @app head args hadmits hargs _ =>
    obtain ⟨con, size, bounds⟩ := head
    cases hcon
    obtain ⟨hsize, hbounds, hcount⟩ := hadmits
    dsimp only at hsize hbounds hcount
    subst hsize hbounds hcount
    simp [params, tuple, concrete]

theorem eq_array (h : t.Formed L D) (hcon : t.con? = some .array) :
    ∃ elem, t.params = [elem] ∧ t = array elem t.size := by
  cases h with
  | var hv => cases hcon
  | @app head args hadmits hargs _ =>
    obtain ⟨con, size, bounds⟩ := head
    cases hcon
    obtain ⟨hbounds, hcount⟩ := hadmits
    dsimp only at hbounds hcount
    subst hbounds
    obtain ⟨elem, rfl⟩ := List.length_eq_one_iff.mp hcount
    exact ⟨elem, rfl, rfl⟩

theorem eq_named (h : t.Formed L D) {name : String} (hcon : t.con? = some (.named name)) :
    t = named name t.params ∧ L.arity name = some t.params.length := by
  cases h with
  | var hv => cases hcon
  | @app head args hadmits hargs _ =>
    obtain ⟨con, size, bounds⟩ := head
    cases hcon
    obtain ⟨hsize, hbounds, hcount⟩ := hadmits
    dsimp only at hsize hbounds hcount
    subst hsize hbounds
    have hparams : (Ty.app ⟨.named name, 0, []⟩ args).params = args := by simp [params]
    rw [hparams, named, concrete_nil]
    exact ⟨rfl, hcount⟩

theorem eq_void (h : t.Formed L D) (hL : L.arity "Void" = some 0) (hvoid : t.isVoid = true) :
    t = void := by
  rw [isVoid, isNamed, decide_eq_true_eq] at hvoid
  obtain ⟨heq, hcount⟩ := h.eq_named hvoid
  rw [hL, Option.some.injEq] at hcount
  rw [heq, List.length_eq_zero_iff.mp hcount.symm]
  rfl

/-- Where one type of a constructor has no parameters, it is the only one. -/
theorem eq_of_con {s : Ty} (h : t.Formed L D) (hs : s.Formed L D') {con : Con}
    (hcon : t.con? = some con) (hcon' : s.con? = some con) (hparams : s.params = []) : t = s := by
  cases h with
  | var hv => cases hcon
  | @app head args hadmits hargs _ =>
  cases hs with
  | var hv => cases hcon'
  | @app head' args' hadmits' hargs' _ =>
    obtain ⟨con, size, bounds⟩ := head
    obtain ⟨con', size', bounds'⟩ := head'
    cases hcon
    cases hcon'
    have hcount := congrArg List.length hparams
    rw [params, List.length_take, List.length_nil] at hcount
    dsimp only at hcount
    cases con with
    | named name =>
      obtain ⟨rfl, rfl, hlength⟩ := hadmits
      obtain ⟨rfl, rfl, hlength'⟩ := hadmits'
      rw [hlength, Option.some.injEq] at hlength'
      obtain rfl := List.length_eq_zero_iff.mp (by simpa using hcount)
      rw [List.length_eq_zero_iff.mp hlength']
    | tuple arity =>
      obtain ⟨rfl, rfl, hlength⟩ := hadmits
      obtain ⟨rfl, rfl, hlength'⟩ := hadmits'
      obtain rfl := List.length_eq_zero_iff.mp (by simpa using hcount)
      rw [List.length_eq_zero_iff.mp (hlength.trans hlength'.symm)]
    | tracer id name =>
      obtain ⟨rfl, rfl, hlength, _⟩ := hadmits
      obtain ⟨rfl, rfl, hlength', _⟩ := hadmits'
      rw [List.length_eq_zero_iff.mp hlength, List.length_eq_zero_iff.mp hlength']
    | func arity =>
      obtain ⟨_, hlength⟩ := hadmits'
      dsimp only at hlength
      omega
    | array =>
      obtain ⟨rfl, hlength⟩ := hadmits'
      rw [hlength] at hcount
      cases hcount

/-- A function type is made of its shape. -/
theorem eq_funcWith (h : t.Formed L D) (hshape : t.asFunc? = some shape) :
    t = funcWith shape.obligations shape.params shape.ret := by
  cases h with
  | var hv => cases hshape
  | @app head args hadmits hargs _ =>
    obtain ⟨con, size, bounds⟩ := head
    rw [asFunc?] at hshape
    split at hshape
    · rename_i arity ret ps hcon hparams
      cases hshape
      cases hcon
      obtain ⟨hsize, hcount⟩ := hadmits
      dsimp only at hsize hcount
      subst hsize
      have hlen : ps.length = arity := by
        have := congrArg List.length hparams
        rw [params, List.length_take, List.length_cons] at this
        dsimp only at this
        omega
      have hbounds : (Ty.app ⟨.func arity, 0, bounds⟩ args).obligations.map (·.bound) = bounds := by
        apply List.ext_getElem
        · simp [obligations]
          omega
        · intro i hi hi'
          simp [obligations]
      have htys : (Ty.app ⟨.func arity, 0, bounds⟩ args).obligations.map (·.ty) =
          args.drop (args.length - bounds.length) := by
        apply List.ext_getElem
        · simp [obligations]
          omega
        · intro i hi hi'
          simp [obligations]
      rw [funcWith, concrete, hlen, hbounds, htys, ← hparams, params, List.take_append_drop]
    · cases hshape

theorem shape_param (h : t.Formed L D) (hshape : t.asFunc? = some shape) :
    (∀ o ∈ shape.obligations, o.ty.Formed L D ∧ L.meets o) ∧ (∀ p ∈ shape.params, p.Formed L D) ∧
      shape.ret.Formed L D := by
  have heq := h.eq_funcWith hshape
  rw [heq] at h
  have hmeets : ∀ o ∈ shape.obligations, L.meets o := by
    intro o ho
    refine h.meets ?_
    rw [funcWith, obligations_concrete]
    exact ho
  rw [funcWith, concrete] at h
  refine ⟨?_, ?_, h.arg (by simp)⟩
  · intro o ho
    exact ⟨h.arg (List.mem_append_right _ (List.mem_map.mpr ⟨o, ho, rfl⟩)), hmeets o ho⟩
  · intro p hp
    exact h.arg (List.mem_append_left _ (List.mem_cons_of_mem _ hp))

/-- Types in place of tracers that are no longer in use. An obligation of such a
tracer can be met by what stands in its place. -/
theorem untrace {map : Nat → Option Ty} (h : t.Formed L D) (hnames : ∀ name count,
      L.arity name = some count → L'.arity name = some count)
    (htracers : ∀ id ∈ L.tracers, map id = none → id ∈ L'.tracers)
    (hmap : ∀ id s, map id = some s → s.Formed L' D)
    (hmeets : ∀ t bound, t.Formed L D → L.meets ⟨t, bound⟩ → L'.meets ⟨t.untrace map, bound⟩) :
    (t.untrace map).Formed L' D := by
  induction h with
  | var hv => exact .var hv
  | @app head args hadmits hargs hobligations ih =>
    have hall : head.Admits L' args.length → (Ty.app head (untraceAll map args)).Formed L' D := by
      intro hadmits'
      rw [untraceAll_eq_map]
      refine .app ?_ ?_ ?_
      · rw [List.length_map]
        exact hadmits'
      · intro s hs
        obtain ⟨t, ht, rfl⟩ := List.mem_map.mp hs
        exact ih t ht
      · intro o ho
        rw [obligations_map] at ho
        obtain ⟨o', ho', rfl⟩ := List.mem_map.mp ho
        exact hmeets o'.ty o'.bound (hargs o'.ty (ty_mem_of_obligation ho')) (hobligations o' ho')
    obtain ⟨con, size, bounds⟩ := head
    rw [Ty.untrace]
    cases con with
    | tracer id name =>
      dsimp only
      cases hid : map id with
      | none => exact hall ⟨hadmits.1, hadmits.2.1, hadmits.2.2.1, htracers id hadmits.2.2.2 hid⟩
      | some s => exact hmap id s hid
    | named name => exact hall ⟨hadmits.1, hadmits.2.1, hnames name _ hadmits.2.2⟩
    | tuple | func | array => exact hall hadmits

/-- A binding put in place of a variable. -/
theorem apply {σ : Subst} (hσ : σ.Acyclic) (hfind : ∀ id s, σ.find? id = some s → s.Formed L D)
    (hmeets : ∀ t bound, t.Formed L D → L.meets ⟨t, bound⟩ → L.meets ⟨σ.apply t, bound⟩)
    (h : t.Formed L D) : (σ.apply t).Formed L D := by
  induction t using hσ.induction with
  | unbound v hv =>
    rw [Subst.apply_unbound hσ hv]
    exact h
  | bound v s hv ih =>
    rw [Subst.apply_bound hσ hv]
    exact ih (hfind v.id s hv)
  | app head args ih =>
    rw [Subst.apply_app hσ]
    exact h.map_args (Lexicon.Extends.refl L).toIncludes (fun t ht => ih t ht (h.arg ht)) fun t ht bound =>
      hmeets t bound (h.arg ht)

theorem deref {σ : Subst} (hσ : σ.Acyclic) (hfind : ∀ id s, σ.find? id = some s → s.Formed L D)
    (h : t.Formed L D) : (σ.deref t).Formed L D := by
  induction t using hσ.induction with
  | unbound v hv =>
    rw [Subst.deref_unbound σ hv]
    exact h
  | bound v s hv ih =>
    rw [Subst.deref_bound hσ hv]
    exact ih (hfind v.id s hv)
  | app head args =>
    rw [Subst.deref_app]
    exact h

end Formed

end Ty

namespace Unifier

variable {L L' : Lexicon} {registry : Registry} {D D' : Set TyVar} {u u' : Unifier}
variable {bound : Trait} {v : TyVar}

/-- Only drawn variables are bound, to types over drawn variables, and each of
them stands for a type with its traits. -/
structure Supplied (L : Lexicon) (D : Set TyVar) (u : Unifier) : Prop where
  consistent : Consistent D u
  formed : ∀ id t, u.subst.find? id = some t → t.Formed L D
  keys : ∀ id t, u.subst.find? id = some t → ∃ v ∈ D, v.id = id
  fits : ∀ v ∈ D, ∀ bound ∈ v.traits, L.meets ⟨u.resolve (.var v), bound⟩

namespace Supplied

theorem vars_subset (h : u.Supplied L D) : u.subst.vars ⊆ D := by
  rintro v ⟨id, t, hfind, hv⟩
  exact (h.formed id t hfind).isOver v hv

theorem known_eq (h : u.Supplied L D) : u.known D = D :=
  Set.union_eq_self_of_subset_right h.vars_subset

theorem valid (h : u.Supplied L D) : u.Valid := h.consistent.valid

theorem extend (h : u.Supplied L D) (hL : L.Extends L') : u.Supplied L' D where
  consistent := h.consistent
  formed := fun id t ht => (h.formed id t ht).extend hL
  keys := h.keys
  fits := fun v hv bound hbound => hL.meets _ (h.fits v hv bound hbound)

/-- What an obligation of a type is met by meets that of the resolved type. -/
theorem meets_resolve (h : u.Supplied L D) (hL : L.meets = registry.Meets) {t : Ty}
    (ht : t.Formed L D) (hmeets : L.meets ⟨t, bound⟩) : L.meets ⟨u.resolve t, bound⟩ := by
  cases t with
  | var v =>
    rw [hL] at hmeets
    exact h.fits v ht.var_mem bound hmeets
  | app head args =>
    rw [resolve_app h.valid]
    rw [hL] at hmeets ⊢
    exact hmeets

theorem resolve (h : u.Supplied L D) (hL : L.meets = registry.Meets) {t : Ty}
    (ht : t.Formed L D) : (u.resolve t).Formed L D :=
  ht.apply h.valid.acyclic h.formed fun _ _ => h.meets_resolve hL

end Supplied

theorem Consistent.known (h : Consistent D u) : Consistent (u.known D) u := by
  have heq : u.known (u.known D) = u.known D :=
    Set.union_eq_self_of_subset_right Set.subset_union_right
  refine ⟨h.valid, fun _ hv => h.lt_next hv, ?_⟩
  rw [heq]
  exact h.unique

/-- The type is formed over the known variables, and so are the bindings. -/
structure Forms (L : Lexicon) (D : Set TyVar) (u : Unifier) (t : Ty) : Prop where
  consistent : Consistent D u
  supplied : u.Supplied L (u.known D)
  formed : t.Formed L (u.known D)

namespace Forms

variable {t : Ty}

theorem knows (h : Forms L D u t) : Knows D u t := ⟨h.consistent, h.formed.isOver⟩

theorem deref {s : Ty} (h : Forms L D u t) (hs : u.subst.deref t = s) : Forms L D u s :=
  ⟨h.consistent, h.supplied, hs ▸ h.formed.deref h.supplied.valid.acyclic h.supplied.formed⟩

theorem arg {head : Head} {args : List Ty} (h : Forms L D u (.app head args)) (ht : t ∈ args) :
    Forms L D u t :=
  ⟨h.consistent, h.supplied, h.formed.arg ht⟩

end Forms

/-- The root of a type meets what the type meets. -/
theorem Forms.meets_deref {t : Ty} (h : Forms L D u t) (hL : L.meets = registry.Meets)
    (hmeets : L.meets ⟨t, bound⟩) : L.meets ⟨u.subst.deref t, bound⟩ := by
  have hacyclic := h.supplied.valid.acyclic
  have hresolve := h.supplied.meets_resolve hL h.formed hmeets
  rw [Unifier.resolve, ← Subst.apply_deref hacyclic] at hresolve
  cases hroot : u.subst.deref t with
  | var w =>
    rwa [hroot, Subst.apply_unbound hacyclic (Subst.find?_of_deref_eq_var hacyclic hroot)]
      at hresolve
  | app head args =>
    rw [hroot, Subst.apply_app hacyclic] at hresolve
    rw [hL] at hresolve ⊢
    exact hresolve

theorem mergedVar_mem_known {w : TyVar} (hv : v.id < u.next) (hw : w.id < u.next) :
    u.mergedVar v w ∈ (u.merge v w).2.known D :=
  .inr ⟨v.id, .var (u.mergedVar v w), (find?_merge hv hw v.id).trans (if_pos (.inr rfl)),
    Ty.mem_vars_var.mpr rfl⟩

/-- A step binds known variables, to types over known variables that have their
traits. -/
theorem Supplied.step (hL : L.meets = registry.Meets) (hs : Step registry (Forms L D) u u')
    (hu : u.Supplied L (u.known D)) (hD : Consistent D u) : u'.Supplied L (u'.known D) := by
  have hknows : Step registry (Knows D) u u' := hs.mono fun _ _ h => h.knows
  have hmono := hknows.known_mono
  have hafter := (hD.step hknows).known
  have hbounded : Bounded registry D u := by
    refine ⟨hu.keys, fun v hv => Registry.fits_iff.mpr ?_⟩
    rw [← hL]
    exact hu.fits v hv
  have hfits : ∀ v ∈ u'.known D, ∀ bound ∈ v.traits, L.meets ⟨u'.resolve (.var v), bound⟩ := by
    intro v hv
    rw [hL]
    exact Registry.fits_iff.mp ((hbounded.step hD hknows).fits v hv)
  cases hs with
  | @merge v w hv hw hfv hfw hne =>
    have hlv := hv.knows.lt_next hv.knows.var_mem
    have hlw := hw.knows.lt_next hw.knows.var_mem
    refine ⟨hafter, ?_, ?_, hfits⟩
    · intro id t hfind
      rw [find?_merge hlv hlw] at hfind
      split at hfind
      · cases hfind
        exact .var (mergedVar_mem_known hlv hlw)
      · exact (hu.formed id t hfind).mono hmono
    · intro id t hfind
      rw [find?_merge hlv hlw] at hfind
      split at hfind
      · rename_i hid
        rcases hid with rfl | rfl
        · exact ⟨w, hmono hw.knows.var_mem, rfl⟩
        · exact ⟨v, hmono hv.knows.var_mem, rfl⟩
      · obtain ⟨x, hx, hid⟩ := hu.keys id t hfind
        exact ⟨x, hmono hx, hid⟩
  | @bind v head args hv ht hfv hself hev =>
    refine ⟨hafter, ?_, ?_, hfits⟩
    · intro id t hfind
      rw [assign, Subst.find?_insert hself] at hfind
      split at hfind
      · cases hfind
        exact (hu.resolve hL ht.formed).mono hmono
      · exact (hu.formed id t hfind).mono hmono
    · intro id t hfind
      rw [assign, Subst.find?_insert hself] at hfind
      split at hfind
      · rename_i hid
        exact ⟨v, hmono hv.knows.var_mem, hid.symm⟩
      · obtain ⟨x, hx, hid⟩ := hu.keys id t hfind
        exact ⟨x, hmono hx, hid⟩

section Calls

variable (hL : L.meets = registry.Meets)
include hL

theorem closed_forms (D : Set TyVar) : Closed registry (Forms L D) where
  owns := fun h => h.knows.owns
  deref := Forms.deref
  arg := Forms.arg
  step := fun hs ht => by
    have hknows := hs.mono fun _ _ h => h.knows
    exact ⟨ht.consistent.step hknows, ht.supplied.step hL hs ht.consistent,
      ht.formed.mono hknows.known_mono⟩

theorem Binds.forms {head : Head} {args : List Ty} {r : Except Failure Ty} {c : Ty}
    (h : Binds registry u v head args r u') (hr : r = .ok c) (hv : Forms L D u (.var v))
    (ht : Forms L D u (.app head args)) (hfv : u.subst.find? v.id = none) : Forms L D u' c := by
  cases h with
  | infinite => cases hr
  | missing => cases hr
  | bound hself hev =>
    cases hr
    have hresolve : Forms L D u (u.resolve (.app head args)) :=
      ⟨ht.consistent, ht.supplied, ht.supplied.resolve hL ht.formed⟩
    exact (closed_forms hL D).step (.bind hv ht hfv hself hev) hresolve

/-- What a call returns meets what the first type meets. -/
theorem Unifies.meets {a b c : Ty} (h : Unifies registry u a b (.ok c) u') (ha : Forms L D u a)
    {bound : Trait} (hmeets : L.meets ⟨a, bound⟩) : L.meets ⟨c, bound⟩ := by
  have hroot := ha.meets_deref hL hmeets
  rw [hL] at hroot ⊢
  generalize hr : Except.ok c = r at h
  cases h with
  | same hda =>
    cases hr
    rw [hda] at hroot
    exact hroot
  | merged hda =>
    cases hr
    rw [hda] at hroot
    exact TraitSet.mem_union.mpr (.inl hroot)
  | left hda hdb hbind =>
    rw [hda] at hroot
    cases hbind with
    | infinite | missing => cases hr
    | bound hself hev =>
      cases hr
      rw [resolve_app ha.supplied.valid]
      exact Registry.firstMissing_eq_none.mp hev bound hroot
  | right hda hdb hbind =>
    rw [hda] at hroot
    cases hbind with
    | infinite | missing => cases hr
    | bound hself hev =>
      cases hr
      rw [resolve_app ha.supplied.valid]
      exact hroot
  | clash => cases hr
  | @args _ _ _ _ _ _ _ r hda hdb hlen hall =>
    rw [hda] at hroot
    cases r with
    | error failure => cases hr
    | ok cs =>
      cases hr
      exact hroot

mutual

/-- What a call returns is formed over the variables known then. -/
theorem Unifies.forms : ∀ {u u' : Unifier} {a b : Ty} {r : Except Failure Ty} {c : Ty},
    Unifies registry u a b r u' → Forms L D u a → Forms L D u b → r = .ok c → Forms L D u' c
  | _, _, _, _, _, _, .same ha _ _, hFa, _, hr => by
    cases hr
    exact hFa.deref ha
  | u, _, a, b, _, _, .merged (v := v) (w := w) ha hb hne, hFa, hFb, hr => by
    have hrun : Unifies registry u a b _ _ := .merged ha hb hne
    have hafter := (closed_forms hL D).steps (hrun.steps (closed_forms hL D) hFa hFb) hFa
    cases hr
    have hLv := (hFa.deref ha).knows
    have hLw := (hFb.deref hb).knows
    exact ⟨hafter.consistent, hafter.supplied, .var (mergedVar_mem_known
      (hLv.lt_next hLv.var_mem) (hLw.lt_next hLw.var_mem))⟩
  | _, _, _, _, _, _, .left ha hb hbind, hFa, hFb, hr =>
    hbind.forms hL hr (hFa.deref ha) (hFb.deref hb)
      (Subst.find?_of_deref_eq_var hFa.knows.valid.acyclic ha)
  | _, _, _, _, _, _, .right ha hb hbind, hFa, hFb, hr =>
    hbind.forms hL hr (hFb.deref hb) (hFa.deref ha)
      (Subst.find?_of_deref_eq_var hFa.knows.valid.acyclic hb)
  | _, _, _, _, _, _, .clash _ _ _, _, _, hr => by cases hr
  | _, u', _, _, _, _, @Unifies.args _ _ _ _ _ head as _ r ha hb hlen hall, hFa, hFb, hr => by
    have hargs : ∀ {cs}, r = .ok cs →
        List.Forall₂ (fun a c => Forms L D u' c ∧ ∀ bound, L.meets ⟨a, bound⟩ →
          L.meets ⟨c, bound⟩) as cs := fun hcs =>
      hall.forms (fun t ht => (hFa.deref ha).arg ht) (fun _ ht => (hFb.deref hb).arg ht) hcs
    have hsteps := (Unifies.args ha hb hlen hall).steps (closed_forms hL D) hFa hFb
    have hafter := (closed_forms hL D).steps hsteps (hFa.deref ha)
    cases r with
    | error failure => cases hr
    | ok cs =>
      cases hr
      exact ⟨hafter.consistent, hafter.supplied, hafter.formed.exchange ((hargs rfl).imp
        fun _ _ h => ⟨h.1.formed, h.2⟩)⟩

theorem UnifiesAll.forms : ∀ {u u' : Unifier} {as bs : List Ty}
    {r : Except Failure (List Ty)} {cs : List Ty}, UnifiesAll registry u as bs r u' →
      (∀ t ∈ as, Forms L D u t) → (∀ t ∈ bs, Forms L D u t) → r = .ok cs →
        List.Forall₂ (fun a c => Forms L D u' c ∧ ∀ bound, L.meets ⟨a, bound⟩ →
          L.meets ⟨c, bound⟩) as cs
  | _, _, _, _, _, _, .nil, _, _, hr => by
    cases hr
    exact .nil
  | _, _, _, _, _, _, .stop _, _, _, hr => by cases hr
  | _, u', _, _, _, _, @UnifiesAll.cons _ _ _ _ _ _ _ as _ r h hall, hFas, hFbs, hr => by
    have hclosed := closed_forms hL D
    have hFa := hFas _ List.mem_cons_self
    have hFb := hFbs _ List.mem_cons_self
    have hsteps := h.steps hclosed hFa hFb
    have hFas' := fun t ht => hclosed.steps hsteps (hFas t (List.mem_cons_of_mem _ ht))
    have hFbs' := fun t ht => hclosed.steps hsteps (hFbs t (List.mem_cons_of_mem _ ht))
    have hfirst := hclosed.steps (hall.steps hclosed hFas' hFbs') (h.forms hFa hFb rfl)
    have hrest : ∀ {cs}, r = .ok cs →
        List.Forall₂ (fun a c => Forms L D u' c ∧ ∀ bound, L.meets ⟨a, bound⟩ →
          L.meets ⟨c, bound⟩) as cs :=
      fun hcs => hall.forms hFas' hFbs' hcs
    cases r with
    | error failure => cases hr
    | ok cs =>
      cases hr
      exact .cons ⟨hfirst, fun _ => h.meets hL hFa⟩ (hrest rfl)

end

end Calls

/-- A variable that becomes known in a run is a new one. -/
theorem Steps.mem_known (h : Steps registry (Knows D) u u') (hv : v ∈ u'.known D) :
    v ∈ u.known D ∨ u.next ≤ v.id := by
  induction h with
  | refl => exact .inl hv
  | tail hsteps hs ih =>
    obtain ⟨m, hm, hnew⟩ := hs.known_subset
    rcases hnew hv with rfl | hv
    · exact .inr (hm ▸ Steps.next_le hsteps)
    · exact ih hv

/-- From one set of drawn variables to the next only new ones came in. -/
structure Draws (next : Nat) (D D' : Set TyVar) : Prop where
  subset : D ⊆ D'
  new : ∀ v ∈ D', v ∈ D ∨ next ≤ v.id

theorem Draws.refl (next : Nat) (D : Set TyVar) : Draws next D D :=
  ⟨subset_refl D, fun _ hv => .inl hv⟩

theorem Draws.trans {next next' : Nat} {D'' : Set TyVar} (h : Draws next D D')
    (h' : Draws next' D' D'') (hle : next ≤ next') : Draws next D D'' := by
  refine ⟨h.subset.trans h'.subset, ?_⟩
  intro v hv
  rcases h'.new v hv with hv | hv
  · exact h.new v hv
  · exact .inr (le_trans hle hv)

/-- What a successful call gives: both types and the result resolve to the
same, and everything is formed over the variables drawn by then. -/
theorem Supplied.unify (hu : u.Supplied L D) (hL : L.meets = registry.Meets) {a b c : Ty}
    (ha : a.Formed L D) (hb : b.Formed L D) (h : (unify registry a b).run.run u = (.ok c, u')) :
    ∃ D', Draws u.next D D' ∧ u'.Supplied L D' ∧ c.Formed L D' ∧ u.next ≤ u'.next ∧
      u.subst.Extends u'.subst ∧ u'.Agree a b c := by
  have hFa : Forms L D u a := ⟨hu.consistent, by rwa [hu.known_eq], by rwa [hu.known_eq]⟩
  have hFb : Forms L D u b := ⟨hu.consistent, by rwa [hu.known_eq], by rwa [hu.known_eq]⟩
  have hrun : Unifies registry u a b (.ok c) u' :=
    unifies_unify hFa.knows.owns hFb.knows.owns h
  have hforms := hrun.forms hL hFa hFb rfl
  have hsteps := hrun.steps (closed_knows registry D) hFa.knows hFb.knows
  have howns := hsteps.mono fun _ _ h => Knows.owns h
  refine ⟨u'.known D, ⟨Set.subset_union_left, ?_⟩, hforms.supplied, hforms.formed,
    hsteps.next_le, howns.extends, hrun.agree hFa.knows hFb.knows rfl⟩
  intro v hv
  rw [← hu.known_eq]
  exact hsteps.mem_known hv

/-- A variable that is not bound meets what it has the traits for. -/
theorem meets_unbound (hu : u.Valid) (hL : L.meets = registry.Meets)
    (hv : u.subst.find? v.id = none) (hbound : bound ∈ v.traits) :
    L.meets ⟨u.resolve (.var v), bound⟩ := by
  rw [Unifier.resolve, Subst.apply_unbound hu.acyclic hv, hL]
  exact hbound

/-- Variables that are not in use can be drawn. -/
theorem Supplied.draw (hu : u.Supplied L D) (hL : L.meets = registry.Meets) {next : Nat}
    (hle : u.next ≤ next) (new : Set TyVar) (hnew : ∀ v ∈ new, u.next ≤ v.id ∧ v.id < next)
    (hunique : ∀ v ∈ new, ∀ w ∈ new, v.id = w.id → v = w) :
    Draws u.next D (D ∪ new) ∧ Supplied L (D ∪ new) { u with next } := by
  have hlt : ∀ v ∈ D ∪ new, v.id < next := by
    rintro v (hv | hv)
    · exact lt_of_lt_of_le (hu.consistent.lt v hv) hle
    · exact (hnew v hv).2
  have hvalid : Valid { u with next } := by
    refine ⟨hu.valid.acyclic, ?_, ?_⟩
    · intro id t hfind
      exact lt_of_lt_of_le (hu.valid.key_lt id t hfind) hle
    · intro id t hfind w hw
      exact lt_of_lt_of_le (hu.valid.vars_lt id t hfind w hw) hle
  have hknown : Unifier.known (D ∪ new) { u with next } = D ∪ new :=
    Set.union_eq_self_of_subset_right (hu.vars_subset.trans Set.subset_union_left)
  have hapart : ∀ v ∈ D, ∀ w ∈ new, v.id ≠ w.id := fun v hv w hw =>
    Nat.ne_of_lt (lt_of_lt_of_le (hu.consistent.lt v hv) (hnew w hw).1)
  refine ⟨⟨Set.subset_union_left, ?_⟩, ⟨hvalid, hlt, ?_⟩, ?_, ?_, ?_⟩
  · rintro v (hv | hv)
    · exact .inl hv
    · exact .inr (hnew v hv).1
  · rw [hknown]
    rintro v (hv | hv) w (hw | hw) heq
    · exact hu.consistent.unique v (.inl hv) w (.inl hw) heq
    · exact absurd heq (hapart v hv w hw)
    · exact absurd heq.symm (hapart w hw v hv)
    · exact hunique v hv w hw heq
  · intro id t hfind
    exact (hu.formed id t hfind).mono Set.subset_union_left
  · intro id t hfind
    obtain ⟨v, hv, hid⟩ := hu.keys id t hfind
    exact ⟨v, .inl hv, hid⟩
  · rintro v (hv | hv) bound hbound
    · exact hu.fits v hv bound hbound
    · exact meets_unbound hvalid hL (hu.valid.find?_next (hnew v hv).1) hbound

/-- Bindings from before, with what was drawn since. -/
theorem Supplied.resume {L'' : Lexicon} (hu : u.Supplied L D) (hu' : u'.Supplied L'' D')
    (hL : L.Extends L') (hL' : L'.meets = registry.Meets) (hD : D ⊆ D') (hle : u.next ≤ u'.next) :
    Supplied L' D' { u' with subst := u.subst } := by
  have hknown : Unifier.known D' { u' with subst := u.subst } = D' :=
    Set.union_eq_self_of_subset_right (hu.vars_subset.trans hD)
  have hvalid : Valid { u' with subst := u.subst } := by
    refine ⟨hu.valid.acyclic, ?_, ?_⟩
    · exact fun id t hfind => lt_of_lt_of_le (hu.valid.key_lt id t hfind) hle
    · exact fun id t hfind w hw => lt_of_lt_of_le (hu.valid.vars_lt id t hfind w hw) hle
  have hunique : ∀ v ∈ D', ∀ w ∈ D', v.id = w.id → v = w :=
    fun v hv w hw => hu'.consistent.unique v (.inl hv) w (.inl hw)
  refine ⟨⟨hvalid, hu'.consistent.lt, ?_⟩, ?_, ?_, ?_⟩
  · rw [hknown]
    exact hunique
  · exact fun id t hfind => ((hu.formed id t hfind).mono hD).extend hL
  · intro id t hfind
    obtain ⟨v, hv, hid⟩ := hu.keys id t hfind
    exact ⟨v, hD hv, hid⟩
  · intro v hv bound hbound
    cases hfind : u.subst.find? v.id with
    | none => exact meets_unbound hvalid hL' hfind hbound
    | some t =>
      obtain ⟨w, hw, hid⟩ := hu.keys v.id t hfind
      obtain rfl := hunique w (hD hw) v hv hid
      exact hL.meets _ (hu.fits w hw bound hbound)

theorem supplied_empty (L : Lexicon) : Supplied L ∅ {} :=
  ⟨⟨valid_empty 0, by simp, by rintro v (⟨⟨⟩⟩ | ⟨id, t, ⟨⟩, _⟩)⟩, by nofun, by nofun, by nofun⟩

end Unifier

end TraitCheck
