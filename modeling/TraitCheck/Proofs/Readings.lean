import TraitCheck.Proofs.Shapes

/-!
Readings of types. The types that the checker writes down are read later, when
more variables are bound: each reading keeps heads and goes through arguments
(`Hom`), and takes a variable for what it is bound to (`Reads`). What a call of
unification makes equal is equal in every later reading. Reading by the bindings
of a state is one of them, and so is any reading of that.
-/

namespace TraitCheck

/-! Maps of types that keep heads. -/

namespace Ty

variable {f g : Ty → Ty} {t : Ty}

theorem hom_id : Hom id := ⟨fun _ _ => by rw [List.map_id]; rfl⟩

namespace Hom

theorem comp (hf : Hom f) (hg : Hom g) : Hom (f ∘ g) := by
  constructor
  intro head args
  rw [Function.comp_apply, hg.app, hf.app, List.map_map]

/-- What the variables of a type are read as says what the type is read as. -/
theorem congr (hf : Hom f) (hg : Hom g) (h : ∀ v ∈ t.vars, f (.var v) = g (.var v)) :
    f t = g t := by
  induction t with
  | var v => exact h v (mem_vars_var.mpr rfl)
  | app head args ih =>
    rw [hf.app, hg.app]
    congr 1
    apply List.map_congr_left
    intro s hs
    exact ih s hs fun v hv => h v (mem_vars_app.mpr ⟨s, hs, hv⟩)

theorem eq_self (hf : Hom f) (h : ∀ v ∈ t.vars, f (.var v) = .var v) : f t = t :=
  hf.congr hom_id h

/-- A type without variables reads as itself. -/
theorem closed (hf : Hom f) {L : Lexicon} (h : t.Formed L ∅) : f t = t :=
  hf.eq_self fun v hv => absurd (h.isOver v hv) (Set.notMem_empty v)

theorem concrete (hf : Hom f) (con : Con) (ps : List Ty) (os : List Obligation) (n : Nat) :
    f (concrete con ps os n) = Ty.concrete con (ps.map f) (os.map (Obligation.map f)) n := by
  rw [Ty.concrete, Ty.concrete, hf.app, List.map_append, List.map_map, List.map_map, List.map_map]
  rfl

theorem named (hf : Hom f) (name : String) (ps : List Ty) :
    f (named name ps) = Ty.named name (ps.map f) := hf.concrete _ _ _ _

theorem tuple (hf : Hom f) (elems : List Ty) : f (tuple elems) = Ty.tuple (elems.map f) := by
  rw [Ty.tuple, Ty.tuple, hf.concrete, List.length_map]
  rfl

theorem array (hf : Hom f) (elem : Ty) (n : Nat) : f (array elem n) = Ty.array (f elem) n :=
  hf.concrete _ _ _ _

theorem funcWith (hf : Hom f) (os : List Obligation) (ps : List Ty) (ret : Ty) :
    f (funcWith os ps ret) = Ty.funcWith (os.map (Obligation.map f)) (ps.map f) (f ret) := by
  rw [Ty.funcWith, Ty.funcWith, hf.concrete, List.length_map, List.map_cons]

theorem func (hf : Hom f) (ps : List Ty) (ret : Ty) :
    f (func ps ret) = Ty.func (ps.map f) (f ret) := hf.funcWith _ _ _

theorem dictionaryType (hf : Hom f) (bound : Trait) (t : Ty) :
    f (dictionaryType bound t) = TraitCheck.dictionaryType bound (f t) := hf.named _ _

theorem void (hf : Hom f) : f void = Ty.void := hf.named _ _

theorem bool (hf : Hom f) : f bool = Ty.bool := hf.named _ _

/-- A tracer that a type is read with stands in the type or for one of its
variables. -/
theorem traces (hf : Hom f) {id : Nat} (h : (f t).Traces id) :
    t.Traces id ∨ ∃ v ∈ t.vars, (f (.var v)).Traces id := by
  induction t with
  | var v => exact .inr ⟨v, mem_vars_var.mpr rfl, h⟩
  | app head args ih =>
    rw [hf.app] at h
    cases h with
    | here => exact .inl .here
    | arg hmem hs =>
      obtain ⟨t, ht, rfl⟩ := List.mem_map.mp hmem
      rcases ih t ht hs with hs | ⟨v, hv, hs⟩
      · exact .inl (.arg ht hs)
      · exact .inr ⟨v, mem_vars_app.mpr ⟨t, ht, hv⟩, hs⟩

theorem con? (hf : Hom f) (ht : t.isVar = false) : (f t).con? = t.con? := by
  cases t with
  | var v => cases ht
  | app head args =>
    rw [hf.app]
    rfl

end Hom

/-- A function type has one shape. -/
theorem funcWith_inj {os os' : List Obligation} {ps ps' : List Ty} {ret ret' : Ty}
    (h : funcWith os ps ret = funcWith os' ps' ret') : os = os' ∧ ps = ps' ∧ ret = ret' := by
  have hshape := congrArg asFunc? h
  rw [asFunc?_funcWith, asFunc?_funcWith] at hshape
  cases hshape
  exact ⟨rfl, rfl, rfl⟩

end Ty

/-! Types in place of given variables. -/

variable {vars : List TyVar} {L : Lexicon}

namespace Assoc

variable {κ α β : Type} [DecidableEq κ]

theorem find?_mk_cons (key : κ) (value : α) (entries : List (κ × α)) (other : κ) :
    (Assoc.mk ((key, value) :: entries)).find? other =
      if key = other then some value else (Assoc.mk entries).find? other := rfl

/-- Keys in order. -/
theorem find?_zip_range' (start : Nat) (values : List α) (k : Nat) :
    (Assoc.mk ((List.range' start values.length).zip values)).find? (start + k) = values[k]? := by
  induction values generalizing start k with
  | nil => rfl
  | cons value rest ih =>
    rw [List.length_cons, List.range'_succ, List.zip_cons_cons, find?, find?.go]
    cases k with
    | zero => rw [Nat.add_zero, if_pos rfl, List.getElem?_cons_zero]
    | succ k =>
      rw [if_neg (by omega), List.getElem?_cons_succ, ← ih (start + 1) k]
      have hk : start + (k + 1) = start + 1 + k := by omega
      rw [hk]
      rfl

theorem find?_mk_map (entries : List (κ × α)) (f : α → β) (key : κ) :
    (Assoc.mk (entries.map fun p => (p.1, f p.2))).find? key =
      ((Assoc.mk entries).find? key).map f := by
  induction entries with
  | nil => rfl
  | cons entry rest ih =>
    obtain ⟨k, a⟩ := entry
    by_cases hk : k = key
    · simp [find?, find?.go, hk]
    · simpa [find?, find?.go, hk] using ih

end Assoc

theorem Ty.hom_substitute (map : List (VarId × Ty)) : Hom (Ty.substitute map) := hom_replace _

/-- A reading goes through a substitution for all variables of a type. -/
theorem Ty.Hom.substitute {f : Ty → Ty} (hf : Hom f) {map : List (VarId × Ty)} {t : Ty}
    (h : ∀ v ∈ t.vars, ((Assoc.mk map).find? v.id).isSome = true) :
    f (t.substitute map) = t.substitute (map.map fun p => (p.1, f p.2)) := by
  refine Hom.congr (hf.comp (hom_replace _)) (hom_replace _) ?_
  intro v hv
  obtain ⟨s, hs⟩ := Option.isSome_iff_exists.mp (h v hv)
  rw [Function.comp_apply, Ty.substitute, replace_var, replace_var, Assoc.find?_mk_map, hs]
  rfl

namespace Subst

variable {v : TyVar} {vars : List TyVar} {next : Nat}

/-- Copies of the variables, with ids from `next` on. -/
def renumber (next : Nat) : List TyVar → List TyVar
  | [] => []
  | v :: rest => { v with id := next } :: renumber (next + 1) rest

theorem length_renumber (next : Nat) (vars : List TyVar) :
    (renumber next vars).length = vars.length := by
  induction vars generalizing next with
  | nil => rfl
  | cons v rest ih => rw [renumber, List.length_cons, List.length_cons, ih]

theorem mem_renumber (h : v ∈ renumber next vars) : next ≤ v.id ∧ v.id < next + vars.length := by
  induction vars generalizing next with
  | nil => cases h
  | cons w rest ih =>
    rw [List.length_cons, Nat.add_comm rest.length, ← Nat.add_assoc]
    rcases List.mem_cons.mp h with rfl | h
    · exact ⟨le_refl next, Nat.lt_of_lt_of_le (Nat.lt_succ_self next) (Nat.le_add_right _ _)⟩
    · obtain ⟨hle, hlt⟩ := ih h
      exact ⟨Nat.le_of_succ_le hle, hlt⟩

theorem renumber_unique {w : TyVar} (hv : v ∈ renumber next vars) (hw : w ∈ renumber next vars)
    (hid : v.id = w.id) : v = w := by
  induction vars generalizing next with
  | nil => cases hv
  | cons x rest ih =>
    rcases List.mem_cons.mp hv with rfl | hv
    · rcases List.mem_cons.mp hw with rfl | hw
      · rfl
      · exact absurd hid (Nat.ne_of_lt (mem_renumber hw).1)
    · rcases List.mem_cons.mp hw with rfl | hw
      · exact absurd hid.symm (Nat.ne_of_lt (mem_renumber hv).1)
      · exact ih hv hw

theorem relabelling_eq_zip (next : Nat) (vars : List TyVar) :
    relabelling next vars = (vars.map (·.id)).zip ((renumber next vars).map .var) := by
  induction vars generalizing next with
  | nil => rfl
  | cons v rest ih =>
    rw [relabelling, renumber, List.map_cons, List.map_cons, List.zip_cons_cons, ih]

/-- Every one of the variables gets a copy, with the traits of a variable of the
same id. -/
theorem find?_relabelling (next : Nat) (hv : v ∈ vars) :
    ∃ w ∈ renumber next vars, (Assoc.mk (relabelling next vars)).find? v.id = some (.var w) ∧
      ∃ x ∈ vars, x.id = v.id ∧ w.traits = x.traits := by
  induction vars generalizing next with
  | nil => cases hv
  | cons x rest ih =>
    by_cases hid : x.id = v.id
    · exact ⟨_, List.mem_cons_self, by simp [relabelling, Assoc.find?, Assoc.find?.go, hid],
        x, List.mem_cons_self, hid, rfl⟩
    · rcases List.mem_cons.mp hv with rfl | hv
      · exact absurd rfl hid
      · obtain ⟨w, hw, hfind, y, hy, hyid, htraits⟩ := ih (next + 1) hv
        refine ⟨w, List.mem_cons_of_mem _ hw, ?_, y, List.mem_cons_of_mem _ hy, hyid, htraits⟩
        simpa [relabelling, Assoc.find?, Assoc.find?.go, hid] using hfind

theorem find?_relabelling_of_notMem (next : Nat) {id : VarId} (hid : ∀ v ∈ vars, v.id ≠ id) :
    (Assoc.mk (relabelling next vars)).find? id = none := by
  induction vars generalizing next with
  | nil => rfl
  | cons x rest ih =>
    have hx := hid x List.mem_cons_self
    have hrest := ih (next + 1) fun v hv => hid v (List.mem_cons_of_mem x hv)
    simpa [relabelling, Assoc.find?, Assoc.find?.go, hx] using hrest

end Subst

/-- A type over some variables and the given ones, with copies in place of
these. -/
theorem Ty.Formed.relabel {registry : Registry} {D : Set TyVar} {t : Ty} {next : Nat}
    (hL : L.meets = registry.Meets) (h : t.Formed L (D ∪ {v | v ∈ vars}))
    (hunique : ∀ v ∈ vars, ∀ w ∈ D ∪ {v | v ∈ vars}, w.id = v.id → w = v) :
    (t.substitute (Subst.relabelling next vars)).Formed L
      (D ∪ {v | v ∈ Subst.renumber next vars}) := by
  refine h.read (hom_replace _) (Lexicon.Extends.refl L).toIncludes ?_ ?_
  · intro v hv
    rw [substitute, replace_var]
    by_cases hid : ∃ w ∈ vars, w.id = v.id
    · obtain ⟨w, hw, hid⟩ := hid
      obtain ⟨x, hx, hfind, _⟩ := Subst.find?_relabelling next hw
      rw [← hid, hfind]
      exact .var (.inr hx)
    · rw [Subst.find?_relabelling_of_notMem next fun w hw heq => hid ⟨w, hw, heq⟩]
      exact .var (.inl (hv.resolve_right fun hmem => hid ⟨v, hmem, rfl⟩))
  · intro t bound ht hmeets
    rw [hL] at hmeets ⊢
    cases t with
    | app head args =>
      rw [substitute, replace_app]
      exact hmeets
    | var v =>
      rw [substitute, replace_var]
      by_cases hid : ∃ w ∈ vars, w.id = v.id
      · obtain ⟨w, hw, hid⟩ := hid
        obtain ⟨x, _, hfind, y, hy, hyid, htraits⟩ := Subst.find?_relabelling next hw
        obtain rfl := hunique y hy v ht.var_mem (hid.symm.trans hyid.symm)
        rw [← hid, hfind]
        have hx : bound ∈ x.traits := htraits ▸ hmeets
        exact hx
      · rw [Subst.find?_relabelling_of_notMem next fun w hw heq => hid ⟨w, hw, heq⟩]
        exact hmeets

/-- A type without obligations over the given variables, with copies in place of
these. -/
theorem Ty.Formed.relabel_all {L' : Lexicon} {t : Ty} (next : Nat) (hL : L.Includes L')
    (hmeets : ∀ o, ¬L.meets o) (h : t.Formed L {v | v ∈ vars}) :
    (t.substitute (Subst.relabelling next vars)).Formed L' {v | v ∈ Subst.renumber next vars} := by
  refine h.read (hom_replace _) hL ?_ fun _ _ _ ho => absurd ho (hmeets _)
  intro v hv
  obtain ⟨x, hx, hfind, _⟩ := Subst.find?_relabelling next hv
  rw [substitute, replace_var, hfind]
  exact .var hx

/-! Readings of a unifier. -/

namespace Unifier

variable {u u' : Unifier} {f : Ty → Ty} {D : Set TyVar}

/-- Reads types in a way that takes account of all bindings made so far. -/
structure Reads (u : Unifier) (f : Ty → Ty) : Prop extends Ty.Hom f where
  resolve : ∀ t, f (u.resolve t) = f t

theorem hom_resolve (hu : u.Valid) : Ty.Hom u.resolve := ⟨resolve_app hu⟩

/-- Later readings are readings of the state before. -/
theorem Reads.of_extends (h : u'.Reads f) (hu : u.Valid) (hu' : u'.Valid)
    (hext : u.subst.Extends u'.subst) : u.Reads f := by
  refine ⟨h.toHom, ?_⟩
  intro t
  calc f (u.resolve t) = f (u'.resolve (u.resolve t)) := (h.resolve _).symm
    _ = f (u'.resolve t) := congrArg f (hext.apply_apply hu.acyclic hu'.acyclic t)
    _ = f t := h.resolve t

/-- Whatever reads the resolved types reads the types. -/
theorem reads_comp_resolve (hu : u.Valid) (hf : Ty.Hom f) : u.Reads (f ∘ u.resolve) := by
  refine ⟨hf.comp (hom_resolve hu), ?_⟩
  intro t
  exact congrArg f ((Subst.Extends.refl u.subst).apply_apply hu.acyclic hu.acyclic t)

theorem Reads.eq_of_resolve (h : u.Reads f) {a b : Ty} (hab : u.resolve a = u.resolve b) :
    f a = f b := by
  rw [← h.resolve a, hab, h.resolve]

end Unifier

end TraitCheck
