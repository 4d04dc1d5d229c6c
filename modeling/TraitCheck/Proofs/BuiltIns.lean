import TraitCheck.Checker.Program
import TraitCheck.Proofs.TypedState

/-!
The state before the first statement of a program. A new checker knows nothing,
and what the built-in environment adds to it is all known: its functions have
the types of their operations, its traits have no methods, and its evidence is
for built-in types.
-/

namespace TraitCheck

namespace Prelude

variable {L : Lexicon} {D : Set TyVar}
variable {f : String × Op × Ty} {value : Value}

/-- The results of the built-in functions, where they are not operands. -/
theorem formed_ret {f : GenericFunc} (hf : f ∈ genericFuncs)
    (hL : ∀ name ∈ types, L.arity name = some 0) {ty : Ty} (hty : f.ret = some ty) : ty.Formed L D := by
  have hnamed : ∀ name ∈ types, (Ty.named name []).Formed L D :=
    fun name hname => Ty.formed_named (hL name hname) (by simp)
  simp only [genericFuncs, List.mem_cons, List.not_mem_nil, or_false] at hf
  rcases hf with rfl | rfl | rfl | rfl | rfl | rfl | rfl | rfl | rfl | rfl | rfl | rfl | rfl | rfl
  all_goals cases hty
  all_goals exact hnamed _ (by decide)

theorem formed_plainFunc (hf : f ∈ plainFuncs) (hL : ∀ name ∈ types, L.arity name = some 0) :
    f.2.2.Formed L D := by
  have hnamed : ∀ name ∈ types, (Ty.named name []).Formed L D :=
    fun name hname => Ty.formed_named (hL name hname) (by simp)
  simp only [plainFuncs, List.mem_cons, List.not_mem_nil, or_false] at hf
  rcases hf with rfl | rfl | rfl | rfl | rfl | rfl | rfl
  all_goals
    refine Ty.formed_func ?_ (hnamed _ (by decide))
    simp only [List.mem_cons, List.not_mem_nil, or_false, or_self, forall_eq]
    exact hnamed _ (by decide)

theorem func_plainFunc (hf : f ∈ plainFuncs) : ∃ params ret, f.2.2 = .func params ret := by
  simp only [plainFuncs, List.mem_cons, List.not_mem_nil, or_false] at hf
  rcases hf with rfl | rfl | rfl | rfl | rfl | rfl | rfl
  all_goals exact ⟨_, _, rfl⟩

theorem trait_not_type : ∀ trait ∈ traits, trait.1 ∉ types := by decide

theorem types_of_trait : ∀ trait ∈ traits, ∀ name ∈ trait.2, name ∈ types := by decide

/-- Evidence for built-in types, on top of other evidence. -/
theorem find?_addEvidence {bound : Trait} (names : List String)
    {evidence : Assoc (Con × Trait) Evidence} {con : Con} {bound' : Trait} {e : Evidence}
    (h : (names.foldl (fun evidence ty => evidence.insert (.named ty, bound) (.intrinsic bound ty))
      evidence).find? (con, bound') = some e) :
    (∃ n ∈ names, con = .named n ∧ bound' = bound ∧ e = .intrinsic bound n) ∨
      evidence.find? (con, bound') = some e := by
  induction names generalizing evidence with
  | nil => exact .inr h
  | cons name rest ih =>
    rcases ih h with ⟨n, hn, he⟩ | h
    · exact .inl ⟨n, List.mem_cons_of_mem _ hn, he⟩
    · rw [Assoc.find?_insert] at h
      split at h
      · rename_i heq
        cases h
        cases heq
        exact .inl ⟨name, List.mem_cons_self, rfl, rfl, rfl⟩
      · exact .inr h

theorem Provides.formed {op : Op} (h : Provides op value)
    (hL : ∀ name ∈ types, L.arity name = some 0)
    (hmeets : ∀ v bound, bound ∈ v.traits → L.meets ⟨.var v, bound⟩) :
    value.ty.Formed L {v | v ∈ value.generics} := by
  rcases h with ⟨f, hf, var, _, hbound, hgenerics, hty⟩ | ⟨name, params, ret, hmem, _, hty⟩
  · have hvar : (Ty.var var).Formed L {v | v ∈ value.generics} :=
      .var (hgenerics ▸ List.mem_cons_self)
    rw [hty, GenericFunc.ty]
    refine Ty.formed_funcWith ?_ ?_ ?_
    · exact List.forall_mem_singleton.mpr ⟨hvar, hmeets var f.bound hbound⟩
    · exact fun _ hp => List.eq_of_mem_replicate hp ▸ hvar
    · cases hret : f.ret with
      | none => exact hvar
      | some ty => exact formed_ret hf hL hret
  · rw [hty]
    exact formed_plainFunc hmem hL

/-- A built-in function has at most one type parameter. -/
theorem Provides.generics_unique {op : Op} (h : Provides op value) :
    ∀ v ∈ value.generics, ∀ w ∈ value.generics, w = v := by
  rcases h with ⟨_, _, var, _, _, hgenerics, _⟩ | ⟨_, _, _, _, hgenerics, _⟩
  · rw [hgenerics]
    intro v hv w hw
    rw [List.mem_singleton.mp hv, List.mem_singleton.mp hw]
  · rw [hgenerics]
    nofun

end Prelude

namespace Checker

/-- Only what is built in is there. -/
structure Basic (s : Checker) : Prop where
  subst : s.unifier.subst = {}
  adts : s.adts = ∅
  functions : s.functions = []
  below : s.scope.below = []
  upvalues : s.scope.top.upvalues = none
  values : ∀ name value, s.scope.top.values.find? name = some value →
    (∃ op, value.kind = .builtin op ∧ Prelude.Provides op value) ∧
      ∀ v ∈ value.generics, v.id < s.unifier.next
  types : ∀ name ty, s.scope.top.types.find? name = some ty →
    ∃ n ∈ Prelude.types, ty = .named n []
  traits : ∀ name decl, s.registry.trait? name = some decl →
    decl.name = name ∧ name ∉ Prelude.types ∧ name ∈ decl.selfVar.traits ∧ decl.methods = ∅
  drawn : ∀ name decl, s.registry.trait? name = some decl → decl.selfVar.id < s.unifier.next
  evidence : ∀ con bound e, s.registry.lookup con bound = some e →
    s.registry.isDeclared bound = true ∧
      ∃ n ∈ Prelude.types, con = .named n ∧ e = .intrinsic bound n

namespace Basic

variable {s s' : Checker}

theorem new (options : Options) : Basic (new options) where
  subst := rfl
  adts := rfl
  functions := rfl
  below := rfl
  upvalues := rfl
  values := by nofun
  types := by nofun
  traits := by nofun
  drawn := by nofun
  evidence := by nofun

theorem addType (h : Basic s) {name : String} (hname : name ∈ Prelude.types) :
    Basic (Prelude.addType s name) := { h with
  types := Assoc.forall_insert ⟨name, hname, rfl⟩ h.types }

theorem addValue (h : Basic s) {name : String} {value : Value} {op : Op}
    (hkind : value.kind = .builtin op) (hvalue : Prelude.Provides op value) {next : Nat}
    (hnext : s.unifier.next ≤ next) (hgenerics : ∀ v ∈ value.generics, v.id < next) :
    Basic { s with unifier.next := next, scope := s.scope.bindValue name value } := { h with
  values := Assoc.forall_insert ⟨⟨op, hkind, hvalue⟩, hgenerics⟩ fun name' value' hfind =>
    (h.values name' value' hfind).imp_right fun hlt v hv => lt_of_lt_of_le (hlt v hv) hnext
  drawn := fun name decl hdecl => lt_of_lt_of_le (h.drawn name decl hdecl) hnext }

theorem addGenericFunc (h : Basic s) {f : Prelude.GenericFunc} (hf : f ∈ Prelude.genericFuncs) :
    Basic (Prelude.addGenericFunc s f) := by
  refine h.addValue rfl (.inl ⟨f, hf, _, rfl, TraitSet.mem_insert.mpr (.inl rfl), rfl, rfl⟩)
    (Nat.le_succ _) ?_
  exact List.forall_mem_singleton.mpr (Nat.lt_succ_self _)

theorem addPlainFunc (h : Basic s) {f : String × Op × Ty} (hf : f ∈ Prelude.plainFuncs) :
    Basic (Prelude.addPlainFunc s f) := by
  obtain ⟨name, op, ty⟩ := f
  obtain ⟨params, ret, rfl⟩ := Prelude.func_plainFunc hf
  exact h.addValue rfl (.inr ⟨name, params, ret, hf, rfl, rfl⟩) (le_refl _) (by nofun)

/-- Built-in traits come with built-in evidence. -/
theorem addTrait (h : Basic s) {trait : Trait × List String} (htrait : trait ∈ Prelude.traits) :
    Basic (Prelude.addTrait s trait) := by
  obtain ⟨name, types⟩ := trait
  have hfind : ∀ other, Registry.trait? (Prelude.addTrait s (name, types)).registry other =
      if other = name then some ⟨name, (s.unifier.freshVar "Self" (.singleton name)).1, ∅⟩
      else s.registry.trait? other :=
    fun other => Assoc.find?_insert _ _ _ _
  refine { h with values := ?_, traits := ?_, drawn := ?_, evidence := ?_ }
  · intro name' value hvalue
    obtain ⟨hop, hlt⟩ := h.values name' value hvalue
    exact ⟨hop, fun v hv => Nat.lt_succ_of_lt (hlt v hv)⟩
  · exact Assoc.forall_insert ⟨rfl, Prelude.trait_not_type _ htrait,
      TraitSet.mem_insert.mpr (.inl rfl), rfl⟩ h.traits
  · exact Assoc.forall_insert (Nat.lt_succ_self _)
      fun other decl hother => Nat.lt_succ_of_lt (h.drawn other decl hother)
  · intro con bound e hlookup
    rw [Registry.isDeclared, hfind]
    rcases Prelude.find?_addEvidence types hlookup with ⟨n, hn, hcon, rfl, rfl⟩ | hlookup
    · rw [if_pos rfl]
      exact ⟨rfl, n, Prelude.types_of_trait _ htrait n hn, hcon, rfl⟩
    · obtain ⟨hdeclared, he⟩ := h.evidence con bound e hlookup
      refine ⟨?_, he⟩
      split
      · rfl
      · exact hdeclared

theorem arity_builtin (h : Basic s) : ∀ name ∈ Prelude.types, s.arities name = some 0 := by
  intro name hname
  rw [arities, h.adts]
  exact if_pos hname

theorem installed (h : Basic s) : Basic { s with preludeInstalled := true } := { h with }

theorem install (h : Basic s) : Basic (Prelude.install s) := by
  have htypes := List.foldlRecOn (motive := Basic) Prelude.types Prelude.addType h
    fun s hs _ hname => hs.addType hname
  have htraits := List.foldlRecOn (motive := Basic) Prelude.traits Prelude.addTrait htypes
    fun s hs _ htrait => hs.addTrait htrait
  have hgeneric := List.foldlRecOn (motive := Basic) Prelude.genericFuncs Prelude.addGenericFunc
    htraits fun s hs f hf => hs.addGenericFunc hf
  have hplain := List.foldlRecOn (motive := Basic) Prelude.plainFuncs Prelude.addPlainFunc
    hgeneric fun _ hs _ hf => hs.addPlainFunc hf
  unfold Prelude.install
  exact hplain.installed

end Basic

/-- The names of the built-in types are taken. -/
theorem contains_install (options : Options) : ∀ name ∈ Prelude.types,
    (Prelude.install (new options)).scope.root.types.contains name = true := by
  simp only [Prelude.types, List.forall_mem_cons]
  exact ⟨rfl, rfl, rfl, rfl, rfl, by simp⟩

end Checker

end TraitCheck
