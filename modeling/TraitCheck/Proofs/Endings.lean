import Mathlib.Order.RelClasses
import TraitCheck.Proofs.DictionaryNames
import TraitCheck.Proofs.Failures

/-!
Steps that end in a related state, whether they succeed or fail (`Ends`). Most
steps of the checker only read its state, draw ids of variables or bind type
variables. What they do is said here once, for every relation that allows it: a
preorder, one that is closed under drawing ids (`FreshClosed`, `BindingClosed`), or
one that is closed under any change of the unifier that takes no id back
(`UnifyClosed`). Where names are bound, the relation has to allow the names.
-/

namespace TraitCheck

namespace Checker

variable {α β : Type} {s s' : Checker} {R Q : Checker → Checker → Prop}

/-- Whether it succeeds or fails, the step leaves a related state. If it has to be
mild, then it does not fail for lack of evidence. -/
structure EndsIn (mild : Prop) (R : Checker → Checker → Prop) (x : CheckM α) : Prop where
  ends : ∀ s, R s (x.run.run s).2
  safe : mild → ∀ s, Safe x s

/-- Whether it succeeds or fails, the step leaves a related state. -/
abbrev Ends (R : Checker → Checker → Prop) (x : CheckM α) : Prop := EndsIn False R x

/-- The step never fails for lack of evidence. -/
abbrev Harmless (x : CheckM α) : Prop := EndsIn True (fun _ _ => True) x

/-- Ids of variables may be drawn. -/
class FreshClosed (R : Checker → Checker → Prop) : Prop extends IsPreorder Checker R where
  draw : ∀ s {next}, s.unifier.next ≤ next → R s { s with unifier := { s.unifier with next } }

/-- Also ids of bindings may be drawn. -/
class BindingClosed (R : Checker → Checker → Prop) : Prop extends FreshClosed R where
  binding : ∀ s, R s { s with scope := s.scope.freshBinding.2 }

/-- Also type variables may be bound, or bindings of them set aside. -/
class UnifyClosed (R : Checker → Checker → Prop) : Prop extends FreshClosed R where
  unifier : ∀ s {unifier}, s.unifier.next ≤ unifier.next → R s { s with unifier }
  draw := fun s _ h => unifier s h

instance : BindingClosed (fun _ _ => True) where
  refl := fun _ => trivial
  trans := fun _ _ _ _ _ => trivial
  draw := fun _ _ _ => trivial
  binding := fun _ => trivial

instance : UnifyClosed (fun _ _ => True) where
  unifier := fun _ _ _ => trivial

namespace Ends

variable {x : CheckM α} {f : α → CheckM β}

/-- What holds however the first step ends, and however the second ends after it,
holds in the end. -/
theorem holds_bind {P : Checker → Prop} (hx : P (x.run.run s).2)
    (hf : ∀ a s1, Yields x s a s1 → P ((f a).run.run s1).2) : P ((x >>= f).run.run s).2 := by
  rw [Runs.run_bind]
  cases hrun : x.run.run s with
  | mk r s1 =>
    rw [hrun] at hx
    cases r with
    | error e => exact hx
    | ok a => exact hf a s1 hrun

/-- One step after the other, where the second may rely on the first. -/
theorem rel_bind [IsTrans Checker R] {s : Checker} (hx : R s (x.run.run s).2)
    (hf : ∀ a s1, Yields x s a s1 → R s1 ((f a).run.run s1).2) : R s ((x >>= f).run.run s).2 := by
  refine holds_bind hx fun a s1 hrun => ?_
  rw [hrun] at hx
  exact trans_of R hx (hf a s1 hrun)

end Ends

namespace EndsIn

variable {mild : Prop} {x body : CheckM α} {f : α → CheckM β}

theorem of_rel (h : ∀ s, R s (x.run.run s).2) : Ends R x := ⟨h, False.elim⟩

theorem imp (h : Ends R x) (himp : ∀ {s s'}, R s s' → Q s s') : Ends Q x :=
  .of_rel fun s => himp (h.ends s)

theorem rel (h : Ends R x) (s : Checker) : R s (x.run.run s).2 := h.ends s

theorem yields (h : Ends R x) {a : α} (hx : Yields x s a s') : R s s' := by
  have hrel := h.rel s
  rwa [hx] at hrel

theorem bind [IsTrans Checker R] (hx : EndsIn mild R x) (hf : ∀ a, EndsIn mild R (f a)) :
    EndsIn mild R (x >>= f) where
  ends := fun s => Ends.rel_bind (hx.ends s) fun a s1 _ => (hf a).ends s1
  safe := fun hmild s => (hx.safe hmild s).bind fun a s1 _ => (hf a).safe hmild s1

theorem modifyGet {g : Checker → α × Checker} (hg : ∀ s, R s (g s).2) : EndsIn mild R (modifyGet g) :=
  ⟨hg, fun _ _ => .modifyGet g⟩

theorem modify {g : Checker → Checker} (hg : ∀ s, R s (g s)) : EndsIn mild R (modify g) :=
  .modifyGet hg

section Pure

variable [IsPreorder Checker R]

theorem pure {a : α} : EndsIn mild R (Pure.pure a) := ⟨fun s => refl_of R s, fun _ _ => .pure⟩

theorem get : EndsIn mild R get := ⟨fun s => refl_of R s, fun _ _ => .get⟩

theorem throw {e : TypeError} (h : mild → e.failure.isDefect = false) :
    EndsIn mild R (throw e : CheckM α) :=
  ⟨fun s => refl_of R s, fun hmild _ => .throw (h hmild)⟩

theorem fail {failure : Failure} {span : Span} (h : failure.isDefect = false) :
    EndsIn mild R (fail failure span : CheckM α) :=
  .throw fun _ => h

theorem ensure {condition : Prop} [Decidable condition] {failure : Failure} {span : Span}
    (h : failure.isDefect = false) : EndsIn mild R (ensure condition failure span) := by
  rw [Checker.ensure]
  split
  · exact .pure
  · exact .fail h

theorem test {condition : Prop} [Decidable condition] {failure : Failure} {span : Span} :
    Ends R (Checker.ensure condition failure span) := by
  rw [Checker.ensure]
  split
  · exact .pure
  · exact .throw False.elim

theorem ofExcept {span : Span} {r : Except Failure α}
    (h : mild → ∀ failure, r = .error failure → failure.isDefect = false) :
    EndsIn mild R (ofExcept span r) := by
  cases r with
  | ok a => exact .pure
  | error failure => exact .throw fun hmild => h hmild failure rfl

theorem forM {γ : Type} (names : List γ) {g : γ → CheckM Unit} (hg : ∀ c, EndsIn mild R (g c)) :
    EndsIn mild R (names.forM g) := by
  induction names with
  | nil => exact .pure
  | cons c rest ih =>
    rw [List.forM]
    exact .bind (hg c) fun _ => ih

end Pure

/-- A unit only sets bindings of type variables aside. -/
theorem isolated [UnifyClosed R] (h : EndsIn mild R body) : EndsIn mild R (isolated body) := by
  refine ⟨fun s => ?_, fun hmild _ => (h.safe hmild _).isolated⟩
  have hsubst : ∀ s σ, R s { s with unifier := { s.unifier with subst := σ } } :=
    fun s _ => UnifyClosed.unifier s (Nat.le_refl _)
  exact trans_of R (hsubst s {}) (trans_of R (h.ends _) (hsubst _ s.unifier.subst))

theorem inUnit [UnifyClosed R] {body : CheckM (List Core.Stmt)} (h : EndsIn mild R body) :
    EndsIn mild R (inUnit body) :=
  .isolated (.bind h fun _ => .bind .get fun _ => .pure)

end EndsIn

theorem safe_of {x : CheckM α} (h : Harmless x) : Safe x s := h.safe trivial s

variable {mild : Prop}
variable {name : String} {ty expected : Ty} {span : Span} {adt : Adt} {hint : Option Ty}
  {seen : List String} {params : List Surface.ClosureParam} {generics : List TyVar}
  {fields : Fields} {decls : List Surface.FieldDecl} {field : Surface.FieldRef} {targetSpan : Span}

/-! Steps that only read the state. -/

section Reading

variable [IsPreorder Checker R]

theorem ends_resolve : EndsIn mild R (resolve ty) := .bind .get fun _ => .pure

theorem ends_resolve? {ty : Option Ty} : EndsIn mild R (resolve? ty) := by
  cases ty with
  | none => exact .pure
  | some ty => exact .bind ends_resolve fun _ => .pure

theorem ends_typeFor {written : Surface.TypeExpr} : EndsIn mild R (typeFor written) := by
  refine .bind .get fun _ => ?_
  split
  · exact .pure
  · rename_i e he
    exact .throw fun _ => (failure_toTy he).isDefect

theorem ends_typesFor {written : List Surface.TypeExpr} : EndsIn mild R (typesFor written) := by
  induction written with
  | nil => exact .pure
  | cons t rest ih => exact .bind ends_typeFor fun _ => .bind ih fun _ => .pure

theorem ends_typeFor? {written : Option Surface.TypeExpr} : EndsIn mild R (typeFor? written) := by
  cases written with
  | none => exact .pure
  | some written => exact .bind ends_typeFor fun _ => .pure

theorem ends_currentReturn : EndsIn mild R currentReturn := .bind .get fun _ => .pure

theorem ends_requireFunction : EndsIn mild R (requireFunction span) :=
  .bind .get fun _ => .ensure rfl

theorem ends_requireTopLevel {what : String} : EndsIn mild R (requireTopLevel what span) :=
  .bind .get fun _ => .ensure rfl

theorem ends_requireDeclared {bounds : List Name} : EndsIn mild R (requireDeclared bounds) := by
  refine .bind .get fun _ => ?_
  dsimp only
  split
  · exact .fail rfl
  · exact .pure

theorem ends_openCall : EndsIn mild R (openCall ty span) := by
  refine .bind ends_resolve fun _ => ?_
  split
  · exact .pure
  · exact .fail rfl

theorem ends_applied {callee : Callee} {dicts args : List Core.Expr} {params : List Ty} {ret : Ty} :
    Ends R (applied callee dicts args params ret span) := by
  unfold applied
  split
  · exact .pure
  · exact .pure
  · exact .pure
  · exact .throw False.elim

theorem ends_lookupAdt {name : Name} : EndsIn mild R (lookupAdt name) := by
  refine .bind .get fun _ => ?_
  split
  · exact .pure
  · exact .fail rfl

theorem ends_constructedFields {tag : Option Name} : EndsIn mild R (constructedFields adt tag span) := by
  unfold constructedFields
  split
  · exact .pure
  · split
    · exact .pure
    · exact .fail rfl
  all_goals exact .fail rfl

theorem ends_enumOf : EndsIn mild R (enumOf ty span) := by
  refine .bind .get fun _ => ?_
  split
  · exact .pure
  · exact .fail rfl

theorem ends_elementOf : EndsIn mild R (elementOf ty span) := by
  unfold elementOf
  split
  · exact .pure
  · exact .fail rfl

theorem ends_tupleHints {length : Nat} : EndsIn mild R (tupleHints length hint) :=
  .bind ends_resolve? fun _ => .pure

theorem ends_arrayHint : EndsIn mild R (arrayHint hint) :=
  .bind ends_resolve? fun _ => .pure

theorem ends_openClosure {arity : Nat} : EndsIn mild R (openClosure hint arity span) := by
  refine .bind ends_resolve? fun _ => ?_
  split
  · exact .fail rfl
  · split
    · exact .fail rfl
    · exact .bind (.ensure rfl) fun _ => .pure

theorem ends_returning {value : Core.Expr} : EndsIn mild R (returning value) := by
  refine .bind ends_resolve fun _ => ?_
  split <;> exact .pure

theorem ends_pendingAdt {name : Name} : EndsIn mild R (pendingAdt name) := by
  refine .bind .get fun _ => ?_
  split
  · exact .pure
  · exact .fail rfl

theorem ends_addFields : EndsIn mild R (addFields fields decls) := by
  induction decls generalizing fields with
  | nil => exact .pure
  | cons decl rest ih => exact .bind (.ensure rfl) fun _ => .bind ends_typeFor fun _ => ih

theorem ends_addMethods {bound : Trait} {selfVar : TyVar} {methods : Assoc String Ty}
    {sigs : List Surface.MethodSig} : EndsIn mild R (addMethods bound selfVar methods sigs) := by
  induction sigs generalizing methods with
  | nil => exact .pure
  | cons sig rest ih =>
    exact .bind (.ensure rfl) fun _ => .bind ends_typesFor fun _ => .bind ends_typeFor fun _ => ih

theorem ends_methodType {impl : Impl} {sig : Ty} : EndsIn mild R (impl.methodType sig span) := by
  unfold Impl.methodType
  split
  · exact .pure
  · exact .fail rfl

end Reading

/-! Steps that draw ids of variables. -/

section Fresh

/-- At most ids were drawn, and names of types bound in the innermost frame. -/
def Names (s s' : Checker) : Prop :=
  ∃ types next, s.unifier.next ≤ next ∧ s' = { s with
    unifier := { s.unifier with next }
    scope := { s.scope with top := { s.scope.top with types } } }

instance : FreshClosed Names where
  refl := fun s => ⟨s.scope.top.types, s.unifier.next, Nat.le_refl _, rfl⟩
  trans := by
    rintro s _ _ ⟨types, next, hle, rfl⟩ ⟨types', next', hle', rfl⟩
    exact ⟨types', next', Nat.le_trans hle hle', rfl⟩
  draw := fun s next h => ⟨s.scope.top.types, next, h, rfl⟩

theorem names_bindType : EndsIn mild Names (bindType name ty) :=
  .modify fun s => ⟨_, s.unifier.next, Nat.le_refl _, rfl⟩

variable [FreshClosed R]

/-- The names of types are gone when the frame is closed. -/
theorem ends_inScope {body : CheckM α} (h : EndsIn mild Names body) : EndsIn mild R (inScope body) := by
  refine ⟨fun s => ?_, fun hmild _ => (h.safe hmild _).inScope⟩
  have hclose : ∀ s1, Names { s with scope := s.scope.push } s1 →
      R s { s1 with scope := s1.scope.pop } := by
    rintro _ ⟨types, next, hle, rfl⟩
    exact FreshClosed.draw s hle
  exact hclose _ (h.ends _)

theorem ends_fresh {traits : TraitSet} : EndsIn mild R (fresh name traits) :=
  .modifyGet fun s => FreshClosed.draw s (Nat.le_succ _)

theorem ends_freshId : EndsIn mild R freshId := .modifyGet fun s => FreshClosed.draw s (Nat.le_succ _)

theorem ends_freshAll {names : List Name} : EndsIn mild R (freshAll names) := by
  induction names with
  | nil => exact .pure
  | cons name rest ih => exact .bind ends_fresh fun _ => .bind ih fun _ => .pure

theorem ends_instantiate {value : Value} : EndsIn mild R (instantiate value) :=
  .modifyGet fun s => FreshClosed.draw s (Nat.le_add_right _ _)

theorem ends_instantiateAdt : EndsIn mild R (instantiateAdt adt) :=
  .modifyGet fun s => FreshClosed.draw s (Nat.le_add_right _ _)

theorem ends_declareGenerics {generics : List Surface.GenericParam} :
    EndsIn mild R (declareGenerics seen generics) := by
  induction generics generalizing seen with
  | nil => exact .pure
  | cons g rest ih =>
    exact .bind (.ensure rfl) fun _ => .bind ends_requireDeclared fun _ =>
      .bind ends_fresh fun _ => .bind ih fun _ => .pure

theorem ends_declareSignature {decl : Surface.FuncDecl} : EndsIn mild R (declareSignature decl) := by
  refine .bind ends_declareGenerics fun _ => ends_inScope ?_
  refine .bind (.forM _ fun _ => names_bindType) fun _ => .bind ends_typesFor fun _ => ?_
  split
  · exact .bind ends_typeFor fun _ => .pure
  · exact .bind ends_fresh fun _ => .pure

theorem ends_resolveFields : EndsIn mild R (resolveFields generics decls) :=
  ends_inScope (.bind (.forM _ fun _ => names_bindType) fun _ => ends_addFields)

theorem ends_addTags {tags : Assoc String Fields} {decls : List Surface.TagDecl} :
    EndsIn mild R (addTags generics tags decls) := by
  induction decls generalizing tags with
  | nil => exact .pure
  | cons decl rest ih => exact .bind (.ensure rfl) fun _ => .bind ends_resolveFields fun _ => ih

/-- The methods of a trait, with `Self` in scope. -/
theorem ends_traitMethods (bound : Trait) (selfVar : TyVar) (sigs : List Surface.MethodSig) :
    EndsIn mild R (inScope do
      bindType "Self" (.var selfVar)
      addMethods bound selfVar ∅ sigs) :=
  ends_inScope (.bind names_bindType fun _ => ends_addMethods)

end Fresh

/-! Steps that bind type variables. -/

section Unify

variable [UnifyClosed R]

theorem ends_unify {found : Ty} : EndsIn mild R (unify span expected found) := by
  have hresult (s : Checker) : EndsIn mild R
      (ofExcept span ((Unifier.unify s.registry expected found).run.run s.unifier).1) :=
    .ofExcept fun _ failure h =>
      (Unifier.mild_unify expected found).fails s.unifier failure _ (Prod.ext h rfl)
  refine ⟨fun s => ?_, fun hmild s => (hresult s).safe hmild _⟩
  have hset : R s { s with unifier :=
      ((Unifier.unify s.registry expected found).run.run s.unifier).2 } :=
    UnifyClosed.unifier s ((Unifier.mild_unify expected found).next_le _)
  exact trans_of R hset ((hresult s).ends _)

theorem ends_join {before : Option Ty} : EndsIn mild R (join span before ty) := by
  cases before with
  | none => exact .pure
  | some before => exact ends_unify

theorem ends_expecting {check : Option Ty → CheckM Core.Expr} (h : ∀ hint, EndsIn mild R (check hint)) :
    EndsIn mild R (expecting expected span check) :=
  .bind ends_resolve fun _ => .bind (h _) fun _ => .bind ends_unify fun _ => .pure

theorem ends_fieldOf {target : Ty} {field : String} :
    EndsIn mild R (fieldOf adt fields target field span) := by
  unfold fieldOf
  split
  · exact .bind ends_resolve fun _ => .fail rfl
  · exact .bind ends_instantiateAdt fun _ => .bind ends_unify fun _ =>
      .bind ends_resolve fun _ => .pure

theorem ends_selected : EndsIn mild R (selected ty field targetSpan span) := by
  unfold selected
  split
  · exact .fail rfl
  · split
    · exact .pure
    · exact .fail rfl
  · split
    · split
      · exact .pure
      · exact .fail rfl
    · exact .fail rfl
  · refine .bind .get fun _ => ?_
    split
    · exact ends_fieldOf
    · exact .fail rfl
  · exact .fail rfl

theorem ends_select {target : Core.Expr} : EndsIn mild R (select target field targetSpan span) :=
  .bind ends_resolve fun _ => .bind ends_selected fun _ => .pure

theorem ends_closureParam {param : Surface.ClosureParam} : EndsIn mild R (closureParam param expected) := by
  refine .bind ends_typeFor? fun written => .bind ?_ fun _ => .bind ends_resolve fun _ =>
    .bind (.ensure rfl) fun _ => .pure
  cases written with
  | none => exact .pure
  | some written => exact ends_unify

theorem ends_closureParams {types : List Ty} : EndsIn mild R (closureParams params types) := by
  induction params generalizing types with
  | nil => exact .pure
  | cons param rest ih =>
    cases types with
    | nil => exact .pure
    | cons ty types => exact .bind ends_closureParam fun _ => .bind ih fun _ => .pure

end Unify

/-! Steps that bind values in the innermost frame. -/

section Binding

/-- The name may be bound to a binding in the innermost frame. -/
def Allows (R : Checker → Checker → Prop) (name : String) : Prop :=
  ∀ s value id, value.kind = .binding id → R s { s with scope := s.scope.bindValue name value }

variable {types : List Ty} {bound : Trait} {evidence : Evidence}

theorem ends_bindValue {value : Value} {id : BindingId} (h : Allows R name)
    (hvalue : value.kind = .binding id) : EndsIn mild R (bindValue name value) :=
  .modify fun s => h s value id hvalue

/-- Evidence is provided or not. -/
theorem ends_provide [IsPreorder Checker R] (h : ∀ s registry,
      s.registry.provide ty bound evidence = .ok registry → R s { s with registry }) :
    EndsIn mild R (provide span ty bound evidence) := by
  refine ⟨fun s => ?_, fun _ s => ?_⟩
  · rw [provide, Runs.run_get_bind]
    cases hprovide : s.registry.provide ty bound evidence with
    | error failure => exact refl_of R s
    | ok registry => exact h s registry hprovide
  · refine Safe.bind .get fun _ _ _ => .bind (.ofExcept fun _ hfailure => ?_) fun _ _ _ => .modifyGet _
    cases ty with
    | var v =>
      cases hfailure
      rfl
    | app head args =>
      rw [Registry.provide] at hfailure
      split at hfailure
      · cases hfailure
        rfl
      · cases hfailure

variable [BindingClosed R]

theorem ends_freshBinding : EndsIn mild R freshBinding := .modifyGet BindingClosed.binding

theorem Allows.local (h : Allows R name) (s : Checker) (ty : Ty) :
    R s { s with scope := (s.scope.bindLocal name ty).2 } :=
  trans_of R (BindingClosed.binding s) (h { s with scope := s.scope.freshBinding.2 } _ _ rfl)

theorem ends_bindLocal (h : Allows R name) : EndsIn mild R (bindLocal name ty) :=
  .modifyGet fun s => h.local s ty

theorem ends_bindParam (h : Allows R name) : EndsIn mild R (bindParam span name ty) := by
  refine ⟨fun s => ?_, fun _ s => ?_⟩
  · rw [bindParam, Runs.run_get_bind]
    cases hparam : s.scope.bindParam name ty with
    | error failure => exact refl_of R s
    | ok bound =>
      rw [Scope.bindParam] at hparam
      split at hparam
      · cases hparam
      · cases hparam
        exact h.local s ty
  · refine Safe.bind .get fun _ _ _ => .bind (.ofExcept fun _ hfailure => ?_) fun _ _ _ =>
      .bind (.modifyGet _) fun _ _ _ => .pure
    rw [Scope.bindParam] at hfailure
    split at hfailure
    · cases hfailure
      rfl
    · cases hfailure

theorem ends_bindParams {params : List Surface.Param}
    (h : ∀ param ∈ params, Allows R param.name.text) : EndsIn mild R (bindParams params) := by
  induction params with
  | nil => exact .pure
  | cons param rest ih =>
    obtain ⟨hparam, hrest⟩ := List.forall_mem_cons.mp h
    exact .bind ends_typeFor fun _ => .bind (ends_bindParam hparam) fun _ =>
      .bind (ih hrest) fun _ => .pure

theorem ends_bindClosureParams (h : ∀ param ∈ params, Allows R param.name.text) :
    EndsIn mild R (bindClosureParams params types) := by
  induction params generalizing types with
  | nil => exact .pure
  | cons param rest ih =>
    obtain ⟨hparam, hrest⟩ := List.forall_mem_cons.mp h
    cases types with
    | nil => exact .pure
    | cons ty types =>
      exact .bind (ends_bindParam hparam) fun _ => .bind (ih hrest) fun _ => .pure

theorem ends_bindCaseFields [UnifyClosed R] {m : Match} {bindings : List Surface.CaseBinding}
    (h : ∀ b ∈ bindings, Allows R b.binding.text) : EndsIn mild R (bindCaseFields m fields seen bindings) := by
  induction bindings generalizing seen with
  | nil => exact .pure
  | cons b rest ih =>
    obtain ⟨hb, hrest⟩ := List.forall_mem_cons.mp h
    exact .bind (.ensure rfl) fun _ => .bind ends_fieldOf fun _ => .bind (ends_bindLocal hb) fun _ =>
      .bind (ih hrest) fun _ => .pure

theorem ends_bindElements {source : Core.Expr} {index : Nat} {names : List Name}
    (h : ∀ name ∈ names, Allows R name.text) : EndsIn mild R (bindElements source index names types) := by
  induction names generalizing index types with
  | nil => exact .pure
  | cons name rest ih =>
    obtain ⟨hname, hrest⟩ := List.forall_mem_cons.mp h
    cases types with
    | nil => exact .pure
    | cons ty types => exact .bind (ends_bindLocal hname) fun _ => .bind (ih hrest) fun _ => .pure

theorem ends_bindPattern {pattern : Surface.Pattern} {value : Core.Expr}
    (h : ∀ name ∈ pattern.declared, Allows R name) :
    EndsIn mild R (bindPattern pattern ty value span) := by
  unfold bindPattern
  split
  · exact .bind (ends_bindLocal (h _ List.mem_cons_self)) fun _ => .pure
  · split
    · exact .bind (.ensure rfl) fun _ => .bind ends_freshBinding fun _ =>
        .bind (ends_bindElements (List.forall_mem_map.mp h)) fun _ => .pure
    · exact .bind ends_freshAll fun _ => .fail rfl

theorem ends_bindDictionaries {id : Nat} {bounds : List Trait}
    (hnames : ∀ name, TraitCheck.Reserved name → Allows R name)
    (hprovide : ∀ bound evidence, EndsIn mild R (provide span (.tracer id name) bound evidence)) :
    EndsIn mild R (bindDictionaries span name id bounds) := by
  induction bounds with
  | nil => exact .pure
  | cons bound rest ih =>
    have hname := hnames _ (reserved_dictionaryName bound (.tracer id name))
    exact .bind (ends_bindParam hname) fun _ => .bind (hprovide _ _) fun _ =>
      .bind ih fun _ => .pure

theorem ends_bindTracers {generics : List Generic}
    (htypes : ∀ name ty, EndsIn mild R (bindType name ty))
    (hnames : ∀ name, TraitCheck.Reserved name → Allows R name)
    (hprovide : ∀ ty bound evidence, EndsIn mild R (provide span ty bound evidence)) :
    EndsIn mild R (bindTracers span generics) := by
  induction generics with
  | nil => exact .pure
  | cons g rest ih =>
    exact .bind ends_freshId fun _ => .bind (htypes _ _) fun _ =>
      .bind (ends_bindDictionaries hnames (hprovide _)) fun _ => .bind ih fun _ => .pure

theorem ends_openImpl {bound : Name} {written : Surface.TypeExpr}
    (hnames : ∀ name, TraitCheck.Reserved name → Allows R name)
    (hprovide : ∀ ty bound evidence, EndsIn mild R (provide span ty bound evidence)) :
    EndsIn mild R (openImpl bound written span) := by
  refine .bind .get fun _ => ?_
  split
  · exact .fail rfl
  · refine .bind ends_typeFor fun _ => ?_
    split
    · exact .fail rfl
    · exact .bind (.ensure rfl) fun _ => .bind ends_freshBinding fun _ => .bind (hprovide _ _ _) fun _ =>
        .bind (ends_bindValue (hnames _ (reserved_bracketed _ _)) rfl) fun _ => .pure

end Binding

/-! Declarations and programs. -/

section Declarations

variable [FreshClosed R] {name : Name} {bound : Trait} {selfVar : TyVar} {index : Nat}
  {methods : List (String × Ty)}

theorem ends_bindMethods
    (h : ∀ method ∈ methods, ∀ s value, R s { s with scope := s.scope.bindValue method.1 value }) :
    EndsIn mild R (bindMethods bound selfVar index methods) := by
  induction methods generalizing index with
  | nil => exact .pure
  | cons method rest ih =>
    obtain ⟨hmethod, hrest⟩ := List.forall_mem_cons.mp h
    exact .bind (.modify fun s => hmethod s _) fun _ => ih hrest

theorem ends_declare {registry : Registry} {decl : TraitDecl} :
    EndsIn mild R (ofExcept span (registry.declare decl)) := by
  refine .ofExcept fun _ _ hfailure => ?_
  rw [Registry.declare] at hfailure
  split at hfailure
  · cases hfailure
    rfl
  · cases hfailure

theorem ends_declareTrait {sigs : List Surface.MethodSig}
    (hdeclare : ∀ s registry, R s { s with registry })
    (hmethod : ∀ s name value, R s { s with scope := s.scope.bindValue name value }) :
    EndsIn mild R (declareTrait name sigs) :=
  .bind .get fun _ => .bind (.ensure rfl) fun _ => .bind ends_fresh fun _ =>
    .bind (ends_traitMethods _ _ _) fun _ => .bind .get fun _ => .bind ends_declare fun _ =>
      .bind (.modify fun s => hdeclare s _) fun _ => ends_bindMethods fun _ _ s _ => hmethod s _ _

theorem ends_declareAdt {generics : List Surface.GenericParam}
    (htype : ∀ ty, EndsIn mild R (bindType name.text ty)) (hadt : ∀ s generics,
      R s { s with adts := s.adts.insert name.text ⟨name.text, generics, .pending⟩ }) :
    EndsIn mild R (declareAdt name generics) :=
  .bind .get fun _ => .bind (.ensure rfl) fun _ => .bind ends_declareGenerics fun _ =>
    .bind (htype _) fun _ => .modify fun s => hadt s _

theorem ends_defineStruct (h : ∀ kind, EndsIn mild R (setAdtKind name.text kind)) :
    EndsIn mild R (defineStruct name decls) :=
  .bind ends_pendingAdt fun _ => .bind ends_resolveFields fun _ => h _

theorem ends_defineEnum {tags : List Surface.TagDecl}
    (h : ∀ kind, EndsIn mild R (setAdtKind name.text kind)) : EndsIn mild R (defineEnum name tags) :=
  .bind ends_pendingAdt fun _ => .bind ends_addTags fun _ => h _

end Declarations

section Programs

variable {program : Surface.Program}

theorem ends_declareAdts [IsPreorder Checker R]
    (h : ∀ name generics, EndsIn mild R (declareAdt name generics)) : EndsIn mild R (declareAdts program) := by
  induction program with
  | nil => exact .pure
  | cons stmt rest ih =>
    cases stmt with
    | struct name generics fields span => exact .bind (h name generics) fun _ => ih
    | enum name generics tags span => exact .bind (h name generics) fun _ => ih
    | _ => exact ih

theorem ends_checkUnits [UnifyClosed R] {room : Nat}
    (h : ∀ stmt ∈ program, EndsIn mild R (checkStmt room stmt)) : EndsIn mild R (checkUnits room program) := by
  induction program with
  | nil => exact .pure
  | cons stmt rest ih =>
    obtain ⟨hstmt, hrest⟩ := List.forall_mem_cons.mp h
    exact .bind (.inUnit hstmt) fun _ => .bind (ih hrest) fun _ => .pure

end Programs

/-! States with the same scope. -/

/-- The two states have the same scope and the same registry. -/
structure Alike (s s' : Checker) : Prop where
  scope : s'.scope = s.scope
  registry : s'.registry = s.registry

theorem Alike.refl (s : Checker) : Alike s s := ⟨rfl, rfl⟩

theorem Alike.trans {s'' : Checker} (h : Alike s s') (h' : Alike s' s'') : Alike s s'' :=
  ⟨h'.scope.trans h.scope, h'.registry.trans h.registry⟩

instance : UnifyClosed Alike where
  refl := Alike.refl
  trans := fun _ _ _ => Alike.trans
  unifier := fun _ _ _ => ⟨rfl, rfl⟩

theorem EndsIn.alike {x : CheckM α} {a : α} (h : Ends Alike x) (hx : Yields x s a s') : Alike s s' :=
  h.yields hx

theorem alike_recordReturn : Ends Alike (recordReturn ty span) :=
  .bind ends_requireFunction fun _ => .bind ends_currentReturn fun _ => .bind ends_join fun _ =>
    .bind ends_resolve fun _ => .modify fun _ => ⟨rfl, rfl⟩

theorem alike_returnVoid : Ends Alike (returnVoid span) := by
  refine .bind .get fun _ => ?_
  split
  · exact .pure
  · exact .isolated alike_recordReturn

theorem alike_setAdtKind {kind : AdtKind} : Ends Alike (setAdtKind name kind) :=
  .modify fun _ => ⟨rfl, rfl⟩

end Checker

end TraitCheck
