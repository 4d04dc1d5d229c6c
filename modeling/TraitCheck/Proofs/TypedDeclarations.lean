import TraitCheck.Proofs.TypedData

/-!
Declarations: type parameters, signatures, structs, enums and traits. Types are
written here over the variables of the type parameters in scope, which are drawn
but not yet to be bound. A declaration adds to what is known and changes nothing
that was complete.
-/

namespace TraitCheck

theorem Registry.eq_of_declare {registry registry' : Registry} {decl : TraitDecl}
    (h : registry.declare decl = .ok registry') : registry.isDeclared decl.name = false ∧
      registry' = { registry with traits := registry.traits.insert decl.name decl } := by
  rw [Registry.declare] at h
  split at h
  · cases h
  · rename_i hdeclared
    cases h
    exact ⟨Bool.not_eq_true _ ▸ hdeclared, rfl⟩

namespace Checker

open Surface

variable {α γ : Type} {site : Site} {ledger ledger' : Ledger} {s s' : Checker} {ty : Ty}
  {D : Set TyVar} {tracers : Set Nat}

/-! Type parameters. -/

variable {vars vars' : Set TyVar} {low high : Nat} {name : String}

/-- Different variables with ids from the given range. -/
structure Fresh (low high : Nat) (vars : Set TyVar) : Prop where
  range : ∀ v ∈ vars, low ≤ v.id ∧ v.id < high
  unique : ∀ v ∈ vars, ∀ w ∈ vars, v.id = w.id → v = w

theorem fresh_empty (low high : Nat) : Fresh low high ∅ := ⟨by simp, by simp⟩

theorem fresh_singleton (v : TyVar) : Fresh v.id (v.id + 1) {v} := by
  refine ⟨?_, ?_⟩
  · rintro w rfl
    exact ⟨le_refl _, Nat.lt_succ_self _⟩
  · rintro x rfl y rfl _
    rfl

theorem Fresh.union {mid : Nat} (h : Fresh low mid vars) (h' : Fresh mid high vars')
    (hlow : low ≤ mid) (hhigh : mid ≤ high) : Fresh low high (vars ∪ vars') := by
  refine ⟨?_, ?_⟩
  · rintro v (hv | hv)
    · exact ⟨(h.range v hv).1, lt_of_lt_of_le (h.range v hv).2 hhigh⟩
    · exact ⟨le_trans hlow (h'.range v hv).1, (h'.range v hv).2⟩
  · rintro v (hv | hv) w (hw | hw) hid
    · exact h.unique v hv w hw hid
    · exact absurd hid (Nat.ne_of_lt (lt_of_lt_of_le (h.range v hv).2 (h'.range w hw).1))
    · exact absurd hid.symm (Nat.ne_of_lt (lt_of_lt_of_le (h.range w hw).2 (h'.range v hv).1))
    · exact h'.unique v hv w hw hid

theorem Fresh.mono (h : Fresh low high vars) (hsub : vars' ⊆ vars) : Fresh low high vars' :=
  ⟨fun v hv => h.range v (hsub hv), fun v hv w hw => h.unique v (hsub hv) w (hsub hw)⟩

/-- The state with the counter of variables moved on. -/
def drawnTo (s : Checker) (next : Nat) : Checker :=
  { s with unifier := { s.unifier with next } }

theorem Yields.freshId {id : Nat} (h : Yields Checker.freshId s id s') :
    id = s.unifier.next ∧ s' = s.drawnTo (s.unifier.next + 1) := by
  cases h
  exact ⟨rfl, rfl⟩

theorem Yields.fresh {traits : TraitSet} {v : TyVar} (h : Yields (fresh name traits) s v s') :
    v = ⟨s.unifier.next, name, traits⟩ ∧ s' = s.drawnTo (s.unifier.next + 1) := by
  obtain ⟨rfl, rfl⟩ := h.modifyGet
  exact ⟨rfl, rfl⟩

/-- The variables of type parameters. -/
def genericVars (generics : List Generic) : Set TyVar := {v | ∃ g ∈ generics, g.var = v}

theorem Yields.genericsFresh {params : List GenericParam} {seen : List String}
    {generics : List Generic} (h : Yields (Checker.declareGenerics seen params) s generics s') :
    s' = s.drawnTo s'.unifier.next ∧ s.unifier.next ≤ s'.unifier.next ∧
      Fresh s.unifier.next s'.unifier.next (genericVars generics) ∧
        (∀ g ∈ generics, ∀ bound ∈ g.bounds,
          s.registry.isDeclared bound = true ∧ bound ∈ g.var.traits) ∧
            generics.map Generic.param = paramBounds params := by
  induction params generalizing seen generics s with
  | nil =>
    obtain ⟨rfl, rfl⟩ := h.pure
    refine ⟨rfl, le_refl _, (fresh_empty _ _).mono ?_, by simp, rfl⟩
    rintro v ⟨g, hg, _⟩
    cases hg
  | cons g rest ih =>
    obtain ⟨_, h⟩ := h.ensure_bind
    obtain ⟨_, s1, h1, h⟩ := h.bind
    obtain ⟨hbounds, rfl⟩ := h1.requireDeclared
    obtain ⟨var, s2, h2, h⟩ := h.bind
    obtain ⟨rfl, rfl⟩ := h2.modifyGet
    obtain ⟨more, s3, h3, h⟩ := h.bind
    obtain ⟨rfl, rfl⟩ := h.pure
    obtain ⟨hstate, hle, hfresh, hmore, hnames⟩ := ih h3
    refine ⟨hstate, Nat.le_of_succ_le hle, ?_, ?_, congrArg (_ :: ·) hnames⟩
    · have hfirst := fresh_singleton
        ⟨s.unifier.next, g.name.text, .ofList (g.bounds.map (·.text))⟩
      refine (hfirst.union hfresh (Nat.le_succ _) hle).mono ?_
      rintro v ⟨x, hx, rfl⟩
      rcases List.mem_cons.mp hx with rfl | hx
      · exact .inl rfl
      · exact .inr ⟨x, hx, rfl⟩
    · intro x hx bound hbound
      rcases List.mem_cons.mp hx with rfl | hx
      · refine ⟨?_, TraitSet.mem_ofList.mpr hbound⟩
        obtain ⟨name, hname, rfl⟩ := List.mem_map.mp hbound
        exact hbounds name hname
      · exact hmore x hx bound hbound

/-! Written types, with type parameters in scope. -/

theorem Yields.typesFor {written : List TypeExpr} {tys : List Ty}
    (h : Yields (typesFor written) s tys s') (hover : TypesOver s tracers D s.scope) :
    s = s' ∧ tys.length = written.length ∧ ∀ ty ∈ tys, ty.Formed (s.written tracers) D := by
  induction written generalizing tys s' with
  | nil =>
    obtain ⟨rfl, rfl⟩ := h.pure
    exact ⟨rfl, rfl, by simp⟩
  | cons t rest ih =>
    obtain ⟨ty, s1, h1, h⟩ := h.bind
    obtain ⟨hty, rfl⟩ := h1.typeFor
    obtain ⟨more, s2, h2, h⟩ := h.bind
    obtain ⟨rfl, hlength, hmore⟩ := ih h2
    obtain ⟨rfl, rfl⟩ := h.pure
    exact ⟨rfl, congrArg (· + 1) hlength,
      List.forall_mem_cons.mpr ⟨formed_toTy hover hty, hmore⟩⟩

/-- The state with other types in the innermost frame. -/
def withTypes (s : Checker) (types : Assoc String Ty) : Checker :=
  { s with scope := { s.scope with top := { s.scope.top with types } } }

theorem TypesOver.bindType {name : String} (h : TypesOver s tracers D s.scope)
    (hty : ty.Formed (s.written tracers) D) : TypesOver s tracers D (s.scope.bindType name ty) := by
  intro other t ht harity
  rw [Scope.type?, Scope.bindType, Scope.frames, Frame.lookupType, Assoc.find?_insert] at ht
  split at ht
  · cases ht
    exact hty
  · exact h other t ht harity

theorem Yields.bindTypes (names : List γ) {name : γ → String} {type : γ → Ty} {a : Unit}
    (h : Yields (names.forM fun g => bindType (name g) (type g)) s a s')
    (hover : TypesOver s tracers D s.scope)
    (htype : ∀ g ∈ names, (type g).Formed (s.written tracers) D) :
    (∃ types, s' = s.withTypes types) ∧ TypesOver s tracers D s'.scope := by
  induction names generalizing s with
  | nil =>
    obtain ⟨_, rfl⟩ := h.pure
    exact ⟨⟨_, rfl⟩, hover⟩
  | cons g rest ih =>
    rw [List.forM] at h
    obtain ⟨_, s1, h1, h2⟩ := h.bind
    obtain rfl := h1.modify
    obtain ⟨hg, hrest⟩ := List.forall_mem_cons.mp htype
    obtain ⟨⟨types, rfl⟩, hafter⟩ := ih h2 (hover.bindType hg) hrest
    exact ⟨⟨types, rfl⟩, hafter⟩

/-- A body in a frame with type names. It leaves the frames as they were if the
body does. -/
theorem Yields.inTypes {names : List γ} {name : γ → String} {type : γ → Ty} {body : CheckM α}
    {a : α} (h : Yields (Checker.inScope
      ((names.forM fun g => bindType (name g) (type g)) >>= fun _ => body)) s a s')
    (hover : TypesOver s tracers D s.scope)
    (htype : ∀ g ∈ names, (type g).Formed (s.written tracers) D) :
    ∃ types s1, Yields body ({ s with scope := s.scope.push }.withTypes types) a s1 ∧
      TypesOver s tracers D ({ s with scope := s.scope.push }.withTypes types).scope ∧
        s' = { s1 with scope := s1.scope.pop } := by
  obtain ⟨s1, hbody, rfl⟩ := h.inScope
  obtain ⟨_, s2, h2, hbody⟩ := hbody.bind
  have hpush : TypesOver { s with scope := s.scope.push } tracers D s.scope.push := hover
  obtain ⟨⟨types, rfl⟩, hafter⟩ := h2.bindTypes names hpush htype
  exact ⟨types, s1, hbody, hafter, rfl⟩

/-! Signatures. -/

variable {sig : Signature} {decl : FuncDecl}

/-- The variable for a result type that is not written. -/
def Signature.resultVars (sig : Signature) : Set TyVar :=
  {v | sig.retDeclared = false ∧ sig.ret = .var v}

/-- The signature is what the declaration says, where types may have these
tracers. -/
structure Signed (tracers : Set Nat) (s : Checker) (decl : FuncDecl) (sig : Signature)
    (s' : Checker) : Prop where
  state : s' = s.drawnTo s'.unifier.next
  next : s.unifier.next ≤ s'.unifier.next
  fresh : Fresh s.unifier.next s'.unifier.next (genericVars sig.generics ∪ sig.resultVars)
  apart : ∀ v ∈ genericVars sig.generics, ∀ w ∈ sig.resultVars, v.id ≠ w.id
  bounds : ∀ g ∈ sig.generics, ∀ bound ∈ g.bounds,
    s.registry.isDeclared bound = true ∧ bound ∈ g.var.traits
  names : sig.generics.map Generic.param = paramBounds decl.generics
  count : sig.params.length = decl.params.length
  params : ∀ p ∈ sig.params, p.Formed (s.written tracers) (genericVars sig.generics)
  declared : sig.retDeclared = decl.ret.isSome
  ret : sig.ret.Formed (s.written tracers) (genericVars sig.generics ∪ sig.resultVars)

theorem Yields.signed (h : Yields (Checker.declareSignature decl) s sig s')
    (hover : TypesOver s tracers ∅ s.scope) : Signed tracers s decl sig s' := by
  obtain ⟨generics, s1, h1, h⟩ := h.bind
  obtain ⟨hstate, hle, hfresh, hbounds, hnames⟩ := h1.genericsFresh
  obtain ⟨next, rfl⟩ : ∃ next, s1 = s.drawnTo next := ⟨_, hstate⟩
  have hover1 : TypesOver (s.drawnTo next) tracers (genericVars generics) s.scope :=
    hover.mono (Set.empty_subset _)
  obtain ⟨types, s2, hbody, hover2, rfl⟩ := h.inTypes hover1 fun g hg => .var ⟨g, hg, rfl⟩
  obtain ⟨params, s3, h3, hbody⟩ := hbody.bind
  obtain ⟨rfl, hcount, hparams⟩ := h3.typesFor hover2
  rw [List.length_map] at hcount
  split at hbody
  · rename_i ret hret
    obtain ⟨ty, s4, h4, hbody⟩ := hbody.bind
    obtain ⟨hty, rfl⟩ := h4.typeFor
    obtain ⟨rfl, rfl⟩ := hbody.pure
    have hnone : Signature.resultVars ⟨generics, params, ty, true⟩ = ∅ := by
      refine Set.eq_empty_of_forall_notMem ?_
      rintro v ⟨⟨⟩, _⟩
    have hty' := formed_toTy hover2 hty
    exact {
      state := rfl
      next := hle
      fresh := by
        rw [hnone, Set.union_empty]
        exact hfresh
      apart := by
        rw [hnone]
        exact fun _ _ w hw => absurd hw (Set.notMem_empty w)
      bounds := hbounds
      names := hnames
      count := hcount
      params := hparams
      declared := by rw [hret]; rfl
      ret := hty'.mono Set.subset_union_left }
  · rename_i hret
    obtain ⟨v, s4, h4, hbody⟩ := hbody.bind
    obtain ⟨rfl, rfl⟩ := h4.modifyGet
    obtain ⟨rfl, rfl⟩ := hbody.pure
    let result : TyVar := ⟨next, "R", ∅⟩
    have hresult : Signature.resultVars ⟨generics, params, .var result, false⟩ = {result} := by
      ext v
      exact ⟨fun h => (Ty.var.inj h.2).symm, fun h => ⟨rfl, congrArg Ty.var h.symm⟩⟩
    have hfresh' : Fresh s.unifier.next (next + 1) (genericVars generics ∪
        Signature.resultVars ⟨generics, params, .var result, false⟩) := by
      rw [hresult]
      exact hfresh.union (fresh_singleton result) hle (Nat.le_succ _)
    have hapart : ∀ v ∈ genericVars generics,
        ∀ w ∈ Signature.resultVars ⟨generics, params, .var result, false⟩, v.id ≠ w.id := by
      rw [hresult]
      rintro v hv w rfl
      exact Nat.ne_of_lt (hfresh.range v hv).2
    exact {
      state := rfl
      next := Nat.le_succ_of_le hle
      fresh := hfresh'
      apart := hapart
      bounds := hbounds
      names := hnames
      count := hcount
      params := hparams
      declared := by rw [hret]; rfl
      ret := .var (.inr ⟨rfl, rfl⟩) }

/-- Some of the variables of a signature may be bound from now on. -/
theorem Wellformed.sign (hs : Wellformed site ledger s) (hsig : Signed tracers s decl sig s')
    {new : Set TyVar} (hnew : new ⊆ genericVars sig.generics ∪ sig.resultVars) :
    Advance site ledger s { ledger with drawn := ledger.drawn ∪ new } s' := by
  have hfresh := hsig.fresh.mono hnew
  obtain ⟨hdraws, hu⟩ := hs.unifier.draw rfl hsig.next new hfresh.range hfresh.unique
  have hadv := hs.changeUnifier hdraws hu hsig.next (.refl _)
  rw [hsig.state]
  exact hadv

/-! Structs and enums. -/

variable {fields : Fields} {decls : List FieldDecl} {generics : List TyVar}

theorem Yields.pendingAdt {name : Name} {adt : Adt} (h : Yields (pendingAdt name) s adt s') :
    s = s' ∧ Assoc.find? s.adts name.text = some adt ∧ adt.isPending = true := by
  replace h := h.get_bind
  split at h
  · rename_i adt' hfind
    obtain ⟨rfl, rfl⟩ := h.pure
    obtain ⟨hfind, hpending⟩ := Option.filter_eq_some_iff.mp hfind
    exact ⟨rfl, hfind, hpending⟩
  · exact h.fail.elim

/-- The fields have different names, and their types are over the variables. -/
def FieldsTyped (L : Lexicon) (D : Set TyVar) (fields : Fields) : Prop :=
  fields.keys.Nodup ∧ ∀ ty ∈ fields.values, ty.Formed L D

theorem Yields.addFields {out : Fields} (h : Yields (addFields fields decls) s out s')
    (hover : TypesOver s tracers D s.scope) (hfields : FieldsTyped (s.written tracers) D fields) :
    s = s' ∧ FieldsTyped (s.written tracers) D out := by
  induction decls generalizing fields s' with
  | nil =>
    obtain ⟨rfl, rfl⟩ := h.pure
    exact ⟨rfl, hfields⟩
  | cons decl rest ih =>
    obtain ⟨_, h⟩ := h.ensure_bind
    obtain ⟨ty, s2, h2, h⟩ := h.bind
    obtain ⟨hty, rfl⟩ := h2.typeFor
    refine ih h ⟨Assoc.nodup_keys_insert _ _ _ hfields.1, fun t ht => ?_⟩
    rcases Assoc.mem_values_insert ht with rfl | ht
    · exact formed_toTy hover hty
    · exact hfields.2 t ht

theorem Yields.resolveFields (h : Yields (resolveFields generics decls) s fields s')
    (hover : TypesOver s tracers ∅ s.scope) :
    s = s' ∧ FieldsTyped (s.written tracers) {v | v ∈ generics} fields := by
  have hover' : TypesOver s tracers {v | v ∈ generics} s.scope := hover.mono (Set.empty_subset _)
  obtain ⟨types, s1, hbody, hafter, rfl⟩ := h.inTypes hover' fun _ hv => .var hv
  obtain ⟨rfl, hfields⟩ := hbody.addFields hafter ⟨List.nodup_nil, fun _ h => nomatch h⟩
  exact ⟨rfl, hfields⟩

theorem Yields.addTags {decls : List TagDecl} {tags out : Assoc String Fields}
    (h : Yields (addTags generics tags decls) s out s') (hover : TypesOver s tracers ∅ s.scope)
    (hnodup : tags.keys.Nodup)
    (htags : ∀ fields ∈ tags.values, FieldsTyped (s.written tracers) {v | v ∈ generics} fields) :
    s = s' ∧ out.keys.Nodup ∧
      ∀ fields ∈ out.values, FieldsTyped (s.written tracers) {v | v ∈ generics} fields := by
  induction decls generalizing tags s' with
  | nil =>
    obtain ⟨rfl, rfl⟩ := h.pure
    exact ⟨rfl, hnodup, htags⟩
  | cons decl rest ih =>
    obtain ⟨_, h⟩ := h.ensure_bind
    obtain ⟨fields, s2, h2, h⟩ := h.bind
    obtain ⟨rfl, hfields⟩ := h2.resolveFields hover
    refine ih h (Assoc.nodup_keys_insert _ _ _ hnodup) fun fields' hmem => ?_
    rcases Assoc.mem_values_insert hmem with rfl | hmem
    · exact hfields
    · exact htags fields' hmem

/-- The kind of a declaration that was pending. -/
theorem arities_insert {adt : Adt} (kind : AdtKind)
    (hfind : Assoc.find? s.adts name = some adt) :
    arities { s with adts := Assoc.insert s.adts name { adt with kind } } = s.arities := by
  funext other
  rw [arities, arities, Assoc.find?_insert]
  by_cases heq : other = name
  · rw [if_pos heq, heq, hfind]
  · rw [if_neg heq]

theorem isSome_of_insert {adts : AdtTable} {adt adt' : Adt}
    (hfind : Assoc.find? adts name = some adt) {other : String}
    (h : (Assoc.find? (Assoc.insert adts name adt') other).isSome = true) :
    (Assoc.find? adts other).isSome = true := by
  rw [Assoc.find?_insert] at h
  split at h
  · rename_i heq
    rw [heq, hfind]
    rfl
  · exact h

theorem Wellformed.setAdtKind (hs : Wellformed site ledger s) {name : String} {adt : Adt}
    (kind : AdtKind) (hfind : Assoc.find? s.adts name = some adt) (hpending : adt.isPending = true)
    (htyped : Adt.Typed (s.written ∅) { adt with kind } name) :
    Leads site ledger s (setAdtKind name kind) fun _ _ _ => True := by
  have hmodify : Assoc.modify s.adts name ({ · with kind }) =
      Assoc.insert s.adts name { adt with kind } := by
    rw [Assoc.modify, hfind]
  have harities := arities_insert kind hfind
  have hgrows : s.adts.Grows (Assoc.insert s.adts name { adt with kind }) := by
    intro other adt' hother
    rw [Assoc.find?_insert]
    by_cases heq : other = name
    · rw [heq, hfind] at hother
      cases hother
      rw [if_pos heq]
      exact ⟨_, rfl, rfl, fun h => absurd (h.symm.trans hpending) Bool.false_ne_true⟩
    · rw [if_neg heq]
      exact ⟨adt', hother, rfl, fun _ => rfl⟩
  have hdeclares : Declares s { s with adts := Assoc.insert s.adts name { adt with kind } } :=
    ⟨harities ▸ fun _ _ h => h, hgrows, .refl _⟩
  have hwritten : written { s with adts := Assoc.insert s.adts name { adt with kind } } ∅ =
      s.written ∅ := by
    rw [written, harities]
    rfl
  suffices hadv : Advance site ledger s ledger
      { s with adts := Assoc.modify s.adts name ({ · with kind }) } from .update hadv trivial
  rw [hmodify]
  refine hs.declare hdeclares (fun _ _ _ he => hs.evidence_declare hdeclares he)
    (entries_declare hs.scope hdeclares (le_refl _)) rfl rfl ?_ ?_ ?_ ?_
  · rw [hwritten]
    exact hs.traits
  · rw [hwritten]
    exact Assoc.forall_insert htyped hs.adts
  · exact Assoc.forall_insert (hs.disjoint name adt hfind) hs.disjoint
  · exact fun other hother => hs.names other (hother.imp_right (isSome_of_insert hfind))

theorem Wellformed.defineStruct (hs : Wellformed site ledger s) (hroot : s.scope.below = [])
    (name : Name) (decls : List FieldDecl) :
    Leads site ledger s (defineStruct name decls) fun _ _ _ => True := by
  refine ⟨?_, safe_of (ends_defineStruct fun _ => .modify fun _ => trivial)⟩
  intro r s' hrun
  obtain ⟨adt, s1, h1, hrun⟩ := hrun.bind
  obtain ⟨rfl, hfind, hpending⟩ := h1.pendingAdt
  obtain ⟨fields, s2, h2, hrun⟩ := hrun.bind
  obtain ⟨rfl, hfields⟩ := h2.resolveFields (hs.typesOver_root hroot)
  have hadt := hs.adts name.text adt hfind
  refine (hs.setAdtKind (.struct fields) hfind hpending
    ⟨hadt.name_eq, hadt.not_builtin, ?_, by nofun⟩).ok r s' hrun
  intro tag fields' htag
  cases tag with
  | none =>
    cases htag
    exact hfields
  | some tag => cases htag

theorem Wellformed.defineEnum (hs : Wellformed site ledger s) (hroot : s.scope.below = [])
    (name : Name) (decls : List TagDecl) :
    Leads site ledger s (defineEnum name decls) fun _ _ _ => True := by
  refine ⟨?_, safe_of (ends_defineEnum fun _ => .modify fun _ => trivial)⟩
  intro r s' hrun
  obtain ⟨adt, s1, h1, hrun⟩ := hrun.bind
  obtain ⟨rfl, hfind, hpending⟩ := h1.pendingAdt
  obtain ⟨tags, s2, h2, hrun⟩ := hrun.bind
  obtain ⟨rfl, hnodup, htags⟩ := h2.addTags (hs.typesOver_root hroot) List.nodup_nil
    fun _ h => nomatch h
  have hadt := hs.adts name.text adt hfind
  refine (hs.setAdtKind (.enum tags) hfind hpending
    ⟨hadt.name_eq, hadt.not_builtin, ?_, ?_⟩).ok r s' hrun
  · intro tag fields htag
    cases tag with
    | none => cases htag
    | some tag => exact htags fields (List.mem_of_getElem? htag)
  · rintro tags' ⟨⟩
    exact hnodup

/-! Traits. -/

variable {out : Assoc String Ty} {selfVar : TyVar} {bound : Trait} {sigs : List MethodSig}

theorem Yields.methodsTyped {methods : Assoc String Ty}
    (h : Yields (Checker.addMethods bound selfVar methods sigs) s out s')
    (hover : TypesOver s tracers {selfVar} s.scope) (hnodup : methods.keys.Nodup)
    (hmethods : ∀ sig ∈ methods.values, ∃ params ret,
      sig = .funcWith [⟨.var selfVar, bound⟩] params ret ∧
        (∀ p ∈ params, p.Formed (s.written tracers) {selfVar}) ∧
          ret.Formed (s.written tracers) {selfVar}) :
    s = s' ∧ out.keys.Nodup ∧ ∀ sig ∈ out.values, ∃ params ret,
      sig = .funcWith [⟨.var selfVar, bound⟩] params ret ∧
        (∀ p ∈ params, p.Formed (s.written tracers) {selfVar}) ∧
          ret.Formed (s.written tracers) {selfVar} := by
  induction sigs generalizing methods s' with
  | nil =>
    obtain ⟨rfl, rfl⟩ := h.pure
    exact ⟨rfl, hnodup, hmethods⟩
  | cons method rest ih =>
    obtain ⟨_, h⟩ := h.ensure_bind
    obtain ⟨params, s2, h2, h⟩ := h.bind
    obtain ⟨rfl, _, hparams⟩ := h2.typesFor hover
    obtain ⟨ret, s3, h3, h⟩ := h.bind
    obtain ⟨hret, rfl⟩ := h3.typeFor
    refine ih h (Assoc.nodup_keys_insert _ _ _ hnodup) fun sig hsig => ?_
    rcases Assoc.mem_values_insert hsig with rfl | hsig
    · exact ⟨params, ret, rfl, hparams, formed_toTy hover hret⟩
    · exact hmethods sig hsig

/-- The methods of a trait, with `Self` in scope. -/
theorem Yields.methodsFor (h : Yields (Checker.inScope
      (bindType "Self" (.var selfVar) >>= fun _ => Checker.addMethods bound selfVar ∅ sigs)) s out s')
    (hover : TypesOver s tracers ∅ s.scope) :
    s = s' ∧ out.keys.Nodup ∧ ∀ sig ∈ out.values, ∃ params ret,
      sig = .funcWith [⟨.var selfVar, bound⟩] params ret ∧
        (∀ p ∈ params, p.Formed (s.written tracers) {selfVar}) ∧
          ret.Formed (s.written tracers) {selfVar} := by
  obtain ⟨s1, hbody, rfl⟩ := h.inScope
  obtain ⟨_, s2, h2, hbody⟩ := hbody.bind
  obtain rfl := h2.modify
  have hpush : TypesOver { s with scope := s.scope.push } tracers {selfVar} s.scope.push :=
    hover.mono (Set.empty_subset _)
  obtain ⟨rfl, hmethods⟩ := hbody.methodsTyped (hpush.bindType (.var rfl)) List.nodup_nil
    fun _ h => nomatch h
  exact ⟨rfl, hmethods⟩

/-- The names of the methods stand for their slots. -/
theorem Wellformed.bindMethods {bound : Trait} {decl : TraitDecl}
    {methods : List (String × Ty)} (index : Nat) (hs : Wellformed site ledger s)
    (hdecl : s.registry.trait? bound = some decl) (hself : decl.selfVar.id < s.unifier.next)
    (hunique : ∀ w ∈ ledger.drawn, w.id ≠ decl.selfVar.id)
    (hmethods : ∀ j, decl.methods.values[index + j]? = (methods.map Prod.snd)[j]?) :
    Leads site ledger s (bindMethods bound decl.selfVar index methods) fun _ _ _ => True := by
  induction methods generalizing ledger s index with
  | nil => exact .pure hs trivial
  | cons method rest ih =>
    obtain ⟨name, ty⟩ := method
    have hslot : decl.methods.values[index]? = some ty := hmethods 0
    have htrait := hs.traits bound decl hdecl
    obtain ⟨params, ret, heq, hparams, hret⟩ := htrait.sigs ty (List.mem_of_getElem? hslot)
    have hextends : (s.written ∅).Extends (s.lexicon (ledger.level s.scope.depth)) :=
      ((Declares.refl s).written (Set.empty_subset _)).trans (written_extends_lexicon s _)
    have hty : ty.Formed (s.lexicon (ledger.level s.scope.depth)) {decl.selfVar} := by
      rw [heq]
      refine Ty.formed_funcWith ?_ (fun p hp => (hparams p hp).extend hextends)
        (hret.extend hextends)
      intro o ho
      rw [List.mem_singleton.mp ho]
      exact ⟨.var rfl, htrait.bound⟩
    refine .bind (hs.bindValue name ⟨hty.mono ?_, ?_, by nofun, by nofun, by nofun, ?_⟩) ?_
    · rintro v rfl
      exact .inr List.mem_cons_self
    · intro v hv
      obtain rfl := List.mem_singleton.mp hv
      refine ⟨hself, ?_⟩
      rintro w (hw | hw) hid
      · exact absurd hid (hunique w hw)
      · exact List.mem_singleton.mp hw
    · rintro _ _ ⟨⟩
      exact ⟨decl, hdecl, rfl, hslot⟩
    · rintro ledger1 s1 _ hadv ⟨rfl, rfl⟩
      refine ih (index + 1) hadv.after hdecl hself hunique fun j => ?_
      rw [Nat.add_assoc, Nat.add_comm 1]
      exact hmethods (j + 1)

theorem arities_free (hbuiltin : name ∉ Prelude.types) (hadt : Assoc.find? s.adts name = none)
    (htrait : ¬s.registry.isDeclared name = true) : s.arities name = none := by
  rw [arities, hadt]
  dsimp only
  rw [if_neg hbuiltin, if_neg htrait]

/-- The name of a new trait is not that of a type. -/
theorem Wellformed.arities_fresh (hs : Wellformed site ledger s)
    (hplain : site.plain → name ∉ Prelude.types) (hscope : s.scope.root.types.contains name = false)
    (htrait : s.registry.isDeclared name = false) :
    name ∉ Prelude.types ∧ Assoc.find? s.adts name = none ∧ s.arities name = none := by
  have hbuiltin : name ∉ Prelude.types := fun h => by
    rw [hs.names name (.inl ⟨fun hp => hplain hp h, h⟩)] at hscope
    cases hscope
  have hadt : Assoc.find? s.adts name = none := by
    by_contra hne
    rw [hs.names name (.inr (Option.ne_none_iff_isSome.mp hne))] at hscope
    cases hscope
  exact ⟨hbuiltin, hadt, arities_free hbuiltin hadt (Bool.not_eq_true _ ▸ htrait)⟩

theorem Wellformed.addTrait (hs : Wellformed site ledger s) {decl : TraitDecl}
    (hplain : site.plain → decl.name ∉ Prelude.types)
    (hscope : s.scope.root.types.contains decl.name = false)
    (htrait : s.registry.isDeclared decl.name = false) (hbound : decl.name ∈ decl.selfVar.traits)
    (hnodup : decl.methods.keys.Nodup) (hmethods : ∀ sig ∈ decl.methods.values, ∃ params ret,
      sig = .funcWith [⟨.var decl.selfVar, decl.name⟩] params ret ∧
        (∀ p ∈ params, p.Formed (s.written ∅) {decl.selfVar}) ∧
          ret.Formed (s.written ∅) {decl.selfVar}) : Advance site ledger s ledger
      { s with registry := { s.registry with traits := s.registry.traits.insert decl.name decl } } := by
  obtain ⟨hbuiltin, hadt, harity⟩ := hs.arities_fresh hplain hscope htrait
  have hfind : ∀ other, Registry.trait?
      { s.registry with traits := s.registry.traits.insert decl.name decl } other =
        if other = decl.name then some decl else s.registry.trait? other :=
    fun other => Assoc.find?_insert _ _ _ _
  have hold : s.registry.trait? decl.name = none := by
    rw [← Option.not_isSome_iff_eq_none]
    exact Bool.not_eq_true _ ▸ htrait
  have hkeeps : s.registry.Keeps
      { s.registry with traits := s.registry.traits.insert decl.name decl } := by
    refine ⟨?_, fun _ _ _ h => h⟩
    intro other decl' hother
    rw [hfind, if_neg]
    · exact hother
    · rintro rfl
      rw [hold] at hother
      cases hother
  have harities : ∀ other count, s.arities other = some count → arities { s with
      registry := { s.registry with traits := s.registry.traits.insert decl.name decl } } other =
        some count := by
    intro other count hother
    have hne : other ≠ decl.name := by
      rintro rfl
      rw [harity] at hother
      cases hother
    rw [arities] at hother ⊢
    rw [Registry.isDeclared] at hother ⊢
    rw [hfind, if_neg hne]
    exact hother
  have hdeclares : Declares s { s with
      registry := { s.registry with traits := s.registry.traits.insert decl.name decl } } :=
    ⟨harities, .refl _, hkeeps⟩
  have hextends := hdeclares.written (subset_refl ∅)
  refine hs.declare hdeclares (fun _ _ _ he => hs.evidence_declare hdeclares he)
    (entries_declare hs.scope hdeclares (le_refl _)) rfl rfl ?_ ?_ ?_ hs.names
  · refine Assoc.forall_insert ⟨rfl, hbuiltin, hbound, hnodup, fun sig hsig => ?_⟩
      fun other decl' hother => (hs.traits other decl' hother).extend hextends
    obtain ⟨params, ret, hsig, hparams, hret⟩ := hmethods sig hsig
    exact ⟨params, ret, hsig, fun p hp => (hparams p hp).extend hextends, hret.extend hextends⟩
  · exact fun other adt hother => (hs.adts other adt hother).extend hextends
  · intro other adt hother
    rw [hfind, if_neg]
    · exact hs.disjoint other adt hother
    · rintro rfl
      rw [hadt] at hother
      cases hother

theorem Wellformed.declareTrait (hs : Wellformed site ledger s) (hroot : s.scope.below = [])
    (name : Name) (hplain : site.plain → name.text ∉ Prelude.types) (sigs : List MethodSig) :
    Leads site ledger s (declareTrait name sigs) fun _ _ _ => True := by
  refine ⟨?_, safe_of (ends_declareTrait (fun _ _ => trivial) fun _ _ _ => trivial)⟩
  intro r s' hrun
  replace hrun := hrun.get_bind
  obtain ⟨hnew, hrun⟩ := hrun.ensure_bind
  have hscope : s.scope.root.types.contains name.text = false := by
    rw [Scope.root, hroot]
    exact Bool.not_eq_true _ ▸ hnew
  obtain ⟨selfVar, s1, h1, hrun⟩ := hrun.bind
  obtain ⟨rfl, rfl⟩ := h1.fresh
  have hskip := hs.skip (Nat.le_succ s.unifier.next)
  obtain ⟨methods, s2, h2, hrun⟩ := hrun.bind
  obtain ⟨rfl, hnodup, hmethods⟩ := h2.methodsFor (hskip.after.typesOver_root hroot)
  replace hrun := hrun.get_bind
  obtain ⟨registry, s3, h3, hrun⟩ := hrun.bind
  obtain ⟨hregistry, rfl⟩ := h3.ofExcept
  obtain ⟨_, s3, h3, hrun⟩ := hrun.bind
  obtain rfl := h3.modify
  obtain ⟨hdeclared, rfl⟩ := Registry.eq_of_declare hregistry
  have hadd := hskip.after.addTrait hplain hscope hdeclared (TraitSet.mem_insert.mpr (.inl rfl))
    hnodup hmethods
  have hunique : ∀ w ∈ ledger.drawn, w.id ≠ s.unifier.next :=
    fun w hw => Nat.ne_of_lt (hs.unifier.consistent.lt w hw)
  obtain ⟨ledger', hadv, _⟩ := (hadd.after.bindMethods 0 (Assoc.find?_insert_self _ _ _)
    (Nat.lt_succ_self _) hunique fun _ => by rw [Nat.zero_add]; rfl).ok r s' hrun
  exact ⟨ledger', (hskip.trans hadd).trans hadv, trivial⟩

/-! Names before their declarations. -/

/-- A struct or an enum with its fields still to come, known by its name. -/
theorem Wellformed.addAdt (hs : Wellformed site ledger s) (hroot : s.scope.below = [])
    (hplain : site.plain → name ∉ Prelude.types) (hscope : s.scope.declaresType name = false)
    (htrait : s.registry.isDeclared name = false) :
    Advance site ledger s ledger { s with
      scope := s.scope.bindType name (Adt.ty ⟨name, generics, .pending⟩)
      adts := Assoc.insert s.adts name ⟨name, generics, .pending⟩ } := by
  have hscope' : s.scope.root.types.contains name = false := by
    rw [Scope.root, hroot]
    exact hscope
  obtain ⟨hbuiltin, hadt, harity⟩ := hs.arities_fresh hplain hscope' htrait
  have hfind : ∀ other, Assoc.find? (Assoc.insert s.adts name ⟨name, generics, .pending⟩) other =
      if other = name then some ⟨name, generics, .pending⟩ else Assoc.find? s.adts other :=
    fun other => Assoc.find?_insert _ _ _ _
  have hne : ∀ other adt, Assoc.find? s.adts other = some adt → other ≠ name := by
    rintro other adt hother rfl
    rw [hadt] at hother
    cases hother
  have harities : ∀ other count, s.arities other = some count → arities { s with
      scope := s.scope.bindType name (Adt.ty ⟨name, generics, .pending⟩)
      adts := Assoc.insert s.adts name ⟨name, generics, .pending⟩ } other = some count := by
    intro other count hother
    have hother' : other ≠ name := by
      rintro rfl
      rw [harity] at hother
      cases hother
    rw [arities] at hother ⊢
    rw [hfind, if_neg hother']
    exact hother
  have hdeclares : Declares s { s with
      scope := s.scope.bindType name (Adt.ty ⟨name, generics, .pending⟩)
      adts := Assoc.insert s.adts name ⟨name, generics, .pending⟩ } := by
    refine ⟨harities, fun other adt hother => ⟨adt, ?_, rfl, fun _ => rfl⟩, .refl _⟩
    rw [hfind, if_neg (hne other adt hother)]
    exact hother
  have hextends := hdeclares.written (subset_refl ∅)
  refine hs.declare hdeclares ?_ ?_ rfl rfl ?_ ?_ ?_ ?_
  · intro con bound e he
    exact (hs.evidence con bound e he).mono hdeclares (le_refl _) rfl (subset_refl _)
      (fun _ _ => rfl) (subset_refl _) rfl fun _ _ h => h.changeTop rfl fun _ h => h
  · refine Scope.Every.bindType (entries_declare hs.scope hdeclares (le_refl _)) ?_
    refine Ty.formed_named ?_ ?_
    · rw [List.length_map]
      exact Wellformed.arity_adt (Assoc.find?_insert_self _ _ _)
    · intro t ht
      obtain ⟨v, hv, rfl⟩ := List.mem_map.mp ht
      have hnamed : (Adt.ty ⟨name, generics, .pending⟩).isNamed name = true := by
        simp [Adt.ty, Ty.isNamed, Ty.named, Ty.concrete, Ty.con?]
      refine .var ?_
      rw [Set.mem_ofPred_eq, AdtTable.arity, hfind, if_pos rfl]
      dsimp only
      rw [if_pos hnamed]
      exact List.length_pos_iff_ne_nil.mpr (List.ne_nil_of_mem hv) |>.ne'
  · exact fun other decl hother => (hs.traits other decl hother).extend hextends
  · refine Assoc.forall_insert ⟨rfl, hbuiltin, fun tag _ hfields => ?_, by rintro _ ⟨⟩⟩
      fun other adt hother => (hs.adts other adt hother).extend hextends
    cases tag <;> cases hfields
  · exact Assoc.forall_insert (Option.not_isSome_iff_eq_none.mp (Bool.not_eq_true _ ▸ htrait))
      hs.disjoint
  · intro other hother
    have hkeep : ∀ {other}, s.scope.root.types.contains other = true →
        (s.scope.bindType name (Adt.ty ⟨name, generics, .pending⟩)).root.types.contains other = true :=
      fun h => Scope.contains_root_setTop _ (fun _ h => Assoc.contains_insert h) h
    rw [hfind] at hother
    by_cases heq : other = name
    · rw [Scope.root, Scope.bindType, hroot, heq]
      exact Option.isSome_iff_exists.mpr ⟨_, Assoc.find?_insert_self _ _ _⟩
    · rw [if_neg heq] at hother
      exact hkeep (hs.names other hother)

theorem Wellformed.declareAdt (hs : Wellformed site ledger s) (hroot : s.scope.below = [])
    (name : Name) (hplain : site.plain → name.text ∉ Prelude.types) (generics : List GenericParam) :
    Leads site ledger s (declareAdt name generics) fun _ _ _ => True := by
  refine ⟨?_, safe_of (ends_declareAdt (fun _ => .modify fun _ => trivial) fun _ _ => trivial)⟩
  intro r s' hrun
  replace hrun := hrun.get_bind
  obtain ⟨hnew, hrun⟩ := hrun.ensure_bind
  rw [Bool.not_eq_true, Bool.or_eq_false_iff] at hnew
  obtain ⟨vars, s1, h1, hrun⟩ := hrun.bind
  obtain ⟨hstate, hle, _⟩ := h1.genericsFresh
  obtain ⟨next, rfl⟩ : ∃ next, s1 = s.drawnTo next := ⟨_, hstate⟩
  obtain ⟨_, s2, h2, hrun⟩ := hrun.bind
  obtain rfl := h2.modify
  obtain rfl := hrun.modify
  have hskip := hs.skip hle
  exact ⟨ledger, hskip.trans (hskip.after.addAdt hroot hplain hnew.1 hnew.2), trivial⟩

theorem Advance.root (h : Advance site ledger s ledger' s') (hroot : s.scope.below = []) :
    s'.scope.below = [] := by
  have hbelow := h.later.below
  rw [hroot] at hbelow
  exact List.map_eq_nil_iff.mp hbelow

theorem Wellformed.declareAdts {program : Program} (hs : Wellformed site ledger s)
    (hroot : s.scope.below = [])
    (hplain : site.plain → ∀ name ∈ program.filterMap (·.typeName?), name ∉ Prelude.types) :
    Leads site ledger s (declareAdts program) fun _ _ _ => True := by
  induction program generalizing ledger s with
  | nil => exact .pure hs trivial
  | cons stmt rest ih =>
    have hrest : site.plain → ∀ name ∈ rest.filterMap (·.typeName?), name ∉ Prelude.types := by
      intro hp name hname
      obtain ⟨stmt', hstmt, hname⟩ := List.mem_filterMap.mp hname
      exact hplain hp name (List.mem_filterMap.mpr ⟨stmt', List.mem_cons_of_mem _ hstmt, hname⟩)
    have hnext : ∀ {name : Name} {generics}, stmt.typeName? = some name.text →
        Leads site ledger s (Checker.declareAdt name generics >>= fun _ => Checker.declareAdts rest)
          fun _ _ _ => True := by
      intro name generics hname
      refine .bind (hs.declareAdt hroot name (fun hp => hplain hp _ ?_) generics) ?_
      · exact List.mem_filterMap.mpr ⟨stmt, List.mem_cons_self, hname⟩
      · exact fun _ _ _ hadv _ => ih hadv.after (hadv.root hroot) hrest
    cases stmt with
    | struct | enum => exact hnext rfl
    | _ => exact ih hs hroot hrest

end Checker

end TraitCheck
