import TraitCheck.Proofs.ShapedSteps

/-!
Declarations keep states well shaped. A new type or trait has a name that none of
the known ones has, since the outermost frame has the names of all types; so the
types there are keep their number of arguments.
-/

namespace TraitCheck

namespace Checker

open Surface (TypeExpr GenericParam FieldDecl TagDecl MethodSig FuncDecl Param ClosureParam)

variable {α β : Type} {s s' : Checker} {t : Ty} {span : Span}

/-! Type parameters and signatures. -/

variable {sig : Signature} {e : Extent}

theorem leaves_requireDeclared {bounds : List Name} : Leaves s (requireDeclared bounds) fun e _ =>
      ∀ bound ∈ bounds, (e.slots bound.text).isSome = true := by
  refine .get ?_
  dsimp only
  split
  · exact .fail .nil
  · rename_i hnone
    refine .pure fun bound hbound => ?_
    have hdeclared := List.find?_eq_none.mp hnone bound hbound
    rw [isSome_slots]
    simpa using hdeclared

theorem leaves_declareGenerics {seen : List String} {params : List GenericParam} :
    Leaves s (declareGenerics seen params) fun e generics => ∀ g ∈ generics, e.Declares g := by
  induction params generalizing s seen with
  | nil => exact .pure fun _ h => absurd h List.not_mem_nil
  | cons param rest ih =>
    refine .ensure .nil fun _ => .bind leaves_requireDeclared fun _ _ _ _ hbounds => ?_
    refine .bind leaves_fresh fun _ _ _ h2 hv => ?_
    refine .bind ih fun _ _ _ h3 hgenerics => .pure ?_
    refine List.forall_mem_cons.mpr ⟨h3.within.declares ⟨hv.var_mem, ?_⟩, hgenerics⟩
    exact List.forall_mem_map.mpr fun bound hbound => h2.within.isSome_slots (hbounds bound hbound)

theorem covers_obligations (h : e.Signs sig) : ∀ o ∈ sig.obligations, e.Shapes o.ty := by
  intro o ho
  obtain ⟨g, hg, ho⟩ := List.mem_flatMap.mp ho
  obtain ⟨bound, _, rfl⟩ := List.mem_map.mp ho
  exact Ty.shaped_var (h.generics g hg).var

/-- Names for types of their own. -/
theorem leaves_bindTypes {γ : Type} {names : List γ} {name : γ → String}
    {ty : γ → Ty} (h : ∀ c ∈ names, s.extent.Writes (ty c)) :
    Leaves s (names.forM fun c => bindType (name c) (ty c)) fun _ _ => True :=
  .forM fun c hc _ h1 => leaves_bindType (h1.writes (h c hc))

theorem leaves_declareSignature {decl : FuncDecl} :
    Leaves s (declareSignature decl) fun e sig => e.Signs sig := by
  refine .bind leaves_declareGenerics fun generics _ _ _ hgenerics => ?_
  refine .inScope fun s2 h2 => ?_
  have hvars : ∀ g ∈ generics, s2.extent.Writes (.var g.var) :=
    fun g hg => .var (lt_of_lt_of_le (hgenerics g hg).var h2.within.vars)
  refine .bind (leaves_bindTypes hvars) fun _ _ _ h3 _ => ?_
  refine .bind leaves_typesFor fun _ _ _ h4 hparams => ?_
  have h24 := (h2.trans h3).trans h4
  split
  · refine .bind leaves_typeFor fun _ _ _ h5 hret => .pure ⟨?_, ?_, ?_⟩
    · exact fun g hg => (h24.trans h5).within.declares (hgenerics g hg)
    · exact h5.covers hparams
    · exact hret.shapes
  · refine .bind leaves_fresh fun _ _ _ h5 hv => .pure ⟨?_, ?_, ?_⟩
    · exact fun g hg => (h24.trans h5).within.declares (hgenerics g hg)
    · exact h5.covers hparams
    · exact hv

/-! Evidence. -/

variable {bound : Trait} {evidence : Evidence}

theorem covers_provide {registry : Registry} {failure : Failure} (ht : e.Shapes t)
    (h : registry.provide t bound evidence = .error failure) : e.Covers failure.types := by
  cases t with
  | var v =>
    cases h
    exact Extent.covers_singleton.mpr ht
  | app head args =>
    rw [Registry.provide] at h
    split at h
    · cases h
      exact Extent.covers_singleton.mpr ht
    · cases h

/-- The second state has other declarations. -/
theorem WellShaped.declare (hs : WellShaped s) (hwithin : s.extent.Within s'.extent)
    (hunifier : s'.unifier = s.unifier) (hfunctions : s'.functions = s.functions)
    (hinstalled : s'.preludeInstalled = s.preludeInstalled)
    (hscope : s'.scope.Every s'.extent.rules)
    (hadts : ∀ name adt, Assoc.find? s'.adts name = some adt →
      (adt.name = name ∧ s'.extent.Covers adt.types) ∨ Assoc.find? s.adts name = some adt)
    (htraits : ∀ name decl, s'.registry.trait? name = some decl →
      (decl.name = name ∧ s'.extent.Covers decl.types) ∨ s.registry.trait? name = some decl)
    (hevidence : ∀ con bound evidence, s'.registry.lookup con bound = some evidence →
      s'.extent.Admits con bound evidence ∨ s.registry.lookup con bound = some evidence)
    (hapart : Apart s'.adts s'.registry)
    (hbuiltins : ∀ name ∈ Prelude.types, s'.scope.root.types.contains name = true)
    (hdeclared : ∀ name, (Assoc.find? s'.adts name).isSome = true →
      s'.scope.root.types.contains name = true) : Reaches s s' := by
  refine ⟨⟨⟨?_, hscope, ?_, ?_, ?_, ?_, hapart⟩, hinstalled.trans hs.installed, hbuiltins,
    hdeclared⟩, hwithin⟩
  · rw [hunifier]
    exact fun id t ht => (hs.unifier id t ht).mono hwithin.arity (le_refl _)
  · rw [hfunctions]
    exact fun f hf => hwithin.covers (hs.functions f hf)
  · intro name adt hfind
    rcases hadts name adt hfind with h | h
    · exact h
    · exact ⟨(hs.adts name adt h).1, hwithin.covers (hs.adts name adt h).2⟩
  · intro name decl hdecl
    rcases htraits name decl hdecl with h | h
    · exact h
    · exact ⟨(hs.traits name decl h).1, hwithin.covers (hs.traits name decl h).2⟩
  · intro con bound evidence h
    rcases hevidence con bound evidence h with h | h
    · exact h
    · exact hwithin.admits (hs.evidence con bound evidence h)

theorem leaves_provide (ht : s.extent.Shapes t) (hbound : (s.extent.slots bound).isSome = true)
    (hbinding : ∀ name id, evidence = .binding name id → id < s.extent.bindings) :
    Leaves s (provide span t bound evidence) fun _ _ => True := by
  refine .of fun hs => ?_
  refine .get (.bind (P := fun _ _ => True) (.ofExcept (fun _ _ => trivial)
    fun _ h => covers_provide ht h) fun registry _ hrun _ _ => ?_)
  obtain ⟨hprovide, rfl⟩ := hrun.ofExcept
  obtain ⟨con, hcon, _, htraits, hlookup⟩ := Registry.lookup_provide hprovide
  have hwithin : s.extent.Within (extent { s with registry }) :=
    within_congr rfl htraits (le_refl _) (le_refl _)
  have htrait : ∀ name, registry.trait? name = s.registry.trait? name := fun name => by
    rw [Registry.trait?, htraits]
    rfl
  refine .update (fun _ => hs.declare hwithin rfl rfl rfl (hwithin.rules hs.scope) (fun _ _ h => .inr h)
    (fun name _ h => .inr ((htrait name).symm.trans h)) ?_ ⟨?_, ?_⟩ hs.builtins hs.declared) trivial
  · intro con' bound' evidence' h
    rw [hlookup] at h
    split at h
    · rename_i heq
      cases heq
      cases h
      exact .inl (hwithin.admits ⟨hbound, ht.con_below hcon, hbinding⟩)
    · exact .inr h
  · intro name adt hfind
    obtain ⟨hbuiltin, hnone⟩ := hs.apart.adts name adt hfind
    exact ⟨hbuiltin, (htrait name).trans hnone⟩
  · exact fun name decl hdecl => hs.apart.traits name decl ((htrait name).symm.trans hdecl)

/-! Functions and closures. -/

variable {types : List Ty}

theorem leaves_bindDictionaries {name : String} {id : Nat}
    (hid : id < s.extent.vars) {bounds : List Trait}
    (hbounds : ∀ bound ∈ bounds, (s.extent.slots bound).isSome = true) :
    Leaves s (bindDictionaries span name id bounds) fun _ _ => True := by
  induction bounds generalizing s with
  | nil => exact .pure trivial
  | cons bound rest ih =>
    obtain ⟨hbound, hrest⟩ := List.forall_mem_cons.mp hbounds
    have htracer : s.extent.Shapes (.tracer id name) := Ty.formed_tracer hid name
    refine .of fun hs => ?_
    have hdict := hs.shapes_dictionary (isSome_slots ▸ hbound) htracer
    refine .bind (leaves_bindParam hdict) fun _ _ _ h1 hbinding => ?_
    refine .bind (leaves_provide (h1.shapes htracer) (h1.within.isSome_slots hbound) ?_) ?_
    · rintro _ _ ⟨⟩
      exact hbinding
    · intro _ s2 _ h2 _
      have h12 := h1.trans h2
      refine .bind (ih (lt_of_lt_of_le hid h12.within.vars)
        fun b hb => h12.within.isSome_slots (hrest b hb)) fun _ _ _ _ _ => .pure trivial

theorem leaves_bindTracers {generics : List Generic}
    (hgenerics : ∀ g ∈ generics, s.extent.Declares g) :
    Leaves s (bindTracers span generics) fun e r => e.Covers (r.2.map Prod.snd) := by
  induction generics generalizing s with
  | nil => exact .pure .nil
  | cons g rest ih =>
    obtain ⟨hg, hrest⟩ := List.forall_mem_cons.mp hgenerics
    refine .bind leaves_freshId fun _ _ _ h1 hid => ?_
    refine .bind (leaves_bindType (Ty.formed_tracer hid g.name)) fun _ s2 _ h2 _ => ?_
    have hbounds : ∀ bound ∈ g.bounds, (s2.extent.slots bound).isSome = true :=
      ((h1.trans h2).within.declares hg).bounds
    refine .bind (leaves_bindDictionaries
      (lt_of_lt_of_le hid h2.within.vars) hbounds) fun _ _ _ h3 _ => ?_
    have h13 := (h1.trans h2).trans h3
    refine .bind (ih fun g' hg' => h13.within.declares (hrest g' hg')) ?_
    intro r s4 _ h4 hr
    refine .pure (Extent.covers_cons.mpr ⟨?_, hr⟩)
    exact (h13.trans h4).shapes (Ty.shaped_var hg.var)

theorem leaves_bindParams {params : List Param} : Leaves s (bindParams params) fun _ _ => True := by
  induction params generalizing s with
  | nil => exact .pure trivial
  | cons param rest ih =>
    refine .bind leaves_typeFor fun _ _ _ _ hty => ?_
    refine .bind (leaves_bindParam hty.shapes) fun _ _ _ _ _ => ?_
    exact .bind ih fun _ _ _ _ _ => .pure trivial

theorem shapes_finalRet {tracers : List (Nat × Ty)} {found : Ty} (hsig : e.Signs sig)
    (htracers : e.Covers (tracers.map Prod.snd)) (hfound : e.Shapes found) :
    e.Shapes (sig.finalRet tracers found) := by
  rw [Signature.finalRet]
  split
  · exact hsig.ret
  · exact hfound.untrace fun id s hs =>
      Extent.covers_map.mp htracers (id, s) (Assoc.mem_of_find? hs)

theorem leaves_openClosure {hint : Option Ty} (hhint : s.extent.Covers hint.toList) {arity : Nat} :
    Leaves s (openClosure hint arity span) fun e shape => e.Opens shape := by
  refine .bind (leaves_resolve? hhint) fun _ _ _ _ hhint => ?_
  split
  · exact .fail .nil
  · split
    · exact .fail .nil
    · rename_i shape hshape
      obtain ⟨hobligations, hparams, hret⟩ := (hhint _ List.mem_cons_self).shape hshape
      exact .ensure .nil fun _ => .pure ⟨hobligations, hparams, hret⟩

theorem leaves_closureParam {param : ClosureParam} {expected : Ty}
    (hexpected : s.extent.Shapes expected) :
    Leaves s (closureParam param expected) fun e ty => e.Shapes ty := by
  refine .bind leaves_typeFor? fun written s1 _ h1 hwritten => ?_
  have hjoin : Leaves s1 (closureParam.joinWritten param.name.span expected written)
      fun e ty => e.Shapes ty := by
    cases written with
    | none => exact .pure (h1.shapes hexpected)
    | some ty =>
      exact leaves_unify (h1.shapes hexpected) (hwritten ty List.mem_cons_self)
  refine .bind hjoin fun _ _ _ h2 hty => .resolve (.ensure .nil fun _ => ?_)
  exact .pure (h2.shaped.resolve hty)

theorem leaves_closureParams {params : List ClosureParam} (htypes : s.extent.Covers types) :
    Leaves s (closureParams params types) fun e tys => e.Covers tys := by
  induction params generalizing s types with
  | nil => exact .pure .nil
  | cons param rest ih =>
    cases types with
    | nil => exact .pure .nil
    | cons expected types =>
      obtain ⟨hexpected, htypes⟩ := Extent.covers_cons.mp htypes
      refine .bind (leaves_closureParam hexpected) fun _ _ _ h1 hty => ?_
      refine .bind (ih (h1.covers htypes)) fun _ _ _ h2 htys => ?_
      exact .pure (Extent.covers_cons.mpr ⟨h2.shapes hty, htys⟩)

theorem leaves_bindClosureParams {params : List ClosureParam} (htypes : s.extent.Covers types) :
    Leaves s (bindClosureParams params types) fun _ _ => True := by
  induction params generalizing s types with
  | nil => exact .pure trivial
  | cons param rest ih =>
    cases types with
    | nil => exact .pure trivial
    | cons ty types =>
      obtain ⟨hty, htypes⟩ := Extent.covers_cons.mp htypes
      refine .bind (leaves_bindParam hty) fun _ _ _ h1 _ => ?_
      exact .bind (ih (h1.covers htypes)) fun _ _ _ _ _ => .pure trivial

/-! Structs and enums. -/

variable {fields : Fields} {name : String} {generics : List TyVar} {adt : Adt}

theorem covers_insert {ty : Ty} (hfields : e.Covers fields.values) (hty : e.Shapes ty) :
    e.Covers (fields.insert name ty).values := by
  intro t ht
  rcases Assoc.mem_values_insert ht with rfl | ht
  · exact hty
  · exact hfields t ht

theorem leaves_addFields (hfields : s.extent.Covers fields.values) {decls : List FieldDecl} :
    Leaves s (addFields fields decls) fun e fields => e.Covers fields.values := by
  induction decls generalizing s fields with
  | nil => exact .pure hfields
  | cons decl rest ih =>
    refine .ensure .nil fun _ => .bind leaves_typeFor fun _ _ _ h1 hty => ?_
    exact ih (covers_insert (h1.covers hfields) hty.shapes)

theorem leaves_resolveFields
    (hgenerics : ∀ v ∈ generics, v.id < s.extent.vars) {decls : List FieldDecl} :
    Leaves s (resolveFields generics decls) fun e fields => e.Covers fields.values := by
  refine .inScope fun _ h1 => ?_
  refine .bind (leaves_bindTypes fun v hv => ?_) fun _ _ _ _ _ => ?_
  · exact .var (lt_of_lt_of_le (hgenerics v hv) h1.within.vars)
  · exact leaves_addFields .nil

theorem leaves_addTags (hgenerics : ∀ v ∈ generics, v.id < s.extent.vars)
    {tags : Assoc String Fields} (htags : ∀ fields ∈ tags.values, s.extent.Covers fields.values)
    {decls : List TagDecl} : Leaves s (addTags generics tags decls) fun e tags =>
      ∀ fields ∈ tags.values, e.Covers fields.values := by
  induction decls generalizing s tags with
  | nil => exact .pure htags
  | cons decl rest ih =>
    refine .ensure .nil fun _ => .bind (leaves_resolveFields hgenerics) ?_
    intro fields s1 _ h1 hfields
    refine ih (fun v hv => lt_of_lt_of_le (hgenerics v hv) h1.within.vars) ?_
    intro fields' hmem
    rcases Assoc.mem_values_insert hmem with rfl | hmem
    · exact hfields
    · exact h1.covers (htags fields' hmem)

/-- The arguments of a declared type. -/
theorem Adt.generics_lt (h : e.Shapes adt.ty) : ∀ v ∈ adt.generics, v.id < e.vars := by
  intro v hv
  refine Ty.Formed.var_mem (Ty.Formed.arg h (t := .var v) ?_)
  exact List.mem_append.mpr (.inl (List.mem_map.mpr ⟨v, hv, rfl⟩))

theorem leaves_pendingAdt {name : Name} :
    Leaves s (pendingAdt name) fun e adt => e.Shapes adt.ty := by
  refine .of fun hs => ?_
  refine .get ?_
  split
  · rename_i adt hfind
    obtain ⟨hfind, _⟩ := Option.filter_eq_some_iff.mp hfind
    exact .pure ((hs.adts name.text adt hfind).2 _ List.mem_cons_self)
  · exact .fail .nil

theorem leaves_setAdtKind {kind : AdtKind}
    (hkind : s.extent.Covers kind.types) : Leaves s (setAdtKind name kind) fun _ _ => True := by
  refine .update (fun hs => ?_) trivial
  cases hfind : Assoc.find? s.adts name with
  | none =>
    rw [Assoc.modify, hfind]
    exact hs.stay
  | some adt =>
    rw [Assoc.modify, hfind]
    have hsame := arities_insert kind hfind
    have hwithin : s.extent.Within
        (extent { s with adts := Assoc.insert s.adts name { adt with kind } }) :=
      ⟨fun other _ h => (congrFun hsame other).trans h, le_refl _, le_refl _, fun _ _ h => h⟩
    refine hs.declare hwithin rfl rfl rfl (hwithin.rules hs.scope) ?_ (fun _ _ h => .inr h)
      (fun _ _ _ h => .inr h) ⟨?_, hs.apart.traits⟩ hs.builtins ?_
    · obtain ⟨hname, htypes⟩ := hs.adts name adt hfind
      refine Assoc.forall_insert (.inl ⟨hname, hwithin.covers ?_⟩) fun _ _ => .inr
      exact Extent.covers_cons.mpr ⟨htypes _ List.mem_cons_self, hkind⟩
    · exact Assoc.forall_insert (hs.apart.adts name adt hfind) hs.apart.adts
    · exact fun other hother => hs.declared other (isSome_of_insert hfind hother)

theorem leaves_defineStruct {name : Name} {decls : List FieldDecl} :
    Leaves s (defineStruct name decls) fun _ _ => True := by
  refine .bind leaves_pendingAdt fun _ _ _ _ hadt => ?_
  refine .bind (leaves_resolveFields (Adt.generics_lt hadt)) ?_
  exact fun _ _ _ _ hfields => leaves_setAdtKind hfields

theorem leaves_defineEnum {name : Name} {decls : List TagDecl} :
    Leaves s (defineEnum name decls) fun _ _ => True := by
  refine .bind leaves_pendingAdt fun _ _ _ _ hadt => ?_
  refine .bind (leaves_addTags (Adt.generics_lt hadt)
    (fun _ h => absurd h List.not_mem_nil)) ?_
  exact fun _ _ _ _ htags => leaves_setAdtKind (Extent.covers_flatMap.mpr htags)

/-- In the outermost frame a name that is free there is that of no type. -/
theorem WellShaped.free (hs : WellShaped s) (hroot : s.scope.below = [])
    (hname : ¬s.scope.declaresType name = true) :
    name ∉ Prelude.types ∧ Assoc.find? s.adts name = none := by
  have htop : s.scope.root = s.scope.top := by rw [Scope.root, hroot]; rfl
  refine ⟨fun h => hname ?_, ?_⟩
  · rw [Scope.declaresType, ← htop]
    exact hs.builtins name h
  · rw [← Option.not_isSome_iff_eq_none]
    intro hsome
    refine hname ?_
    rw [Scope.declaresType, ← htop]
    exact hs.declared name hsome

/-- A struct or an enum that is new. -/
theorem WellShaped.addAdt (hs : WellShaped s) (hroot : s.scope.below = [])
    (hgenerics : ∀ v ∈ generics, v.id < s.extent.vars) (hname : ¬s.scope.declaresType name = true)
    (htrait : ¬s.registry.isDeclared name = true) :
    Reaches s { s with
      scope := s.scope.bindType name (Adt.ty ⟨name, generics, .pending⟩)
      adts := Assoc.insert s.adts name ⟨name, generics, .pending⟩ } := by
  obtain ⟨hbuiltin, hnone⟩ := hs.free hroot hname
  have hfind : ∀ other, Assoc.find? (Assoc.insert s.adts name ⟨name, generics, .pending⟩) other =
      if other = name then some ⟨name, generics, .pending⟩ else Assoc.find? s.adts other :=
    fun other => Assoc.find?_insert _ _ _ _
  have harity := arities_free hbuiltin hnone htrait
  have hwithin : s.extent.Within (extent { s with
      scope := s.scope.bindType name (Adt.ty ⟨name, generics, .pending⟩)
      adts := Assoc.insert s.adts name ⟨name, generics, .pending⟩ }) := by
    refine ⟨fun other count hother => ?_, le_refl _, le_refl _, fun _ _ h => h⟩
    have hne : other ≠ name := by
      rintro rfl
      rw [show s.extent.arity other = none from harity] at hother
      cases hother
    change arities _ other = some count
    rw [arities, hfind, if_neg hne]
    exact hother
  have hnew : ∀ e : Extent, e.arity name = some generics.length → s.extent.vars = e.vars →
      e.Writes (Adt.ty ⟨name, generics, .pending⟩) := by
    intro e he hvars
    refine Ty.formed_named (by rw [List.length_map]; exact he) (List.forall_mem_map.mpr ?_)
    exact fun v hv => .var (hvars ▸ hgenerics v hv)
  have hwrites := hnew (extent { s with
      scope := s.scope.bindType name (Adt.ty ⟨name, generics, .pending⟩)
      adts := Assoc.insert s.adts name ⟨name, generics, .pending⟩ })
    (by change arities _ name = _; rw [arities, hfind, if_pos rfl]) rfl
  have hcontains : ∀ other, s.scope.root.types.contains other = true →
      (s.scope.bindType name (Adt.ty ⟨name, generics, .pending⟩)).root.types.contains other = true :=
    fun _ => Scope.contains_root_setTop _ fun _ h => Assoc.contains_insert h
  refine hs.declare hwithin rfl rfl rfl ((hwithin.rules hs.scope).bindType hwrites) ?_
    (fun _ _ h => .inr h) (fun _ _ _ h => .inr h) ⟨?_, hs.apart.traits⟩
    (fun other hother => hcontains other (hs.builtins other hother)) ?_
  · exact Assoc.forall_insert (.inl ⟨rfl, Extent.covers_singleton.mpr hwrites.shapes⟩) fun _ _ => .inr
  · exact Assoc.forall_insert ⟨hbuiltin, Option.not_isSome_iff_eq_none.mp htrait⟩ hs.apart.adts
  · intro other hother
    rw [hfind] at hother
    split at hother
    · rename_i heq
      rw [Scope.root, Scope.bindType, hroot, heq]
      exact Option.isSome_iff_exists.mpr ⟨_, Assoc.find?_insert_self _ _ _⟩
    · exact hcontains other (hs.declared other hother)

theorem leaves_declareAdt (hroot : s.scope.below = []) {name : Name}
    {params : List GenericParam} : Leaves s (declareAdt name params) fun _ _ => True := by
  refine .get (.ensure .nil fun hfree => ?_)
  rw [Bool.or_eq_true, not_or] at hfree
  refine .bind leaves_declareGenerics fun _ _ hrun _ hgenerics => ?_
  have hstays := ends_declareGenerics.stays hrun
  refine fun hs => ⟨hs.addAdt (hstays.isRoot hroot) ?_ ?_ ?_, fun _ _ => trivial, by rintro _ ⟨⟩⟩
  · exact List.forall_mem_map.mpr fun g hg => (hgenerics g hg).var
  · rw [hstays.declaresType]
    exact hfree.1
  · rw [Registry.isDeclared, Registry.trait?, hstays.traits]
    exact hfree.2

/-! Traits. -/

variable {selfVar : TyVar}

theorem leaves_addMethods (hself : selfVar.id < s.extent.vars)
    {methods : Assoc String Ty} (hmethods : s.extent.Covers methods.values)
    {sigs : List MethodSig} :
    Leaves s (addMethods bound selfVar methods sigs) fun e methods => e.Covers methods.values := by
  induction sigs generalizing s methods with
  | nil => exact .pure hmethods
  | cons sig rest ih =>
    refine .ensure .nil fun _ => .bind leaves_typesFor fun _ _ _ h1 hparams => ?_
    refine .bind leaves_typeFor fun _ _ _ h2 hret => ?_
    have h12 := h1.trans h2
    have hself2 := lt_of_lt_of_le hself h12.within.vars
    refine ih hself2 (covers_insert (h12.covers hmethods) ?_)
    refine Ty.shaped_funcWith ?_ (h2.covers hparams) hret.shapes
    exact List.forall_mem_singleton.mpr (Ty.shaped_var hself2)

/-- The methods from a slot on. -/
theorem leaves_bindMethods {index count : Nat}
    (hself : selfVar.id < s.extent.vars) (hslots : s.extent.slots bound = some count)
    {methods : List (String × Ty)} (hcount : index + methods.length ≤ count)
    (hmethods : ∀ m ∈ methods, s.extent.Shapes m.2) :
    Leaves s (bindMethods bound selfVar index methods) fun _ _ => True := by
  induction methods generalizing s index with
  | nil => exact .pure trivial
  | cons method rest ih =>
    obtain ⟨hmethod, hrest⟩ := List.forall_mem_cons.mp hmethods
    rw [List.length_cons] at hcount
    refine .bind (leaves_bindValue ?_ ⟨count, hslots, by omega⟩) fun _ _ _ h1 _ => ?_
    · exact Extent.covers_cons.mpr
        ⟨hmethod, Extent.covers_singleton.mpr (Ty.shaped_var hself)⟩
    · exact ih (lt_of_lt_of_le hself h1.within.vars) (h1.within.slots bound count hslots)
        (by omega) fun m hm => h1.shapes (hrest m hm)

/-- A trait that is new. -/
theorem WellShaped.addTrait (hs : WellShaped s) {decl : TraitDecl}
    (hbuiltin : decl.name ∉ Prelude.types) (hadt : Assoc.find? s.adts decl.name = none)
    (htrait : ¬s.registry.isDeclared decl.name = true) (htypes : s.extent.Covers decl.types) :
    Reaches s { s with registry :=
      { s.registry with traits := s.registry.traits.insert decl.name decl } } := by
  have hfind : ∀ other, Registry.trait?
      { s.registry with traits := s.registry.traits.insert decl.name decl } other =
        if other = decl.name then some decl else s.registry.trait? other :=
    fun other => Assoc.find?_insert _ _ _ _
  have hwithin : s.extent.Within (extent { s with registry :=
      { s.registry with traits := s.registry.traits.insert decl.name decl } }) := by
    refine ⟨fun other count hother => ?_, le_refl _, le_refl _, fun other count hother => ?_⟩
    · have hne : other ≠ decl.name := by
        rintro rfl
        rw [show s.extent.arity _ = none from arities_free hbuiltin hadt htrait] at hother
        cases hother
      change arities _ other = some count
      rw [arities, Registry.isDeclared, hfind, if_neg hne]
      exact hother
    · have hne : other ≠ decl.name := by
        rintro rfl
        refine htrait ?_
        rw [← isSome_slots, hother]
        rfl
      change (Registry.trait? _ other).map _ = some count
      rw [hfind, if_neg hne]
      exact hother
  refine hs.declare hwithin rfl rfl rfl (hwithin.rules hs.scope) (fun _ _ h => .inr h) ?_
    (fun _ _ _ h => .inr h) ⟨?_, ?_⟩ hs.builtins hs.declared
  · exact Assoc.forall_insert (.inl ⟨rfl, hwithin.covers htypes⟩) fun _ _ => .inr
  · intro other adt hother
    obtain ⟨hother', hnone⟩ := hs.apart.adts other adt hother
    refine ⟨hother', ?_⟩
    rw [hfind, if_neg]
    · exact hnone
    · rintro rfl
      rw [hadt] at hother
      cases hother
  · exact Assoc.forall_insert hbuiltin hs.apart.traits

theorem leaves_declareTrait (hroot : s.scope.below = []) {name : Name}
    {sigs : List MethodSig} : Leaves s (declareTrait name sigs) fun _ _ => True := by
  refine .get (.ensure .nil fun hfree => ?_)
  refine .bind leaves_fresh fun _ _ hfresh _ hself => ?_
  refine .bind (P := fun e methods => e.Covers methods.values) (.inScope fun _ h2 => ?_)
    fun methods _ hmethods h2 hcovers => ?_
  · have hself2 := lt_of_lt_of_le hself.var_mem h2.within.vars
    refine .bind (leaves_bindType (.var hself2)) fun _ s3 _ h3 _ => ?_
    exact leaves_addMethods (lt_of_lt_of_le hself2 h3.within.vars)
      .nil
  · have hstays := trans_of Stays (ends_fresh.yields hfresh)
      ((ends_traitMethods _ _ _).yields hmethods)
    have hself2 := lt_of_lt_of_le hself.var_mem h2.within.vars
    rw [← hstays.declaresType] at hfree
    obtain ⟨hbuiltin, hadt⟩ := h2.shaped.free (hstays.isRoot hroot) hfree
    refine .get (.bind (P := fun _ _ => True) (.ofExcept (fun _ _ => trivial) ?_) ?_)
    · intro failure hfailure
      rw [Registry.declare] at hfailure
      split at hfailure
      · cases hfailure
        exact .nil
      · cases hfailure
    · intro registry s3 hrun _ _
      obtain ⟨hdeclare, rfl⟩ := hrun.ofExcept
      obtain ⟨hnew, rfl⟩ := Registry.eq_of_declare hdeclare
      have hset := h2.shaped.addTrait hbuiltin hadt (Bool.not_eq_true _ ▸ hnew)
        (Extent.covers_cons.mpr ⟨Ty.shaped_var hself2, hcovers⟩)
      refine .bind (P := fun e _ => e.slots name.text = some methods.size) (.update (fun _ => hset) ?_) ?_
      · change (Registry.trait? _ _).map _ = _
        rw [Registry.trait?, Assoc.find?_insert_self]
        rfl
      · intro _ s3 _ h3 hslots
        refine leaves_bindMethods (lt_of_lt_of_le hself2 h3.within.vars) hslots
          (le_of_eq (Nat.zero_add _)) fun m hm => ?_
        exact h3.shapes (hcovers m.2 (List.mem_map.mpr ⟨m, hm, rfl⟩))

/-! Implementations. -/

theorem leaves_openImpl {bound : Name} {written : TypeExpr} :
    Leaves s (openImpl bound written span) fun e impl => e.Implements impl := by
  refine .of fun hs => ?_
  refine .get ?_
  split
  · exact .fail .nil
  · rename_i decl hdecl
    obtain ⟨hname, htypes⟩ := hs.traits bound.text decl hdecl
    have hdeclared : s.registry.isDeclared decl.name = true :=
      Option.isSome_iff_exists.mpr ⟨decl, hname.symm ▸ hdecl⟩
    refine .bind leaves_typeFor fun target _ _ h1 htarget => ?_
    split
    · exact .failAt htarget.shapes rfl
    · refine .ensure (Extent.covers_singleton.mpr htarget.shapes) fun _ => ?_
      dsimp only
      refine .bind leaves_freshBinding fun _ s2 _ h2 hbinding => ?_
      have h12 := h1.trans h2
      have hslots : (s2.extent.slots decl.name).isSome = true :=
        h12.within.isSome_slots (isSome_slots.trans hdeclared)
      refine .bind (leaves_provide (h2.shapes htarget.shapes) hslots ?_) ?_
      · rintro _ _ ⟨⟩
        exact hbinding
      · intro _ s3 _ h3 _
        have htarget3 := (h2.trans h3).shapes htarget.shapes
        have hdict : s3.extent.Shapes (dictionaryType decl.name target) :=
          h3.shaped.shapes_dictionary (isSome_slots ▸ h3.within.isSome_slots hslots) htarget3
        refine .bind (leaves_bindValue (Extent.covers_singleton.mpr hdict)
          (lt_of_lt_of_le hbinding h3.within.bindings)) fun _ _ _ h4 _ => .pure ?_
        exact ⟨((h12.trans h3).trans h4).covers htypes, h4.shapes htarget3, h4.shapes hdict⟩

theorem leaves_methodType {impl : Impl} (himpl : s.extent.Implements impl)
    {sig : Ty} (hsig : s.extent.Shapes sig) :
    Leaves s (impl.methodType sig span) fun e ty => e.Shapes ty := by
  have hsubst : s.extent.Shapes (sig.substitute [(impl.decl.selfVar.id, impl.target)]) :=
    hsig.substitute (le_refl _) (List.forall_mem_singleton.mpr himpl.target)
  unfold Impl.methodType
  split
  · rename_i shape hshape
    obtain ⟨_, hparams, hret⟩ := hsubst.shape hshape
    exact .pure (Extent.shapes_func hparams hret)
  · exact .failAt hsig rfl

end Checker

end TraitCheck
