import TraitCheck.Proofs.RenamedState

/-!
The steps of the checker outside of the walk run alike in states that differ by a
renaming, if what they are given is renamed too. The names that they are given
from the program have to be free of ids, since those stay as they are.
-/

namespace TraitCheck

open Surface (TypeExpr GenericParam FieldDecl TagDecl MethodSig FuncDecl Param ClosureParam
  CaseBinding Pattern FieldRef)

variable {ρ : Renaming} {leeway : Checker.Leeway}

/-! Declared types. -/

theorem Adt.ty_rename (adt : Adt) : (adt.rename ρ).ty = adt.ty.rename ρ := by
  rw [Adt.ty, Adt.ty, Ty.rename_named, Adt.rename, List.map_map, List.map_map]
  exact congrArg _ (List.map_congr_left fun v _ => (Ty.rename_var ρ v).symm)

namespace AdtTable

variable {adts adts' : AdtTable} {more : String → Option Adt}

/-- A type is looked up alike, unless it is looked up in vain and may be one that
only the second table has. -/
theorem of?_renamed (h : Assoc.Covers (Adt.rename ρ) more adts adts') {ty : Ty}
    (hmore : (∀ name, more name = none) ∨ (adts.of? ty).isSome = true) :
    adts'.of? (ty.rename ρ) = (adts.of? ty).map (Adt.rename ρ) := by
  rw [of?] at hmore
  rw [of?, of?, Ty.con?_rename]
  cases hcon : ty.con? with
  | none => rfl
  | some con =>
    cases con with
    | named name =>
      rw [hcon] at hmore
      rcases hmore with hmore | hfound
      · exact h.map (hmore name)
      · obtain ⟨adt, hadt⟩ := Option.isSome_iff_exists.mp hfound
        change Assoc.find? adts name = some adt at hadt
        change Assoc.find? adts' name = (Assoc.find? adts name).map _
        rw [h.found hadt, hadt]
        rfl
    | tuple arity => rfl
    | func arity => rfl
    | array => rfl
    | tracer id name => rfl

theorem struct?_renamed (h : Assoc.Covers (Adt.rename ρ) more adts adts') (ty : Ty)
    (hmore : (∀ name, more name = none) ∨ (adts.struct? ty).isSome = true) :
    adts'.struct? (ty.rename ρ) =
      (adts.struct? ty).map (Prod.map (Adt.rename ρ) (Fields.rename ρ)) := by
  rw [struct?] at hmore
  rw [struct?, struct?, of?_renamed h (hmore.imp_right fun hfound => ?_)]
  · cases adts.of? ty with
    | none => rfl
    | some adt =>
      obtain ⟨name, generics, kind⟩ := adt
      cases kind <;> rfl
  · cases hof : adts.of? ty with
    | none =>
      rw [hof] at hfound
      cases hfound
    | some adt => rfl

theorem enum?_renamed (h : Assoc.Covers (Adt.rename ρ) more adts adts') (ty : Ty)
    (hmore : (∀ name, more name = none) ∨ (adts.enum? ty).isSome = true) :
    adts'.enum? (ty.rename ρ) =
      (adts.enum? ty).map (Prod.map (Adt.rename ρ) (Assoc.mapVal (Fields.rename ρ))) := by
  rw [enum?] at hmore
  rw [enum?, enum?, of?_renamed h (hmore.imp_right fun hfound => ?_)]
  · cases adts.of? ty with
    | none => rfl
    | some adt =>
      obtain ⟨name, generics, kind⟩ := adt
      cases kind <;> rfl
  · cases hof : adts.of? ty with
    | none =>
      rw [hof] at hfound
      cases hfound
    | some adt => rfl

theorem arity_renamed (h : Assoc.Covers (Adt.rename ρ) more adts adts') {name : String} {ty : Ty}
    (hname : (more name).isSome = true → ty.isNamed name = false) :
    adts'.arity name (ty.rename ρ) = adts.arity name ty := by
  rw [arity, arity, Ty.isNamed_rename, h name]
  cases Assoc.find? adts name with
  | none =>
    cases hmore : more name with
    | none => rfl
    | some adt =>
      change (if _ then _ else 0) = 0
      rw [hname (by rw [hmore]; rfl), if_neg (by decide)]
  | some adt =>
    change (if _ then (adt.generics.map _).length else 0) = _
    rw [List.length_map]

end AdtTable

/-! Written types. -/

namespace Checker

section Written

variable {s s' : Checker}

mutual

theorem Mirrors.toTy (h : Mirrors ρ leeway s s') (hplain : Plain ρ leeway s) :
    ∀ written : TypeExpr, (renamed ρ leeway).Counts (written.toTy s.scope s.adts) →
      written.toTy s'.scope s'.adts =
        outcome (TypeError.rename ρ) (Ty.rename ρ) (written.toTy s.scope s.adts)
  | .ident name args span, hcounts => by
    rw [TypeExpr.toTy] at hcounts
    rw [TypeExpr.toTy, TypeExpr.toTy, h.scope.type?]
    cases hty : s.scope.type? name with
    | none =>
      rw [hty] at hcounts
      rw [Leeway.Strict.types hcounts.strict name]
      rfl
    | some ty =>
      rw [hty] at hcounts
      obtain ⟨_, _, _, hnamed⟩ := hplain.types.type? hty
      have harity : s'.adts.arity name (ty.rename ρ) = s.adts.arity name ty :=
        AdtTable.arity_renamed h.adts fun _ => hnamed (by rwa [Leeway.types, Option.isSome_map])
      dsimp only [Option.map_some, Option.some_or] at hcounts ⊢
      rw [harity]
      split
      · rfl
      · next hlength =>
        rw [if_neg hlength] at hcounts
        split
        · rfl
        · next hzero =>
          rw [if_neg hzero] at hcounts
          rw [h.toTys hplain args hcounts.of_map]
          cases TypeExpr.toTys s.scope s.adts args with
          | error e => rfl
          | ok tys => exact congrArg Except.ok (Ty.rename_named ρ name tys).symm
  | .tuple elems _, hcounts => by
    rw [TypeExpr.toTy] at hcounts
    rw [TypeExpr.toTy, TypeExpr.toTy, h.toTys hplain elems hcounts.of_map]
    cases TypeExpr.toTys s.scope s.adts elems with
    | error e => rfl
    | ok tys => exact congrArg Except.ok (Ty.rename_tuple ρ tys).symm
  | .func params ret _, hcounts => by
    rw [TypeExpr.toTy] at hcounts
    rw [TypeExpr.toTy, TypeExpr.toTy, h.toTys hplain params hcounts.of_bind]
    cases hparams : TypeExpr.toTys s.scope s.adts params with
    | error e => rfl
    | ok tys =>
      rw [hparams] at hcounts
      change (ret.toTy s'.scope _ >>= _) = outcome _ _ (ret.toTy s.scope s.adts >>= _)
      rw [h.toTy hplain ret (Simulation.Counts.of_bind hcounts)]
      cases ret.toTy s.scope s.adts with
      | error e => rfl
      | ok ty => exact congrArg Except.ok (Ty.rename_func ρ tys ty).symm
  | .array elem size _, hcounts => by
    rw [TypeExpr.toTy] at hcounts
    rw [TypeExpr.toTy, TypeExpr.toTy, h.toTy hplain elem hcounts.of_map]
    cases elem.toTy s.scope s.adts with
    | error e => rfl
    | ok ty => exact congrArg Except.ok (Ty.rename_array ρ ty size).symm

theorem Mirrors.toTys (h : Mirrors ρ leeway s s') (hplain : Plain ρ leeway s) :
    ∀ written : List TypeExpr, (renamed ρ leeway).Counts (TypeExpr.toTys s.scope s.adts written) →
      TypeExpr.toTys s'.scope s'.adts written =
        outcome (TypeError.rename ρ) (List.map (Ty.rename ρ))
          (TypeExpr.toTys s.scope s.adts written)
  | [], _ => by rw [TypeExpr.toTys, TypeExpr.toTys]; rfl
  | t :: rest, hcounts => by
    rw [TypeExpr.toTys] at hcounts
    rw [TypeExpr.toTys, TypeExpr.toTys, h.toTy hplain t hcounts.of_bind]
    cases hty : t.toTy s.scope s.adts with
    | error e => rfl
    | ok ty =>
      rw [hty] at hcounts
      change (TypeExpr.toTys s'.scope _ rest >>= _) =
        outcome _ _ (TypeExpr.toTys s.scope s.adts rest >>= _)
      rw [h.toTys hplain rest (Simulation.Counts.of_bind hcounts)]
      cases TypeExpr.toTys s.scope s.adts rest <;> rfl

end

end Written

theorem follows_typeFor {written : TypeExpr} :
    Echoes ρ leeway (typeFor written) (typeFor written) (Ty.rename ρ) := by
  refine .get fun s _ hplain h => ?_
  have htoTy := h.toTy hplain written
  cases hty : written.toTy s.scope s.adts with
  | ok ty =>
    rw [htoTy (.inr ⟨ty, hty⟩), hty]
    exact .pure rfl
  | error e =>
    refine .throw fun hstrict => ?_
    rw [htoTy (.inl hstrict), hty]
    rfl

theorem follows_typesFor {written : List TypeExpr} :
    Echoes ρ leeway (typesFor written) (typesFor written) (List.map (Ty.rename ρ)) := by
  induction written with
  | nil => exact .pure rfl
  | cons t rest ih => exact .bind follows_typeFor fun _ => .bind ih fun _ => .pure rfl

theorem follows_typeFor? {written : Option TypeExpr} :
    Echoes ρ leeway (typeFor? written) (typeFor? written) (Option.map (Ty.rename ρ)) := by
  cases written with
  | none => exact .pure rfl
  | some written => exact .bind follows_typeFor fun _ => .pure rfl

/-! References and calls. -/

variable {name : String}

def Callee.rename (ρ : Renaming) : Callee → Callee
  | .expr e => .expr (e.rename ρ)
  | callee => callee

theorem follows_lookup? {name : String} : Echoes ρ leeway (lookup? name) (lookup? (ρ.name name))
      (Option.map (Value.rename ρ)) := by
  have hnext : ∀ s : Scope, (s.getValue name).2.nextBinding = s.nextBinding :=
    fun s => (Scope.steady_getValue s name).next
  refine .modifyGet (fun s h => h.setScope (h.types.getValue Scope.captures_displayed name).2
    (Nat.le_of_eq (hnext s.scope).symm)) fun _ s' hrel _ => ?_
  obtain ⟨hvalue, hscope⟩ := hrel.scope.getValue name
  refine ⟨hvalue, hrel.setScope hscope ?_⟩
  rw [hnext, (Scope.steady_getValue s'.scope (ρ.name name)).next]
  exact hrel.bindings

theorem follows_lookupValue (hname : ρ.Fixes name) {span : Span} :
    Echoes ρ leeway (lookupValue name span) (lookupValue name span) (Value.rename ρ) := by
  have hlookup : Echoes ρ leeway (lookup? name) (lookup? (ρ.name name)) _ :=
    follows_lookup?
  rw [ρ.name_of_fixes hname] at hlookup
  refine .bind hlookup fun value => ?_
  cases value with
  | none => exact follows_fail rfl
  | some value => exact .pure rfl

/-- Fresh copies are drawn for renamed variables alike. -/
theorem Related.relabelling {s s' : Checker} (h : Related ρ leeway s s') (vars : List TyVar)
    (hinside : s.unifier.next + vars.length ≤ leeway.vars) :
    Subst.relabelling s'.unifier.next (vars.map (TyVar.rename ρ)) =
      (Subst.relabelling s.unifier.next vars).map (Prod.map ρ.var (Ty.rename ρ)) :=
  Subst.relabelling_rename ρ vars fun _ hk =>
    h.vars.drawn (Nat.lt_of_lt_of_le (Nat.add_lt_add_left hk _) hinside)

theorem follows_instantiate {value : Value} :
    Echoes ρ leeway (instantiate value) (instantiate (value.rename ρ)) (Ty.rename ρ) := by
  refine .modifyGet (fun _ h => h.unifier (Nat.le_add_right _ _)) fun _ s' hrel hinside => ?_
  have hmap := hrel.relabelling value.generics hinside.vars
  refine ⟨?_, hrel.setUnifier hrel.subst ?_⟩
  · change (value.ty.rename ρ).substitute
      (Subst.relabelling s'.unifier.next (value.generics.map (TyVar.rename ρ))) = _
    rw [hmap, ← Ty.rename_substitute]
    rfl
  · change Tracks _ _ _ (s'.unifier.next + (value.generics.map (TyVar.rename ρ)).length)
    rw [List.length_map]
    exact hrel.vars.add _

theorem follows_reference (hname : ρ.Fixes name) {span : Span} :
    Echoes ρ leeway (reference name span) (reference name span) (Core.Expr.rename ρ) := by
  refine .bind (follows_lookupValue hname) fun value => ?_
  obtain ⟨kind, ty, generics⟩ := value
  cases kind with
  | binding id =>
    refine .bind follows_instantiate fun _ => .pure ?_
    simp
  | builtin op => exact follows_fail rfl
  | method bound index => exact follows_fail rfl

theorem follows_namedCallee (hname : ρ.Fixes name) {span : Span} :
    Echoes ρ leeway (namedCallee name span) (namedCallee name span)
      (Prod.map (Callee.rename ρ) (Ty.rename ρ)) := by
  refine .bind (follows_lookupValue hname) fun value => ?_
  refine .bind follows_instantiate fun _ => ?_
  obtain ⟨kind, _, _⟩ := value
  cases kind with
  | binding id =>
    refine .pure ?_
    simp [Callee.rename]
  | builtin op => exact .pure rfl
  | method bound index => exact .pure rfl

theorem follows_openCall {ty : Ty} {span : Span} :
    Echoes ρ leeway (openCall ty span) (openCall (ty.rename ρ) span) (FuncShape.rename ρ) := by
  refine .bind follows_resolve fun ty => ?_
  rw [Ty.asFunc?_rename]
  cases ty.asFunc? with
  | none => exact follows_fail rfl
  | some shape => exact .pure rfl

theorem require_rename {r r' : Registry} (h : r.Mirrors ρ r') (ty : Ty) (bound : Trait) :
    r'.require (ty.rename ρ) bound =
      outcome (Failure.rename ρ) (Evidence.rename ρ) (r.require ty bound) := by
  cases ty with
  | var v =>
    rw [Ty.rename_var, Registry.require, Registry.require, ← Ty.rename_var]
    rfl
  | app head args =>
    rw [Ty.rename_app, Registry.require, Registry.require,
      show (head.rename ρ).con = head.con.rename ρ from rfl, h.evidence]
    cases r.lookup head.con bound with
    | none =>
      rw [← Ty.rename_app]
      rfl
    | some evidence => rfl

theorem follows_dictionary {span : Span} {o : Obligation} :
    Echoes ρ leeway (dictionary span o) (dictionary span (o.rename ρ)) (Core.Expr.rename ρ) := by
  refine .bind follows_resolve fun ty => .get fun _ _ _ h =>
    .bind (follows_ofExcept (require_rename h.registry ty o.bound)) fun evidence => ?_
  have hty : dictionaryType o.bound (ty.rename ρ) = (dictionaryType o.bound ty).rename ρ :=
    (Ty.rename_named ρ o.bound [ty]).symm
  cases evidence with
  | intrinsic bound primitive =>
    refine .pure ?_
    rw [Core.Expr.rename_mk, ← hty]
    simp [Obligation.rename]
  | binding name id =>
    refine .bind follows_lookup? fun _ =>
      .bind (follows_ensure (by rw [Option.isSome_map]) rfl) fun _ => .pure ?_
    rw [Core.Expr.rename_mk, ← hty]
    simp [Obligation.rename]

theorem follows_dictionaries {span : Span} {os : List Obligation} :
    Echoes ρ leeway (dictionaries span os)
      (dictionaries span (os.map (Obligation.rename ρ))) (List.map (Core.Expr.rename ρ)) := by
  induction os with
  | nil => exact .pure rfl
  | cons o rest ih => exact .bind follows_dictionary fun _ => .bind ih fun _ => .pure rfl

theorem follows_applied {callee : Callee} {dicts args : List Core.Expr} {params : List Ty} {ret : Ty}
    {span : Span} : Echoes ρ leeway (applied callee dicts args params ret span)
      (applied (callee.rename ρ) (dicts.map (Core.Expr.rename ρ)) (args.map (Core.Expr.rename ρ))
        (params.map (Ty.rename ρ)) (ret.rename ρ) span) (Core.Expr.rename ρ) := by
  cases callee with
  | expr e =>
    refine .pure ?_
    simp
  | builtin op =>
    refine .pure ?_
    simp
  | method index =>
    cases dicts with
    | nil => exact follows_fail rfl
    | cons dict rest =>
      refine .pure ?_
      simp

theorem follows_closeCall {callee : Callee} {shape : FuncShape} {args : List Core.Expr}
    {span : Span} : Echoes ρ leeway (closeCall callee shape args span)
      (closeCall (callee.rename ρ) (shape.rename ρ) (args.map (Core.Expr.rename ρ)) span)
      (Core.Expr.rename ρ) := by
  refine .bind follows_dictionaries fun _ =>
    .bind follows_resolve fun _ =>
    .bind (follows_ensure (by rw [Ty.isVar_rename]) rfl) fun _ => .get fun s s' _ h => ?_
  have hparams : (shape.rename ρ).params.map s'.unifier.resolve =
      (shape.params.map s.unifier.resolve).map (Ty.rename ρ) := by
    rw [FuncShape.rename, List.map_map, List.map_map]
    exact List.map_congr_left fun t _ => Unifier.resolve_renamed h.subst t
  dsimp only
  rw [hparams]
  exact follows_applied

/-! Data. -/

def Instance.rename (ρ : Renaming) (inst : Instance) : Instance :=
  ⟨inst.ty.rename ρ, inst.map.map (Prod.map ρ.var (Ty.rename ρ))⟩

theorem Instance.fieldType_rename (inst : Instance) (field : Ty) :
    (inst.rename ρ).fieldType (field.rename ρ) = (inst.fieldType field).rename ρ :=
  (Ty.rename_substitute ρ inst.map field).symm

theorem follows_instantiateAdt {adt : Adt} :
    Echoes ρ leeway (instantiateAdt adt) (instantiateAdt (adt.rename ρ)) (Instance.rename ρ) := by
  refine .modifyGet (fun _ h => h.unifier (Nat.le_add_right _ _)) fun _ s' hrel hinside => ?_
  have hmap := hrel.relabelling adt.generics hinside.vars
  refine ⟨?_, hrel.setUnifier hrel.subst ?_⟩
  · change Instance.mk ((adt.rename ρ).ty.substitute (Subst.relabelling s'.unifier.next
      (adt.generics.map (TyVar.rename ρ)))) (Subst.relabelling s'.unifier.next
        (adt.generics.map (TyVar.rename ρ))) = _
    rw [hmap, Adt.ty_rename, ← Ty.rename_substitute]
    rfl
  · change Tracks _ _ _ (s'.unifier.next + (adt.generics.map (TyVar.rename ρ)).length)
    rw [List.length_map]
    exact hrel.vars.add _

theorem follows_lookupAdt {name : Name} :
    Echoes ρ leeway (lookupAdt name) (lookupAdt name) (Adt.rename ρ) := by
  refine .get fun s _ _ h => ?_
  cases hfind : Assoc.find? s.adts name.text with
  | none =>
    refine .throw fun hstrict => ?_
    rw [h.adts.map (hstrict name.text), hfind]
    rfl
  | some adt =>
    rw [h.adts.found hfind]
    exact .pure rfl

theorem follows_constructedFields {adt : Adt} {tag : Option Name} {span : Span} :
    Echoes ρ leeway (constructedFields adt tag span)
      (constructedFields (adt.rename ρ) tag span) (Prod.map id (Fields.rename ρ)) := by
  obtain ⟨name, generics, kind⟩ := adt
  cases kind with
  | pending => cases tag <;> exact follows_fail rfl
  | struct fields =>
    cases tag with
    | none => exact .pure rfl
    | some tag => exact follows_fail rfl
  | enum tags =>
    cases tag with
    | none => exact follows_fail rfl
    | some tag =>
      unfold constructedFields
      dsimp only [Adt.rename, AdtKind.rename]
      rw [Assoc.locate?_mapVal]
      cases tags.locate? tag.text with
      | none => exact follows_fail rfl
      | some found => exact .pure rfl

theorem rename_constructed (tag : Option Nat) (values : List Core.Expr) :
    (constructed tag values).rename ρ = constructed tag (values.map (Core.Expr.rename ρ)) := by
  cases tag with
  | none => simp [constructed]
  | some index => cases values <;> simp [constructed]

theorem follows_fieldOf {adt : Adt} {fields : Fields} {target : Ty} {field : String} {span : Span} :
    Echoes ρ leeway (fieldOf adt fields target field span)
      (fieldOf (adt.rename ρ) (Fields.rename ρ fields) (target.rename ρ) field span)
      (Prod.map id (Ty.rename ρ)) := by
  rw [fieldOf, fieldOf, Fields.rename, Assoc.locate?_mapVal]
  cases Assoc.locate? fields field with
  | none => exact .bind follows_resolve fun _ => follows_fail rfl
  | some found =>
    obtain ⟨index, ty⟩ := found
    refine .bind follows_instantiateAdt fun inst =>
      .bind (follows_unify span inst.ty target) fun _ => ?_
    rw [Instance.fieldType_rename]
    exact .bind follows_resolve fun _ => .pure rfl

theorem follows_selected {ty : Ty} {field : FieldRef} {targetSpan span : Span} :
    Echoes ρ leeway (selected ty field targetSpan span)
      (selected (ty.rename ρ) field targetSpan span) (Prod.map id (Ty.rename ρ)) := by
  unfold selected
  rw [Ty.con?_rename, Ty.params_rename, Ty.size_rename]
  cases ty.con? with
  | none => exact follows_fail rfl
  | some con =>
    cases con with
    | named name =>
      cases field with
      | name field =>
        refine .get fun s _ _ h => ?_
        have hrenamed := AdtTable.struct?_renamed h.adts ty
        cases hstruct : s.adts.struct? ty with
        | none =>
          refine .throw fun hstrict => ?_
          rw [hrenamed (.inl hstrict), hstruct]
          rfl
        | some found =>
          rw [hrenamed (.inr (by rw [hstruct]; rfl)), hstruct]
          exact follows_fieldOf
      | index i => exact follows_fail rfl
    | tuple arity =>
      cases field with
      | name field => exact follows_fail rfl
      | index i =>
        dsimp only [Option.map_some, Con.rename]
        rw [List.getElem?_map]
        cases ty.params[i]? with
        | none => exact follows_fail rfl
        | some elem => exact .pure rfl
    | func arity => cases field <;> exact follows_fail rfl
    | array =>
      cases field with
      | name field => exact follows_fail rfl
      | index i =>
        cases ty.params with
        | nil => exact follows_fail rfl
        | cons elem rest => exact .ite Iff.rfl (.pure rfl) (follows_fail rfl)
    | tracer id name => cases field <;> exact follows_fail rfl

theorem follows_select {target : Core.Expr} {field : FieldRef} {targetSpan span : Span} :
    Echoes ρ leeway (select target field targetSpan span)
      (select (target.rename ρ) field targetSpan span) (Core.Expr.rename ρ) := by
  rw [select, select, Core.Expr.ty_rename]
  refine .bind follows_resolve fun _ =>
    .bind follows_selected fun _ => .pure ?_
  simp

theorem follows_enumOf {ty : Ty} {span : Span} :
    Echoes ρ leeway (enumOf ty span) (enumOf (ty.rename ρ) span)
      (Prod.map (Adt.rename ρ) (Assoc.mapVal (Fields.rename ρ))) := by
  refine .get fun s _ _ h => ?_
  have hrenamed := AdtTable.enum?_renamed h.adts ty
  cases henum : s.adts.enum? ty with
  | none =>
    refine .throw fun hstrict => ?_
    rw [hrenamed (.inl hstrict), henum]
    rfl
  | some found =>
    rw [hrenamed (.inr (by rw [henum]; rfl)), henum]
    exact .pure rfl

def Match.rename (ρ : Renaming) (m : Match) : Match :=
  ⟨m.adt.rename ρ, m.tags.mapVal (Fields.rename ρ), m.ty.rename ρ, ρ.binding m.scrutinee⟩

/-- A name from the program is declared twice under the same name. -/
theorem duplicateDeclaration_rename (hname : ρ.Fixes name) :
    Failure.duplicateDeclaration name = (Failure.duplicateDeclaration name).rename ρ := by
  rw [Failure.rename, ρ.name_of_fixes hname]

theorem follows_bindCaseFields {m : Match} {fields : Fields} {seen : List String}
    {bindings : List CaseBinding} (hnames : ∀ b ∈ bindings, ρ.Fixes b.binding.text) :
    Echoes ρ leeway (bindCaseFields m fields seen bindings)
      (bindCaseFields (m.rename ρ) (Fields.rename ρ fields) seen bindings)
      (List.map (Core.Stmt.rename ρ)) := by
  induction bindings generalizing seen with
  | nil => exact .pure rfl
  | cons b rest ih =>
    obtain ⟨hname, hrest⟩ := List.forall_mem_cons.mp hnames
    refine .bind (follows_ensure Iff.rfl (duplicateDeclaration_rename hname)) fun _ =>
      .bind follows_fieldOf fun _ =>
      .bind (follows_bindLocal hname) fun _ =>
      .bind (ih hrest) fun _ => .pure ?_
    simp [Match.rename]

theorem follows_elementOf {ty : Ty} {span : Span} :
    Echoes ρ leeway (elementOf ty span) (elementOf (ty.rename ρ) span) (Ty.rename ρ) := by
  rw [elementOf, elementOf, Ty.con?_rename, Ty.params_rename]
  cases ty.con? with
  | none => exact follows_fail rfl
  | some con =>
    cases con with
    | array =>
      cases ty.params with
      | nil => exact follows_fail rfl
      | cons elem rest => exact .pure rfl
    | named name => exact follows_fail rfl
    | tuple arity => exact follows_fail rfl
    | func arity => exact follows_fail rfl
    | tracer id name => exact follows_fail rfl

/-- A hint is used where its constructor is the one that is looked for. -/
theorem filter_rename (hint : Option Ty) {con : Con}
    (hcon : ∀ c : Con, c.rename ρ = con ↔ c = con) :
    (hint.map (Ty.rename ρ)).filter (·.con? = some con) =
      (hint.filter (·.con? = some con)).map (Ty.rename ρ) := by
  cases hint with
  | none => rfl
  | some t =>
    have hdecide : decide ((t.rename ρ).con? = some con) = decide (t.con? = some con) := by
      rw [Ty.con?_rename, decide_eq_decide]
      cases t.con? with
      | none => rfl
      | some c => simp [hcon]
    rw [Option.map_some, Option.filter_some, Option.filter_some, hdecide]
    split <;> rfl

theorem follows_tupleHints {length : Nat} {hint : Option Ty} :
    Echoes ρ leeway (tupleHints length hint)
      (tupleHints length (hint.map (Ty.rename ρ))) (List.map (Ty.rename ρ)) := by
  refine .bind follows_resolve? fun found => .pure ?_
  rw [filter_rename found (by intro c; cases c <;> simp [Con.rename])]
  cases found.filter (·.con? = some (.tuple length)) with
  | none => rfl
  | some t => exact Ty.params_rename ρ t

theorem follows_arrayHint {hint : Option Ty} :
    Echoes ρ leeway (arrayHint hint) (arrayHint (hint.map (Ty.rename ρ)))
      (Option.map (Ty.rename ρ)) := by
  refine .bind follows_resolve? fun found => .pure ?_
  rw [filter_rename found (by intro c; cases c <;> simp [Con.rename])]
  cases found.filter (·.con? = some .array) with
  | none => rfl
  | some t =>
    change (t.rename ρ).params.head? = t.params.head?.map _
    rw [Ty.params_rename, List.head?_map]

theorem follows_freshAll {names : List Name} :
    Echoes ρ leeway (freshAll names) (freshAll names) (List.map (Ty.rename ρ)) := by
  induction names with
  | nil => exact .pure rfl
  | cons name rest ih =>
    refine .bind follows_fresh fun _ => .bind ih fun _ => .pure ?_
    rw [List.map_cons, Ty.rename_var]

theorem follows_bindElements {source : Core.Expr} {index : Nat} {names : List Name} {types : List Ty}
    (hnames : ∀ name ∈ names, ρ.Fixes name.text) :
    Echoes ρ leeway (bindElements source index names types)
      (bindElements (source.rename ρ) index names (types.map (Ty.rename ρ)))
      (List.map (Core.Stmt.rename ρ)) := by
  induction names generalizing index types with
  | nil => exact .pure rfl
  | cons name names ih =>
    obtain ⟨hname, hrest⟩ := List.forall_mem_cons.mp hnames
    cases types with
    | nil => exact .pure rfl
    | cons ty types =>
      refine .bind (follows_bindLocal hname) fun _ =>
        .bind (ih hrest) fun _ => .pure ?_
      simp

theorem follows_bindPattern {pattern : Pattern} {ty : Ty} {value : Core.Expr} {span : Span}
    (hnames : ∀ name ∈ pattern.declared, ρ.Fixes name) :
    Echoes ρ leeway (bindPattern pattern ty value span)
      (bindPattern pattern (ty.rename ρ) (value.rename ρ) span)
      (List.map (Core.Stmt.rename ρ)) := by
  cases pattern with
  | name name =>
    refine .bind (follows_bindLocal (hnames _ List.mem_cons_self)) fun id => .pure ?_
    simp
  | tuple names =>
    have hmismatch : Echoes ρ leeway
        (do fail (.typeMismatch (.tuple (← freshAll names)) ty) span : CheckM (List Core.Stmt))
        (do fail (.typeMismatch (.tuple (← freshAll names)) (ty.rename ρ)) span)
        (List.map (Core.Stmt.rename ρ)) := by
      refine .bind follows_freshAll fun _ => follows_fail ?_
      rw [Failure.rename, Ty.rename_tuple]
    rw [bindPattern, bindPattern, Ty.con?_rename, Ty.params_rename, List.length_map]
    cases ty.con? with
    | none => exact hmismatch
    | some con =>
      cases con with
      | tuple arity =>
        refine .bind (follows_ensure Iff.rfl rfl) fun _ => .bind follows_freshBinding fun source =>
          ?_
        have hsource : (⟨.ident (ρ.binding source), ty.rename ρ⟩ : Core.Expr) =
            (Core.Expr.mk (.ident source) ty).rename ρ := by simp
        rw [hsource]
        refine .bind (follows_bindElements fun name hname =>
          hnames _ (List.mem_map_of_mem hname)) fun _ => .pure ?_
        simp
      | named name => exact hmismatch
      | func arity => exact hmismatch
      | array => exact hmismatch
      | tracer id name => exact hmismatch

end Checker

end TraitCheck
