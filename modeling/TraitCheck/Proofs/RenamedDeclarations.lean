import TraitCheck.Proofs.Effects
import TraitCheck.Proofs.RenamedSteps

/-!
Declarations of types and traits under a renaming. The names that a declaration
introduces hold no ids, so they stay as they are.
-/

namespace TraitCheck

open Surface (GenericParam FieldDecl TagDecl MethodSig)

variable {ρ : Renaming} {leeway : Checker.Leeway}

namespace Registry.Mirrors

variable {r r' : Registry}

theorem trait? (h : r.Mirrors ρ r') (name : Trait) :
    r'.trait? name = (r.trait? name).map (TraitDecl.rename ρ) := by
  rw [Registry.trait?, Registry.trait?, h.traits, Assoc.find?_mapVal]

theorem isDeclared (h : r.Mirrors ρ r') (name : Trait) : r'.isDeclared name = r.isDeclared name := by
  rw [Registry.isDeclared, Registry.isDeclared, h.trait?, Option.isSome_map]

/-- A trait is declared in both registries, or in neither. -/
theorem declare (h : r.Mirrors ρ r') (decl : TraitDecl) :
    (r.declare decl = .error (.duplicateDeclaration decl.name) ∧
      r'.declare (decl.rename ρ) = .error (.duplicateDeclaration decl.name)) ∨
    ∃ r1 r1', r.declare decl = .ok r1 ∧ r'.declare (decl.rename ρ) = .ok r1' ∧
      r1.Mirrors ρ r1' ∧ r1.traits = r.traits.insert decl.name decl := by
  rw [Registry.declare, Registry.declare]
  have hdeclared := h.isDeclared decl.name
  by_cases hknown : r.isDeclared decl.name = true
  · exact .inl ⟨if_pos hknown, if_pos (hdeclared.trans hknown)⟩
  · refine .inr ⟨_, _, if_neg hknown, if_neg (hdeclared ▸ hknown), ⟨?_, h.evidence⟩, rfl⟩
    dsimp only
    rw [h.traits, ← Assoc.insert_mapVal]
    rfl

/-- Evidence is accepted by both registries, or by neither. -/
theorem provide (h : r.Mirrors ρ r') (ty : Ty) (bound : Trait) (evidence : Evidence) :
    (∃ failure, r.provide ty bound evidence = .error failure ∧
      r'.provide (ty.rename ρ) bound (evidence.rename ρ) = .error (failure.rename ρ)) ∨
    ∃ r1 r1', r.provide ty bound evidence = .ok r1 ∧
      r'.provide (ty.rename ρ) bound (evidence.rename ρ) = .ok r1' ∧
      r1.Mirrors ρ r1' ∧ r1.traits = r.traits := by
  cases ty with
  | var v =>
    refine .inl ⟨_, rfl, ?_⟩
    rw [Failure.rename, Ty.rename_var]
    rfl
  | app head args =>
    rw [Ty.rename_app, Registry.provide, Registry.provide,
      show (head.rename ρ).con = head.con.rename ρ from rfl, h.evidence, Option.isSome_map]
    by_cases hknown : (r.lookup head.con bound).isSome = true
    · refine .inl ⟨_, if_pos hknown, ?_⟩
      rw [if_pos hknown, Failure.rename, Ty.rename_app]
    · refine .inr ⟨_, _, if_neg hknown, if_neg hknown, ⟨h.traits, fun con bound' => ?_⟩, rfl⟩
      rw [Registry.lookup, Registry.lookup, Assoc.find?_insert, Assoc.find?_insert]
      by_cases heq : (con, bound') = (head.con, bound)
      · obtain ⟨rfl, rfl⟩ := Prod.mk.inj heq
        rw [if_pos rfl, if_pos rfl, Option.map_some]
      · rw [if_neg heq, if_neg, ← Registry.lookup, h.evidence]
        · rfl
        · intro heq'
          obtain ⟨hcon, rfl⟩ := Prod.mk.inj heq'
          exact heq (by rw [Con.rename_injective ρ hcon])

end Registry.Mirrors

namespace Checker

/-! Type parameters. -/

variable {s s' : Checker}

def Generic.rename (ρ : Renaming) (g : Generic) : Generic := ⟨g.name, g.var.rename ρ, g.bounds⟩

/-- The names of the type parameters and of their bounds hold no ids. -/
def PlainGenerics (ρ : Renaming) (generics : List Generic) : Prop :=
  ∀ g ∈ generics, ρ.Fixes g.name ∧ ∀ bound ∈ g.bounds, ρ.Fixes bound

theorem follows_requireDeclared {bounds : List Name} :
    Echoes ρ leeway (requireDeclared bounds) (requireDeclared bounds) id := by
  refine .get fun s s' _ h => ?_
  dsimp only
  rw [show (fun bound : Name => !s'.registry.isDeclared bound.text) =
    fun bound => !s.registry.isDeclared bound.text from
      funext fun bound => by rw [h.registry.isDeclared]]
  cases bounds.find? fun bound => !s.registry.isDeclared bound.text with
  | none => exact .pure rfl
  | some bound => exact follows_fail rfl

theorem follows_declareGenerics {seen : List String} {params : List GenericParam}
    (hnames : ∀ g ∈ params, ρ.Fixes g.name.text) :
    Echoes ρ leeway (declareGenerics seen params) (declareGenerics seen params)
      (List.map (Generic.rename ρ)) := by
  induction params generalizing seen with
  | nil => exact .pure rfl
  | cons g rest ih =>
    obtain ⟨hname, hrest⟩ := List.forall_mem_cons.mp hnames
    exact .bind (follows_ensure Iff.rfl (duplicateDeclaration_rename hname)) fun _ =>
      .bind follows_requireDeclared fun _ => .bind follows_fresh fun _ =>
      .bind (ih hrest) fun _ => .pure rfl

/-! Structs and enums. -/

theorem follows_declareAdt (hstrict : leeway.Strict) {name : Name} {params : List GenericParam}
    (hname : ρ.Fixes name.text) (hnames : ∀ g ∈ params, ρ.Fixes g.name.text) :
    Echoes ρ leeway (declareAdt name params) (declareAdt name params) id := by
  refine .get fun s _ _ h => ?_
  refine .bind (follows_ensure (by rw [h.scope.declaresType (hstrict.types _), h.registry.isDeclared])
    (duplicateDeclaration_rename hname)) fun _ =>
    .bind (follows_declareGenerics hnames) fun generics => ?_
  have hadt : Adt.mk name.text ((generics.map (Generic.rename ρ)).map (·.var)) .pending =
      (Adt.mk name.text (generics.map (·.var)) .pending).rename ρ := by
    rw [Adt.rename, List.map_map, List.map_map]
    rfl
  dsimp only
  rw [hadt, Adt.ty_rename]
  refine .bind (follows_bindType ?_ ?_) fun _ => .modify
    (fun _ h => ⟨⟨h.types, h.traits⟩, Nat.le_refl _, Nat.le_refl _, fun _ h => h⟩)
    fun _ _ hrel _ => hrel.setAdts (hrel.adts.insert name.text _)
  · rintro con ⟨⟩
    exact hname
  · rw [hstrict.types]
    rintro ⟨⟩

theorem isPending_rename (adt : Adt) : (adt.rename ρ).isPending = adt.isPending := by
  obtain ⟨name, generics, kind⟩ := adt
  cases kind <;> rfl

theorem follows_pendingAdt {name : Name} (hname : ρ.Fixes name.text) :
    Echoes ρ leeway (pendingAdt name) (pendingAdt name) (Adt.rename ρ) := by
  refine .get fun s _ _ h => ?_
  cases hfind : Assoc.find? s.adts name.text with
  | none =>
    refine .throw fun hstrict => ?_
    rw [h.adts.map (hstrict name.text), hfind]
    exact congrArg (fun failure => fail failure name.span) (duplicateDeclaration_rename hname)
  | some adt =>
    rw [h.adts.found hfind, Option.filter_some, Option.filter_some, isPending_rename]
    cases adt.isPending with
    | false => exact follows_fail (duplicateDeclaration_rename hname)
    | true => exact .pure rfl

theorem follows_addFields {fields : Fields} {decls : List FieldDecl} :
    Echoes ρ leeway (addFields fields decls) (addFields (Fields.rename ρ fields) decls)
      (Fields.rename ρ) := by
  induction decls generalizing fields with
  | nil => exact .pure rfl
  | cons field rest ih =>
    refine .bind (follows_ensure (by rw [Fields.rename, Assoc.contains_mapVal]) rfl) fun _ =>
      .bind follows_typeFor fun _ => ?_
    rw [Fields.rename, ← Assoc.insert_mapVal]
    exact ih

theorem follows_resolveFields {generics : List TyVar} {decls : List FieldDecl} :
    Echoes ρ leeway (resolveFields generics decls)
      (resolveFields (generics.map (TyVar.rename ρ)) decls) (Fields.rename ρ) :=
  follows_inScope (.bind (.forM generics fun _ _ => follows_bindTypeVar)
    fun _ => follows_addFields)

theorem follows_addTags {generics : List TyVar} {tags : Assoc String Fields} {decls : List TagDecl}
    (hnames : ∀ tag ∈ decls, ρ.Fixes tag.name.text) : Echoes ρ leeway (addTags generics tags decls)
      (addTags (generics.map (TyVar.rename ρ)) (tags.mapVal (Fields.rename ρ)) decls)
      (Assoc.mapVal (Fields.rename ρ)) := by
  induction decls generalizing tags with
  | nil => exact .pure rfl
  | cons tag rest ih =>
    obtain ⟨hname, hrest⟩ := List.forall_mem_cons.mp hnames
    refine .bind (follows_ensure (by rw [Assoc.contains_mapVal]) (duplicateDeclaration_rename hname))
      fun _ => .bind follows_resolveFields fun _ => ?_
    rw [← Assoc.insert_mapVal]
    exact ih hrest

/-- A declaration is completed in both runs, since it is one that both have. -/
theorem followsAt_setAdtKind (hplain : Plain ρ leeway s) {name : String} {adt : Adt}
    (hfind : Assoc.find? s.adts name = some adt) (kind : AdtKind) :
    FollowsAt (renamed ρ leeway) (setAdtKind name kind) (setAdtKind name (kind.rename ρ)) id s :=
  .modify ⟨⟨hplain.types, hplain.traits⟩, Nat.le_refl _, Nat.le_refl _, fun _ h => h⟩
    fun _ hrel _ => hrel.setAdts (hrel.adts.modify (by intro; rfl) hfind)

theorem follows_defineStruct {name : Name} {decls : List FieldDecl} (hname : ρ.Fixes name.text) :
    Echoes ρ leeway (defineStruct name decls) (defineStruct name decls) id := by
  intro s hplain
  refine (follows_pendingAdt hname s hplain).bind fun _ _ hrun1 hplain1 => ?_
  obtain ⟨rfl, hfind, _⟩ := Yields.pendingAdt hrun1
  refine (follows_resolveFields s hplain1).bind fun fields _ hrun2 hplain2 => ?_
  have hadts := (ends_resolveFields.stays hrun2).adts
  exact followsAt_setAdtKind hplain2 (hadts ▸ hfind) (.struct fields)

theorem follows_defineEnum {name : Name} {decls : List TagDecl} (hname : ρ.Fixes name.text)
    (hnames : ∀ tag ∈ decls, ρ.Fixes tag.name.text) :
    Echoes ρ leeway (defineEnum name decls) (defineEnum name decls) id := by
  intro s hplain
  refine (follows_pendingAdt hname s hplain).bind fun _ _ hrun1 hplain1 => ?_
  obtain ⟨rfl, hfind, _⟩ := Yields.pendingAdt hrun1
  refine (follows_addTags hnames s hplain1).bind fun tags _ hrun2 hplain2 => ?_
  have hadts := (ends_addTags.stays hrun2).adts
  exact followsAt_setAdtKind hplain2 (hadts ▸ hfind) (.enum tags)

/-! Traits. -/

theorem follows_addMethods {bound : Trait} {selfVar : TyVar} {methods : Assoc String Ty}
    {sigs : List MethodSig} (hnames : ∀ sig ∈ sigs, ρ.Fixes sig.name.text) :
    Echoes ρ leeway (addMethods bound selfVar methods sigs)
      (addMethods bound (selfVar.rename ρ) (methods.mapVal (Ty.rename ρ)) sigs)
      (Assoc.mapVal (Ty.rename ρ)) := by
  induction sigs generalizing methods with
  | nil => exact .pure rfl
  | cons sig rest ih =>
    obtain ⟨hname, hrest⟩ := List.forall_mem_cons.mp hnames
    refine .bind (follows_ensure (by rw [Assoc.contains_mapVal]) (duplicateDeclaration_rename hname))
      fun _ => .bind follows_typesFor fun params =>
      .bind follows_typeFor fun ret => ?_
    have hty : Ty.funcWith [⟨.var (selfVar.rename ρ), bound⟩] (params.map (Ty.rename ρ))
        (ret.rename ρ) = (Ty.funcWith [⟨.var selfVar, bound⟩] params ret).rename ρ := by
      rw [Ty.rename_funcWith, List.map_singleton, Obligation.rename, Ty.rename_var]
    dsimp only
    rw [hty, ← Assoc.insert_mapVal]
    exact ih hrest

theorem plain_addMethods {bound : Trait} {selfVar : TyVar} {methods : Assoc String Ty}
    {sigs : List MethodSig} (hmethods : ∀ name ∈ methods.keys, ρ.Fixes name)
    (hnames : ∀ sig ∈ sigs, ρ.Fixes sig.name.text) :
    Results (∀ name ∈ ·.keys, ρ.Fixes name) (addMethods bound selfVar methods sigs) := by
  induction sigs generalizing methods with
  | nil => exact .pure hmethods
  | cons sig rest ih =>
    obtain ⟨hname, hrestnames⟩ := List.forall_mem_cons.mp hnames
    refine .after fun _ => .after fun params => .after fun ret => ih ?_ hrestnames
    rw [Assoc.keys_insert]
    split
    · exact hmethods
    · exact List.forall_mem_append.mpr ⟨hmethods, List.forall_mem_singleton.mpr hname⟩

theorem follows_bindMethods {bound : Trait} {selfVar : TyVar} {index : Nat}
    {methods : List (String × Ty)} (hnames : ∀ name ∈ methods.map Prod.fst, ρ.Fixes name) :
    Echoes ρ leeway (bindMethods bound selfVar index methods)
      (bindMethods bound (selfVar.rename ρ) index (methods.map (Prod.map id (Ty.rename ρ))))
      id := by
  induction methods generalizing index with
  | nil => exact .pure rfl
  | cons method rest ih =>
    obtain ⟨name, ty⟩ := method
    obtain ⟨hname, hrest⟩ := List.forall_mem_cons.mp hnames
    exact .bind (follows_bindValue hname) fun _ =>
      ih hrest

theorem ofExcept_ok (span : Span) (a : α) : ofExcept span (.ok a) = pure a :=
  rfl

theorem followsAt_setRegistry (hplain : Plain ρ leeway s) {r r' : Registry} (h : r.Mirrors ρ r')
    (htraits : ∀ name decl, r.trait? name = some decl → ρ.Fixes name ∧ ρ.Fixes decl.name)
    (hkeeps : ∀ name, s.registry.isDeclared name = true → r.isDeclared name = true) :
    FollowsAt (renamed ρ leeway) (modify ({ · with registry := r }))
      (modify ({ · with registry := r' })) id s :=
  .modify ⟨⟨hplain.types, htraits⟩, Nat.le_refl _, Nat.le_refl _, hkeeps⟩
    fun _ hrel _ => hrel.setRegistry h

/-- Adding the trait and its methods, once their types are known. -/
def addTrait (span : Span) (decl : TraitDecl) : CheckM Unit := do
  let registry ← ofExcept span ((← get).registry.declare decl)
  modify ({ · with registry })
  bindMethods decl.name decl.selfVar 0 decl.methods.entries

theorem follows_addTrait {span : Span} {decl : TraitDecl} (hname : ρ.Fixes decl.name)
    (hkeys : ∀ name ∈ decl.methods.keys, ρ.Fixes name) :
    Echoes ρ leeway (addTrait span decl) (addTrait span (decl.rename ρ)) id := by
  refine fun s hplain => .get fun _ hview => ?_
  rcases hview.registry.declare decl with
    ⟨herror, herror'⟩ | ⟨r, r', hok, hok', hmirrors, htraits⟩
  · rw [herror, herror']
    exact follows_fail (duplicateDeclaration_rename hname) s hplain
  · have htrait : ∀ name, r.trait? name =
        if name = decl.name then some decl else s.registry.trait? name := by
      intro name
      rw [Registry.trait?, htraits, Assoc.find?_insert]
      rfl
    rw [hok, hok', ofExcept_ok, ofExcept_ok, pure_bind, pure_bind]
    refine (followsAt_setRegistry hplain hmirrors ?_ ?_).bind fun _ t _ hplain' =>
      follows_bindMethods hkeys t hplain'
    · intro other found hfound
      rw [htrait] at hfound
      split at hfound
      · rename_i heq
        cases hfound
        exact ⟨heq ▸ hname, hname⟩
      · exact hplain.traits other found hfound
    · intro other hother
      rw [Registry.isDeclared, htrait]
      split
      · rfl
      · exact hother

/-- The name is that of a trait once the declaration has succeeded. -/
theorem Yields.isDeclared {s s' : Checker} {name : Name} {sigs : List MethodSig} {a : Unit}
    (h : Yields (declareTrait name sigs) s a s') : s'.registry.isDeclared name.text = true := by
  obtain ⟨_, s1, h1, hrest⟩ := h.bind
  obtain ⟨_, s2, h2, hrest⟩ := hrest.bind
  obtain ⟨selfVar, s3, h3, hrest⟩ := hrest.bind
  obtain ⟨methods, s4, h4, hrest⟩ := hrest.bind
  replace hrest := hrest.get_bind
  obtain ⟨registry, s6, h6, hrest⟩ := hrest.bind
  obtain ⟨hdeclare, rfl⟩ := h6.ofExcept
  obtain ⟨_, s7, h7, hrest⟩ := hrest.bind
  obtain rfl := h7.modify
  have hkeeps := (passes_bindMethods.kept.yields hrest).keeps
  have hfind : registry.trait? name.text = some ⟨name.text, selfVar, methods⟩ := by
    rw [Registry.trait?, (Registry.eq_of_declare hdeclare).2]
    exact Assoc.find?_insert_self _ _ _
  rw [Registry.isDeclared, hkeeps.traits _ _ hfind]
  rfl

/-- Declaring a trait whose name is free. -/
def declareNewTrait (name : Name) (sigs : List MethodSig) : CheckM Unit := do
  let selfVar ← fresh "Self" (.singleton name.text)
  let methods ← inScope do
    bindType "Self" (.var selfVar)
    addMethods name.text selfVar ∅ sigs
  addTrait name.span ⟨name.text, selfVar, methods⟩

theorem follows_declareNewTrait {name : Name} {sigs : List MethodSig} (hname : ρ.Fixes name.text)
    (hnames : ∀ sig ∈ sigs, ρ.Fixes sig.name.text) :
    Echoes ρ leeway (declareNewTrait name sigs) (declareNewTrait name sigs) id := by
  refine .bind follows_fresh fun _ => ?_
  refine .bind_of (follows_inScope (.bind follows_bindTypeVar fun _ =>
    follows_addMethods hnames)) fun _ hmethods => ?_
  obtain ⟨t, t', _, hrun⟩ := hmethods
  obtain ⟨_, hbody, _⟩ := Yields.inScope hrun
  obtain ⟨_, _, _, hadd⟩ := Yields.bind hbody
  exact follows_addTrait hname
    (plain_addMethods (fun _ hkey => absurd hkey List.not_mem_nil) hnames hadd)

theorem follows_declareTrait {name : Name} {sigs : List MethodSig} (hname : ρ.Fixes name.text)
    (hnames : ∀ sig ∈ sigs, ρ.Fixes sig.name.text) :
    Echoes ρ leeway (declareTrait name sigs) (declareTrait name sigs) id := by
  refine fun s hplain => .get fun _ hview => ?_
  have hsame : Echoes ρ leeway
      (ensure (¬s.scope.declaresType name.text) (.duplicateDeclaration name.text) name.span >>=
        fun _ => declareNewTrait name sigs)
      (ensure (¬s.scope.declaresType name.text) (.duplicateDeclaration name.text) name.span >>=
        fun _ => declareNewTrait name sigs) id :=
    .bind (follows_ensure Iff.rfl (duplicateDeclaration_rename hname)) fun _ =>
      follows_declareNewTrait hname hnames
  by_cases hknown : Assoc.find? leeway.known name.text = none
  · rw [hview.scope.declaresType (Leeway.types_eq_none.mpr hknown)]
    exact hsame s hplain
  · -- A name that only the second run takes for a type never becomes that of a trait.
    refine (hsame s hplain).of_not fun hinside hcounts => hknown ?_
    rcases hcounts with hstrict | ⟨_, hok⟩
    · exact hstrict name.text
    · exact hinside.traits name.text (Yields.isDeclared (Prod.ext hok rfl))

theorem follows_provide {span : Span} {ty : Ty} {bound : Trait} {evidence : Evidence} :
    Echoes ρ leeway (provide span ty bound evidence)
      (provide span (ty.rename ρ) bound (evidence.rename ρ)) id := by
  refine fun s hplain => .get fun _ hview => ?_
  rcases hview.registry.provide ty bound evidence with
    ⟨failure, herror, herror'⟩ | ⟨r, r', hok, hok', hmirrors, htraits⟩
  · rw [herror, herror']
    exact follows_fail rfl s hplain
  · have htrait : r.trait? = s.registry.trait? := by
      funext name
      rw [Registry.trait?, htraits]
      rfl
    rw [hok, hok']
    refine followsAt_setRegistry hplain hmirrors (htrait ▸ hplain.traits) fun _ _ => ?_
    rwa [Registry.isDeclared, htrait]

end Checker

end TraitCheck
