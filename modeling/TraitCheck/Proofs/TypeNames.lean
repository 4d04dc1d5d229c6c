import TraitCheck.Proofs.Sessions

/-!
The names of types and traits. Only a statement that declares a trait changes which
traits there are. Structs and enums are entered by name before any statement of
their program is checked, each with variables of its own for its type parameters,
and their statements only complete them. So all type names of the outermost frame
are built in or stand for a struct or an enum (`Rooted`).
-/

namespace TraitCheck

open Surface (Stmt GenericParam TypeExpr Program)

/-- The name and the type parameters of the struct or enum that a statement
declares. -/
def Surface.Stmt.adt? : Stmt → Option (Name × List GenericParam)
  | .struct name params _ _ => some (name, params)
  | .enum name params _ _ => some (name, params)
  | _ => none

/-- The name of the trait that a statement declares. -/
def Surface.Stmt.trait? : Stmt → Option Name
  | .trait name _ _ => some name
  | _ => none

/-- The names that a statement binds for the statements after it. -/
def Surface.Stmt.binds : Stmt → List String
  | .bind pattern _ _ _ => pattern.declared
  | .func decl => [decl.name.text]
  | .trait _ methods _ => methods.map (·.name.text)
  | _ => []

/-- Loops, returns and expressions. -/
def Surface.Stmt.declaresNothing : Stmt → Bool
  | .ret .. | .whileDo .. | .forEach .. | .eval .. => true
  | _ => false

namespace Checker

variable {α : Type} {s s' : Checker}

/-! Statements and the names of types and traits. -/

variable {stmt : Stmt}
variable {ty : Ty} {index : Nat} {span : Span} {bound : Trait}

/-- The innermost frame has the same type names, and is still that of a function or
not. If so asked, the same structs and enums and the same traits are declared. -/
structure SameNames (adts traits : Prop) (s s' : Checker) : Prop where
  types : s'.scope.top.types = s.scope.top.types
  upvalues : s'.scope.top.upvalues.isSome = s.scope.top.upvalues.isSome
  adts : adts → s'.adts = s.adts
  traits : traits → s'.registry.traits = s.registry.traits

variable {A T : Prop}

instance : StaysClosed (SameNames A T) where
  refl := fun _ => ⟨rfl, rfl, fun _ => rfl, fun _ => rfl⟩
  trans := fun _ _ _ h h' => ⟨h'.types.trans h.types, h'.upvalues.trans h.upvalues,
    fun ha => (h'.adts ha).trans (h.adts ha), fun ht => (h'.traits ht).trans (h.traits ht)⟩
  stays := by
    intro s s' h
    refine ⟨h.types, ?_, fun _ => h.adts, fun _ => h.traits⟩
    have hbare := congrArg (fun frame => frame.upvalues.isSome) h.top
    simpa only [Frame.bare, Option.isSome_map] using hbare

theorem sameNames_allows {name : String} : Allows (SameNames A T) name :=
  fun _ _ _ _ => ⟨rfl, rfl, fun _ => rfl, fun _ => rfl⟩

theorem sameNames_declareTrait (hT : ¬T) {name : Name} {methods : List Surface.MethodSig} :
    Ends (SameNames A T) (declareTrait name methods) :=
  ends_declareTrait (fun _ _ => ⟨rfl, rfl, fun _ => rfl, fun h => (hT h).elim⟩)
    fun _ _ _ => ⟨rfl, rfl, fun _ => rfl, fun _ => rfl⟩

theorem sameNames_provide {evidence : Evidence} :
    Ends (SameNames A T) (provide span ty bound evidence) := by
  refine ends_provide fun _ _ hprovide => ?_
  obtain ⟨_, _, _, htraits, _⟩ := Registry.lookup_provide hprovide
  exact ⟨rfl, rfl, fun _ => rfl, fun _ => htraits⟩

theorem sameNames_setAdtKind (hA : ¬A) {name : String} {kind : AdtKind} :
    Ends (SameNames A T) (setAdtKind name kind) :=
  .modify fun _ => ⟨rfl, rfl, fun h => (hA h).elim, fun _ => rfl⟩

variable {room : Nat}

/-- What declares nothing is checked like an expression. -/
theorem stays_checkStmt (h : stmt.declaresNothing = true) :
    Ends Stays (checkStmt room stmt) := by
  cases stmt with
  | ret value span =>
    cases value with
    | none =>
      rw [checkStmt]
      exact .bind stays_recordReturn fun _ => .pure
    | some e =>
      rw [checkStmt]
      exact .bind ends_requireFunction fun _ => .bind ends_currentReturn fun hint =>
        .bind stays_checkExpr fun _ => .bind stays_recordReturn fun _ => .pure
  | whileDo cond body span =>
    rw [checkStmt]
    exact .bind (ends_expecting fun _ => stays_checkExpr) fun _ =>
      .bind stays_checkBlock fun _ => .pure
  | forEach name iterable body span =>
    rw [checkStmt]
    refine .bind stays_checkExpr fun _ =>
      .bind ends_resolve fun _ => .bind ends_elementOf fun _ =>
        .bind (EndsIn.inScope ?_) fun _ => .pure
    exact .bind (ends_bindLocal passes_allows) fun _ => .bind stays_checkBlock.lift fun _ => .pure
  | eval e span =>
    rw [checkStmt]
    exact .bind stays_checkExpr fun _ => .pure
  | _ => cases h

/-- Besides what an expression does, a statement binds its names and makes what
it declares known. -/
theorem ends_checkStmt {R : Checker → Checker → Prop} [StaysClosed R]
    (hallows : ∀ name, name ∈ stmt.binds ∨ TraitCheck.Reserved name → Allows R name)
    (hprovide : ∀ span ty bound evidence, Ends R (provide span ty bound evidence))
    (hadt : stmt.adt? ≠ none → ∀ name kind, Ends R (setAdtKind name kind))
    (htrait : stmt.trait? ≠ none → ∀ name methods, Ends R (declareTrait name methods))
    (hfunc : ∀ decl, stmt = .func decl → Ends R (checkStmt room (.func decl))) :
    Ends R (checkStmt room stmt) := by
  cases stmt with
  | bind pattern written value span =>
    rw [checkStmt]
    exact .bind ends_typeFor? fun _ => .bind stays_checkExpr.lift fun _ => .bind ends_join fun _ =>
      .bind ends_resolve fun _ => ends_bindPattern fun _ hname => hallows _ (.inl hname)
  | func decl => exact hfunc decl rfl
  | struct name params fields span =>
    rw [checkStmt]
    exact .bind ends_requireTopLevel fun _ => .bind (ends_defineStruct (hadt nofun _)) fun _ => .pure
  | enum name params tags span =>
    rw [checkStmt]
    exact .bind ends_requireTopLevel fun _ => .bind (ends_defineEnum (hadt nofun _)) fun _ => .pure
  | trait name methods span =>
    rw [checkStmt]
    exact .bind ends_requireTopLevel fun _ => .bind (htrait nofun name methods) fun _ => .pure
  | impl bound ty methods span =>
    rw [checkStmt]
    refine .bind ends_requireTopLevel fun _ =>
      .bind (ends_openImpl (fun _ hname => hallows _ (.inr hname)) fun _ _ _ => hprovide _ _ _ _)
        fun _ => .bind stays_checkMethods.lift fun _ => ?_
    split
    · exact .fail rfl
    · exact .pure
  | ret | whileDo | forEach | eval => exact (stays_checkStmt rfl).lift

theorem sameNames_checkStmt (room : Nat) (stmt : Stmt) :
    Ends (SameNames (stmt.adt? = none) (stmt.trait? = none)) (checkStmt room stmt) := by
  refine ends_checkStmt (fun _ _ => sameNames_allows) (fun _ _ _ _ => sameNames_provide)
    (fun h _ _ => sameNames_setAdtKind h) (fun h _ _ => sameNames_declareTrait h) fun decl _ => ?_
  rw [checkStmt]
  exact .bind ends_declareSignature fun sig =>
    .bind ends_freshBinding fun _ => .bind (ends_bindValue sameNames_allows rfl) fun _ =>
      .bind (stays_checkFunc room sig decl).lift fun _ =>
        .bind (.modify fun _ => ⟨rfl, rfl, fun _ => rfl, fun _ => rfl⟩) fun _ => .pure

/-! Names of structs and enums. -/

variable {params : List GenericParam} {name : Name}

/-- The variables that are drawn for type parameters from `next` on. -/
def paramVars (next : Nat) : List GenericParam → List TyVar
  | [] => []
  | g :: rest => ⟨next, g.name.text, .ofList (g.bounds.map (·.text))⟩ :: paramVars (next + 1) rest

theorem id_paramVars {next : Nat} {v : TyVar} (hv : v ∈ paramVars next params) :
    next ≤ v.id ∧ v.id < next + params.length := by
  induction params generalizing next with
  | nil => cases hv
  | cons g rest ih =>
    rw [List.length_cons]
    rcases List.mem_cons.mp hv with rfl | hv
    · exact ⟨le_refl _, Nat.lt_add_of_pos_right (Nat.succ_pos _)⟩
    · obtain ⟨hlow, hhigh⟩ := ih hv
      exact ⟨Nat.le_of_succ_le hlow, lt_of_lt_of_eq hhigh (Nat.succ_add_eq_add_succ _ _)⟩

theorem names_paramVars (next : Nat) (params : List GenericParam) :
    (paramVars next params).map (·.name) = params.map (·.name.text) := by
  induction params generalizing next with
  | nil => rfl
  | cons g rest ih => exact congrArg (_ :: ·) (ih (next + 1))

theorem Yields.paramVars {params : List GenericParam} {seen : List String}
    {generics : List Generic} (h : Yields (Checker.declareGenerics seen params) s generics s') :
    generics.map (·.var) = Checker.paramVars s.unifier.next params ∧
      s' = s.drawnTo (s.unifier.next + params.length) := by
  induction params generalizing seen generics s with
  | nil =>
    obtain ⟨rfl, rfl⟩ := h.pure
    exact ⟨rfl, rfl⟩
  | cons g rest ih =>
    obtain ⟨_, h⟩ := h.ensure_bind
    obtain ⟨_, s1, h1, h⟩ := h.bind
    obtain ⟨_, rfl⟩ := h1.requireDeclared
    obtain ⟨var, s2, h2, h⟩ := h.bind
    obtain ⟨rfl, rfl⟩ := h2.fresh
    obtain ⟨more, s3, h3, h⟩ := h.bind
    obtain ⟨rfl, rfl⟩ := h.pure
    obtain ⟨hvars, hstate⟩ := ih h3
    refine ⟨congrArg (_ :: ·) hvars, hstate.trans ?_⟩
    rw [List.length_cons, Nat.add_comm rest.length, ← Nat.add_assoc]
    rfl

theorem nodup_declareGenerics {seen : List String} :
    Results (fun _ => (params.map (·.name.text)).Nodup ∧ ∀ g ∈ params, g.name.text ∉ seen)
      (declareGenerics seen params) := by
  induction params generalizing seen with
  | nil => exact .pure ⟨List.nodup_nil, by simp⟩
  | cons g rest ih =>
    refine .ensured fun hnew => .after fun _ => .after fun _ => .bind ih fun _ hrest => .pure ?_
    obtain ⟨hnodup, hseen⟩ := hrest
    refine ⟨List.nodup_cons.mpr ⟨fun hmem => ?_, hnodup⟩, List.forall_mem_cons.mpr ⟨hnew, ?_⟩⟩
    · obtain ⟨g', hg', heq⟩ := List.mem_map.mp hmem
      exact hseen g' hg' (heq ▸ List.mem_cons_self)
    · exact fun g' hg' hmem => hseen g' hg' (List.mem_cons_of_mem _ hmem)

/-- The state with one more struct or enum, of which the fields are still to come. -/
def announce (s : Checker) (name : String) (params : List GenericParam) : Checker :=
  let adt : Adt := ⟨name, paramVars s.unifier.next params, .pending⟩
  { s with
    unifier := { s.unifier with next := s.unifier.next + params.length }
    scope := s.scope.bindType name adt.ty
    adts := Assoc.insert s.adts name adt }

theorem Yields.announce {params : List GenericParam} {seen : List String}
    {generics : List Generic} (h : Yields (Checker.declareGenerics seen params) s generics s')
    (name : String) :
    { s' with
      scope := s'.scope.bindType name (Adt.ty ⟨name, generics.map (·.var), .pending⟩)
      adts := Assoc.insert s'.adts name ⟨name, generics.map (·.var), .pending⟩ } =
        s.announce name params := by
  obtain ⟨hvars, rfl⟩ := h.paramVars
  rw [hvars]
  rfl

theorem Yields.declareAdt {u : Unit} (h : Yields (Checker.declareAdt name params) s u s') :
    s' = s.announce name.text params ∧ (params.map (·.name.text)).Nodup ∧
      s.scope.declaresType name.text = false ∧ s.registry.isDeclared name.text = false := by
  replace h := h.get_bind
  obtain ⟨hnew, h⟩ := h.ensure_bind
  obtain ⟨generics, s2, h2, h⟩ := h.bind
  obtain ⟨_, s3, h3, h⟩ := h.bind
  obtain rfl := h3.modify
  obtain rfl := h.modify
  rw [Bool.or_eq_true, not_or, Bool.not_eq_true, Bool.not_eq_true] at hnew
  exact ⟨h2.announce name.text, (nodup_declareGenerics h2).1, hnew⟩

/-- A new name is entered, or at most variables are drawn. -/
theorem declareAdt_ends (s : Checker) (name : Name) (params : List GenericParam) :
    Stays s ((Checker.declareAdt name params).run.run s).2 ∨
      s.scope.declaresType name.text = false ∧
        ((Checker.declareAdt name params).run.run s).2 = s.announce name.text params := by
  let P := fun s' => Stays s s' ∨
    s.scope.declaresType name.text = false ∧ s' = s.announce name.text params
  refine Ends.holds_bind (P := P) (.inl (refl_of Stays s)) fun _ s1 h1 => ?_
  obtain ⟨rfl, rfl⟩ := h1.get
  refine Ends.holds_bind (P := P) (.inl ((EndsIn.ensure rfl).rel s)) fun _ _ h1 => ?_
  obtain ⟨hnew, rfl⟩ := h1.ensure
  refine Ends.holds_bind (P := P) (.inl (ends_declareGenerics.rel s)) ?_
  intro generics s2 h2
  rw [Bool.or_eq_true, not_or] at hnew
  exact .inr ⟨Bool.eq_false_of_not_eq_true hnew.1, h2.announce name.text⟩

theorem declareAdts_cons_of_adt (h : stmt.adt? = some (name, params)) (rest : Program) :
    declareAdts (stmt :: rest) = (do
      declareAdt name params
      declareAdts rest) := by
  cases stmt <;> cases h <;> rfl

theorem declareAdts_cons_of_none (h : stmt.adt? = none) (rest : Program) :
    declareAdts (stmt :: rest) = declareAdts rest := by
  cases stmt with
  | struct => cases h
  | enum => cases h
  | _ => rfl

/-! The outermost frame. -/

/-- Every declared type is in the outermost frame under its name, and all other type
names there are built in. No two declarations share a type parameter. -/
structure Rooted (s : Checker) : Prop where
  root : s.scope.below = []
  upvalues : s.scope.top.upvalues = none
  named : ∀ name adt, Assoc.find? s.adts name = some adt →
    adt.name = name ∧ s.scope.top.types.find? name = some adt.ty
  builtin : ∀ name ty, s.scope.top.types.find? name = some ty → Assoc.find? s.adts name = none →
    name ∈ Prelude.types ∧ ty = .named name []
  drawn : ∀ name adt, Assoc.find? s.adts name = some adt → ∀ v ∈ adt.generics, v.id < s.unifier.next
  apart : ∀ name adt name' adt', Assoc.find? s.adts name = some adt →
    Assoc.find? s.adts name' = some adt' → name ≠ name' →
      ∀ v ∈ adt.generics, ∀ w ∈ adt'.generics, v.id ≠ w.id

namespace Rooted

variable {name : String}

theorem keep (h : Rooted s) (hsame : SameNames A T s s') (hadts : s'.adts = s.adts)
    (hbalanced : Balanced s s') : Rooted s' where
  root := hbalanced.isRoot h.root
  upvalues := by
    have hsome := hsame.upvalues
    rwa [h.upvalues, Option.isSome_none, Option.isSome_eq_false_iff,
      Option.isNone_iff_eq_none] at hsome
  named := by rw [hadts, hsame.types]; exact h.named
  builtin := by rw [hadts, hsame.types]; exact h.builtin
  drawn := by
    rw [hadts]
    exact fun name adt hadt v hv => lt_of_lt_of_le (h.drawn name adt hadt v hv) hbalanced.next
  apart := by rw [hadts]; exact h.apart

theorem undeclared (h : Rooted s) (hnew : s.scope.declaresType name = false) :
    Assoc.find? s.adts name = none := by
  cases hfind : Assoc.find? s.adts name with
  | none => rfl
  | some adt =>
    rw [Scope.declaresType, Assoc.contains, (h.named name adt hfind).2] at hnew
    cases hnew

/-- A name in the outermost frame that takes no type arguments stands for a type
without variables and tracers. -/
theorem typesOver (h : Rooted s) : TypesOver s ∅ ∅ s.scope := by
  intro name ty hty harity
  have hfound : s.scope.top.types.find? name = some ty := by
    rw [Scope.type?, Scope.frames, h.root, Frame.lookupType, Frame.lookupType,
      Option.or_none] at hty
    exact hty
  cases hfind : Assoc.find? s.adts name with
  | none =>
    obtain ⟨hbuiltin, rfl⟩ := h.builtin name ty hfound hfind
    have harities : s.arities name = some 0 := by rw [arities, hfind]; exact if_pos hbuiltin
    exact Ty.formed_named harities (by simp)
  | some adt =>
    obtain ⟨rfl, hadt⟩ := h.named name adt hfind
    obtain rfl : ty = adt.ty := Option.some.inj (hfound.symm.trans hadt)
    have hnamed : adt.ty.isNamed adt.name = true := by
      simp [Adt.ty, Ty.isNamed, Ty.named, Ty.concrete, Ty.con?]
    have hnone : adt.generics = [] := by
      rw [AdtTable.arity, hfind] at harity
      simp only [hnamed, if_true] at harity
      exact List.length_eq_zero_iff.mp harity
    have harities : s.arities adt.name = some 0 := by
      simp only [arities, hfind, hnone, List.length_nil]
    rw [Adt.ty, hnone]
    exact Ty.formed_named harities (by simp)

/-- A new name with new type parameters. -/
theorem announce (h : Rooted s) (name : String) (params : List GenericParam) :
    Rooted (s.announce name params) where
  root := h.root
  upvalues := h.upvalues
  named := by
    intro other adt hother
    rw [Checker.announce, Assoc.find?_insert] at hother
    rw [Checker.announce, Scope.bindType, Assoc.find?_insert]
    split at hother
    · rename_i heq
      cases hother
      exact ⟨heq.symm, if_pos heq⟩
    · rename_i hne
      exact ⟨(h.named other adt hother).1, (if_neg hne).trans (h.named other adt hother).2⟩
  builtin := by
    intro other ty hty hnone
    rw [Checker.announce, Assoc.find?_insert] at hnone
    rw [Checker.announce, Scope.bindType, Assoc.find?_insert] at hty
    split at hnone
    · cases hnone
    · rename_i hne
      exact h.builtin other ty (by rwa [if_neg hne] at hty) hnone
  drawn := Assoc.forall_insert (fun v hv => (id_paramVars hv).2)
    fun other adt hother v hv => Nat.lt_add_right _ (h.drawn other adt hother v hv)
  apart := by
    intro a adt b adt' ha hb hne v hv w hw
    rw [Checker.announce, Assoc.find?_insert] at ha hb
    split at ha
    · rename_i heq
      cases ha
      rw [if_neg fun h => hne (heq.trans h.symm)] at hb
      exact (Nat.ne_of_lt (lt_of_lt_of_le (h.drawn b adt' hb w hw) (id_paramVars hv).1)).symm
    · split at hb
      · cases hb
        exact Nat.ne_of_lt (lt_of_lt_of_le (h.drawn a adt ha v hv) (id_paramVars hw).1)
      · exact h.apart a adt b adt' ha hb hne v hv w hw

theorem grows_announce (h : Rooted s) (hnew : s.scope.declaresType name = false)
    (params : List GenericParam) : s.adts.Grows (s.announce name params).adts := by
  intro other adt hother
  refine ⟨adt, ?_, rfl, fun _ => rfl⟩
  rw [Checker.announce, Assoc.find?_insert_of_ne, hother]
  rintro rfl
  rw [h.undeclared hnew] at hother
  cases hother

/-- A declaration in place of one with the same name and type parameters. -/
theorem replace (h : Rooted s) {adt adt' : Adt} (hfind : Assoc.find? s.adts name = some adt)
    (hname : adt'.name = adt.name) (hgenerics : adt'.generics = adt.generics) :
    Rooted { s with adts := Assoc.insert s.adts name adt' } := by
  -- Every entry of the new table has the name and the type parameters of an old one.
  have hold : ∀ other found, Assoc.find? (Assoc.insert s.adts name adt') other = some found →
      ∃ found', Assoc.find? s.adts other = some found' ∧ found.name = found'.name ∧
        found.generics = found'.generics :=
    Assoc.forall_insert ⟨adt, hfind, hname, hgenerics⟩ fun _ found hother =>
      ⟨found, hother, rfl, rfl⟩
  refine ⟨h.root, h.upvalues, fun other found hother => ?_, fun other ty hty hnone => ?_,
    fun other found hother => ?_, fun a x b y ha hb hne => ?_⟩
  · obtain ⟨found', hfind', hname', hgenerics'⟩ := hold other found hother
    obtain ⟨hnamed, htype⟩ := h.named other found' hfind'
    rw [Adt.ty, hname', hgenerics']
    exact ⟨hnamed, htype⟩
  · rw [Assoc.find?_insert] at hnone
    split at hnone
    · cases hnone
    · exact h.builtin other ty hty hnone
  · obtain ⟨found', hfind', _, hgenerics'⟩ := hold other found hother
    rw [hgenerics']
    exact h.drawn other found' hfind'
  · obtain ⟨x', hx, _, hgx⟩ := hold a x ha
    obtain ⟨y', hy, _, hgy⟩ := hold b y hb
    rw [hgx, hgy]
    exact h.apart a x' b y' hx hy hne

end Rooted

end Checker

end TraitCheck
