import TraitCheck.Proofs.TypeNames

/-!
How the structs and enums of a program are entered by name. Whether that succeeds
depends on the type names of the outermost frame and on the traits that are declared
by then. It draws one variable for each type parameter and changes nothing else but
the two tables (`Announceable.announced`). The statements of a program leave the type names
as they are, and add exactly the traits that they declare.
-/

namespace TraitCheck

open Surface (Stmt GenericParam Program)

namespace Surface

/-- The structs and enums of a program, by name and type parameters. -/
def headers (program : Program) : List (Name × List GenericParam) := program.filterMap Stmt.adt?

/-- The bounds of the type parameters of structs and enums. -/
def typeBounds (program : Program) : List Name :=
  (headers program).flatMap fun h => h.2.flatMap (·.bounds)

/-- The names of the traits that a program declares. -/
def traitNames (program : Program) : List String :=
  program.filterMap fun stmt => stmt.trait?.map (·.text)

theorem mem_traitNames_cons {stmt : Stmt} {rest : Program} {name : String} :
    name ∈ traitNames (stmt :: rest) ↔
      stmt.trait?.map (·.text) = some name ∨ name ∈ traitNames rest := by
  simp only [traitNames, List.mem_filterMap, List.mem_cons, exists_eq_or_imp]

end Surface

namespace Checker

variable {α β : Type} {s s' : Checker} {headers : List (Name × List GenericParam)}
variable {s₁ : Checker} {span : Span} {failure : Failure}

theorem Yields.andThen {x : CheckM α} {f : α → CheckM β} {a : α} {b : β} (hx : Yields x s a s1)
    (hf : Yields (f a) s1 b s') : Yields (x >>= f) s b s' := by
  rw [Yields, Runs.run_bind, hx]
  exact hf

/-- The step fails with the failure at the place. -/
def Fails (x : CheckM α) (s : Checker) (failure : Failure) (span : Span) : Prop :=
  (x.run.run s).1 = .error ⟨failure, span⟩

theorem Fails.bind {x : CheckM α} (h : Fails x s failure span) (f : α → CheckM β) :
    Fails (x >>= f) s failure span := by
  rw [Fails, Runs.run_bind, show x.run.run s = (.error ⟨failure, span⟩, (x.run.run s).2) from
    Prod.ext h rfl]

theorem Yields.thenFails {x : CheckM α} {f : α → CheckM β} {a : α} (hx : Yields x s a s1)
    (hf : Fails (f a) s1 failure span) : Fails (x >>= f) s failure span := by
  rw [Fails, Runs.run_bind, hx]
  exact hf

/-! Type parameters. -/

variable {params : List GenericParam}

theorem yields_ensure {condition : Prop} [Decidable condition] (h : condition) (failure : Failure)
    (span : Span) : Yields (ensure condition failure span) s () s := by
  rw [ensure, if_pos h]
  rfl

/-- All bounds are declared, or the first that is not is unknown. -/
theorem requireDeclared_cases (s : Checker) (bounds : List Name) :
    (∀ b ∈ bounds, s.registry.isDeclared b.text = true) ∧ Yields (requireDeclared bounds) s () s ∨
      ∃ b ∈ bounds, s.registry.isDeclared b.text = false ∧
        Fails (requireDeclared bounds) s (.unknownType b.text) b.span := by
  cases hfind : bounds.find? fun b => !s.registry.isDeclared b.text with
  | none =>
    refine .inl ⟨fun b hb => ?_, ?_⟩
    · have hnot := List.find?_eq_none.mp hfind b hb
      rwa [Bool.not_eq_true', Bool.not_eq_false] at hnot
    · rw [Yields, requireDeclared, Runs.run_get_bind]
      dsimp only
      rw [hfind]
      rfl
  | some b =>
    refine .inr ⟨b, List.mem_of_find?_eq_some hfind, ?_, ?_⟩
    · have hb := List.find?_some hfind
      rwa [Bool.not_eq_true'] at hb
    · rw [Fails, requireDeclared, Runs.run_get_bind]
      dsimp only
      rw [hfind]
      rfl

/-- Type parameters with different names are declared, or some bound is unknown. -/
theorem declareGenerics_cases (seen : List String) (hnodup : (params.map (·.name.text)).Nodup)
    (hseen : ∀ g ∈ params, g.name.text ∉ seen) (s : Checker) :
    ((∀ b ∈ params.flatMap (·.bounds), s.registry.isDeclared b.text = true) ∧
      ∃ generics s', Yields (declareGenerics seen params) s generics s') ∨
    ∃ b ∈ params.flatMap (·.bounds), s.registry.isDeclared b.text = false ∧
      Fails (declareGenerics seen params) s (.unknownType b.text) b.span := by
  induction params generalizing seen s with
  | nil => exact .inl ⟨by simp, [], s, rfl⟩
  | cons g rest ih =>
    rw [List.map_cons, List.nodup_cons] at hnodup
    obtain ⟨hg, hrest⟩ := List.forall_mem_cons.mp hseen
    have hseen' : ∀ g' ∈ rest, g'.name.text ∉ g.name.text :: seen := by
      intro g' hg' hmem
      rcases List.mem_cons.mp hmem with heq | hmem
      · exact hnodup.1 (heq ▸ List.mem_map_of_mem hg')
      · exact hrest g' hg' hmem
    have hensure := yields_ensure (s := s) hg (.duplicateDeclaration g.name.text) g.name.span
    rw [List.flatMap_cons]
    rcases requireDeclared_cases s g.bounds with ⟨hbounds, hyields⟩ | ⟨b, hb, hnot, hfails⟩
    · rcases ih _ hnodup.2 hseen' (s.drawnTo (s.unifier.next + 1)) with
        ⟨hmore, generics, s1, hgenerics⟩ | ⟨b, hb, hnot, hfails⟩
      · have hrun : Yields (declareGenerics seen (g :: rest)) s _ s1 :=
          hensure.andThen (hyields.andThen (Yields.andThen rfl (hgenerics.andThen rfl)))
        exact .inl ⟨List.forall_mem_append.mpr ⟨hbounds, hmore⟩, _, s1, hrun⟩
      · refine .inr ⟨b, List.mem_append_right _ hb, hnot, ?_⟩
        exact hensure.thenFails (hyields.thenFails (Yields.thenFails rfl (hfails.bind _)))
    · exact .inr ⟨b, List.mem_append_left _ hb, hnot, hensure.thenFails (hfails.bind _)⟩

/-! Structs and enums. -/

variable {name : String} {h : Name × List GenericParam} {program : Program}

/-- The names are different and new, and so are the names of the type parameters of
each. -/
structure Announceable (s : Checker) (headers : List (Name × List GenericParam)) : Prop where
  distinct : (headers.map (·.1.text)).Nodup
  params : ∀ h ∈ headers, (h.2.map (·.name.text)).Nodup
  types : ∀ h ∈ headers, s.scope.declaresType h.1.text = false
  traits : ∀ h ∈ headers, s.registry.isDeclared h.1.text = false

/-- The state in which all of them are entered. -/
def announceAll (s : Checker) (headers : List (Name × List GenericParam)) : Checker :=
  headers.foldl (fun s h => s.announce h.1.text h.2) s

theorem declaresType_announce (s : Checker) (name other : String) (params : List GenericParam) :
    (s.announce name params).scope.declaresType other =
      (decide (other = name) || s.scope.declaresType other) := by
  rw [Scope.declaresType, announce, Scope.bindType, Assoc.contains, Assoc.find?_insert]
  by_cases h : other = name
  · rw [if_pos h, decide_eq_true h]
    rfl
  · rw [if_neg h, decide_eq_false h]
    rfl

theorem declaresType_announceAll
    (h : name ∈ headers.map (·.1.text) ∨ s.scope.declaresType name = true) :
    (s.announceAll headers).scope.declaresType name = true := by
  induction headers generalizing s with
  | nil => exact h.resolve_left List.not_mem_nil
  | cons header rest ih =>
    refine ih ?_
    rw [declaresType_announce, Bool.or_eq_true, decide_eq_true_eq]
    rw [List.map_cons, List.mem_cons] at h
    tauto

theorem Announceable.tail (hs : Announceable s (h :: headers)) :
    Announceable (s.announce h.1.text h.2) headers := by
  have hdistinct := List.nodup_cons.mp hs.distinct
  refine ⟨hdistinct.2, fun h' hh' => hs.params h' (List.mem_cons_of_mem _ hh'), fun h' hh' => ?_,
    fun h' hh' => hs.traits h' (List.mem_cons_of_mem _ hh')⟩
  have hne : h'.1.text ≠ h.1.text := fun heq => hdistinct.1 (List.mem_map.mpr ⟨h', hh', heq⟩)
  rw [declaresType_announce, decide_eq_false hne, Bool.false_or]
  exact hs.types h' (List.mem_cons_of_mem _ hh')

theorem declareAdts_eq (program : Program) :
    declareAdts program = (Surface.headers program).forM fun h => declareAdt h.1 h.2 := by
  induction program with
  | nil => rfl
  | cons stmt rest ih =>
    rw [Surface.headers] at ih ⊢
    cases hadt : stmt.adt? with
    | none => rw [declareAdts_cons_of_none hadt, List.filterMap_cons_none hadt, ih]
    | some header =>
      rw [declareAdts_cons_of_adt hadt, List.filterMap_cons_some hadt, List.forM, ih]

theorem declareAdts_append (p q : Program) : declareAdts (p ++ q) = (do
    declareAdts p
    declareAdts q) := by
  induction p with
  | nil => rfl
  | cons stmt rest ih =>
    rw [List.cons_append]
    cases hadt : stmt.adt? with
    | none => rw [declareAdts_cons_of_none hadt, declareAdts_cons_of_none hadt, ih]
    | some header =>
      rw [declareAdts_cons_of_adt hadt, declareAdts_cons_of_adt hadt, ih, bind_assoc]

theorem declareAdt_cases (hs : Announceable s (h :: headers)) :
    ((∀ b ∈ h.2.flatMap (·.bounds), s.registry.isDeclared b.text = true) ∧
      Yields (declareAdt h.1 h.2) s () (s.announce h.1.text h.2)) ∨
    ∃ b ∈ h.2.flatMap (·.bounds), s.registry.isDeclared b.text = false ∧
      Fails (declareAdt h.1 h.2) s (.unknownType b.text) b.span := by
  have hnew : ¬(s.scope.declaresType h.1.text || s.registry.isDeclared h.1.text) := by
    rw [hs.types h List.mem_cons_self, hs.traits h List.mem_cons_self]
    exact Bool.false_ne_true
  have hensure := yields_ensure (s := s) hnew (.duplicateDeclaration h.1.text) h.1.span
  rcases declareGenerics_cases [] (hs.params h List.mem_cons_self)
    (fun _ _ => List.not_mem_nil) s with ⟨hbounds, generics, s1, h1⟩ | ⟨b, hb, hnot, hfails⟩
  · refine .inl ⟨hbounds, ?_⟩
    rw [← h1.announce h.1.text]
    exact Yields.andThen rfl (hensure.andThen (h1.andThen (Yields.andThen rfl rfl)))
  · exact .inr ⟨b, hb, hnot, Yields.thenFails rfl (hensure.thenFails (hfails.bind _))⟩

/-- If the names are all new, then they are entered, or some bound is unknown. -/
theorem declareAdts_cases (hs : Announceable s (Surface.headers program)) :
    ((∀ b ∈ Surface.typeBounds program, s.registry.isDeclared b.text = true) ∧
      Yields (declareAdts program) s () (s.announceAll (Surface.headers program))) ∨
    ∃ b ∈ Surface.typeBounds program, s.registry.isDeclared b.text = false ∧
      Fails (declareAdts program) s (.unknownType b.text) b.span := by
  rw [declareAdts_eq, Surface.typeBounds]
  generalize Surface.headers program = headers at hs ⊢
  induction headers generalizing s with
  | nil => exact .inl ⟨by simp, rfl⟩
  | cons h rest ih =>
    rw [List.flatMap_cons, List.forM]
    rcases declareAdt_cases hs with ⟨hbounds, hyields⟩ | ⟨b, hb, hnot, hfails⟩
    · rcases ih hs.tail with ⟨hmore, hrest⟩ | ⟨b, hb, hnot, hfails⟩
      · exact .inl ⟨List.forall_mem_append.mpr ⟨hbounds, hmore⟩, hyields.andThen hrest⟩
      · exact .inr ⟨b, List.mem_append_right _ hb, hnot, hyields.thenFails hfails⟩
    · exact .inr ⟨b, List.mem_append_left _ hb, hnot, hfails.bind _⟩

theorem declaresType_of_announce {other : String}
    (h : (s.announce name params).scope.declaresType other = false) :
    other ≠ name ∧ s.scope.declaresType other = false := by
  rw [declaresType_announce, Bool.or_eq_false_iff, decide_eq_false_iff_not] at h
  exact h

/-- Names that are entered were new, and the bounds were declared. -/
theorem Yields.announceable {u : Unit} (h : Yields (Checker.declareAdts program) s u s') :
    Announceable s (Surface.headers program) ∧ s' = s.announceAll (Surface.headers program) ∧
      ∀ b ∈ Surface.typeBounds program, s.registry.isDeclared b.text = true := by
  have hs : Announceable s (Surface.headers program) := by
    rw [declareAdts_eq] at h
    generalize Surface.headers program = headers at h
    induction headers generalizing s with
    | nil => exact ⟨List.nodup_nil, by simp, by simp, by simp⟩
    | cons header rest ih =>
      rw [List.forM] at h
      obtain ⟨_, s1, h1, hrest⟩ := h.bind
      obtain ⟨rfl, hparams, htype, htrait⟩ := h1.declareAdt
      have htail := ih hrest
      have htypes := fun h' hh' => declaresType_of_announce (htail.types h' hh')
      refine ⟨List.nodup_cons.mpr ⟨fun hmem => ?_, htail.distinct⟩,
        List.forall_mem_cons.mpr ⟨hparams, htail.params⟩,
        List.forall_mem_cons.mpr ⟨htype, fun h' hh' => (htypes h' hh').2⟩,
        List.forall_mem_cons.mpr ⟨htrait, htail.traits⟩⟩
      obtain ⟨h', hh', heq⟩ := List.mem_map.mp hmem
      exact (htypes h' hh').1 heq
  rcases declareAdts_cases hs with ⟨hbounds, hyields⟩ | ⟨b, _, _, hfails⟩
  · exact ⟨hs, (Prod.mk.inj (h.symm.trans hyields)).2, hbounds⟩
  · rw [Fails, h] at hfails
    cases hfails

/-! What is entered. -/

/-- The structs and enums as they are entered, with variables from `next` on. -/
def pendings (next : Nat) : List (Name × List GenericParam) → AdtTable
  | [] => ∅
  | h :: rest => Assoc.insert (pendings (next + h.2.length) rest) h.1.text
      ⟨h.1.text, paramVars next h.2, .pending⟩

/-- How many variables are drawn. -/
def paramCount : List (Name × List GenericParam) → Nat
  | [] => 0
  | h :: rest => h.2.length + paramCount rest

/-- Entering names draws variables and adds to the two tables. -/
theorem Announceable.announced (hs : Announceable s headers) (hroot : Rooted s) :
    ∃ types adts, s.announceAll headers = { s with
      unifier := { s.unifier with next := s.unifier.next + paramCount headers }
      scope := { s.scope with top := { s.scope.top with types } }
      adts } ∧
    (∀ name, types.find? name = (s.scope.top.types.find? name).or
      ((Assoc.find? (pendings s.unifier.next headers) name).map Adt.ty)) ∧
    ∀ name, Assoc.find? adts name =
      (Assoc.find? s.adts name).or (Assoc.find? (pendings s.unifier.next headers) name) := by
  induction headers generalizing s with
  | nil => exact ⟨_, _, rfl, fun _ => Option.or_none.symm, fun _ => Option.or_none.symm⟩
  | cons h rest ih =>
    obtain ⟨types, adts, heq, htypes, hadts⟩ := ih hs.tail (hroot.announce h.1.text h.2)
    have hcount : s.unifier.next + paramCount (h :: rest) =
        s.unifier.next + h.2.length + paramCount rest := (Nat.add_assoc _ _ _).symm
    have hnew := hs.types h List.mem_cons_self
    refine ⟨types, adts, ?_, fun name => ?_, fun name => ?_⟩
    · rw [announceAll, List.foldl_cons, ← announceAll, heq, hcount]
      rfl
    · rw [htypes, announce, Scope.bindType, pendings, Assoc.find?_insert, Assoc.find?_insert]
      by_cases hname : name = h.1.text
      · rw [Scope.declaresType, Assoc.contains, Option.isSome_eq_false_iff,
          Option.isNone_iff_eq_none] at hnew
        rw [if_pos hname, if_pos hname, hname, hnew]
        rfl
      · rw [if_neg hname, if_neg hname]
    · rw [hadts, announce, pendings, Assoc.find?_insert, Assoc.find?_insert]
      by_cases hname : name = h.1.text
      · rw [if_pos hname, if_pos hname, hname, hroot.undeclared hnew]
        rfl
      · rw [if_neg hname, if_neg hname]

theorem isSome_find?_pendings {next : Nat}
    (h : (Assoc.find? (pendings next headers) name).isSome = true) :
    name ∈ headers.map (·.1.text) := by
  induction headers generalizing next with
  | nil => cases h
  | cons header rest ih =>
    rw [pendings, Assoc.find?_insert] at h
    split at h
    · rename_i heq
      exact heq ▸ List.mem_cons_self
    · exact List.mem_cons_of_mem _ (ih h)

/-! Statements. -/

variable {out : List Core.Stmt} {room : Nat}

theorem Yields.unit {body : CheckM (List Core.Stmt)} (h : Yields (Checker.inUnit body) s out s') :
    ∃ stmts s1, Yields body { s with unifier := { s.unifier with subst := {} } } stmts s1 ∧
        s' = { s1 with unifier := { s1.unifier with subst := s.unifier.subst } } := by
  obtain ⟨s1, hbody, rfl⟩ := h.isolated
  obtain ⟨stmts, s2, h2, hbody⟩ := hbody.bind
  replace hbody := hbody.get_bind
  obtain ⟨_, rfl⟩ := hbody.pure
  exact ⟨stmts, s2, h2, rfl⟩

theorem sameNames_checkUnits : Ends (SameNames False False) (checkUnits room program) :=
  ends_checkUnits fun stmt _ => (sameNames_checkStmt room stmt).imp fun h =>
    ⟨h.types, h.upvalues, False.elim, False.elim⟩

/-- A trait that is declared is a new one. -/
theorem Yields.declareTrait_traits {name : Name} {methods : List Surface.MethodSig} {u : Unit}
    (h : Yields (Checker.declareTrait name methods) s u s') :
    s.registry.isDeclared name.text = false ∧ ∀ other, s'.registry.isDeclared other = true ↔
      s.registry.isDeclared other = true ∨ other = name.text := by
  obtain ⟨_, s1, h1, h⟩ := h.bind
  obtain ⟨_, rfl⟩ := h1.get
  obtain ⟨_, h⟩ := h.ensure_bind
  obtain ⟨selfVar, s1, h1, h⟩ := h.bind
  have hfresh := (ends_fresh.stays h1).traits
  obtain ⟨sigs, s2, h2, h⟩ := h.bind
  have htraits := ((ends_traitMethods _ _ _).stays h2).traits.trans hfresh
  replace h := h.get_bind
  obtain ⟨registry, s3, h3, h⟩ := h.bind
  obtain ⟨hdeclare, rfl⟩ := h3.ofExcept
  obtain ⟨hnew, rfl⟩ := Registry.eq_of_declare hdeclare
  obtain ⟨_, s3, h3, h⟩ := h.bind
  obtain rfl := h3.modify
  have hmethods : SameNames True True _ s' :=
    (ends_bindMethods fun _ _ _ _ => ⟨rfl, rfl, fun _ => rfl, fun _ => rfl⟩).yields h
  rw [Registry.isDeclared, Registry.trait?, htraits] at hnew
  refine ⟨hnew, fun other => ?_⟩
  rw [Registry.isDeclared, Registry.trait?, hmethods.traits trivial, Assoc.find?_insert, htraits]
  by_cases heq : other = name.text
  · rw [if_pos heq]
    exact ⟨fun _ => .inr heq, fun _ => rfl⟩
  · rw [if_neg heq]
    exact ⟨.inl, fun h => h.resolve_right heq⟩

/-- A statement declares at most the trait that it names, and that one is new. -/
theorem Yields.checkStmt_traits {stmt : Stmt} (h : Yields (Checker.checkStmt room stmt) s out s') :
    (∀ name, stmt.trait? = some name → s.registry.isDeclared name.text = false) ∧
      ∀ other, s'.registry.isDeclared other = true ↔
        s.registry.isDeclared other = true ∨ stmt.trait?.map (·.text) = some other := by
  cases htrait : stmt.trait? with
  | none =>
    refine ⟨by simp, fun other => ?_⟩
    have hsame := (sameNames_checkStmt room stmt).yields h
    rw [Registry.isDeclared, Registry.trait?, hsame.traits htrait, Option.map_none]
    exact ⟨.inl, fun h => h.resolve_right (by rintro ⟨⟩)⟩
  | some name =>
    cases stmt with
    | trait name' methods span =>
      cases htrait
      rw [Checker.checkStmt] at h
      obtain ⟨_, s1, h1, h⟩ := h.bind
      obtain ⟨_, rfl⟩ := h1.requireTopLevel
      obtain ⟨_, s2, h2, h⟩ := h.bind
      obtain ⟨_, rfl⟩ := h.pure
      obtain ⟨hnew, hdeclared⟩ := h2.declareTrait_traits
      refine ⟨?_, fun _ => ?_⟩
      · rintro _ ⟨⟩
        exact hnew
      · rw [hdeclared, Option.map_some, Option.some.injEq, eq_comm (a := name.text)]
    | _ => cases htrait

/-- The statements of a program declare the traits that they name, which are new. -/
theorem Yields.checkUnits_traits (h : Yields (Checker.checkUnits room program) s out s') :
    (∀ name ∈ Surface.traitNames program, s.registry.isDeclared name = false) ∧
      ∀ name, s'.registry.isDeclared name = true ↔
        s.registry.isDeclared name = true ∨ name ∈ Surface.traitNames program := by
  induction program generalizing s out with
  | nil =>
    obtain ⟨_, rfl⟩ := h.pure
    exact ⟨by simp [Surface.traitNames], by simp [Surface.traitNames]⟩
  | cons stmt rest ih =>
    obtain ⟨_, s1, h1, h⟩ := h.bind
    obtain ⟨_, s2, h2, rfl⟩ := h1.unit
    obtain ⟨more, s3, h3, h⟩ := h.bind
    obtain ⟨_, rfl⟩ := h.pure
    obtain ⟨hnew, hfirst⟩ := h2.checkStmt_traits
    obtain ⟨hmore, hrest⟩ := ih h3
    have hdeclared : ∀ name, s2.registry.isDeclared name = true ↔
        s.registry.isDeclared name = true ∨ stmt.trait?.map (·.text) = some name := hfirst
    refine ⟨fun name hname => ?_, fun name => ?_⟩
    · rcases Surface.mem_traitNames_cons.mp hname with hstmt | hmem
      · obtain ⟨name', hname', rfl⟩ := Option.map_eq_some_iff.mp hstmt
        exact hnew name' hname'
      · -- What is still new later on was new before.
        have hlater : s2.registry.isDeclared name = false := hmore name hmem
        exact Bool.eq_false_of_not_eq_true fun htrue =>
          Bool.false_ne_true (hlater.symm.trans ((hdeclared name).mpr (.inl htrue)))
    · rw [hrest, Surface.mem_traitNames_cons, ← or_assoc]
      exact or_congr_left (hdeclared name)

end Checker

end TraitCheck
