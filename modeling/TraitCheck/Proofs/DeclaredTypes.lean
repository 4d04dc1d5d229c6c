import TraitCheck.Proofs.TypeNames

/-!
The table of structs and enums. A program first enters the names of its structs
and enums with their type parameters. Each is then completed once, by its own
statement, and what it has got then it keeps. Its fields and tags stand in the
order in which they were written, and the types of its fields are over its own
type parameters: the outermost frame, in which they are read, has no other type
variables in it and no tracers.
-/

namespace TraitCheck

open Surface (Stmt FieldDecl TagDecl GenericParam Program)

/-- The names come once each and in this order, and their place is their index. -/
structure Assoc.Lists {α : Type} (table : Assoc String α) (names : List String) : Prop where
  keys : table.keys = names
  nodup : names.Nodup
  index : ∀ i name, names[i]? = some name ↔ ∃ a, table.locate? name = some (i, a)

theorem Assoc.locate?_of_mem {α : Type} {table : Assoc String α} {name : String}
    (h : name ∈ table.keys) : ∃ i a, table.locate? name = some (i, a) := by
  obtain ⟨entries⟩ := table
  simp only [locate?, Assoc.keys] at h ⊢
  induction entries with
  | nil => cases h
  | cons entry rest ih =>
    obtain ⟨key, a⟩ := entry
    by_cases hkey : key = name
    · exact ⟨0, a, by rw [locate?.go, if_pos hkey]⟩
    · have hrest : name ∈ rest.map Prod.fst := (List.mem_cons.mp h).resolve_left (Ne.symm hkey)
      obtain ⟨i, b, hlocate⟩ := ih hrest
      exact ⟨i + 1, b, by rw [locate?.go, if_neg hkey, hlocate, Option.map_some]⟩

theorem Assoc.lists_keys {α : Type} {table : Assoc String α} (h : table.keys.Nodup) :
    table.Lists table.keys where
  keys := rfl
  nodup := h
  index := by
    intro i name
    constructor
    · intro hi
      obtain ⟨j, a, hj⟩ := locate?_of_mem (List.mem_of_getElem? hi)
      obtain ⟨hlt, _⟩ := List.getElem?_eq_some_iff.mp hi
      have hij : i = j :=
        (List.getElem?_inj hlt h).mp (hi.trans (getElem?_of_locate? hj).1.symm)
      exact ⟨a, hij ▸ hj⟩
    · rintro ⟨a, ha⟩
      exact (getElem?_of_locate? ha).1

/-- The fields are those that are written, with types over the type parameters and
without tracers. -/
structure Fields.AsWritten (generics : List TyVar) (decls : List FieldDecl) (fields : Fields) :
    Prop where
  lists : Assoc.Lists fields (decls.map (·.name.text))
  own : ∀ ty ∈ fields.values, ty.Over {v | v ∈ generics} ∧ ∀ id, ¬ty.Traces id

/-- Nothing is known of the declaration but its name and its type parameters, or one
of the statements has completed it. -/
def Adt.AsWritten (stmts : List Stmt) (adt : Adt) : Prop :=
  match adt.kind with
  | .pending => True
  | .struct fields => ∃ name params decls span, Stmt.struct name params decls span ∈ stmts ∧
      name.text = adt.name ∧ adt.generics.map (·.name) = params.map (·.name.text) ∧
        Fields.AsWritten adt.generics decls fields
  | .enum tags => ∃ name params decls span, Stmt.enum name params decls span ∈ stmts ∧
      name.text = adt.name ∧ adt.generics.map (·.name) = params.map (·.name.text) ∧
        tags.Lists (decls.map (·.name.text)) ∧ ∀ decl ∈ decls, ∃ fields,
          tags.find? decl.name.text = some fields ∧
            Fields.AsWritten adt.generics decl.fields fields

theorem Adt.AsWritten.mono {stmts stmts' : List Stmt} {adt : Adt} (h : adt.AsWritten stmts)
    (hsub : stmts ⊆ stmts') : adt.AsWritten stmts' := by
  rw [AsWritten] at h ⊢
  split at h
  · trivial
  · obtain ⟨name, params, decls, span, hmem, hrest⟩ := h
    exact ⟨name, params, decls, span, hsub hmem, hrest⟩
  · obtain ⟨name, params, decls, span, hmem, hrest⟩ := h
    exact ⟨name, params, decls, span, hsub hmem, hrest⟩

namespace Checker

variable {s s' : Checker} {stmts program : List Stmt}

/-! Fields and tags. -/

variable {fields : Fields} {decls : List FieldDecl} {generics : List TyVar}

theorem keys_addFields : Results (fun out => out.keys = fields.keys ++ decls.map (·.name.text))
    (addFields fields decls) := by
  induction decls generalizing fields with
  | nil => exact .pure (List.append_nil _).symm
  | cons decl rest ih =>
    refine .ensured fun hnew => .after fun ty => .imp ih fun _ hkeys => hkeys.trans ?_
    rw [Assoc.keys, Assoc.entries_insert fields ty hnew, List.map_append, List.append_assoc]
    rfl

theorem Yields.resolveFields_asWritten
    (h : Yields (Checker.resolveFields generics decls) s fields s')
    (hover : TypesOver s ∅ ∅ s.scope) : s = s' ∧ Fields.AsWritten generics decls fields := by
  obtain ⟨hsame, hnodup, htyped⟩ := h.resolveFields hover
  obtain ⟨s1, hbody, _⟩ := h.inScope
  obtain ⟨_, s2, _, hbody⟩ := hbody.bind
  refine ⟨hsame, ?_, fun ty hty => ⟨(htyped ty hty).isOver, fun _ hid => ?_⟩⟩
  · have hkeys : fields.keys = decls.map (·.name.text) := keys_addFields hbody
    exact hkeys ▸ Assoc.lists_keys hnodup
  · exact (htyped ty hty).traces hid

/-- A tag that was added keeps its fields. -/
theorem Yields.addTags_asWritten {decls : List TagDecl} {tags out : Assoc String Fields}
    (h : Yields (Checker.addTags generics tags decls) s out s') (hover : TypesOver s ∅ ∅ s.scope) :
    out.keys = tags.keys ++ decls.map (·.name.text) ∧
      (∀ name fields, tags.find? name = some fields → out.find? name = some fields) ∧
        ∀ decl ∈ decls, ∃ fields, out.find? decl.name.text = some fields ∧
          Fields.AsWritten generics decl.fields fields := by
  induction decls generalizing tags s with
  | nil =>
    obtain ⟨rfl, _⟩ := h.pure
    exact ⟨(List.append_nil _).symm, fun _ _ hfind => hfind, by simp⟩
  | cons decl rest ih =>
    obtain ⟨hnew, h⟩ := h.ensure_bind
    obtain ⟨fields, s2, h2, h⟩ := h.bind
    obtain ⟨rfl, hfields⟩ := h2.resolveFields_asWritten hover
    obtain ⟨hkeys, hkept, hrest⟩ := ih h hover
    refine ⟨?_, fun name found hfind => hkept name found ?_, List.forall_mem_cons.mpr ⟨?_, hrest⟩⟩
    · rw [hkeys, Assoc.keys, Assoc.entries_insert tags fields hnew, List.map_append,
        List.append_assoc]
      rfl
    · rw [Assoc.find?_insert_of_ne _ _ _, hfind]
      rintro rfl
      rw [Assoc.contains, hfind] at hnew
      exact hnew rfl
    · exact ⟨fields, hkept _ _ (Assoc.find?_insert_self tags _ _), hfields⟩

/-! Declarations in the table. -/

/-- What is declared in the outermost frame was written in one of the statements. -/
structure Tabled (stmts : List Stmt) (s : Checker) : Prop extends Rooted s where
  written : ∀ name adt, Assoc.find? s.adts name = some adt → adt.AsWritten stmts
  prepared : s.options.prelude = true → s.preludeInstalled = true

/-- The structs and enums of the program are named. -/
def Announced (program : Program) (s : Checker) : Prop :=
  ∀ stmt ∈ program, ∀ name params, stmt.adt? = some (name, params) →
    ∃ adt, Assoc.find? s.adts name.text = some adt ∧
      adt.generics.map (·.name) = params.map (·.name.text)

theorem Announced.grow (h : Announced program s) (hgrows : s.adts.Grows s'.adts) :
    Announced program s' := by
  intro stmt hstmt name params hadt
  obtain ⟨adt, hfind, hnames⟩ := h stmt hstmt name params hadt
  obtain ⟨adt', hfind', hgenerics, _⟩ := hgrows name.text adt hfind
  exact ⟨adt', hfind', hgenerics ▸ hnames⟩

namespace Tabled

theorem keep (h : Tabled stmts s) {A T : Prop} (hsame : SameNames A T s s')
    (hadts : s'.adts = s.adts) (hkept : Kept s s') : Tabled stmts s' where
  toRooted := h.toRooted.keep hsame hadts hkept.toBalanced
  written := by rw [hadts]; exact h.written
  prepared := by rw [hkept.options, hkept.installed]; exact h.prepared

theorem stay (h : Tabled stmts s) (hstays : Stays s s') : Tabled stmts s' :=
  h.keep (A := True) (T := True) hstays.lift hstays.adts hstays.toKept

theorem mono (h : Tabled stmts s) {stmts' : List Stmt} (hsub : stmts ⊆ stmts') : Tabled stmts' s :=
  { h with written := fun name adt hadt => (h.written name adt hadt).mono hsub }

end Tabled

theorem Tabled.announce (h : Tabled stmts s) (name : String) (params : List GenericParam) :
    Tabled stmts (s.announce name params) where
  toRooted := h.toRooted.announce name params
  written := Assoc.forall_insert trivial h.written
  prepared := h.prepared

theorem Tabled.declareAdt (h : Tabled stmts s) (name : Name) (params : List GenericParam) :
    Tabled stmts ((Checker.declareAdt name params).run.run s).2 ∧
      s.adts.Grows ((Checker.declareAdt name params).run.run s).2.adts := by
  rcases declareAdt_ends s name params with hstays | ⟨hnew, heq⟩
  · exact ⟨h.stay hstays, hstays.grows⟩
  · rw [heq]
    exact ⟨h.announce name.text params, h.grows_announce hnew params⟩

theorem Tabled.declareAdts (h : Tabled stmts s) (program : Program) :
    Tabled stmts ((Checker.declareAdts program).run.run s).2 ∧
      s.adts.Grows ((Checker.declareAdts program).run.run s).2.adts := by
  induction program generalizing s with
  | nil => exact ⟨h, .refl _⟩
  | cons stmt rest ih =>
    cases hadt : stmt.adt? with
    | none =>
      rw [declareAdts_cons_of_none hadt]
      exact ih h
    | some header =>
      rw [declareAdts_cons_of_adt hadt]
      have hfirst := h.declareAdt header.1 header.2
      refine Ends.holds_bind (P := fun s' => Tabled stmts s' ∧ s.adts.Grows s'.adts) hfirst ?_
      intro _ s1 h1
      rw [h1] at hfirst
      exact ⟨(ih hfirst.1).1, hfirst.2.trans (ih hfirst.1).2⟩

/-- Once the names of a program are entered, they are all there. -/
theorem Tabled.announced (h : Tabled stmts s) {u : Unit}
    (hrun : Yields (Checker.declareAdts program) s u s') : Announced program s' := by
  induction program generalizing s with
  | nil => exact fun _ hstmt => absurd hstmt List.not_mem_nil
  | cons stmt rest ih =>
    intro stmt' hstmt' name params hheader
    cases hadt : stmt.adt? with
    | none =>
      rw [declareAdts_cons_of_none hadt] at hrun
      rcases List.mem_cons.mp hstmt' with rfl | hmem
      · rw [hadt] at hheader
        cases hheader
      · exact ih h hrun stmt' hmem name params hheader
    | some header =>
      rw [declareAdts_cons_of_adt hadt] at hrun
      obtain ⟨_, s1, h1, hrest⟩ := hrun.bind
      obtain ⟨rfl, _⟩ := h1.declareAdt
      have hnamed := h.announce header.1.text header.2
      rcases List.mem_cons.mp hstmt' with rfl | hmem
      · rw [hadt] at hheader
        cases hheader
        have hgrows := (hnamed.declareAdts rest).2
        rw [hrest] at hgrows
        obtain ⟨adt, hfind, hgenerics, _⟩ := hgrows name.text _ (Assoc.find?_insert_self _ _ _)
        exact ⟨adt, hfind, hgenerics ▸ names_paramVars _ params⟩
      · exact ih hnamed hrest stmt' hmem name params hheader

/-! Definitions. -/

/-- Completing a declaration that is there by name. -/
theorem Tabled.setAdtKind (h : Tabled stmts s) {name : String} {adt : Adt} {kind : AdtKind}
    (hfind : Assoc.find? s.adts name = some adt)
    (hwritten : Adt.AsWritten stmts { adt with kind }) :
    Tabled stmts ((Checker.setAdtKind name kind).run.run s).2 := by
  change Tabled stmts { s with adts := Assoc.modify s.adts name _ }
  rw [Assoc.modify, hfind]
  exact ⟨h.toRooted.replace hfind rfl rfl, Assoc.forall_insert hwritten h.written, h.prepared⟩

/-- A statement that completes a declaration of its program. -/
theorem Tabled.define (h : Tabled stmts s) (name : Name) {x : Adt → CheckM AdtKind}
    (hx : ∀ adt, Ends Stays (x adt))
    (hwritten : ∀ adt kind s1, Assoc.find? s.adts name.text = some adt → Yields (x adt) s kind s1 →
      Adt.AsWritten stmts { adt with kind }) :
    Tabled stmts ((do
      let adt ← pendingAdt name
      let kind ← x adt
      Checker.setAdtKind name.text kind).run.run s).2 := by
  refine Ends.holds_bind (h.stay (ends_pendingAdt.rel s)) fun adt _ h1 => ?_
  obtain ⟨rfl, hfind, _⟩ := h1.pendingAdt
  have hstays := (hx adt).rel s
  refine Ends.holds_bind (h.stay hstays) fun kind s2 h2 => ?_
  rw [h2] at hstays
  exact (h.stay hstays).setAdtKind (hstays.adts ▸ hfind) (hwritten adt kind s2 hfind h2)

theorem Tabled.defineStruct (h : Tabled stmts s) (hprogram : Announced program s)
    {name : Name} {params : List GenericParam} {decls : List FieldDecl} {span : Span}
    (hmem : Stmt.struct name params decls span ∈ program) (hsub : program ⊆ stmts) :
    Tabled stmts ((Checker.defineStruct name decls).run.run s).2 := by
  have hdefine := h.define name (x := fun adt => do
    return .struct (← Checker.resolveFields adt.generics decls))
      (fun adt => .bind ends_resolveFields fun _ => .pure) ?_
  · simpa only [Checker.defineStruct, bind_assoc, pure_bind] using hdefine
  intro adt kind s1 hfind hrun
  obtain ⟨fields, s2, h2, hrun⟩ := hrun.bind
  obtain ⟨rfl, rfl⟩ := hrun.pure
  obtain ⟨adt', hfind', hnames⟩ := hprogram _ hmem name params rfl
  obtain rfl : adt = adt' := Option.some.inj (hfind.symm.trans hfind')
  exact ⟨name, params, decls, span, hsub hmem, (h.named _ _ hfind).1.symm, hnames,
    (h2.resolveFields_asWritten h.typesOver).2⟩

theorem Tabled.defineEnum (h : Tabled stmts s) (hprogram : Announced program s)
    {name : Name} {params : List GenericParam} {decls : List TagDecl} {span : Span}
    (hmem : Stmt.enum name params decls span ∈ program) (hsub : program ⊆ stmts) :
    Tabled stmts ((Checker.defineEnum name decls).run.run s).2 := by
  have hdefine := h.define name (x := fun adt => do
    return .enum (← Checker.addTags adt.generics ∅ decls))
      (fun adt => .bind ends_addTags fun _ => .pure) ?_
  · simpa only [Checker.defineEnum, bind_assoc, pure_bind] using hdefine
  intro adt kind s1 hfind hrun
  obtain ⟨tags, s2, h2, hrun⟩ := hrun.bind
  obtain ⟨rfl, rfl⟩ := hrun.pure
  obtain ⟨adt', hfind', hnames⟩ := hprogram _ hmem name params rfl
  obtain rfl : adt = adt' := Option.some.inj (hfind.symm.trans hfind')
  obtain ⟨hkeys, _, htags⟩ := h2.addTags_asWritten h.typesOver
  obtain ⟨_, hnodup, _⟩ := h2.addTags h.typesOver List.nodup_nil (by rintro _ ⟨⟩)
  have hlists : tags.Lists (decls.map (·.name.text)) :=
    (show tags.keys = decls.map (·.name.text) from hkeys) ▸ Assoc.lists_keys hnodup
  exact ⟨name, params, decls, span, hsub hmem, (h.named _ _ hfind).1.symm, hnames, hlists, htags⟩

/-! Whole programs. -/

theorem Tabled.topLevel (h : Tabled stmts s) {what : String} {span : Span} {x : CheckM Unit}
    (hx : Tabled stmts (x.run.run s).2) : Tabled stmts ((do
      requireTopLevel what span
      x
      return ([] : List Core.Stmt)).run.run s).2 := by
  refine Ends.holds_bind (h.stay (ends_requireTopLevel.rel s)) fun _ _ h1 => ?_
  obtain ⟨_, rfl⟩ := h1.requireTopLevel
  refine Ends.holds_bind hx fun _ _ h2 => ?_
  rw [h2] at hx
  exact hx

theorem Tabled.checkStmt (h : Tabled stmts s) (hprogram : Announced program s) {stmt : Stmt}
    (hmem : stmt ∈ program) (hsub : program ⊆ stmts) (room : Nat) :
    Tabled stmts ((Checker.checkStmt room stmt).run.run s).2 := by
  cases hadt : stmt.adt? with
  | none =>
    have hsame := (sameNames_checkStmt room stmt).rel s
    exact h.keep hsame (hsame.adts hadt) ((passes_checkStmt room stmt).kept.rel s)
  | some header =>
    cases stmt with
    | struct name params decls span =>
      rw [Checker.checkStmt]
      exact h.topLevel (h.defineStruct hprogram hmem hsub)
    | enum name params decls span =>
      rw [Checker.checkStmt]
      exact h.topLevel (h.defineEnum hprogram hmem hsub)
    | _ => cases hadt

/-- Bindings of type variables play no part. -/
theorem Tabled.setSubst (h : Tabled stmts s) (subst : Subst) :
    Tabled stmts { s with unifier := { s.unifier with subst } } :=
  { h with }

theorem Tabled.inUnit {body : CheckM (List Core.Stmt)}
    (hbody : Tabled stmts (body.run.run { s with unifier := { s.unifier with subst := {} } }).2) :
    Tabled stmts ((Checker.inUnit body).run.run s).2 := by
  refine Tabled.setSubst ?_ s.unifier.subst
  refine Ends.holds_bind (x := body) hbody fun _ _ h1 => ?_
  rw [h1] at hbody
  exact hbody

/-- What each unit keeps in such states holds after all of them. -/
theorem Tabled.keeps_checkUnits {P : Checker → Prop} (h : Tabled stmts s)
    (hprogram : Announced program s) (hsub : program ⊆ stmts) (room : Nat) {units : Program}
    (hunits : units ⊆ program) (hstep : ∀ s stmt, Tabled stmts s → P s →
      P ((Checker.inUnit (Checker.checkStmt room stmt)).run.run s).2) (hs : P s) :
    let s' := ((Checker.checkUnits room units).run.run s).2
    Tabled stmts s' ∧ P s' := by
  let Q := fun s' => Tabled stmts s' ∧ P s'
  induction units generalizing s with
  | nil => exact ⟨h, hs⟩
  | cons stmt rest ih =>
    obtain ⟨hstmt, hrest⟩ := List.cons_subset.mp hunits
    have hfirst : Tabled stmts ((Checker.inUnit (Checker.checkStmt room stmt)).run.run s).2 :=
      inUnit ((h.setSubst {}).checkStmt hprogram hstmt hsub room)
    have hkept := (EndsIn.inUnit (passes_checkStmt room stmt)).kept.rel s
    have hnext := hstep s stmt h hs
    refine Ends.holds_bind (P := Q) ⟨hfirst, hnext⟩ fun _ _ h1 => ?_
    rw [h1] at hfirst hkept hnext
    have hmore := ih hfirst (hprogram.grow hkept.grows) hrest hnext
    refine Ends.holds_bind (P := Q) hmore fun _ _ h2 => ?_
    rw [h2] at hmore
    exact hmore

theorem adts_prepared (s : Checker) : s.prepared.adts = s.adts := by
  rw [prepared]
  split
  · exact Prelude.install_rec (P := fun s' => s'.adts = s.adts) rfl (fun _ h _ _ => h)
      (fun _ h _ _ => h) (fun _ h _ _ => h) (fun _ h _ _ => h) fun _ h => h
  · rfl

theorem Tabled.prepared_eq (h : Tabled stmts s) : s.prepared = s := by
  rw [Checker.prepared, if_neg]
  rw [Bool.and_eq_true, Bool.not_eq_true']
  rintro ⟨hprelude, hinstalled⟩
  exact Bool.false_ne_true (hinstalled.symm.trans (h.prepared hprelude))

/-- No type is declared yet, and all type names are built in. -/
structure Undeclaring (s : Checker) : Prop where
  root : s.scope.below = []
  upvalues : s.scope.top.upvalues = none
  adts : s.adts = ∅
  types : ∀ name ty, s.scope.top.types.find? name = some ty →
    name ∈ Prelude.types ∧ ty = .named name []

theorem Undeclaring.tabled (h : Undeclaring s)
    (hprepared : s.options.prelude = true → s.preludeInstalled = true) : Tabled stmts s := by
  refine ⟨⟨h.root, h.upvalues, ?_, fun name ty hty _ => h.types name ty hty, ?_, ?_⟩, ?_, hprepared⟩
  all_goals
    rw [h.adts]
    rintro _ _
  · rintro ⟨⟩
  · rintro ⟨⟩
  · rintro _ _ ⟨⟩
  · rintro ⟨⟩

theorem undeclaring_install (h : Undeclaring s) : Undeclaring (Prelude.install s) := by
  refine Prelude.install_rec h (fun _ h' _ hname => ?_) (fun _ h' _ _ => { h' with })
    (fun _ h' _ _ => { h' with }) (fun _ h' _ _ => { h' with }) fun _ h' => { h' with }
  exact ⟨h'.root, h'.upvalues, h'.adts, Assoc.forall_insert ⟨hname, rfl⟩ h'.types⟩

theorem tabled_new (options : Options) : Tabled [] (new options).prepared := by
  have hnew : Undeclaring (new options) := ⟨rfl, rfl, rfl, by rintro _ _ ⟨⟩⟩
  rw [prepared]
  split
  · exact (undeclaring_install hnew).tabled fun _ => rfl
  · rename_i hprelude
    refine hnew.tabled fun h => absurd ?_ hprelude
    rw [Bool.and_eq_true]
    exact ⟨h, rfl⟩

theorem Tabled.check (h : Tabled stmts s.prepared) (program : Program) :
    Tabled (stmts ++ program) (s.check program).2 ∧ s.adts.Grows (s.check program).2.adts := by
  have hstart : Tabled (stmts ++ program) s.prepared := h.mono (List.subset_append_left _ _)
  obtain ⟨htabled, hgrows⟩ := hstart.declareAdts program
  rw [adts_prepared] at hgrows
  let P := fun s' => Tabled (stmts ++ program) s' ∧ s.adts.Grows s'.adts
  refine Ends.holds_bind (P := P) ⟨hstart, ?_⟩ fun _ s1 h1 => ?_
  · change s.adts.Grows s.prepared.adts
    rw [adts_prepared]
    exact .refl _
  obtain rfl : s1 = s.prepared := by
    rw [preparePrelude_eq] at h1
    exact h1.modify
  refine Ends.holds_bind (P := P) ⟨htabled, hgrows⟩ fun _ s2 h2 => ?_
  have hnames := hstart.announced h2
  rw [h2] at htabled hgrows
  have hunits := passes_checkUnits s2.options.maxDepth program
  have hkeeps := htabled.keeps_checkUnits (P := fun _ => True) hnames
    (List.subset_append_right _ _) s2.options.maxDepth (List.Subset.refl _) (by simp) trivial
  exact ⟨hkeeps.1, hgrows.trans (hunits.kept.rel s2).grows⟩

theorem Tabled.session (h : Tabled stmts s.prepared) (programs : List Program) :
    Tabled (stmts ++ programs.flatten) (s.session programs).2.prepared ∧
      s.adts.Grows (s.session programs).2.adts := by
  induction programs generalizing s stmts with
  | nil =>
    rw [List.flatten_nil, List.append_nil]
    exact ⟨h, .refl _⟩
  | cons program rest ih =>
    obtain ⟨hcheck, hgrows⟩ := h.check program
    rw [← hcheck.prepared_eq] at hcheck
    obtain ⟨hrest, hgrows'⟩ := ih hcheck
    rw [List.flatten_cons, ← List.append_assoc]
    exact ⟨hrest, hgrows.trans hgrows'⟩

/-- Whatever programs are checked one after the other, and also where some of them
fail: a declared struct or enum is still without fields, or has the fields and tags
of a statement that declares it, each at the index of its place there, and the types
of its fields are over its own type parameters, which no other declaration has. What
is complete is not changed by any later program. -/
theorem session_types_settled (options : Options) (programs : List Program) :
    let s := ((new options).session programs).2
    (∀ name adt, Assoc.find? s.adts name = some adt →
      adt.name = name ∧ adt.AsWritten programs.flatten) ∧
    (∀ name adt name' adt', Assoc.find? s.adts name = some adt →
      Assoc.find? s.adts name' = some adt' → name ≠ name' →
        ∀ v ∈ adt.generics, ∀ w ∈ adt'.generics, v.id ≠ w.id) ∧
    ∀ more name adt, Assoc.find? s.adts name = some adt → adt.isPending = false →
      Assoc.find? (s.session more).2.adts name = some adt := by
  intro s
  obtain ⟨htabled, _⟩ := (tabled_new options).session programs
  rw [List.nil_append] at htabled
  have hadts : s.prepared.adts = s.adts := adts_prepared s
  refine ⟨fun name adt hfind => ?_, ?_, fun more name adt hfind hdone => ?_⟩
  · rw [← hadts] at hfind
    exact ⟨(htabled.named name adt hfind).1, htabled.written name adt hfind⟩
  · rw [← hadts]
    exact htabled.apart
  · obtain ⟨adt', hfind', _, hsame⟩ := (htabled.session more).2 name adt hfind
    rw [hfind', hsame hdone]

end Checker

end TraitCheck
