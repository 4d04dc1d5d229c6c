import TraitCheck.Proofs.Effects

/-!
Matches on enums. The cases may be written in any order, and the blocks they
are checked to come in the order in which the enum declares its tags: a match
that is accepted has one case for each tag, and block `k` is that of tag `k`
(`checkExpr_cases_exhaustive`). Any other list of cases is rejected.

A block first binds the names of the payload, in the order in which they are
written. Each reads the field that it names from the scrutinee, at the index
the field was declared with. Then come the statements of the body, which are
checked in a frame of their own that binds these names and nothing else
(`CaseBlock`).

The cases are gone through from left to right. What holds of those that are
done (`Filed`) is kept by one more (`Filed.insert`), and so by all of them
(`Filed.of_checkCases`).
-/

namespace TraitCheck.Checker

open Surface (Case CaseBinding Expr)

variable {s s' : Checker} {room : Nat} {hint : Option Ty} {m : Match} {fields : Fields}

/-! The payload of a case. -/

variable {span : Span} {adt : Adt} {ty : Ty}

/-- What a name of a payload stands for: the field with the index, under a
binding of its own. -/
structure Payload where
  id : BindingId
  index : Nat
  ty : Ty

namespace Payload

/-- Binds the name to its field of the scrutinee. -/
def stmt (m : Match) (p : Payload) : Core.Stmt :=
  .bind p.id ⟨.field ⟨.ident m.scrutinee, m.ty⟩ p.index, p.ty⟩

/-- The index is the one that the written field is declared with. -/
def Reads (fields : Fields) (b : CaseBinding) (p : Payload) : Prop :=
  ∃ ty, fields.locate? b.field.text = some (p.index, ty)

/-- The written name, with what the frame of the case has for it. -/
def entry (b : CaseBinding) (p : Payload) : String × Value :=
  (b.binding.text, { kind := .binding p.id, ty := p.ty })

end Payload

/-- The block that a written case of a tag with the fields is checked to, in a
match that is checked in the state `s`. -/
def CaseBlock (room : Nat) (hint : Option Ty) (m : Match) (s : Checker) (fields : Fields)
    (c : Case) (block : Core.Block) : Prop :=
  ∃ (payload : List Payload) (opened closed : Checker) (body : Core.Block),
    List.Forall₂ (Payload.Reads fields) c.bindings payload ∧
    opened.scope.top = { values := ⟨List.zipWith Payload.entry c.bindings payload⟩ } ∧
    opened.scope.below.map Frame.bare = s.scope.frames.map Frame.bare ∧
    Yields (checkStmts room hint c.body.stmts) opened body closed ∧
    block = ⟨payload.map (Payload.stmt m) ++ body.stmts, body.ty⟩

theorem locate?_of_fieldOf {target : Ty} {field : String} :
    Results (fun r => ∃ declared, fields.locate? field = some (r.1, declared))
      (fieldOf adt fields target field span) := by
  rw [fieldOf]
  split
  · exact .after fun _ => .fail
  · rename_i found declared hfield
    exact .after fun _ => .after fun _ => .after fun _ => .pure ⟨declared, hfield⟩

/-- A new name comes last in its frame. -/
theorem top_bindLocal {scope : Scope} {name : String} (h : ¬scope.top.values.contains name) :
    (scope.bindLocal name ty).2.top = { scope.top with
      values := ⟨scope.top.values.entries ++
        [(name, { kind := .binding scope.nextBinding, ty })]⟩ } := by
  rw [← Assoc.entries_insert scope.top.values _ h]
  rfl

/-- The frame gains the names of the payload in the order in which they are
written. None was there before, so none takes the place of another. -/
theorem payload_of_bindCaseFields {seen : List String} {bindings : List CaseBinding}
    {lets : List Core.Stmt} (h : Yields (bindCaseFields m fields seen bindings) s lets s')
    (hseen : ∀ name ∈ s.scope.top.values.keys, name ∈ seen) :
    ∃ payload, lets = payload.map (Payload.stmt m) ∧
      List.Forall₂ (Payload.Reads fields) bindings payload ∧
      s'.scope.top = { s.scope.top with
        values := ⟨s.scope.top.values.entries ++
          List.zipWith Payload.entry bindings payload⟩ } := by
  induction bindings generalizing s seen lets with
  | nil =>
    obtain ⟨rfl, rfl⟩ := h.pure
    refine ⟨[], rfl, .nil, ?_⟩
    rw [List.zipWith_nil_left, List.append_nil]
  | cons b rest ih =>
    obtain ⟨hnew, h⟩ := h.ensure_bind
    obtain ⟨⟨index, ty⟩, s2, h2, h⟩ := h.bind
    obtain ⟨id, s3, h3, h⟩ := h.bind
    obtain ⟨stmts, s4, h4, h⟩ := h.bind
    obtain ⟨rfl, rfl⟩ := h.pure
    have hscope : s2.scope = s.scope := (ends_fieldOf.alike h2).scope
    obtain ⟨rfl, hbound⟩ := h3.modifyGet
    -- every name of the frame has been seen, so this one is new to it
    have hfresh : ¬s2.scope.top.values.contains b.binding.text := fun hold =>
      hnew (hseen _ (hscope ▸ (Assoc.find?_isSome _ _).mp hold))
    have hopen : s3.scope.top = _ := (congrArg (·.scope.top) hbound).trans (top_bindLocal hfresh)
    rw [hscope] at hopen
    have hseen3 : ∀ name ∈ s3.scope.top.values.keys, name ∈ b.binding.text :: seen := by
      rw [hopen, Assoc.keys, List.map_append]
      intro name hname
      obtain hold | hself := List.mem_append.mp hname
      · exact List.mem_cons_of_mem _ (hseen name hold)
      · rw [List.mem_singleton.mp hself]
        exact List.mem_cons_self
    obtain ⟨payload, rfl, hreads, htop⟩ := ih h4 hseen3
    refine ⟨⟨s.scope.nextBinding, index, ty⟩ :: payload, ?_, .cons (locate?_of_fieldOf h2) hreads,
      ?_⟩
    · rw [hscope]
      rfl
    · rw [htop, hopen, List.append_assoc]
      rfl

/-- The frame of a case holds its payload, and its body is checked there. -/
theorem caseBlock_of_inScope {c : Case} {block : Core.Block} {s0 : Checker} (hstays : Stays s0 s)
    (h : Yields (inScope do
      let lets ← bindCaseFields m fields [] c.bindings
      let body ← checkStmts room hint c.body.stmts
      pure (⟨lets ++ body.stmts, body.ty⟩ : Core.Block)) s block s') :
    CaseBlock room hint m s0 fields c block := by
  obtain ⟨s1, h, _⟩ := h.inScope
  obtain ⟨lets, opened, hlets, h⟩ := h.bind
  obtain ⟨body, closed, hbody, h⟩ := h.bind
  obtain ⟨rfl, rfl⟩ := h.pure
  obtain ⟨payload, rfl, hreads, htop⟩ :=
    payload_of_bindCaseFields hlets fun _ hname => nomatch hname
  have hbelow := (passes_bindCaseFields.yields hlets).below
  exact ⟨payload, opened, _, body, hreads, htop, hbelow.trans hstays.frames, hbody, rfl⟩

/-! The cases one after the other. -/

/-- The table has the blocks of the cases that are done, each under its tag,
and no two of them have the same. -/
structure Filed (room : Nat) (hint : Option Ty) (m : Match) (s : Checker) (cases : List Case)
    (done : Assoc String Core.Block) : Prop where
  keys : done.keys = cases.map (·.tag.text)
  nodup : done.keys.Nodup
  block : ∀ c ∈ cases, ∃ fields block, m.tags.find? c.tag.text = some fields ∧
    done.find? c.tag.text = some block ∧ CaseBlock room hint m s fields c block

namespace Filed

variable {cases : List Case} {done : Assoc String Core.Block}

theorem nil (room : Nat) (hint : Option Ty) (m : Match) (s : Checker) :
    Filed room hint m s [] ∅ where
  keys := rfl
  nodup := List.nodup_nil
  block := fun _ hc => nomatch hc

theorem insert (h : Filed room hint m s cases done) {c : Case} {block : Core.Block}
    (htag : m.tags.find? c.tag.text = some fields) (hnew : ¬done.contains c.tag.text)
    (hblock : CaseBlock room hint m s fields c block) :
    Filed room hint m s (cases ++ [c]) (done.insert c.tag.text block) where
  keys := by
    rw [Assoc.keys, Assoc.entries_insert done block hnew, List.map_append, List.map_append]
    exact congrArg (· ++ [c.tag.text]) h.keys
  nodup := Assoc.nodup_keys_insert done _ block h.nodup
  block := by
    intro c' hc'
    obtain hold | hself := List.mem_append.mp hc'
    · obtain ⟨fields', block', htag', hfind, hblock'⟩ := h.block c' hold
      have hne : c'.tag.text ≠ c.tag.text := by
        intro heq
        exact hnew (Option.isSome_of_eq_some (heq ▸ hfind))
      exact ⟨fields', block', htag', (Assoc.find?_insert_of_ne done block hne).trans hfind, hblock'⟩
    · rw [List.mem_singleton.mp hself]
      exact ⟨fields, block, htag, Assoc.find?_insert_self done _ block, hblock⟩

theorem of_checkCases {s0 : Checker} {before after : Option Ty} {rest : List Case}
    {checked : Assoc String Core.Block}
    (h : Yields (checkCases room hint m before done rest) s (checked, after) s')
    (hstays : Stays s0 s) (hdone : Filed room hint m s0 cases done) :
    Filed room hint m s0 (cases ++ rest) checked := by
  induction rest generalizing cases before done s with
  | nil =>
    rw [checkCases] at h
    cases h.pure.1
    rwa [List.append_nil]
  | cons c rest ih =>
    obtain ⟨tag, bindings, ⟨stmts, bodySpan⟩, span⟩ := c
    rw [checkCases] at h
    split at h
    · exact h.fail.elim
    · rename_i fields htag
      obtain ⟨hnew, h⟩ := h.ensure_bind
      obtain ⟨block, s2, h2, h⟩ := h.bind
      obtain ⟨ty, s3, h3, h⟩ := h.bind
      have hblock := caseBlock_of_inScope (c := ⟨tag, bindings, ⟨stmts, bodySpan⟩, span⟩) hstays h2
      have hcase : Stays s s2 := (EndsIn.inScope (.bind passes_bindCaseFields fun _ =>
        .bind passes_checkStmts fun _ => .pure)).yields h2
      have hjoin : Stays s2 s3 := ends_join.yields h3
      have hstays3 : Stays s0 s3 := trans_of Stays hstays (trans_of Stays hcase hjoin)
      have hrest := ih h hstays3 (hdone.insert htag hnew hblock)
      rwa [List.append_assoc] at hrest

/-- Blocks that can be read for all tags are those of the tags in their order,
and no case is left over. -/
theorem inOrder (h : Filed room hint m s cases done) (hnodup : m.tags.keys.Nodup)
    {blocks : List Core.Block} (hblocks : done.inOrder m.tags.keys = .ok blocks) :
    (cases.map (·.tag.text)).Perm m.tags.keys ∧ List.Forall₂ (fun (tag : String × Fields) block =>
        ∃ c ∈ cases, c.tag.text = tag.1 ∧ CaseBlock room hint m s tag.2 c block)
        m.tags.entries blocks := by
  have hread := Assoc.forall₂_of_inOrder hblocks
  have hwritten : ∀ tag ∈ m.tags.keys, tag ∈ done.keys := by
    refine ((List.forall₂_and_left _ _).mp (hread.imp fun tag block hfind => ⟨?_, hfind⟩)).1
    exact (Assoc.find?_isSome _ _).mp (Option.isSome_of_eq_some hfind)
  have hdeclared : ∀ tag ∈ done.keys, tag ∈ m.tags.keys := by
    intro tag htag
    rw [h.keys] at htag
    obtain ⟨c, hc, rfl⟩ := List.mem_map.mp htag
    obtain ⟨fields, _, hfields, _⟩ := h.block c hc
    exact (Assoc.find?_isSome _ _).mp (Option.isSome_of_eq_some hfields)
  constructor
  · -- neither list has a tag twice, so it is enough that they have the same
    rw [← h.keys, List.perm_ext_iff_of_nodup h.nodup hnodup]
    exact fun tag => ⟨hdeclared tag, hwritten tag⟩
  · rw [Assoc.keys, List.forall₂_map_left_iff] at hread
    have hentries := (List.forall₂_and_left _ _).mpr
      ⟨fun _ hentry => (⟨hentry, Assoc.find?_of_mem hnodup hentry⟩ : _ ∧ _), hread⟩
    refine hentries.imp ?_
    rintro ⟨tag, fields⟩ block ⟨⟨hentry, hfields⟩, hfind⟩
    have htag : tag ∈ cases.map (·.tag.text) := h.keys ▸ hwritten tag (List.mem_map_of_mem hentry)
    obtain ⟨c, hc, rfl⟩ := List.mem_map.mp htag
    obtain ⟨fields', block', hfields', hfind', hblock⟩ := h.block c hc
    cases hfields'.symm.trans hfields
    cases hfind'.symm.trans hfind
    exact ⟨c, hc, rfl, hblock⟩

end Filed

/-! The whole match. -/

theorem enum?_of_enumOf {found : Adt × Assoc String Fields}
    (h : Yields (enumOf ty span) s found s') : s.adts.enum? ty = some found ∧ s = s' := by
  replace h := h.get_bind
  split at h
  · rename_i hfound
    obtain ⟨rfl, rfl⟩ := h.pure
    exact ⟨hfound, rfl⟩
  · exact h.fail.elim

theorem filed_of_checkExpr {target : Expr} {cases : List Case} {value e : Core.Expr}
    {s1 : Checker} {tags : Assoc String Fields}
    (htarget : Yields (checkExpr room none target) s value s1)
    (henum : s.adts.enum? (s1.unifier.resolve value.ty) = some (adt, tags))
    (h : Yields (checkExpr (room + 1) hint (.cases target cases span)) s e s') :
    ∃ scrutinee checked blocks,
      Filed room hint ⟨adt, tags, s1.unifier.resolve value.ty, scrutinee⟩ s cases checked ∧
        checked.inOrder tags.keys = .ok blocks ∧ e.kind = .cases scrutinee value blocks := by
  have hstays : Stays s s1 := stays_checkExpr.yields htarget
  rw [checkExpr] at h
  obtain ⟨_, _, h1, h⟩ := h.bind
  cases h1.symm.trans htarget
  obtain ⟨_, _, h2, h⟩ := h.bind
  cases h2
  obtain ⟨⟨adt', tags'⟩, s3, h3, h⟩ := h.bind
  obtain ⟨hfound, rfl⟩ := enum?_of_enumOf h3
  rw [hstays.adts] at hfound
  cases hfound.symm.trans henum
  obtain ⟨scrutinee, s4, h4, h⟩ := h.bind
  obtain ⟨⟨checked, result⟩, s5, h5, h⟩ := h.bind
  have hdrawn : Stays s1 s4 := ends_freshBinding.yields h4
  have hfiled := Filed.of_checkCases h5 (trans_of Stays hstays hdrawn) (.nil _ _ _ _)
  dsimp only at h
  split at h
  · exact h.fail.elim
  · rename_i blocks hblocks
    obtain ⟨_, s6, _, h⟩ := h.bind
    cases h.pure.1
    exact ⟨scrutinee, checked, blocks, hfiled, hblocks, rfl⟩

/-- In every state, for every target that is checked to a value of an enum, which
has no tag twice, and every list of cases: if the match is accepted, the written
tags are the declared ones in some order, and block `k` is that of the case of
the declared tag `k`. If a tag is missing, written twice or unknown, the match is
rejected. -/
theorem checkExpr_cases_exhaustive {target : Expr} {cases : List Case} {span : Span}
    {value : Core.Expr} {s₁ : Checker} {adt : Adt} {tags : Assoc String Fields}
    (htarget : Yields (checkExpr room none target) s value s₁)
    (henum : s.adts.enum? (s₁.unifier.resolve value.ty) = some (adt, tags))
    (hnodup : tags.keys.Nodup) :
    (∀ e s', Yields (checkExpr (room + 1) hint (.cases target cases span)) s e s' →
      (cases.map (·.tag.text)).Perm tags.keys ∧
      ∃ scrutinee blocks, e.kind = .cases scrutinee value blocks ∧
        List.Forall₂ (fun (tag : String × Fields) block => ∃ c ∈ cases, c.tag.text = tag.1 ∧
          CaseBlock room hint ⟨adt, tags, s₁.unifier.resolve value.ty, scrutinee⟩ s tag.2 c block)
          tags.entries blocks) ∧ (¬(cases.map (·.tag.text)).Perm tags.keys → ∃ error s',
      (checkExpr (room + 1) hint (.cases target cases span)).run.run s = (.error error, s')) := by
  constructor
  · intro e s' h
    obtain ⟨scrutinee, checked, blocks, hfiled, hblocks, hkind⟩ :=
      filed_of_checkExpr htarget henum h
    obtain ⟨hperm, hordered⟩ := hfiled.inOrder hnodup hblocks
    exact ⟨hperm, scrutinee, blocks, hkind, hordered⟩
  · intro hperm
    cases hrun : (checkExpr (room + 1) hint (.cases target cases span)).run.run s with
    | mk result s' =>
      cases result with
      | error error => exact ⟨error, s', rfl⟩
      | ok e =>
        obtain ⟨_, _, _, hfiled, hblocks, _⟩ := filed_of_checkExpr htarget henum hrun
        exact absurd (hfiled.inOrder hnodup hblocks).1 hperm

/-- Cases that are written in the opposite order are accepted, and one of them
alone is not. -/
theorem checkExpr_cases_exhaustive_reordered :
    let name (text : String) : Name := ⟨text, .dummy⟩
    let tags : Assoc String Fields := ⟨[("Circle", ⟨[("radius", .int)]⟩), ("Empty", ∅)]⟩
    let adt : Adt := ⟨"Shape", [], .enum tags⟩
    let shape : Value := { kind := .binding 0, ty := adt.ty }
    let s : Checker := { adts := ⟨[("Shape", adt)]⟩,
                         scope := { top := { values := ⟨[("shape", shape)]⟩ }, nextBinding := 1 } }
    let zero : Case := ⟨name "Empty", [], ⟨[.eval (.int 0 .dummy) .dummy], .dummy⟩, .dummy⟩
    let radius : Case := ⟨name "Circle", [⟨name "radius", name "r"⟩],
      ⟨[.eval (.ident "r" .dummy) .dummy], .dummy⟩, .dummy⟩
    let check (cases : List Case) := checkExpr 2 none (.cases (.ident "shape" .dummy) cases .dummy)
    (∃ e s', Yields (check [zero, radius]) s e s' ∧
      ∃ scrutinee blocks, e.kind = .cases scrutinee ⟨.ident 0, adt.ty⟩ blocks ∧
        List.Forall₂ (fun (tag : String × Fields) block => ∃ c ∈ [zero, radius],
          c.tag.text = tag.1 ∧ CaseBlock 1 none ⟨adt, tags, adt.ty, scrutinee⟩ s tag.2 c block)
          tags.entries blocks) ∧
      ∃ error s', (check [zero]).run.run s = (.error error, s') := by
  intro name tags adt shape s zero radius check
  have htarget : Yields (checkExpr 1 none (.ident "shape" .dummy)) s ⟨.ident 0, adt.ty⟩ s := rfl
  have henum : s.adts.enum? (s.unifier.resolve adt.ty) = some (adt, tags) := rfl
  have hnodup : tags.keys.Nodup := by decide
  obtain ⟨e, s', hrun⟩ : ∃ e s', Yields (check [zero, radius]) s e s' :=
    exists_yields (by decide +kernel)
  have haccepted := (checkExpr_cases_exhaustive htarget henum hnodup).1 e s' hrun
  refine ⟨⟨e, s', hrun, haccepted.2⟩, ?_⟩
  refine (checkExpr_cases_exhaustive htarget henum hnodup).2 fun hperm => ?_
  exact absurd hperm.length_eq (by decide)

end TraitCheck.Checker
