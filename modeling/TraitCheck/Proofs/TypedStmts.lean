import TraitCheck.Proofs.TypedExprs

/-!
Statements and the bodies of functions, each from what is known of its parts.
What a statement has in it is checked from its first binding on, as if all types
there were settled; only the pattern of a binding may be settled at a type whose
variables are still to be bound, and no later step of the unit binds them.
-/

namespace TraitCheck.Checker

open Surface (Expr Block Occurrence)

variable {α : Type} {site : Site} {ledger ledger' : Ledger} {s s' : Checker} {ty : Ty} {room : Nat}
  {span : Span} {result : Option Ty} {returns : Prop} {start : BindingId}

/-! Where a statement may stand. -/

variable {o : Occurrence}

/-- The statement may occur at the site. Where all bindings are to be settled,
it has a type, or it is a binding that stands directly in a body. -/
structure Site.Admits (site : Site) (o : Occurrence) : Prop where
  source : ∀ decl ∈ o.stmt.functions, decl ∈ site.source
  plain : site.plain → ∀ name, o.stmt.typeName? = some name → name ∉ Prelude.types
  annotated : site.tidy →
    o.stmt.isAnnotated = true ∨ (site.loose ∧ o.stmt.isBind = true ∧ o.nested = false)
  returns : o.inner = false → o.stmt.isReturn = true → site.returns
  entered : ¬site.opening

/-- What stands inside of a statement has a type. -/
theorem Site.Admits.nest_annotated (h : site.Admits o.nest) (htidy : site.tidy) :
    o.stmt.isAnnotated = true :=
  (h.annotated htidy).resolve_right fun hbind => nomatch hbind.2.2

theorem Site.Admits.nested (h : site.Admits o.nest) : (site.restart False start).Admits o :=
  ⟨h.source, h.plain, fun htidy => .inl (h.nest_annotated htidy), h.returns, h.entered⟩

theorem Site.Admits.unnest (h : site.Admits o.nest) : site.Admits o :=
  ⟨h.source, h.plain, fun htidy => .inl (h.nest_annotated htidy), h.returns, h.entered⟩

theorem Site.Admits.inner (h : site.Admits o.deepen)
    (hreturns : o.inner = false → o.stmt.isReturn = true → returns) :
    (site.within result returns).Admits o :=
  ⟨h.source, h.plain, h.annotated, hreturns, h.entered⟩

/-! Statements that are made. -/

variable {out : List Core.Stmt} {tys : List Ty} {value : Core.Expr} {pattern : Surface.Pattern}
  {stmt : Surface.Stmt}

theorem isEval_elements {source : Core.Expr} {index : Nat} {names : List Name} :
    Results (∀ stmt ∈ ·, stmt.isEval = false) (bindElements source index names tys) := by
  induction names generalizing index tys with
  | nil => exact .pure (by simp)
  | cons name names ih =>
    cases tys with
    | nil => exact .pure (by simp)
    | cons ty tys =>
      exact .after fun _ => .bind ih fun _ hmore => .pure (List.forall_mem_cons.mpr ⟨rfl, hmore⟩)

theorem isEval_pattern : Results (fun out => out ≠ [] ∧ ∀ stmt ∈ out, stmt.isEval = false)
    (bindPattern pattern ty value span) := by
  unfold bindPattern
  split
  · exact .after fun _ => .pure ⟨List.cons_ne_nil _ _, by simp [Core.Stmt.isEval]⟩
  · split
    · exact .after fun _ => .after fun _ => .bind isEval_elements fun _ hmore =>
        .pure ⟨List.cons_ne_nil _ _, List.forall_mem_cons.mpr ⟨rfl, hmore⟩⟩
    · exact .after fun _ => .fail

/-- The statement leaves something, and only an expression leaves an expression. -/
def LeavesCode (stmt : Surface.Stmt) (out : List Core.Stmt) : Prop :=
  out ≠ [] ∧ (stmt.isEval = false → ∀ c ∈ out, c.isEval = false)

theorem LeavesCode.single {c : Core.Stmt} (hc : c.isEval = false) : LeavesCode stmt [c] :=
  ⟨List.cons_ne_nil _ _, fun _ => by simpa using hc⟩

/-- Every statement that may stand in a block leaves something. -/
theorem Yields.leavesCode (h : Yields (checkStmt room stmt) s out s')
    (hbelow : s.scope.below ≠ []) : LeavesCode stmt out := by
  cases stmt with
  | bind pattern written value span =>
    rw [checkStmt] at h
    exact h.results (.after fun _ => .after fun _ => .after fun _ => .after fun _ =>
      .imp isEval_pattern fun _ hout => ⟨hout.1, fun _ => hout.2⟩)
  | func decl =>
    rw [checkStmt] at h
    exact h.results (.after fun _ => .after fun _ => .after fun _ => .after fun _ =>
      .after fun _ => .pure (.single rfl))
  | struct | enum | trait | impl =>
    rw [checkStmt] at h
    obtain ⟨_, _, h1, _⟩ := h.bind
    exact absurd h1.requireTopLevel.1 hbelow
  | ret value span =>
    cases value with
    | none =>
      rw [checkStmt] at h
      exact h.results (.after fun _ => .pure (.single rfl))
    | some e =>
      rw [checkStmt] at h
      exact h.results (.after fun _ => .after fun _ => .after fun _ => .after fun _ =>
        .pure (.single rfl))
  | whileDo cond body span =>
    rw [checkStmt] at h
    exact h.results (.after fun _ => .after fun _ => .pure (.single rfl))
  | forEach name iterable body span =>
    rw [checkStmt] at h
    exact h.results (.after fun _ => .after fun _ => .after fun _ => .after fun _ =>
      .pure (.single rfl))
  | eval e span =>
    rw [checkStmt] at h
    exact h.results (.after fun _ => .pure ⟨List.cons_ne_nil _ _, by nofun⟩)

/-- A return leaves a return. -/
theorem isRet_stmt (hreturn : stmt.isReturn = true) :
    Results (fun out => out.getLast?.any (·.isRet) = true) (checkStmt room stmt) := by
  cases stmt with
  | ret value span =>
    cases value with
    | none =>
      rw [checkStmt]
      exact .after fun _ => .pure rfl
    | some e =>
      rw [checkStmt]
      exact .after fun _ => .after fun _ => .after fun _ => .after fun _ => .pure rfl
  | _ => cases hreturn

/-- The value of a trailing expression is returned. -/
theorem isRet_returning :
    Results (fun out => out.getLast?.any (·.isRet) = true) (returning value) := by
  refine .after fun _ => ?_
  split <;> exact .pure rfl

/-- Resolving types keeps the last statement a return. -/
theorem Yields.isRet_unit {body : CheckM (List Core.Stmt)} (h : Yields (inUnit body) s out s')
    (hbody : Results (fun out => out.getLast?.any (·.isRet) = true) body) :
    out.getLast?.any (·.isRet) = true := by
  obtain ⟨s1, h, _⟩ := h.isolated
  obtain ⟨stmts, s2, h1, h⟩ := h.bind
  obtain ⟨_, s3, _, h⟩ := h.bind
  obtain ⟨init, value, rfl⟩ := Core.exists_ret (hbody h1)
  rw [← h.pure.1, Core.mapTyStmts_ret, List.getLast?_concat]
  rfl

/-! Units of one statement. -/

/-- Checking the statement as a unit gives something in order. -/
def LeadsStmt (site : Site) (stmt : Surface.Stmt) (check : CheckM (List Core.Stmt)) : Prop :=
  ∀ ⦃ledger s⦄, Wellformed site ledger s → (site.loose → s.unifier.subst = {}) →
    (stmt.isImpl = true → s.scope.below = [] → site.impls) →
      Leads site ledger s check (GivesUnit site s.scope.nextBinding ledger.impls)

theorem Fixed.mono {start' : BindingId} (h : Fixed start ledger s) (hle : start ≤ start') :
    Fixed start' ledger s :=
  fun id ty hid hty => h id ty (le_trans hle hid) hty

/-- Checking as if all types were settled from here on. -/
theorem Leads.narrow {x : CheckM α} {P : Ledger → Checker → α → Prop}
    (hs : Wellformed site ledger s)
    (h : Wellformed (site.restart False s.scope.nextBinding) ledger s →
      Leads (site.restart False s.scope.nextBinding) ledger s x P) :
    Leads site ledger s x fun ledger' s' r =>
      P ledger' s' r ∧ Fixed s.scope.nextBinding ledger' s' := by
  have h := h (hs.restart False)
  refine ⟨?_, h.safe⟩
  intro r s' hrun
  obtain ⟨ledger', hadv, hr⟩ := h.ok r s' hrun
  exact ⟨ledger', hadv.resume hs False.elim, hr, hadv.after.fixed id⟩

/-- Only an implementation makes a dictionary. -/
theorem Grows.bindsImpls (h : Grows site s ledger ledger') (hsealed : ¬site.impls) :
    BindsImpls ledger.impls ledger' out :=
  fun _ hp => .inl (h.impls_eq hsealed ▸ hp)

theorem LeadsStmt.narrow {stmt : Surface.Stmt} {check : CheckM (List Core.Stmt)}
    (hsealed : ¬site.impls) (h : ∀ ledger s start, Wellformed (site.restart False start) ledger s →
      Leads (site.restart False start) ledger s check (GivesStmts (site.restart False start))) :
    LeadsStmt site stmt check := by
  intro ledger s hs _ _
  refine (Leads.narrow hs (h ledger s _)).imp ?_
  rintro ledger1 s1 out hadv ⟨hout, hfixed⟩
  exact ⟨hout.resume hs.start, hfixed, hadv.bindsImpls hsealed⟩

/-- A statement that binds no type variable. -/
theorem LeadsStmt.inert {check : CheckM (List Core.Stmt)} (hinert : Ends SameSubst check)
    (h : ∀ {ledger s}, Wellformed site ledger s →
      (stmt.isImpl = true → s.scope.below = [] → site.impls) →
        Leads site ledger s check fun ledger' s' out =>
          GivesStmts site ledger' s' out ∧ BindsImpls ledger.impls ledger' out) :
    LeadsStmt site stmt check := by
  intro ledger s hs hsubst himpls
  refine (h hs himpls).run.imp ?_
  rintro ledger1 s1 out hadv ⟨⟨hout, hmade⟩, hrun⟩
  refine ⟨hout, ?_, hmade⟩
  by_cases hloose : site.loose
  · intro id ty _ _
    have hempty := (hinert.subst hrun).trans (hsubst hloose)
    refine (Unifier.hom_resolve hadv.after.unifier.valid).eq_self fun _ _ => ?_
    exact Subst.apply_unbound hadv.after.unifier.valid.acyclic (by rw [hempty]; rfl)
  · exact (hadv.after.fixed hloose).mono hs.start

/-! Bindings. -/

variable {written : Option Surface.TypeExpr}

/-- The value of a binding, and the type that it is bound at. -/
def checkBound (room : Nat) (written : Option Surface.TypeExpr) (value : Expr) :
    CheckM (Core.Expr × Ty) := do
  let declared ← typeFor? written
  let checked ← checkExpr room declared value
  let ty ← resolve (← join value.span declared checked.ty)
  return (checked, ty)

theorem checkStmt_bind (room : Nat) (pattern : Surface.Pattern) (written : Option Surface.TypeExpr)
    (value : Expr) (span : Span) : checkStmt room (.bind pattern written value span) =
      checkBound room written value >>= fun r => bindPattern pattern r.2 r.1 value.span := by
  rw [checkStmt, checkBound]
  simp only [bind_assoc, pure_bind]

/-- The value is in order at its type, which is resolved. -/
structure GivesBound (site : Site) (written : Option Surface.TypeExpr) (ledger : Ledger)
    (s : Checker) (r : Core.Expr × Ty) : Prop where
  value : GivesAt site r.2 ledger s r.1
  known : Known ledger s r.2
  resolved : ∀ v ∈ r.2.vars, s.unifier.resolve (.var v) = .var v
  closed : written.isSome = true → Closed ledger s r.2

theorem leads_bound {value : Expr} (hvalue : LeadsExpr site (checkExpr room · value))
    (hs : Wellformed site ledger s) :
    Leads site ledger s (checkBound room written value) (GivesBound site written) := by
  refine .bind (hs.typeFor? written) ?_
  rintro ledger1 s1 declared _ ⟨hdeclared, hsome, rfl, rfl⟩
  have hhint : Hinted declared ledger1 s1 := fun t ht => (hdeclared t ht).known
  refine .bind (hvalue hs hhint) ?_
  intro ledger2 s2 checked hadv2 hchecked
  refine .bind (hadv2.after.join _ (hhint.carry hadv2.carries) hchecked.known) ?_
  rintro ledger3 s3 c hadv3 ⟨hc, hsame, hjoined⟩
  have hs3 := hadv3.after
  refine .resolve (.pure hs3 ⟨⟨Gives.lasting hadv3.carries hchecked, ?_⟩, hs3.known_resolve hc, ?_, ?_⟩)
  · exact hsame.trans (Wellformed.same_resolve ledger3 s3 c).symm
  · intro v hv
    have hacyclic := hs3.unifier.valid.acyclic
    exact Subst.apply_unbound hacyclic
      (Subst.find?_of_mentions_apply hacyclic (Ty.mentions_iff.mpr ⟨v, hv, rfl⟩))
  · intro hwritten
    obtain ⟨t, ht⟩ := Option.isSome_iff_exists.mp (hsome.trans hwritten)
    have hclosed := (hadv2.trans hadv3).closed (hdeclared t ht)
    dsimp only
    rw [← (hjoined t ht).resolve_eq hs3, hs3.resolve_closed hclosed]
    exact hclosed

/-- A type over variables that may be bound, where that does no harm. -/
theorem Known.settles (h : Known ledger s ty) (hs : Wellformed site ledger s)
    (hloose : site.loose) : Settles site ledger s ty :=
  ⟨fun v hv w hw => hs.unifier.consistent.unique v (.inl (h.isOver v hv)) w (.inl (h.isOver w hw)),
    fun hnot => absurd hloose hnot⟩

/-- What was settled before stays fixed, and the new types are resolved. -/
theorem SettlesOnly.fixed (h : SettlesOnly s ledger' s' tys)
    (hadv : Advance site ledger s ledger' s') (hfixed : Fixed start ledger s)
    (htys : ∀ t ∈ tys, s.unifier.resolve t = t) : Fixed start ledger' s' := by
  intro id t hid ht
  rw [h.unifier]
  rcases Nat.lt_or_ge id s.scope.nextBinding with hlt | hge
  · exact hfixed id t hid (hadv.settled id hlt ▸ ht)
  · exact htys t (h.new id t hge ht)

theorem leads_bind {value : Expr} (hsealed : ¬site.impls)
    (htidy : site.tidy → written.isSome = true ∨ site.loose)
    (hvalue : ∀ start, LeadsExpr (site.restart False start) (checkExpr room · value)) :
    LeadsStmt site (.bind pattern written value span)
      (checkStmt room (.bind pattern written value span)) := by
  intro ledger s hs _ _
  rw [checkStmt_bind]
  refine .bind (.narrow hs (leads_bound (hvalue _))) ?_
  rintro ledger1 s1 ⟨checked, ty⟩ hadv1 ⟨⟨⟨hchecked, hsame⟩, hty, hresolved, hclosed⟩, hfixed⟩
  have hsettles : site.tidy → Settles site ledger1 s1 ty := by
    intro h
    rcases htidy h with hwritten | hloose
    · exact (hclosed hwritten).settles
    · exact hty.settles hadv1.after hloose
  refine (hadv1.after.bindPattern pattern hty hsettles ⟨hchecked.resume hs.start, hsame⟩ _).imp ?_
  rintro ledger2 s2 stmts hadv2 ⟨hstmts, honly⟩
  refine ⟨hstmts, honly.fixed hadv2 hfixed fun _ ht => ?_, (hadv1.trans hadv2).bindsImpls hsealed⟩
  refine (Unifier.hom_resolve hadv1.after.unifier.valid).eq_self fun v hv => hresolved v ?_
  rcases List.mem_cons.mp ht with rfl | ht
  · exact hv
  · exact Ty.mem_vars_of_param ht hv

/-! Other statements. -/

section

variable (hsealed : ¬site.impls)
variable {generics : List Surface.GenericParam} {name : Name} {value : Expr} {body : Block}

include hsealed

theorem leads_struct {fields : List Surface.FieldDecl} :
    LeadsStmt site (.struct name generics fields span)
      (checkStmt room (.struct name generics fields span)) := by
  refine .narrow hsealed fun _ _ _ hs => ?_
  rw [checkStmt]
  refine .requireTopLevel fun hroot => .bind (hs.defineStruct hroot name fields) ?_
  exact fun _ _ _ hadv _ => .pure hadv.after .nil

theorem leads_enum {tags : List Surface.TagDecl} : LeadsStmt site (.enum name generics tags span)
      (checkStmt room (.enum name generics tags span)) := by
  refine .narrow hsealed fun _ _ _ hs => ?_
  rw [checkStmt]
  refine .requireTopLevel fun hroot => .bind (hs.defineEnum hroot name tags) ?_
  exact fun _ _ _ hadv _ => .pure hadv.after .nil

theorem leads_trait {methods : List Surface.MethodSig}
    (hplain : site.plain → name.text ∉ Prelude.types) :
    LeadsStmt site (.trait name methods span) (checkStmt room (.trait name methods span)) := by
  refine .narrow hsealed fun _ _ _ hs => ?_
  rw [checkStmt]
  refine .requireTopLevel fun hroot => .bind (hs.declareTrait hroot name hplain methods) ?_
  exact fun _ _ _ hadv _ => .pure hadv.after .nil

theorem leads_returnNothing (hreturns : site.returns) :
    LeadsStmt site (.ret none span) (checkStmt room (.ret none span)) := by
  refine .narrow hsealed fun _ _ _ hs => ?_
  rw [checkStmt]
  refine .bind (hs.recordReturn hreturns hs.known_void span) ?_
  intro ledger1 s1 _ hadv hvoid
  refine .pure hadv.after (.retNone fun ty hty => ?_)
  have hclosed := (hadv.after.result ty hty).1
  have heq := (hvoid ty hty).resolve_eq hadv.after
  rw [hadv.after.resolve_closed hadv.after.closed_void, hadv.after.resolve_closed hclosed] at heq
  exact heq.symm

theorem leads_return (hreturns : site.returns)
    (hvalue : ∀ start, LeadsExpr (site.restart False start) (checkExpr room · value)) :
    LeadsStmt site (.ret (some value) span) (checkStmt room (.ret (some value) span)) := by
  refine .narrow hsealed fun _ _ _ hs => ?_
  rw [checkStmt]
  refine .requireFunction fun _ => .currentReturn (.bind (hvalue _ hs fun _ ht => hs.known_return ht) ?_)
  intro ledger1 s1 checked hadv1 hchecked
  refine .bind (hadv1.after.recordReturn hreturns hchecked.known span) ?_
  intro ledger2 s2 _ hadv2 hsame
  exact .pure hadv2.after (.ret (Gives.lasting hadv2.carries hchecked) hsame
    fun ty hty => (hadv2.after.result ty hty).1)

theorem leads_while {cond : Expr}
    (hcond : ∀ start, LeadsExpr (site.restart False start) (checkExpr room · cond))
    (hbody : ∀ start, LeadsBlock (site.restart False start) (checkBlock room · body)) :
    LeadsStmt site (.whileDo cond body span) (checkStmt room (.whileDo cond body span)) := by
  refine .narrow hsealed fun _ _ start hs => ?_
  rw [checkStmt]
  refine .bind (LeadsExpr.expecting (hcond start) hs hs.known_bool _) ?_
  rintro ledger1 s1 test hadv1 ⟨htest, _⟩
  refine .bind (hbody _ hadv1.after .none) ?_
  intro ledger2 s2 block hadv2 hblock
  exact .pure hadv2.after (.whileDo (Gives.lasting hadv2.carries htest) hblock)

theorem leads_forEach {iterable : Expr}
    (hiterable : ∀ start, LeadsExpr (site.restart False start) (checkExpr room · iterable))
    (hbody : ∀ start, LeadsBlock (site.restart False start) (checkBlock room · body)) :
    LeadsStmt site (.forEach name iterable body span) (checkStmt room (.forEach name iterable body span)) := by
  refine .narrow hsealed fun ledger s start hs => ?_
  rw [checkStmt]
  refine .bind (hiterable _ hs .none) ?_
  intro ledger1 s1 value hadv1 hvalue
  refine .resolve (.bind (hadv1.after.elementOf (hadv1.after.known_resolve hvalue.known) span) ?_)
  intro ledger2 s2 elem hadv2 helem
  refine .bind (.inScope (P := fun ledger s (r : BindingId × Core.Block) =>
    GivesBlock (site.restart False start) ledger s r.2) hadv2.after (fun hs0 => ?_)
    fun hcarries h => GivesBlock.lasting hcarries h) ?_
  · refine .bind (hs0.bindLocal none name.text (Carries.known (.of_eq rfl rfl rfl rfl) helem) (by nofun)) ?_
    intro ledger3 s3 id hadv3 _
    refine .bind (hbody _ hadv3.after .none) ?_
    intro ledger4 s4 block hadv4 hblock
    exact .pure hadv4.after hblock
  · rintro ledger3 s3 ⟨id, block⟩ hadv3 hblock
    exact .pure hadv3.after (.forEach (Gives.lasting (hadv2.trans hadv3).carries hvalue) hblock)

theorem leads_eval
    (hvalue : ∀ start, LeadsExpr (site.restart False start) (checkExpr room · value)) :
    LeadsStmt site (.eval value span) (checkStmt room (.eval value span)) := by
  refine .narrow hsealed fun _ _ _ hs => ?_
  rw [checkStmt]
  refine .bind (hvalue _ hs .none) ?_
  exact fun _ _ _ hadv hchecked => .pure hadv.after (.eval hchecked)

end

/-! Sequences. -/

variable {rest : List Surface.Stmt}

theorem leads_stmts (hstmt : LeadsStmt site stmt (checkStmt room stmt)) (hloose : ¬site.loose)
    (hrest : LeadsSeq site rest (checkStmts room · rest))
    (heval : ∀ e span, stmt = .eval e span → LeadsExpr site (checkExpr room · e)) :
    LeadsSeq site (stmt :: rest) (checkStmts room · (stmt :: rest)) := by
  intro ledger s hint hs hhint hbelow
  dsimp only
  rw [checkStmts.eq_def]
  split
  · contradiction
  · rename_i e span hstmts
    cases hstmts
    refine .bind (heval e span rfl hs hhint) ?_
    exact fun _ _ _ hadv hvalue => .pure hadv.after (.last hvalue)
  · rename_i hlast hstmts
    cases hstmts
    refine .bind (hstmt hs (fun h => absurd h hloose) fun _ hroot => absurd hroot hbelow).run ?_
    rintro ledger1 s1 out hadv1 ⟨⟨hout, _, _⟩, hrun⟩
    obtain ⟨hne, hevals⟩ := hrun.leavesCode hbelow
    refine .bind (hrest hadv1.after (hhint.carry hadv1.carries) (hadv1.below_ne_nil hbelow)) ?_
    intro ledger2 s2 block hadv2 hblock
    refine .pure hadv2.after ⟨hblock.known, (GivesStmts.lasting hadv2.carries hout).append hblock.stmts,
      hblock.value.prepend fun hnil => Core.isEval_getLast? (hevals ?_), fun _ => ?_⟩
    · -- nothing comes after this statement, so it is no expression
      have hrest : rest = [] := by
        by_contra hne'
        exact hblock.nonempty hne' hnil
      cases stmt with
      | eval e span => exact (hlast e span rfl hrest).elim
      | _ => rfl
    · exact fun hnil => hne (List.append_eq_nil_iff.mp hnil).1

/-! Bodies. -/

/-- The last statement is an expression. -/
def Trailing (stmts : List Surface.Stmt) : Prop :=
  ∃ last, stmts.getLast? = some last ∧ last.isEval = true

theorem Trailing.cons {stmt : Surface.Stmt} {rest : List Surface.Stmt} (h : Trailing rest) :
    Trailing (stmt :: rest) := by
  obtain ⟨last, hlast, heval⟩ := h
  refine ⟨last, ?_, heval⟩
  cases rest with
  | nil => cases hlast
  | cons next rest => rwa [List.getLast?_cons_cons]

/-- What checking the statements of a body gave, and whether a value is
returned at the end. -/
structure GivesBodyStmts (site : Site) (written : List Surface.Stmt) (ledger : Ledger)
    (s : Checker) (r : List Core.Stmt × Bool) : Prop where
  stmts : GivesStmts site ledger s r.1
  trailing : r.2 = true → r.1.getLast?.any (·.isRet) = true
  last : ∀ stmt, written.getLast? = some stmt → (stmt.isEval || stmt.isReturn) = true →
    r.1.getLast?.any (·.isRet) = true

def LeadsBodyStmts (site : Site) (written : List Surface.Stmt)
    (check : CheckM (List Core.Stmt × Bool)) : Prop :=
  ∀ ⦃ledger s⦄, Wellformed site ledger s → s.scope.below ≠ [] →
    Leads site ledger s check (GivesBodyStmts site written)

theorem leads_trailing {e : Expr} (hsealed : ¬site.impls) (hreturns : site.returns)
    (he : ∀ start, LeadsExpr (site.restart False start) (checkExpr room · e))
    (hs : Wellformed site ledger s) : Leads site ledger s (inUnit do
      let hint ← currentReturn
      let value ← checkExpr room hint e
      recordReturn value.ty e.span
      returning value) (GivesStmts site) := by
  refine (Leads.inUnit hs fun hs0 => @LeadsStmt.narrow
    (site.restart site.loose s.scope.nextBinding) (.eval e e.span) _ hsealed
    (fun _ _ start hs => ?_) _ _ hs0 (fun _ => rfl) nofun).imp fun _ _ _ _ h => h.1
  refine .currentReturn (.bind (he start hs fun _ ht => hs.known_return ht) ?_)
  intro ledger1 s1 value hadv1 hvalue
  refine .bind (hadv1.after.recordReturn hreturns hvalue.known e.span) ?_
  intro ledger2 s2 _ hadv2 hsame
  exact hadv2.after.returning (Gives.lasting hadv2.carries hvalue) hsame

theorem leads_bodyStmts (hsealed : ¬site.impls)
    (hstmt : ∀ start, LeadsStmt (site.restart site.loose start) stmt (checkStmt room stmt))
    (hrest : LeadsBodyStmts site rest (checkBodyStmts room rest))
    (heval : ∀ e span, stmt = .eval e span →
      ∀ start, LeadsExpr (site.restart False start) (checkExpr room · e))
    (hreturns : Trailing (stmt :: rest) → site.returns) :
    LeadsBodyStmts site (stmt :: rest) (checkBodyStmts room (stmt :: rest)) := by
  intro ledger s hs hbelow
  rw [checkBodyStmts.eq_def]
  split
  · contradiction
  · rename_i e span hstmts
    cases hstmts
    refine .bind (leads_trailing hsealed (hreturns ⟨_, rfl, rfl⟩) (heval e span rfl) hs).run ?_
    rintro ledger1 s1 out hadv ⟨hout, hrun⟩
    have hret := hrun.isRet_unit (.after fun _ => .after fun _ => .after fun _ => isRet_returning)
    exact .pure hadv.after ⟨hout, fun _ => hret, fun _ _ _ => hret⟩
  · rename_i hlast hstmts
    cases hstmts
    refine .bind (Leads.inUnit hs fun hs0 => hstmt _ hs0 (fun _ => rfl)
      fun _ hroot => absurd hroot hbelow).run ?_
    rintro ledger1 s1 out hadv1 ⟨⟨hout, _⟩, hrun⟩
    refine .bind (hrest hadv1.after (hadv1.below_ne_nil hbelow)).run ?_
    rintro ledger2 s2 ⟨more, trailing⟩ hadv2 ⟨⟨hmore, htrailing, hend⟩, hrun2⟩
    have happend : more.getLast?.any (·.isRet) = true → (out ++ more).getLast?.any (·.isRet) = true := by
      intro h
      obtain ⟨init, value, rfl⟩ := Core.exists_ret h
      rw [← List.append_assoc, List.getLast?_concat]
      rfl
    refine .pure hadv2.after ⟨(GivesStmts.lasting hadv2.carries hout).append hmore,
      fun h => happend (htrailing h), fun last hlast' hends => ?_⟩
    cases rest with
    | nil =>
      rw [checkBodyStmts] at hrun2
      cases hrun2.pure.1
      cases hlast'
      have hreturn : stmt.isReturn = true := by
        cases stmt with
        | eval e span => exact (hlast e span rfl rfl).elim
        | _ => exact hends
      rw [List.append_nil]
      exact hrun.isRet_unit (isRet_stmt hreturn)
    | cons next rest =>
      rw [List.getLast?_cons_cons] at hlast'
      exact happend (hend last hlast' hends)

/-- The body has a return of its own in it, or ends in an expression. -/
def MayReturn (body : Block) : Prop :=
  (∃ o ∈ body.occurrences, o.inner = false ∧ o.stmt.isReturn = true) ∨ Trailing body.stmts

theorem leads_body {stmts : List Surface.Stmt} {declared : Option Ty}
    (hstmts : LeadsBodyStmts (site.within result (MayReturn ⟨stmts, span⟩)) stmts
      (checkBodyStmts room stmts)) (hs : Wellformed site ledger s) (hbelow : s.scope.below ≠ [])
    (hdeclared : Hinted declared ledger s)
    (hresult : ∀ ty, result = some ty → Closed ledger s ty ∧ declared = some ty) :
    Leads site ledger s (checkBody room declared ⟨stmts, span⟩) fun ledger' s' block =>
      GivesFunction site result (EndsWell ⟨stmts, span⟩) ledger' s' block ∧
        s'.functions = s.functions := by
  rw [checkBody]
  refine .inFunction hs hdeclared hresult (MayReturn ⟨stmts, span⟩) (fun hs0 => ?_)
    GivesFunction.lasting
  have hrelax : ∀ {ledger s}, Wellformed (site.within result (MayReturn ⟨stmts, span⟩)) ledger s →
      Wellformed (site.within result True) ledger s :=
    fun hs => { hs with returned := fun _ _ _ => trivial }
  refine .bind ((hstmts hs0 hbelow).relax hrelax fun h => h) ?_
  rintro ledger1 s1 ⟨out, trailing⟩ hadv ⟨⟨hout, htrailing, hlast⟩, hs1⟩
  have hout : GivesStmts (site.within result True) ledger1 s1 out :=
    fun view hview place hplace => hout view hview place hplace.change
  refine hadv.after.closeBody hout htrailing (fun hends => ?_) span
  rcases hends with ⟨stmt, hstmt, hends⟩ | hnone
  · exact .inl (hlast stmt hstmt hends)
  · by_cases heval : Trailing stmts
    · obtain ⟨stmt, hstmt, heval⟩ := heval
      exact .inl (hlast stmt hstmt (by rw [heval]; rfl))
    · refine .inr (Bool.eq_false_iff.mpr fun hreturned => ?_)
      obtain ⟨r, hr, hreturned⟩ := (Option.any_eq_true _ _).mp hreturned
      rcases hs1.returned r hr hreturned with ⟨o, ho, hinner, hreturn⟩ | htrailing
      · exact absurd (hnone o ho hinner) (by rw [hreturn]; nofun)
      · exact heval htrailing

end TraitCheck.Checker
