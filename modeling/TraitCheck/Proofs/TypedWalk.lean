import TraitCheck.Proofs.TypedStmts

/-!
The walk over a program leads from states in order to states in order, and what
it makes is in order. The induction is on the surface tree; what may stand in a
place is a matter of the site, which changes on the way down: the parts of a
statement are checked as if all types were settled, and the body of a function
has a result type of its own.
-/

namespace TraitCheck.Checker

open Surface (Expr FieldInit Branch Case Block Occurrence FuncDecl stmtsOfExprs stmtsOfInits
  stmtsOfBranches stmtsOfElse stmtsOfCases stmtsOfStmts stmtsOfDecls)

variable {site : Site} {start : BindingId}

/-! What may stand in a place. -/

/-- All the statements may occur at the site. -/
def Site.AdmitsAll (site : Site) (os : List Occurrence) : Prop := ∀ o ∈ os, site.Admits o

namespace Site

variable {os os' : List Occurrence} {stmts : List Surface.Stmt} {span : Span}

theorem admitsAll_append : site.AdmitsAll (os ++ os') ↔ site.AdmitsAll os ∧ site.AdmitsAll os' :=
  List.forall_mem_append

theorem admitsAll_map {f : Occurrence → Occurrence} :
    site.AdmitsAll (os.map f) ↔ ∀ o ∈ os, site.Admits (f o) :=
  List.forall_mem_map

/-- What stands inside of a statement, checked as if all types were settled. -/
theorem AdmitsAll.nested (h : site.AdmitsAll (os.map .nest)) :
    (site.restart False start).AdmitsAll os :=
  fun o ho => (admitsAll_map.mp h o ho).nested

theorem AdmitsAll.unnest (h : site.AdmitsAll (os.map .nest)) : site.AdmitsAll os :=
  fun o ho => (admitsAll_map.mp h o ho).unnest

/-- A further start changes nothing. -/
theorem AdmitsAll.restart (h : site.AdmitsAll os) : (site.restart site.loose start).AdmitsAll os :=
  fun o ho => { h o ho with }

theorem AdmitsAll.hide {id : BindingId} (h : site.AdmitsAll os) : (site.hide id).AdmitsAll os :=
  fun o ho => { h o ho with }

/-- Nor does it count whether an implementation may be made. -/
theorem AdmitsAll.allow {impls : Prop} (h : site.AdmitsAll os) : { site with impls }.AdmitsAll os :=
  fun o ho => { h o ho with }

/-- The statements of a body, which has the returns that it has. -/
theorem AdmitsAll.body {result : Option Ty}
    (h : site.AdmitsAll ((stmtsOfStmts stmts).map .deepen)) :
    (site.within result (MayReturn ⟨stmts, span⟩)).AdmitsAll (stmtsOfStmts stmts) := by
  intro o ho
  refine (admitsAll_map.mp h o ho).inner fun hinner hreturn => .inl ⟨o, ?_, hinner, hreturn⟩
  rw [Block.occurrences]
  exact ho

end Site

/-! The walk. -/

variable {ledger : Ledger} {s : Checker}

/-- Settled types have no variables that are bound, and no implementation is
made. -/
structure Site.Inner (site : Site) : Prop where
  settled : ¬site.loose
  sealed : ¬site.impls

theorem Site.inner_restart (hsealed : ¬site.impls) : (site.restart False start).Inner :=
  ⟨id, hsealed⟩

theorem leads_noRoom (e : Expr) : LeadsExpr site (checkExpr 0 · e) := by
  intro ledger s hint _ _
  dsimp only
  rw [checkExpr.eq_def]
  exact .get .fail

/-- A constant of a built-in type. -/
theorem leads_constant {kind : Core.ExprKind} {name : String} (hkind : kind.isConstant = true)
    (hname : name ∈ Prelude.types) : LeadsExpr site fun _ => pure ⟨kind, .named name []⟩ :=
  fun _ _ _ hs _ => .pure hs (.constant hkind (hs.closed_builtin hname).known)

mutual

theorem leads_checkExpr {site : Site} {room : Nat} {e : Expr} (hinner : site.Inner)
    (h : site.AdmitsAll e.stmts) : LeadsExpr site (checkExpr room · e) := by
  cases room with
  | zero => exact leads_noRoom e
  | succ room =>
    match e with
    | .int _ _ | .float _ _ | .bool _ _ | .string _ _ => exact leads_constant rfl (by decide)
    | .ident name span => exact fun _ _ _ hs _ => hs.reference name span
    | .tuple elems _ =>
      rw [Expr.stmts] at h
      exact leads_tuple (leads_checkElems hinner h)
    | .array elems _ =>
      rw [Expr.stmts] at h
      exact leads_array (leads_checkItems hinner h)
    | .construct ty tag inits span =>
      rw [Expr.stmts] at h
      exact leads_construct (leads_checkInits hinner h)
    | .field target field span =>
      rw [Expr.stmts] at h
      intro ledger s hint hs _
      dsimp only
      rw [checkExpr]
      refine .bind (leads_checkExpr hinner h hs .none) ?_
      exact fun _ _ _ hadv hvalue => hadv.after.select hvalue field target.span span
    | .call callee args span =>
      rw [Expr.stmts, Site.admitsAll_append] at h
      exact leads_call (leads_checkExpr hinner h.1)
        (leads_checkArgs hinner h.2)
    | .binary op lhs rhs span =>
      rw [Expr.stmts, Site.admitsAll_append] at h
      exact leads_binary (leads_checkExpr hinner h.1)
        (leads_checkExpr hinner h.2)
    | .unary op operand span =>
      rw [Expr.stmts] at h
      exact leads_unary (leads_checkExpr hinner h)
    | .closure params body span =>
      rw [Expr.stmts] at h
      intro ledger s hint hs hhint
      exact hs.checkClosure hhint (leads_checkBody hinner.sealed h)
    | .cond branches otherwise span =>
      rw [Expr.stmts, Site.admitsAll_append] at h
      exact leads_cond (leads_checkBranches hinner h.1)
        fun hs hhint => leads_checkElse hinner h.2 hs hhint
    | .cases target cases span =>
      rw [Expr.stmts, Site.admitsAll_append] at h
      exact leads_cases (leads_checkExpr hinner h.1)
        fun m => leads_checkCases hinner h.2
    | .block body _ =>
      rw [Expr.stmts] at h
      intro ledger s hint hs hhint
      dsimp only
      rw [checkExpr]
      refine .bind (leads_checkBlock hinner h hs hhint) ?_
      exact fun _ _ _ hadv hblock => .pure hadv.after (.block hblock)

theorem leads_checkElems {site : Site} {room : Nat} {es : List Expr} (hinner : site.Inner)
    (h : site.AdmitsAll (stmtsOfExprs es)) : LeadsElems site (checkElems room · es) := by
  match es with
  | [] => exact fun _ _ _ hs _ => .pure hs (by simp)
  | e :: rest =>
    rw [stmtsOfExprs, Site.admitsAll_append] at h
    exact leads_elem (leads_checkExpr hinner h.1) (leads_checkElems hinner h.2)

theorem leads_checkItems {site : Site} {room : Nat} {es : List Expr} (hinner : site.Inner)
    (h : site.AdmitsAll (stmtsOfExprs es)) : LeadsItems site (checkItems room · · es) := by
  match es with
  | [] => exact leads_noItems
  | e :: rest =>
    rw [stmtsOfExprs, Site.admitsAll_append] at h
    exact leads_item (leads_checkExpr hinner h.1) (leads_checkItems hinner h.2)

theorem leads_checkArgs {site : Site} {room : Nat} {es : List Expr} (hinner : site.Inner)
    (h : site.AdmitsAll (stmtsOfExprs es)) : LeadsArgs site es.length (checkArgs room · es) := by
  match es with
  | [] =>
    intro ledger s params hs _ hcount
    obtain rfl := List.eq_nil_of_length_eq_zero hcount
    exact .pure hs .nil
  | e :: rest =>
    rw [stmtsOfExprs, Site.admitsAll_append] at h
    exact leads_arg (leads_checkExpr hinner h.1) (leads_checkArgs hinner h.2)

theorem leads_checkInits {site : Site} {room : Nat} {inits : List FieldInit} (hinner : site.Inner)
    (h : site.AdmitsAll (stmtsOfInits inits)) : LeadsInits site (checkInits room · · · inits) := by
  match inits with
  | [] => exact fun _ _ _ _ _ _ _ hs _ _ hsupplied => .pure hs hsupplied
  | ⟨name, e⟩ :: rest =>
    rw [stmtsOfInits, Site.admitsAll_append] at h
    exact leads_init (leads_checkExpr hinner h.1) (leads_checkInits hinner h.2)

theorem leads_checkBranches {site : Site} {room : Nat} {branches : List Branch}
    (hinner : site.Inner) (h : site.AdmitsAll (stmtsOfBranches branches)) :
    LeadsBranches site (checkBranches room · · branches) := by
  match branches with
  | [] => exact leads_noBranches
  | ⟨cond, body⟩ :: rest =>
    rw [stmtsOfBranches, Site.admitsAll_append, Site.admitsAll_append] at h
    exact leads_branch (leads_checkExpr hinner h.1.1)
      (leads_checkBlock hinner h.1.2) (leads_checkBranches hinner h.2)

theorem leads_checkElse {site : Site} {room : Nat} {span : Span} {otherwise : Option Block}
    (hinner : site.Inner) (h : site.AdmitsAll (stmtsOfElse otherwise)) {ledger : Ledger}
    {s : Checker} {hint : Option Ty} (hs : Wellformed site ledger s)
    (hhint : Hinted hint ledger s) : Leads site ledger s (checkElse room hint span otherwise)
      fun ledger' s' r => GivesBlock site ledger' s' r.1 := by
  match otherwise with
  | none => exact .pure hs (givesSeq_nil hs).block
  | some block =>
    rw [stmtsOfElse] at h
    rw [checkElse]
    refine .bind (leads_checkBlock hinner h hs hhint) ?_
    exact fun _ _ _ hadv hblock => .pure hadv.after hblock

theorem leads_checkCases {site : Site} {room : Nat} {m : Match} {cases : List Case}
    (hinner : site.Inner) (h : site.AdmitsAll (stmtsOfCases cases)) :
    LeadsCases site m (checkCases room · m · · cases) := by
  match cases with
  | [] => exact fun _ _ _ _ _ hs _ _ hdone => .pure hs hdone
  | ⟨tag, bindings, ⟨stmts, bodySpan⟩, span⟩ :: rest =>
    rw [stmtsOfCases, Site.admitsAll_append] at h
    exact leads_case (leads_checkStmts ⟨hinner.settled, hinner.sealed⟩ h.1.hide)
      (leads_checkCases hinner h.2)

theorem leads_checkBlock {site : Site} {room : Nat} {block : Block} (hinner : site.Inner)
    (h : site.AdmitsAll block.occurrences) : LeadsBlock site (checkBlock room · block) := by
  match block with
  | ⟨stmts, span⟩ =>
    rw [Block.occurrences] at h
    exact leads_block (leads_checkStmts hinner h)

theorem leads_checkStmts {site : Site} {room : Nat} {stmts : List Surface.Stmt}
    (hinner : site.Inner) (h : site.AdmitsAll (stmtsOfStmts stmts)) :
    LeadsSeq site stmts (checkStmts room · stmts) := by
  match stmts with
  | [] => exact fun _ _ _ hs _ _ => .pure hs (givesSeq_nil hs)
  | stmt :: rest =>
    rw [stmtsOfStmts, Site.admitsAll_append] at h
    refine leads_stmts (leads_checkStmt (fun hsite => absurd hsite hinner.sealed) h.1)
      hinner.settled
      (leads_checkStmts hinner h.2) ?_
    -- a last expression is a part of its statement, so the induction covers it
    intro e span hstmt
    match stmt, h.1, hstmt with
    | .eval e span, h, rfl =>
      rw [Surface.Stmt.stmts] at h
      exact leads_checkExpr hinner (Site.AdmitsAll.unnest (List.forall_mem_cons.mp h).2)

theorem leads_checkStmt {site : Site} {room : Nat} {stmt : Surface.Stmt}
    (himpls : site.impls → stmt.isImpl = true) (h : site.AdmitsAll stmt.stmts) :
    LeadsStmt site stmt (checkStmt room stmt) := by
  match stmt with
  | .bind pattern written value _ =>
    rw [Surface.Stmt.stmts] at h
    obtain ⟨hself, hvalue⟩ := List.forall_mem_cons.mp h
    refine leads_bind (nomatch himpls ·) (fun htidy => (hself.annotated htidy).imp id And.left) fun start => ?_
    exact leads_checkExpr (Site.inner_restart (nomatch himpls ·)) (Site.AdmitsAll.nested hvalue)
  | .func decl =>
    rw [Surface.Stmt.stmts] at h
    obtain ⟨hself, hbody⟩ := List.forall_mem_cons.mp h
    have hsealed : ¬site.impls := (nomatch himpls ·)
    refine .inert inert_func fun hs _ => Leads.imp (hs.checkFuncStmt hself.entered
      (hself.source decl List.mem_cons_self) (fun htidy => ?_)
      (leads_checkDecl hsealed hbody)) ?_
    · exact (hself.annotated htidy).resolve_right fun hbind => nomatch hbind.2.1
    · exact fun _ _ _ hadv hout => ⟨hout, hadv.bindsImpls hsealed⟩
  | .struct name generics fields span => exact leads_struct (nomatch himpls ·)
  | .enum name generics tags span => exact leads_enum (nomatch himpls ·)
  | .trait name methods span =>
    rw [Surface.Stmt.stmts] at h
    exact leads_trait (nomatch himpls ·) fun hplain => (h _ List.mem_cons_self).plain hplain name.text rfl
  | .impl bound ty methods span =>
    rw [Surface.Stmt.stmts] at h
    obtain ⟨hself, hmethods⟩ := List.forall_mem_cons.mp h
    refine .inert inert_impl fun hs hroot => ?_
    exact hs.checkImpl (hroot rfl) fun hs' hdone =>
      @leads_checkMethods site.sealed room methods id hself.entered hself.source
        (Site.AdmitsAll.allow hmethods) _ _ _ _ hs' hdone
  | .ret none span =>
    rw [Surface.Stmt.stmts] at h
    exact leads_returnNothing (nomatch himpls ·) ((h _ List.mem_cons_self).returns rfl rfl)
  | .ret (some e) span =>
    rw [Surface.Stmt.stmts] at h
    obtain ⟨hself, hvalue⟩ := List.forall_mem_cons.mp h
    refine leads_return (nomatch himpls ·) (hself.returns rfl rfl) fun start => ?_
    exact leads_checkExpr (Site.inner_restart (nomatch himpls ·)) (Site.AdmitsAll.nested hvalue)
  | .whileDo cond body _ =>
    rw [Surface.Stmt.stmts] at h
    obtain ⟨hcond, hbody⟩ := List.forall_mem_append.mp
      (List.map_append ▸ (List.forall_mem_cons.mp h).2)
    have hsealed : ¬site.impls := (nomatch himpls ·)
    exact leads_while hsealed
      (fun start => leads_checkExpr (Site.inner_restart hsealed) (.nested hcond))
      fun start => leads_checkBlock (Site.inner_restart hsealed) (.nested hbody)
  | .forEach name iterable body span =>
    rw [Surface.Stmt.stmts] at h
    obtain ⟨hiterable, hbody⟩ := List.forall_mem_append.mp
      (List.map_append ▸ (List.forall_mem_cons.mp h).2)
    have hsealed : ¬site.impls := (nomatch himpls ·)
    exact leads_forEach hsealed
      (fun start => leads_checkExpr (Site.inner_restart hsealed) (.nested hiterable))
      fun start => leads_checkBlock (Site.inner_restart hsealed) (.nested hbody)
  | .eval e _ =>
    rw [Surface.Stmt.stmts] at h
    refine leads_eval (nomatch himpls ·) fun _ => ?_
    exact leads_checkExpr (Site.inner_restart (nomatch himpls ·)) (Site.AdmitsAll.nested (List.forall_mem_cons.mp h).2)

theorem leads_checkDecl {site : Site} {room : Nat} {decl : FuncDecl} (hsealed : ¬site.impls)
    (h : site.AdmitsAll decl.stmts) : LeadsBody site decl.body (checkBody room · decl.body) := by
  match decl with
  | ⟨name, generics, params, ret, body, span⟩ =>
    rw [FuncDecl.stmts] at h
    exact leads_checkBody hsealed h

theorem leads_checkMethods {site : Site} {room : Nat} {methods : List FuncDecl}
    (hsealed : ¬site.impls) (hentered : ¬site.opening)
    (hsource : ∀ method ∈ methods, method ∈ site.source)
    (h : site.AdmitsAll (stmtsOfDecls methods)) {impl : Impl} {ledger : Ledger} {s : Checker}
    {done : Assoc String Core.Expr} (hs : Wellformed site ledger s)
    (hdone : GivesMethods site impl ledger s done) :
    Leads site ledger s (checkMethods room impl done methods) (GivesMethods site impl) := by
  match methods with
  | [] => exact .pure hs hdone
  | method :: rest =>
    rw [stmtsOfDecls, Site.admitsAll_append] at h
    obtain ⟨hmethod, hrest⟩ := List.forall_mem_cons.mp hsource
    exact hs.checkMethod hentered hdone hmethod (leads_checkDecl hsealed h.1)
      fun hs' hdone' => leads_checkMethods hsealed hentered hrest h.2 hs' hdone'

theorem leads_checkBody {site : Site} {room : Nat} {body : Block} (hsealed : ¬site.impls)
    (h : site.AdmitsAll (body.occurrences.map .deepen)) :
    LeadsBody site body (checkBody room · body) := by
  match body with
  | ⟨stmts, span⟩ =>
    rw [Block.occurrences] at h
    intro ledger s declared result hs hbelow hdeclared hresult
    refine leads_body ?_ hs hbelow hdeclared hresult
    exact leads_checkBodyStmts hsealed h.body .inr

theorem leads_checkBodyStmts {site : Site} {room : Nat} {stmts : List Surface.Stmt}
    (hsealed : ¬site.impls) (h : site.AdmitsAll (stmtsOfStmts stmts)) (hreturns : Trailing stmts → site.returns) :
    LeadsBodyStmts site stmts (checkBodyStmts room stmts) := by
  match stmts with
  | [] => exact fun _ _ hs _ => .pure hs ⟨.nil, by nofun, by nofun⟩
  | stmt :: rest =>
    rw [stmtsOfStmts, Site.admitsAll_append] at h
    refine leads_bodyStmts hsealed
      (fun start => leads_checkStmt (fun hsite => absurd hsite hsealed) h.1.restart)
      (leads_checkBodyStmts hsealed h.2 fun htrailing => hreturns htrailing.cons) ?_
      hreturns
    intro e span hstmt start
    match stmt, h.1, hstmt with
    | .eval e span, h, rfl =>
      rw [Surface.Stmt.stmts] at h
      exact leads_checkExpr (Site.inner_restart hsealed)
        (Site.AdmitsAll.nested (List.forall_mem_cons.mp h).2)

end

/-- One statement of a program. Only an implementation may make a dictionary. -/
theorem leads_checkUnit {room : Nat} {stmt : Surface.Stmt} (himpls : site.impls)
    (h : site.AdmitsAll stmt.stmts) (hs : Wellformed site ledger s) :
    Leads site ledger s (inUnit (checkStmt room stmt)) fun ledger' s' out =>
      GivesStmts site ledger' s' out ∧ BindsImpls ledger.impls ledger' out := by
  let inner : Site := { site with impls := stmt.isImpl = true }
  have hs1 : Wellformed inner ledger s := { hs with }
  have hback : ∀ {ledger s}, Wellformed inner ledger s → Wellformed site ledger s :=
    fun hs => { hs with }
  refine ((Leads.inUnit hs1 fun hs0 => leads_checkStmt id h.allow.restart hs0 (fun _ => rfl)
    fun himpl _ => himpl).relax hback fun _ => himpls).imp ?_
  rintro ledger' s' out _ ⟨⟨hout, hmade⟩, _⟩
  exact ⟨fun view hview place hplace => hout view hview place hplace.change, hmade⟩

theorem BindsImpls.append {ledger' : Ledger} {before : Set (BindingId × Ty)}
    {out more : List Core.Stmt} (h : BindsImpls before ledger out)
    (h' : BindsImpls ledger.impls ledger' more) : BindsImpls before ledger' (out ++ more) := by
  intro p hp
  rcases h' p hp with hp | ⟨fields, hmem⟩
  · refine (h p hp).imp_right ?_
    rintro ⟨fields, hmem⟩
    exact ⟨fields, List.mem_append_left _ hmem⟩
  · exact .inr ⟨fields, List.mem_append_right _ hmem⟩

theorem leads_checkUnits {room : Nat} {program : Surface.Program} (himpls : site.impls)
    (h : site.AdmitsAll (stmtsOfStmts program)) (hs : Wellformed site ledger s) :
    Leads site ledger s (checkUnits room program) fun ledger' s' out =>
      GivesStmts site ledger' s' out ∧ BindsImpls ledger.impls ledger' out := by
  induction program generalizing ledger s with
  | nil => exact .pure hs ⟨.nil, fun _ hp => .inl hp⟩
  | cons stmt rest ih =>
    rw [stmtsOfStmts, Site.admitsAll_append] at h
    refine .bind (leads_checkUnit himpls h.1 hs) ?_
    rintro ledger1 s1 out hadv1 ⟨hout, hmade⟩
    refine .bind (ih h.2 hadv1.after) ?_
    rintro ledger2 s2 more hadv2 ⟨hmore, hmade2⟩
    exact .pure hadv2.after
      ⟨(GivesStmts.lasting hadv2.carries hout).append hmore, hmade.append hmade2⟩

end TraitCheck.Checker
