import TraitCheck.Proofs.InertSteps
import TraitCheck.Proofs.TypedTracers

/-!
Functions and closures. Inside a declared function each type parameter is a
tracer, so the types there have no variables of the signature. A body whose
result type was written delivers that type with each of its returns.
-/

namespace TraitCheck

namespace Core

theorem mapTyStmts_ret (f : Ty → Ty) (init : List Stmt) (last : Option Expr) :
    mapTyStmts f (init ++ [.ret last]) = mapTyStmts f init ++ [.ret (last.map (·.mapTy f))] := by
  rw [mapTyStmts_eq_map, mapTyStmts_eq_map, List.map_append, List.map_singleton]
  cases last with
  | none => rw [Stmt.mapTy, Option.map_none]
  | some e => rw [Stmt.mapTy, Option.map_some]

theorem everyStmts_ret {rules : Rules} {place : Place} {init : List Stmt} {last : Option Expr} :
    EveryStmts rules place (init ++ [.ret last]) ↔ EveryStmts rules place init ∧ rules.ret last ∧
      ∀ e, last = some e → e.Every rules place := by
  rw [everyStmts_append, EveryStmts, EveryStmts, and_true]
  refine and_congr_right fun _ => ?_
  cases last with
  | none => simp [Stmt.Every]
  | some e => simp [Stmt.Every]

/-- Statements whose last one is a return. -/
theorem exists_ret {stmts : List Stmt} (h : stmts.getLast?.any (·.isRet) = true) :
    ∃ init last, stmts = init ++ [.ret last] := by
  cases hlast : stmts.getLast? with
  | none =>
    rw [hlast] at h
    cases h
  | some stmt =>
    rw [hlast] at h
    obtain ⟨init, rfl⟩ := List.getLast?_eq_some_iff.mp hlast
    cases stmt with
    | ret last => exact ⟨init, last, rfl⟩
    | _ => cases h

end Core

namespace Checker

open Surface (FuncDecl)

variable {α : Type} {site : Site} {ledger ledger' : Ledger} {s s' : Checker} {ty : Ty}
  {body : Core.Block}

/-- What a step leads to comes with the run itself. -/
theorem Leads.run {x : CheckM α} {P : Ledger → Checker → α → Prop} (h : Leads site ledger s x P) :
    Leads site ledger s x fun ledger' s' r => P ledger' s' r ∧ Yields x s r s' := by
  refine ⟨?_, h.safe⟩
  intro r s' hrun
  obtain ⟨ledger', hadv, hr⟩ := h.ok r s' hrun
  exact ⟨ledger', hadv, hr, hrun⟩

theorem Advance.upvalue (h : Advance site ledger s ledger' s') {up : Upvalue}
    (hup : (entryRules ledger (site.visible s) s).upvalue up) :
    (entryRules ledger' (site.visible s') s').upvalue up := by
  obtain ⟨⟨hlt, hid⟩, hty, hformed⟩ := hup
  refine ⟨⟨lt_of_lt_of_le hlt h.later.binding, hid⟩, ?_, ?_⟩
  · exact fun ty hsettled => hty ty ((h.settled _ hlt).symm.trans hsettled)
  · rw [h.level]
    exact hformed.extend (h.later.toDeclares.lexicon (subset_refl _))

/-- A frame below the innermost one stays. -/
theorem Advance.below_ne_nil (h : Advance site ledger s ledger' s')
    (hbelow : s.scope.below ≠ []) : s'.scope.below ≠ [] := by
  intro hnil
  have hbare := h.later.below
  rw [hnil] at hbare
  exact hbelow (List.map_eq_nil_iff.mp hbare.symm)

/-! Parameters. -/

theorem Wellformed.bindParams {params : List Surface.Param} (hs : Wellformed site ledger s) :
    Leads site ledger s (bindParams params) fun _ s' ids =>
      ids.length = params.length ∧ s'.functions = s.functions := by
  induction params generalizing ledger s with
  | nil => exact .pure hs ⟨rfl, rfl⟩
  | cons param rest ih =>
    refine .bind (hs.typeFor param.ty) ?_
    rintro ledger1 s1 ty hadv ⟨hty, rfl, rfl⟩
    refine .bind (hadv.after.bindParam _ _ hty.known) ?_
    rintro ledger2 s2 id hadv2 ⟨_, _, rfl⟩
    refine .bind (ih hadv2.after) ?_
    rintro ledger3 s3 ids hadv3 ⟨hlength, hfunctions⟩
    exact .pure hadv3.after ⟨congrArg (· + 1) hlength, hfunctions⟩

/-! Closures. -/

/-- The parts of the function type that a closure is expected to have. -/
theorem Wellformed.openClosure (hs : Wellformed site ledger s) {hint : Option Ty}
    (hhint : Hinted hint ledger s) (arity : Nat) (span : Span) :
    Leads site ledger s (openClosure hint arity span) fun ledger' s' shape =>
      (∀ p ∈ shape.params, Known ledger' s' p) ∧ Known ledger' s' shape.ret ∧
        shape.params.length = arity := by
  refine .resolve? ?_
  have hresolve := hs.hinted_resolve hhint
  split
  · exact .fail
  · rename_i ty hty
    split
    · exact .fail
    · rename_i shape hshape
      obtain ⟨_, hparams, hret⟩ := (hresolve ty hty).shape_param hshape
      exact .ensure fun harity => .pure hs ⟨hparams, hret, harity⟩

theorem Wellformed.closureParam (hs : Wellformed site ledger s) (param : Surface.ClosureParam)
    (hty : Known ledger s ty) : Leads site ledger s (closureParam param ty) Known := by
  refine .bind (hs.typeFor? param.ty) ?_
  rintro ledger1 s1 written hadv ⟨hwritten, _, rfl, rfl⟩
  have hjoin : Leads site ledger1 s1 (closureParam.joinWritten param.name.span ty written)
      fun ledger' s' c => Known ledger' s' c := by
    cases written with
    | none => exact .pure hs hty
    | some written =>
      exact (hs.unify _ hty (hwritten written rfl).known).imp fun _ _ _ _ h => h.1
  refine .bind hjoin ?_
  intro ledger2 s2 c hadv2 hc
  exact .resolve (.ensure fun _ => .pure hadv2.after (hadv2.after.known_resolve hc))

theorem Wellformed.closureParams {params : List Surface.ClosureParam} {tys : List Ty}
    (hs : Wellformed site ledger s) (htys : ∀ ty ∈ tys, Known ledger s ty)
    (hlength : tys.length = params.length) :
    Leads site ledger s (closureParams params tys) fun ledger' s' types =>
      (∀ ty ∈ types, Known ledger' s' ty) ∧ types.length = params.length := by
  induction params generalizing ledger s tys with
  | nil => exact .pure hs ⟨by simp, rfl⟩
  | cons param rest ih =>
    cases tys with
    | nil => cases hlength
    | cons ty tys =>
      obtain ⟨hty, htys⟩ := List.forall_mem_cons.mp htys
      refine .bind (hs.closureParam param hty) ?_
      intro ledger1 s1 t hadv ht
      refine .bind (ih hadv.after (fun x hx => hadv.known (htys x hx)) (Nat.succ.inj hlength)) ?_
      rintro ledger2 s2 types hadv2 ⟨htypes, hcount⟩
      exact .pure hadv2.after ⟨List.forall_mem_cons.mpr ⟨hadv2.known ht, htypes⟩,
        congrArg (· + 1) hcount⟩

theorem Wellformed.bindClosureParams {params : List Surface.ClosureParam} {tys : List Ty}
    (hs : Wellformed site ledger s) (htys : ∀ ty ∈ tys, Known ledger s ty)
    (hlength : tys.length = params.length) :
    Leads site ledger s (bindClosureParams params tys) fun _ _ ids => ids.length = tys.length := by
  induction params generalizing ledger s tys with
  | nil =>
    rw [List.length_eq_zero_iff.mp hlength]
    exact .pure hs rfl
  | cons param rest ih =>
    cases tys with
    | nil => cases hlength
    | cons ty tys =>
      obtain ⟨hty, htys⟩ := List.forall_mem_cons.mp htys
      refine .bind (hs.bindParam _ _ hty) ?_
      intro ledger1 s1 id hadv _
      refine .bind (ih hadv.after (fun x hx => hadv.known (htys x hx)) (Nat.succ.inj hlength)) ?_
      intro ledger2 s2 ids hadv2 hcount
      exact .pure hadv2.after (congrArg (· + 1) hcount)

/-! Bodies. -/

/-- The block is in order as the body of a function, and where the result type
was written it returns that. -/
structure GivesFunction (site : Site) (result : Option Ty) (full : Prop) (ledger : Ledger)
    (s : Checker) (body : Core.Block) : Prop extends GivesBody site ledger s body where
  returns : ∀ ty, result = some ty → ∀ view : View, view.Sees ledger s → ∀ place : Core.Place,
    view.Admits site ledger place → (body.mapTy view.map).Returns ty full

theorem GivesFunction.lasting {result : Option Ty} {full : Prop} :
    Lasting (GivesFunction site result full) :=
  fun hcarries h => ⟨GivesBody.lasting hcarries h.toGivesBody, fun ty hty view hview place hplace =>
    h.returns ty hty view (hcarries.sees hview) place (hplace.carry hcarries)⟩

/-- What is returned does not depend on the place. -/
theorem View.entails_delivering (view : View) (hresult : site.result = some ty) :
    (view.rules site).Entails (fun _ _ => True) (Core.delivering ty) :=
  ⟨fun _ _ => trivial, fun _ _ => trivial, fun _ _ => trivial, fun h => h ty hresult,
    fun _ _ _ _ => trivial, fun _ _ => trivial⟩

section Body

variable {result : Option Ty} {full returns : Prop} {stmts init : List Core.Stmt}

theorem GivesStmts.inside (h : GivesStmts (site.within result returns) ledger s stmts)
    {view : View} (hview : view.Sees ledger s) {place : Core.Place}
    (hplace : view.Admits site ledger place) :
    Core.EveryStmts (view.rules site).within place (Core.mapTyStmts view.map stmts) :=
  Core.everyStmts_imp (h view hview place hplace.change) (Core.Rules.implies_within _)

/-- All returns deliver the result type, where that was written. -/
theorem GivesStmts.delivering (h : GivesStmts (site.within result returns) ledger s stmts)
    {view : View} (hview : view.Sees ledger s) {place : Core.Place}
    (hplace : view.Admits site ledger place) (hty : result = some ty) :
    Core.EveryStmts (Core.delivering ty) .outside (Core.mapTyStmts view.map stmts) :=
  Core.everyStmts_transport (h view hview place hplace.change) (view.entails_delivering hty) trivial

/-- Statements that end in a return. -/
theorem GivesStmts.function {last : Option Core.Expr} (hty : Known ledger s ty)
    (h : GivesStmts (site.within result returns) ledger s (init ++ [.ret last])) :
    GivesFunction site result full ledger s ⟨init ++ [.ret last], ty⟩ := by
  refine ⟨⟨hty, fun view hview place hplace => ?_⟩, fun _ ht _ hview _ hplace => ?_⟩
  · rw [Core.Block.mapTy, Core.Block.Inside]
    exact h.inside hview hplace
  · have hevery := h.delivering hview hplace ht
    rw [Core.mapTyStmts_ret, Core.everyStmts_ret] at hevery
    obtain ⟨hinit, hret, hlast⟩ := hevery
    rw [Core.Block.mapTy]
    refine ⟨_, _, Core.mapTyStmts_ret _ _ _, hinit, fun value hvalue => ⟨?_, hlast value hvalue⟩,
      fun _ => hret⟩
    rw [hvalue] at hret
    exact hret

/-- Statements that do not end in a return. -/
theorem GivesStmts.functionOpen (hty : Known ledger s ty)
    (h : GivesStmts (site.within result returns) ledger s stmts)
    (hfull : full → ∀ t, result = some t → t = .void) :
    GivesFunction site result full ledger s ⟨stmts ++ [.ret none], ty⟩ := by
  refine ⟨⟨hty, fun view hview place hplace => ?_⟩, fun t ht _ hview _ hplace => ?_⟩
  · rw [Core.Block.mapTy, Core.Block.Inside, Core.mapTyStmts_ret, Core.everyStmts_ret]
    exact ⟨h.inside hview hplace, trivial, by simp⟩
  · rw [Core.Block.mapTy]
    exact ⟨_, _, Core.mapTyStmts_ret _ _ _, h.delivering hview hplace ht, by simp,
      fun hf => hfull hf t ht⟩

end Body

theorem Wellformed.returnVoid (hs : Wellformed site ledger s) (hreturns : site.returns)
    (span : Span) : Leads site ledger s (returnVoid span) fun _ _ _ =>
      s.functions.head?.any (·.returned) = false → ∀ ty, site.result = some ty → ty = .void := by
  refine .get ?_
  split
  · rename_i hreturned
    exact .pure hs fun h => nomatch h.symm.trans hreturned
  · refine .isolated hs (fun hs0 => hs0.recordReturn hreturns hs0.known_void span) ?_
    intro ledger1 s1 _ hs1 hsame _ ty hty
    have heq := (hsame ty hty).resolve_eq hs1
    rw [hs1.resolve_closed hs1.closed_void, hs1.resolve_closed (hs1.result ty hty).1] at heq
    exact heq.symm

/-- The result type at the end of a body. -/
theorem Wellformed.known_result (hs : Wellformed site ledger s) :
    Known ledger s ((s.functions.head?.bind (·.ret)).getD .void) := by
  cases hret : s.functions.head?.bind (·.ret) with
  | none => exact hs.known_void
  | some ty => exact hs.known_return hret

/-- A body that was checked up to its end. It falls off its end only where it
has returned in some other place. -/
theorem Wellformed.closeBody {result : Option Ty} {full : Prop} {stmts : List Core.Stmt}
    {trailing : Bool} (hs : Wellformed (site.within result True) ledger s)
    (hstmts : GivesStmts (site.within result True) ledger s stmts)
    (htrailing : trailing = true → stmts.getLast?.any (·.isRet) = true)
    (hfull : full → stmts.getLast?.any (·.isRet) = true ∨
      s.functions.head?.any (·.returned) = false) (span : Span) :
    Leads (site.within result True) ledger s (closeBody span stmts trailing)
      (GivesFunction site result full) := by
  have hlast := @Core.exists_ret stmts
  rw [Checker.closeBody.eq_def]
  split
  · rename_i htrue
    obtain ⟨init, value, rfl⟩ := hlast (htrailing htrue)
    exact .currentReturn (.pure hs (hstmts.function hs.known_result))
  · refine .bind (hs.returnVoid trivial span) ?_
    intro ledger1 s1 _ hadv hvoid
    have hstmts1 := GivesStmts.lasting hadv.carries hstmts
    refine .currentReturn (.pure hadv.after ?_)
    rw [endWithReturn]
    split
    · rename_i hret
      obtain ⟨init, value, rfl⟩ := hlast hret
      exact hstmts1.function hadv.after.known_result
    · rename_i hret
      exact hstmts1.functionOpen hadv.after.known_result
        fun hf t ht => hvoid ((hfull hf).resolve_left hret) t ht

theorem Wellformed.returning {value : Core.Expr} (hs : Wellformed site ledger s)
    (hvalue : Gives site ledger s value)
    (hresult : ∀ ty, site.result = some ty → Same ledger s value.ty ty) :
    Leads site ledger s (returning value) (GivesStmts site) := by
  refine .resolve ?_
  split
  · rename_i hvoid
    refine .pure hs ((GivesStmts.eval hvalue).append (.retNone fun ty hty => ?_))
    have heq := (hresult ty hty).resolve_eq hs
    rw [hs.resolve_closed (hs.result ty hty).1] at heq
    rw [← heq]
    exact (hs.known_resolve hvalue.known).eq_void (hs.arity_builtin (by decide)) hvoid
  · exact .pure hs (.ret hvalue hresult fun ty hty => (hs.result ty hty).1)

/-! Declared functions. -/

variable {room : Nat}

/-- Checking the body of a function with a result type, if any, gives a body in
order. -/
def LeadsBody (site : Site) (body : Surface.Block) (check : Option Ty → CheckM Core.Block) : Prop :=
  ∀ ⦃ledger s declared result⦄, Wellformed site ledger s → s.scope.below ≠ [] →
    Hinted declared ledger s →
      (∀ ty, result = some ty → Closed ledger s ty ∧ declared = some ty) →
        Leads site ledger s (check declared) fun ledger' s' block =>
          GivesFunction site result (EndsWell body) ledger' s' block ∧ s'.functions = s.functions

/-- What the frame of a declared function gives: its parameters, its body, and
the variables that the tracers stand for. -/
structure GivesFrame (site : Site) (room : Nat) (decl : FuncDecl) (sig : Signature)
    (outer : Checker) (ledger : Ledger) (s : Checker)
    (r : List BindingId × Core.Block × List (Nat × Ty)) : Prop where
  params : ∃ ids, r.1 = List.range' outer.scope.nextBinding sig.obligations.length ++ ids ∧
    ids.length = sig.params.length
  tracers : r.2.2 = ownVars outer sig.generics
  body : ∃ declared s₀ s₁, Yields (typeFor? decl.ret) s₀ declared s₀ ∧
    Yields (checkBody room declared decl.body) s₀ r.2.1 s₁ ∧
      GivesFunction site declared (EndsWell decl.body) ledger s r.2.1
  functions : s.functions = outer.functions

section Function

variable {room : Nat} {decl : FuncDecl} {sig : Signature}
variable {r : List BindingId × Core.Block × List (Nat × Ty)} {outer : Checker}

theorem Wellformed.checkFrame (hs : Wellformed site ledger s) (hopening : ¬site.opening)
    (hbounds : ∀ g ∈ sig.generics, ∀ bound ∈ g.bounds, s.registry.isDeclared bound = true)
    (hcount : sig.params.length = decl.params.length)
    (hbody : LeadsBody site decl.body (checkBody room · decl.body)) :
    Leads site.opened (ledger.inside s (sig.generics.map Generic.param))
      { s with scope := s.scope.pushFunction } (Checker.checkFrame room sig.generics decl)
        fun ledger' s' r =>
          GivesFrame site room decl sig s ledger' s' r ∧ Wellformed site ledger' s' := by
  have hs0 := hs.openTracers (sig.generics.map Generic.param)
  refine .bind (hs0.bindTracers decl.span hbounds ?_ ?_ fun _ hp => .inr hp) ?_
  · intro k hk
    rw [Ledger.tracers_inside]
    refine .inr (mem_ownTracers.mpr ⟨Nat.le_add_right _ _, ?_⟩)
    rw [List.length_map]
    exact Nat.add_lt_add_left hk _
  · intro depth hlt id hid
    rw [Ledger.level_inside_of_le (Nat.lt_succ_iff.mp hlt)] at hid
    exact hs.tracers_lt hopening id ⟨depth, hid⟩
  rintro ledger1 s1 ⟨dicts, tracers⟩ hadv1 ⟨rfl, rfl, htakes⟩
  -- all tracers of the function are drawn now
  have hlt : ∀ id ∈ ledger1.tracers, id < s1.unifier.next := by
    intro id hid
    rw [hadv1.tracers, Ledger.tracers_inside] at hid
    rcases hid with hid | hid
    · exact lt_of_lt_of_le (hs.tracers_lt hopening id hid) hadv1.later.next
    · have hid' := (mem_ownTracers.mp hid).2
      rw [List.length_map] at hid'
      rw [htakes.next]
      exact hid'
  have hs1 : Wellformed site ledger1 s1 := { hadv1.after with tracers_lt := fun _ => hlt }
  refine Leads.relax (fun hs => { hs with tracers_lt := fun h => absurd trivial h }) id ?_
  refine .bind hs1.bindParams ?_
  rintro ledger2 s2 ids hadv2 ⟨hids, hfunctions⟩
  have hbelow := hadv2.below_ne_nil (hadv1.below_ne_nil (List.cons_ne_nil _ _))
  refine .bind (hadv2.after.typeFor? decl.ret).run ?_
  rintro ledger3 s3 declared hadv3 ⟨⟨hdeclared, _, rfl, rfl⟩, h0⟩
  refine .bind (hbody hadv3.after hbelow (fun ty hty => (hdeclared ty hty).known)
    fun ty hty => ⟨hdeclared ty hty, hty⟩).run ?_
  rintro ledger4 s4 block hadv4 ⟨⟨hblock, hfunctions'⟩, h1⟩
  refine .pure hadv4.after ⟨⟨ids, rfl, hids.trans hcount.symm⟩, rfl, ⟨declared, _, _, h0, h1, hblock⟩, ?_⟩
  exact hfunctions'.trans (hfunctions.trans htakes.functions)

/-- A named function, as every view reads it. -/
theorem GivesFrame.funcTyped {upvalues : List Upvalue}
    (h : GivesFrame site room decl sig outer ledger s r) (hsource : decl ∈ site.source)
    {view : View} (hview : view.Sees ledger s) {place : Core.Place}
    (hplace : view.Admits site ledger place) (ty : Ty) : FuncTyped site.source
      ⟨.func (Core.FuncExpr.mapTy view.map
        ⟨some decl.name.text, captures upvalues, r.1, r.2.1⟩), ty⟩ := by
  obtain ⟨declared, s0, s1, h0, h1, hbody⟩ := h.body
  rintro func name ⟨⟩ _
  refine ⟨decl, hsource, declared, ⟨room, s0, s1, r.2.1, _, r.1, view.map, h0, h1, rfl⟩, ?_⟩
  intro t ht
  rw [Core.FuncExpr.mapTy]
  exact hbody.returns t ht view hview place hplace

/-- The dictionary parameters come first. -/
theorem GivesFrame.mem_zip {name : Option String} {captures : List Core.Capture}
    (h : GivesFrame site room decl sig outer ledger s r) (f : Ty → Ty) :
    ∀ p ∈ ownDicts outer (sig.generics.map Generic.param),
      p ∈ (Core.FuncExpr.mapTy f ⟨name, captures, r.1, r.2.1⟩).params.zip
        (dictionaryTypes (sig.generics.map Generic.param)
          (ownTracers outer (sig.generics.map Generic.param))) := by
  intro p hp
  rw [Core.FuncExpr.mapTy]
  dsimp only
  obtain ⟨ids, heq, _⟩ := h.params
  have hids : (ownTracers outer (sig.generics.map Generic.param)).length = sig.generics.length := by
    rw [ownTracers, List.length_range', List.length_map]
  have hlength := length_obligationsOf sig.generics hids
  rw [ownDicts, hlength] at hp
  rw [heq, ← List.append_nil (dictionaryTypes _ _), List.zip_append]
  · exact List.mem_append_left _ hp
  · rw [List.length_range', hlength]
    rfl

/-- What checking a function with the signature gives: a function of that many
parameters, and its type as seen from outside. -/
structure GivesFunc (site : Site) (sig : Signature) (ledger : Ledger) (s : Checker)
    (r : Core.FuncExpr × Ty) : Prop where
  obeys : ∀ os ps ret D, os.length = sig.obligations.length → ps.length = sig.params.length →
    (Ty.funcWith os ps ret).Formed (s.lexicon ledger.tracers) D →
      Obeys site ledger s ⟨.func r.1, .funcWith os ps ret⟩
  ty : ∃ ret, r.2 = .funcWith sig.obligations sig.params ret ∧
    ret.Formed (s.lexicon ledger.tracers) (ledger.drawn ∪ genericVars sig.generics) ∧
      (sig.retDeclared = true → ret = sig.ret)

theorem Wellformed.checkFunc (hs : Wellformed site ledger s) (hopening : ¬site.opening)
    (hsource : decl ∈ site.source) (hbounds : ∀ g ∈ sig.generics, ∀ bound ∈ g.bounds,
      s.registry.isDeclared bound = true ∧ bound ∈ g.var.traits)
    (hnames : sig.generics.map Generic.param = paramBounds decl.generics)
    (hcount : sig.params.length = decl.params.length)
    (hret : sig.ret.Formed (s.lexicon ledger.tracers) (ledger.drawn ∪ genericVars sig.generics))
    (hbody : LeadsBody site decl.body (checkBody room · decl.body)) :
    Leads site ledger s (checkFunc room sig decl) fun ledger' s' r => GivesFunc site sig ledger' s' r ∧
      s'.scope.frames.map Frame.bare = s.scope.frames.map Frame.bare := by
  have hframe := hs.checkFrame hopening (fun g hg b hb => (hbounds g hg b hb).1) hcount hbody
  refine ⟨?_, ?_⟩
  · rintro ⟨func, ty⟩ s' hrun
    have hsubst := inert_checkFunc.subst hrun
    rw [checkFunc_eq] at hrun
    obtain ⟨⟨⟨ids, block, tracers⟩, upvalues⟩, s1, h1, hrun⟩ := hrun.bind
    obtain ⟨heq, rfl⟩ := hrun.pure
    cases heq
    obtain ⟨s2, h2, rfl, rfl⟩ := h1.inFunctionFrame
    obtain ⟨inner, hadv, hgives, hs2⟩ := hframe.ok _ s2 h2
    obtain ⟨params, hids, hparams⟩ := hgives.params
    obtain ⟨declared, _, _, _, _, hblock⟩ := hgives.body
    have hnext : s2.scope.popFunction.2.nextBinding = s2.scope.nextBinding :=
      (Scope.steady_popFunction s2.scope).next.trans (Scope.nextBinding_pop _)
    have hintro : ∀ f, Introduces decl (ownTracers s (sig.generics.map Generic.param))
        (Core.FuncExpr.mapTy f ⟨some decl.name.text, captures s2.scope.popFunction.1, ids, block⟩) := by
      refine fun f => ⟨room, sig.generics, _, ids, block, tracers, s2, _, f, hnames, h2, ?_, rfl⟩
      rw [← map_fst_ownVars, ← hgives.tracers]
    have hclose := hadv.closeFunction hs hopening hs2 hsubst hgives.functions
      fun id hid f => ⟨decl, hsource, _, hintro f, hid⟩
    have hown : ∀ id ∈ ownTracers s (sig.generics.map Generic.param), id ∈ inner.tracers := by
      intro id hid
      rw [hadv.tracers, Ledger.tracers_inside]
      exact .inr hid
    refine ⟨_, hclose, ⟨?_, _, rfl, ?_, fun h => if_pos h⟩,
      hadv.frames_pop (Scope.steady_popFunction s2.scope)⟩
    · intro os ps ret D hos hps hty
      refine obeys_func ?_ hty (fun _ hup => hadv.upvalue_close hup) hclose.after.apart ?_ ?_
      · dsimp only at hids
        rw [hids, List.length_append, List.length_range', hos, hps, hparams]
      · intro view hview place hplace
        have hplace' := hplace.reopen hview hadv.tracers hadv.dicts hsource hnames.symm
          (hintro view.map) (hgives.mem_zip view.map)
        exact ⟨hplace'.traced hview.reads.toHom hblock.known (subset_refl _),
          hblock.every view (hview.reopen hs2 hown hnext) _ hplace'⟩
      · intro view hview place hplace
        have hplace' := hplace.reopen hview hadv.tracers hadv.dicts hsource hnames.symm
          (hintro view.map) (hgives.mem_zip view.map)
        exact hgives.funcTyped hsource (hview.reopen hs2 hown hnext) hplace' _
    · rw [Signature.finalRet]
      split
      · exact hclose.formed hret
      · have htracers := hgives.tracers
        dsimp only at htracers
        rw [htracers]
        have huntraced := hs.formed_untrace hopening hs2 hadv.tracers hadv.dicts
          (fun g hg b hb => (hbounds g hg b hb).2) hblock.known
        exact huntraced
  · rw [checkFunc_eq]
    exact .bind (.inFunctionFrame hframe.safe) fun _ _ _ => .pure

end Function

theorem Wellformed.declareSignature (hs : Wellformed site ledger s) (decl : FuncDecl)
    (new : Signature → Set TyVar)
    (hnew : ∀ sig, new sig ⊆ genericVars sig.generics ∪ sig.resultVars) :
    Leads site ledger s (declareSignature decl) fun ledger' s' sig =>
      Signed ledger.tracers s decl sig s' ∧
        ledger' = { ledger with drawn := ledger.drawn ∪ new sig } := by
  refine ⟨?_, safe_of ends_declareSignature⟩
  intro sig s' hrun
  have hsig := hrun.signed hs.typesOver
  exact ⟨_, hs.sign hsig (hnew sig), hsig, rfl⟩

section Signed

variable {decl : FuncDecl} {sig : Signature} {tracers : Set Nat}

theorem Signed.formed (h : Signed tracers s decl sig s') :
    sig.ty.Formed (s.lexicon tracers) (genericVars sig.generics ∪ sig.resultVars) := by
  have hextends := written_extends_lexicon s tracers
  refine Ty.formed_funcWith ?_
    (fun p hp => ((h.params p hp).mono Set.subset_union_left).extend hextends)
    (h.ret.extend hextends)
  intro o ho
  obtain ⟨g, hg, ho⟩ := List.mem_flatMap.mp ho
  obtain ⟨bound, hbound, rfl⟩ := List.mem_map.mp ho
  exact ⟨.var (.inl ⟨g, hg, rfl⟩), (h.bounds g hg bound hbound).2⟩

/-- The type of a function whose result type was written is settled from the
start: its variables are those of its type parameters. -/
theorem Signed.settles (h : Signed tracers s decl sig s')
    (hs : Wellformed site ledger s) (hdeclared : sig.retDeclared = true) :
    Settles site { ledger with drawn := ledger.drawn ∪ sig.resultVars } s' sig.ty := by
  have hvars : ∀ v ∈ sig.ty.vars, v ∈ genericVars sig.generics := by
    intro v hv
    rcases h.formed.isOver v hv with hv | ⟨hundeclared, _⟩
    · exact hv
    · rw [hdeclared] at hundeclared
      cases hundeclared
  have hmem : ∀ v ∈ sig.ty.vars, v ∈ genericVars sig.generics ∪ sig.resultVars :=
    fun v hv => .inl (hvars v hv)
  refine ⟨fun v hv w hw => h.fresh.unique v (hmem v hv) w (hmem w hw), fun _ v hv => ?_⟩
  obtain ⟨hle, hlt⟩ := h.fresh.range v (hmem v hv)
  refine ⟨hlt, ?_⟩
  rintro w (hw | hw)
  · exact Nat.ne_of_lt (lt_of_lt_of_le (hs.unifier.consistent.lt_next (.inl hw)) hle)
  · exact (h.apart v (hvars v hv) w hw).symm

theorem mem_generics {generics : List Generic} {v : TyVar} :
    v ∈ generics.map (·.var) ↔ v ∈ genericVars generics :=
  List.mem_map

/-- The variables of the type parameters are new. -/
theorem Signed.reserved (h : Signed tracers s decl sig s') (hs : Wellformed site ledger s) :
    Reserved { ledger with drawn := ledger.drawn ∪ sig.resultVars } s'
      (sig.generics.map (·.var)) := by
  intro v hv
  have hv' := mem_generics.mp hv
  obtain ⟨hle, hlt⟩ := h.fresh.range v (.inl hv')
  refine ⟨hlt, ?_⟩
  rintro w ((hw | hw) | hw) hid
  · exact absurd (hid ▸ hs.unifier.consistent.lt w hw) (Nat.not_lt.mpr hle)
  · exact absurd hid.symm (h.apart v hv' w hw)
  · exact h.fresh.unique w (.inl (mem_generics.mp hw)) v (.inl hv') hid

end Signed

theorem Wellformed.checkFuncStmt {decl : FuncDecl} (hs : Wellformed site ledger s)
    (hopening : ¬site.opening) (hsource : decl ∈ site.source)
    (htidy : site.tidy → decl.ret.isSome = true)
    (hbody : LeadsBody site decl.body (checkBody room · decl.body)) :
    Leads site ledger s (checkStmt room (.func decl)) (GivesStmts site) := by
  rw [checkStmt]
  refine .bind (hs.declareSignature decl (·.resultVars) fun _ => Set.subset_union_right) ?_
  rintro ledger1 s1 sig hadv1 ⟨hsig, rfl⟩
  -- The binding is settled at once if the result type was written, and else never.
  let ty? : Option Ty := if sig.retDeclared = true then some sig.ty else none
  have hty? : ∀ t, ty? = some t → sig.retDeclared = true ∧ t = sig.ty := by
    intro t ht
    dsimp only [ty?] at ht
    split at ht
    · rename_i hdeclared
      cases ht
      exact ⟨hdeclared, rfl⟩
    · cases ht
  refine .bind (hadv1.after.freshBinding ty? fun t ht => ?_) ?_
  · obtain ⟨hdeclared, rfl⟩ := hty? t ht
    exact hsig.settles hs hdeclared
  rintro ledger2 s2 id hadv2 ⟨hid, _⟩
  have hadv2' := hadv1.trans hadv2
  have hgenerics : genericVars sig.generics = {v | v ∈ sig.generics.map (·.var)} := by
    ext v
    exact mem_generics.symm
  have hreserved := (hsig.reserved hs).mono hadv2.draws hadv2.later.next
  have hformed : sig.ty.Formed (s2.lexicon ledger2.tracers)
      (ledger2.drawn ∪ genericVars sig.generics) := by
    have hextends := hadv2'.later.toDeclares.lexicon (subset_of_eq hadv2'.tracers.symm)
    refine (hsig.formed.extend hextends).mono (Set.union_subset Set.subset_union_right ?_)
    exact fun _ hv => .inl (hadv2.draws.subset (.inr hv))
  have hret := (hformed.shape_param (Ty.asFunc?_funcWith _ _ _)).2.2
  refine .bind (hadv2.after.bindValue decl.name.text (hid.valueTyped (hgenerics ▸
    hadv2.after.formed_level hformed) hreserved fun t ht => (hty? t ht).2.symm)) ?_
  rintro ledger3 s3 _ hadv3 ⟨rfl, rfl⟩
  have hadv3' := hadv2'.trans hadv3
  have hbounds : ∀ g ∈ sig.generics, ∀ bound ∈ g.bounds,
      s2.registry.isDeclared bound = true ∧ bound ∈ g.var.traits := by
    intro g hg b hb
    obtain ⟨hdeclared, hmem⟩ := hsig.bounds g hg b hb
    exact ⟨hadv3'.declared hdeclared, hmem⟩
  refine .bind (hadv3.after.checkFunc hopening hsource hbounds hsig.names hsig.count
    (hadv3.formed hret) hbody) ?_
  rintro ledger4 s4 ⟨func, ty⟩ hadv4 ⟨hfunc, hframes⟩
  obtain ⟨ret, rfl, hret', hdeclared⟩ := hfunc.ty
  have hid4 := (hid.carry hadv3.carries).carry hadv4.carries
  have hsame : ∀ t, ty? = some t → .funcWith sig.obligations sig.params ret = t := by
    intro t ht
    obtain ⟨h, rfl⟩ := hty? t ht
    rw [hdeclared h]
    rfl
  have hformed4 : (Ty.funcWith sig.obligations sig.params ret).Formed
      (s4.lexicon ledger4.tracers) (ledger4.drawn ∪ genericVars sig.generics) := by
    obtain ⟨hos, hps, _⟩ :=
      ((hadv3.trans hadv4).formed hformed).shape_param (Ty.asFunc?_funcWith _ _ _)
    exact Ty.formed_funcWith hos hps hret'
  have hvalues := congrArg Frame.values (List.cons.inj hframes).1
  have hfind : s4.scope.top.values.find? decl.name.text = _ :=
    (congrArg (·.find? decl.name.text) hvalues).trans (Assoc.find?_insert_self _ _ _)
  have hreserved4 := (hreserved.mono hadv3.draws hadv3.later.next).mono hadv4.draws hadv4.later.next
  refine .bind (hadv4.after.setValueType hfind (hid4.valueTyped
    (hgenerics ▸ hadv4.after.formed_level hformed4) hreserved4 hsame)) ?_
  intro ledger5 s5 _ hadv5 _
  have hobeys := hfunc.obeys sig.obligations sig.params ret _ rfl rfl hformed4
  refine .pure hadv5.after (.bind (hid4.carry hadv5.carries)
    (Obeys.lasting hadv5.carries hobeys) fun h => ?_)
  refine ⟨sig.ty, if_pos (hsig.declared.trans (htidy h)), ?_⟩
  rw [hdeclared (hsig.declared.trans (htidy h))]
  exact .refl _ _ _

theorem Wellformed.checkClosure {hint : Option Ty} {params : List Surface.ClosureParam}
    {block : Surface.Block} {span : Span} (hs : Wellformed site ledger s)
    (hhint : Hinted hint ledger s) (hbody : LeadsBody site block (checkBody room · block)) :
    Leads site ledger s (checkExpr (room + 1) hint (.closure params block span)) (Gives site) := by
  rw [checkExpr]
  refine .bind (hs.openClosure hhint params.length span) ?_
  rintro ledger1 s1 shape hadv1 ⟨hparams, hret, hcount⟩
  refine .bind (hadv1.after.closureParams hparams hcount) ?_
  rintro ledger2 s2 types hadv2 ⟨htypes, hcount2⟩
  refine .resolve ?_
  have hdeclared : Hinted (if (s2.unifier.resolve shape.ret).isVar then none
      else some (s2.unifier.resolve shape.ret)) ledger2 s2 := by
    split
    · exact .none
    · exact .some (hadv2.after.known_resolve (hadv2.known hret))
  refine .bind (.inFunctionFrame (P := fun ledger' s' (r : List BindingId × Core.Block) =>
    r.1.length = types.length ∧ GivesBody site ledger' s' r.2) hadv2.after (fun hs0 => ?_) ?_) ?_
  · have hframe : Carries ledger2 s2 ledger2 { s2 with scope := s2.scope.pushFunction } :=
      .of_eq rfl rfl rfl rfl
    refine .bind (hs0.bindClosureParams (fun t ht => hframe.known (htypes t ht)) hcount2) ?_
    intro ledger3 s3 ids hadv3 hids
    refine .bind (hbody hadv3.after (hadv3.below_ne_nil (List.cons_ne_nil _ _))
      ((hdeclared.carry hframe).carry hadv3.carries)
      fun _ h => (Option.some_ne_none _ h.symm).elim) ?_
    rintro ledger4 s4 body hadv4 ⟨hbody, _⟩
    exact .pure hadv4.after ⟨hids, hbody.toGivesBody⟩
  · exact fun hcarries h => ⟨h.1, GivesBody.lasting hcarries h.2⟩
  · rintro ledger3 s3 ⟨⟨ids, body⟩, upvalues⟩ hadv3 ⟨⟨hids, hbody⟩, hups, _⟩
    have hret3 := hadv3.known (hadv2.known hret)
    refine .bind (hadv3.after.unify _ hret3 hbody.known) ?_
    rintro ledger4 s4 c hadv4 ⟨hc, _, _⟩
    have hbody4 := GivesBody.lasting hadv4.carries hbody
    have hty := Ty.formed_func (fun t ht => (hadv3.trans hadv4).known (htypes t ht))
      (hadv4.after.known_resolve hc)
    refine .resolve (.pure hadv4.after ⟨hty, by rintro _ ⟨⟩, ?_⟩)
    refine obeys_func ?_ hty (fun up hup => hadv4.upvalue (hups up hup)) hadv4.after.apart ?_
      (by rintro view _ place _ func name ⟨⟩ ⟨⟩)
    · rw [hids, List.length_nil, Nat.zero_add]
    · intro view hview place hplace
      have hinside := hplace.inside
        (Core.FuncExpr.mapTy view.map ⟨none, captures upvalues, ids, body⟩)
      exact ⟨hinside.traced hview.reads.toHom hbody4.known (subset_refl _),
        hbody4.every view hview _ hinside⟩

end Checker

end TraitCheck
