import TraitCheck.Proofs.RenamedDeclarations

/-!
Functions and implementations under a renaming, apart from what is inside their
bodies. A type parameter is drawn as a variable, and inside its function as a
tracer. The ids of tracers come into the names of dictionaries here, and nowhere
else.
-/

namespace TraitCheck

open Surface (TypeExpr FuncDecl Param ClosureParam)

variable {ρ : Renaming} {leeway : Checker.Leeway}

namespace Checker

/-! Signatures. -/

def Signature.rename (ρ : Renaming) (sig : Signature) : Signature :=
  ⟨sig.generics.map (Generic.rename ρ), sig.params.map (Ty.rename ρ), sig.ret.rename ρ,
    sig.retDeclared⟩

theorem Signature.obligations_rename (sig : Signature) :
    (sig.rename ρ).obligations = sig.obligations.map (Obligation.rename ρ) := by
  rw [obligations, obligations, rename, List.flatMap_map, List.map_flatMap]
  refine congrArg (List.flatMap · sig.generics) (funext fun g => ?_)
  rw [List.map_map]
  refine List.map_congr_left fun bound _ => ?_
  change Obligation.mk (.var (g.var.rename ρ)) bound = Obligation.mk (Ty.rename ρ (.var g.var)) bound
  rw [Ty.rename_var]

theorem Signature.ty_rename (sig : Signature) : (sig.rename ρ).ty = sig.ty.rename ρ := by
  rw [Signature.ty, Signature.ty, Ty.rename_funcWith, Signature.obligations_rename]
  rfl

theorem Signature.finalRet_rename (sig : Signature) (tracers : List (Nat × Ty)) (found : Ty) :
    (sig.rename ρ).finalRet (tracers.map (Prod.map ρ.var (Ty.rename ρ))) (found.rename ρ) =
      (sig.finalRet tracers found).rename ρ := by
  rw [finalRet, finalRet]
  change (if sig.retDeclared = true then _ else _) = _
  split
  · rfl
  · exact (Ty.rename_untrace ρ (Ty.find?_renamed ρ tracers) found).symm

theorem follows_declareSignature {decl : FuncDecl}
    (hnames : ∀ g ∈ decl.generics, ρ.Fixes g.name.text) :
    Echoes ρ leeway (declareSignature decl) (declareSignature decl) (Signature.rename ρ) := by
  refine .bind (follows_declareGenerics hnames) fun generics => follows_inScope ?_
  refine .bind (.forM generics fun _ _ => follows_bindTypeVar) fun _ =>
    .bind follows_typesFor fun _ => ?_
  cases decl.ret with
  | some ret => exact .bind follows_typeFor fun _ => .pure rfl
  | none =>
    refine .bind follows_fresh fun _ => .pure ?_
    rw [Signature.rename, Ty.rename_var]

theorem Yields.plainSignature {s s' : Checker} {decl : FuncDecl} {sig : Signature}
    (h : Yields (Checker.declareSignature decl) s sig s') (hplain : Plain ρ leeway s)
    (hnames : ∀ g ∈ decl.generics, ρ.Fixes g.name.text) : PlainGenerics ρ sig.generics := by
  obtain ⟨s1, h1⟩ := h.signatureGenerics
  intro g hg
  obtain ⟨⟨p, hp, hname⟩, hbounds⟩ := h1.genericNames g hg
  refine ⟨hname ▸ hnames p hp, fun bound hbound => ?_⟩
  obtain ⟨decl, hdecl⟩ := hbounds bound hbound
  exact (hplain.traits bound decl hdecl).1

/-! Tracers and parameters. -/

theorem name_dictionary {bound name : String} (hbound : ρ.Fixes bound) (hname : ρ.Fixes name)
    (id : Nat) : ρ.name s!"${bound}<{name}#{id}>" = s!"${bound}<{name}#{ρ.var id}>" := by
  have hstem : ρ.Fixes ("$" ++ bound ++ "<" ++ name) :=
    .append (.append (.append (.inl (by decide)) hbound) (.inl (by decide))) hname
  rw [dictionaryName_tracer, dictionaryName_tracer, ρ.name_numbered_of_fixes hstem]

theorem follows_bindDictionaries {span : Span} {name : String} (hname : ρ.Fixes name) {id : Nat}
    {bounds : List Trait} (hbounds : ∀ bound ∈ bounds, ρ.Fixes bound) :
    Echoes ρ leeway (bindDictionaries span name id bounds)
      (bindDictionaries span name (ρ.var id) bounds) (List.map ρ.binding) := by
  induction bounds with
  | nil => exact .pure rfl
  | cons bound rest ih =>
    obtain ⟨hbound, hrest⟩ := List.forall_mem_cons.mp hbounds
    have hty : dictionaryType bound (.tracer (ρ.var id) name) =
        (dictionaryType bound (.tracer id name)).rename ρ := by
      rw [dictionaryType, dictionaryType, Ty.rename_named, List.map_singleton, Ty.rename_tracer]
    rw [bindDictionaries, bindDictionaries]
    rw [← name_dictionary hbound hname, hty, ← Ty.rename_tracer]
    exact .bind follows_bindParam fun _ =>
      .bind follows_provide fun _ =>
      .bind (ih hrest) fun _ => .pure rfl

theorem follows_bindTracers {span : Span} {generics : List Generic}
    (hgenerics : PlainGenerics ρ generics) : Echoes ρ leeway (bindTracers span generics)
      (bindTracers span (generics.map (Generic.rename ρ)))
      (Prod.map (List.map ρ.binding) (List.map (Prod.map ρ.var (Ty.rename ρ)))) := by
  induction generics with
  | nil => exact .pure rfl
  | cons g rest ih =>
    obtain ⟨⟨hname, hbounds⟩, hrest⟩ := List.forall_mem_cons.mp hgenerics
    refine .bind follows_freshId fun id => ?_
    have htracer : Ty.tracer (ρ.var id) (g.rename ρ).name = (Ty.tracer id g.name).rename ρ :=
      (Ty.rename_tracer ρ id g.name).symm
    rw [htracer]
    refine .bind (follows_bindType ?_ fun _ => rfl) fun _ =>
      .bind (follows_bindDictionaries hname hbounds) fun _ =>
      .bind (ih hrest) fun more => .pure ?_
    · rintro con ⟨⟩
      exact hname
    · obtain ⟨more, tracers⟩ := more
      simp [Generic.rename]

/-- A parameter with the name that is written. -/
theorem follows_writtenParam {name : Name} (hname : ρ.Fixes name.text) {ty : Ty} :
    Echoes ρ leeway (bindParam name.span name.text ty)
      (bindParam name.span name.text (ty.rename ρ)) ρ.binding := by
  have h : Echoes ρ leeway (bindParam name.span name.text ty) _ _ :=
    follows_bindParam
  rwa [ρ.name_of_fixes hname] at h

theorem follows_bindParams {params : List Param} (hnames : ∀ p ∈ params, ρ.Fixes p.name.text) :
    Echoes ρ leeway (bindParams params) (bindParams params) (List.map ρ.binding) := by
  induction params with
  | nil => exact .pure rfl
  | cons param rest ih =>
    obtain ⟨hname, hrest⟩ := List.forall_mem_cons.mp hnames
    exact .bind follows_typeFor fun _ =>
      .bind (follows_writtenParam hname) fun _ =>
      .bind (ih hrest) fun _ => .pure rfl

/-! Bodies. -/

theorem captures_rename (upvalues : List Upvalue) : captures (upvalues.map (Upvalue.rename ρ)) =
      (captures upvalues).map (Core.Capture.rename ρ) := by
  rw [captures, captures, List.map_map, List.map_map]
  rfl

theorem follows_openClosure {hint : Option Ty} {arity : Nat} {span : Span} :
    Echoes ρ leeway (openClosure hint arity span)
      (openClosure (hint.map (Ty.rename ρ)) arity span) (FuncShape.rename ρ) := by
  refine .bind follows_resolve? fun hint => ?_
  cases hint with
  | none => exact follows_fail rfl
  | some ty =>
    dsimp only [Option.map_some]
    rw [Ty.asFunc?_rename]
    cases ty.asFunc? with
    | none => exact follows_fail rfl
    | some shape =>
      have hlength : (shape.rename ρ).params.length = shape.params.length := List.length_map _
      dsimp only [Option.map_some]
      rw [hlength]
      exact .bind (follows_ensure .rfl rfl) fun _ => .pure rfl

theorem follows_joinWritten {span : Span} {expected : Ty} {written : Option Ty} :
    Echoes ρ leeway (closureParam.joinWritten span expected written)
      (closureParam.joinWritten span (expected.rename ρ) (written.map (Ty.rename ρ)))
      (Ty.rename ρ) := by
  cases written with
  | none => exact .pure rfl
  | some written => exact follows_unify span expected written

theorem follows_closureParam {param : ClosureParam} {expected : Ty} :
    Echoes ρ leeway (closureParam param expected)
      (closureParam param (expected.rename ρ)) (Ty.rename ρ) :=
  .bind follows_typeFor? fun _ =>
    .bind follows_joinWritten fun _ =>
    .bind follows_resolve fun _ =>
    .bind (follows_ensure (by rw [Ty.isVar_rename]) rfl) fun _ => .pure rfl

theorem follows_closureParams {params : List ClosureParam} {expected : List Ty} :
    Echoes ρ leeway (closureParams params expected)
      (closureParams params (expected.map (Ty.rename ρ))) (List.map (Ty.rename ρ)) := by
  induction params generalizing expected with
  | nil => exact .pure rfl
  | cons param params ih =>
    cases expected with
    | nil => exact .pure rfl
    | cons ty rest =>
      exact .bind follows_closureParam fun _ => .bind ih fun _ => .pure rfl

theorem follows_bindClosureParams {params : List ClosureParam} {tys : List Ty}
    (hnames : ∀ p ∈ params, ρ.Fixes p.name.text) : Echoes ρ leeway (bindClosureParams params tys)
      (bindClosureParams params (tys.map (Ty.rename ρ))) (List.map ρ.binding) := by
  induction params generalizing tys with
  | nil => exact .pure rfl
  | cons param params ih =>
    obtain ⟨hname, hrest⟩ := List.forall_mem_cons.mp hnames
    cases tys with
    | nil => exact .pure rfl
    | cons ty rest =>
      exact .bind (follows_writtenParam hname) fun _ =>
        .bind (ih hrest) fun _ => .pure rfl

theorem follows_returning {value : Core.Expr} :
    Echoes ρ leeway (returning value) (returning (value.rename ρ))
      (List.map (Core.Stmt.rename ρ)) := by
  rw [returning, returning, Core.Expr.ty_rename]
  refine .bind follows_resolve fun _ =>
    .ite (by rw [Ty.isVoid_rename]) (.pure ?_) (.pure ?_)
  · simp
  · simp

theorem follows_returnVoid {span : Span} :
    Echoes ρ leeway (returnVoid span) (returnVoid span) id := by
  have hrecord : Echoes ρ leeway (recordReturn .void span) (recordReturn .void span)
      id := by
    have h : Echoes ρ leeway (recordReturn .void span) _ id :=
      follows_recordReturn
    rwa [Ty.rename_void] at h
  refine .get fun s _ _ h => .ite ?_ (.pure rfl) (follows_isolated hrecord)
  rw [h.functions]
  cases s.functions <;> rfl

theorem endWithReturn_rename (stmts : List Core.Stmt) :
    endWithReturn (stmts.map (Core.Stmt.rename ρ)) =
      (endWithReturn stmts).map (Core.Stmt.rename ρ) := by
  have hlast : (stmts.map (Core.Stmt.rename ρ)).getLast?.any (·.isRet) =
      stmts.getLast?.any (·.isRet) := by
    rw [List.getLast?_map, Option.any_map]
    exact congrArg (Option.any · stmts.getLast?) (funext (Core.Stmt.isRet_rename ρ))
  rw [endWithReturn, endWithReturn, hlast]
  split
  · rfl
  · simp

theorem follows_closeBody {span : Span} {stmts : List Core.Stmt} {trailing : Bool} :
    Echoes ρ leeway (closeBody span stmts trailing)
      (closeBody span (stmts.map (Core.Stmt.rename ρ)) trailing) (Core.Block.rename ρ) := by
  have hret : ∀ ret : Option Ty, (ret.map (Ty.rename ρ)).getD .void = (ret.getD .void).rename ρ :=
    fun ret => by
      cases ret with
      | none => exact (Ty.rename_void ρ).symm
      | some ty => rfl
  cases trailing with
  | true =>
    refine .bind follows_currentReturn fun _ => .pure ?_
    rw [Core.Block.rename_mk, hret]
  | false =>
    refine .bind follows_returnVoid fun _ => .bind follows_currentReturn fun _ => .pure ?_
    rw [Core.Block.rename_mk, hret, endWithReturn_rename]

/-! Implementations. -/

def Impl.rename (ρ : Renaming) (impl : Impl) : Impl :=
  ⟨impl.decl.rename ρ, impl.target.rename ρ, ρ.binding impl.binding⟩

/-- A written type without parameters is written without ids. -/
theorem toTy_displayed {scope : Scope} {adts : AdtTable} {written : TypeExpr} {ty : Ty} {con : Con}
    {more : String → Option Ty} (hscope : scope.Every (Scope.displayed ρ more))
    (hty : written.toTy scope adts = .ok ty) (hparams : ty.params = [])
    (hcon : ty.con? = some con) : ρ.Fixes con.display := by
  rcases stored_or_unit_of_toTy hty hparams with ⟨name, hstored⟩ | rfl
  · obtain ⟨_, _, hdisplayed, _⟩ := hscope.type? hstored
    exact hdisplayed con hcon
  · cases hcon
    exact .inl (by decide)

theorem follows_openImpl {bound : Name} {written : TypeExpr} {span : Span} :
    Echoes ρ leeway (openImpl bound written span) (openImpl bound written span)
      (Impl.rename ρ) := by
  refine .get fun s _ hplain h => ?_
  rw [h.registry.trait?]
  cases hdecl : s.registry.trait? bound.text with
  | none => exact follows_fail rfl
  | some decl =>
    refine .bind_of follows_typeFor fun target htarget => ?_
    dsimp only
    rw [Ty.con?_rename]
    cases hcon : target.con? with
    | none => exact follows_fail rfl
    | some con =>
      have hparams : (target.rename ρ).params.isEmpty = target.params.isEmpty := by
        rw [Ty.params_rename, List.isEmpty_map]
      refine .bind_of (follows_ensure (by rw [hparams]) rfl) fun _ hempty => ?_
      have hdisplay : ρ.Fixes con.display := by
        obtain ⟨t, t', htypes, hrun⟩ := htarget
        obtain ⟨_, _, _, hrun'⟩ := hempty
        exact toTy_displayed htypes.types (Yields.typeFor hrun).1
          (List.isEmpty_iff.mp (Yields.ensure hrun').1) hcon
      have hname : ρ.Fixes s!"${decl.name}<{con.display}>" := by
        have happend : s!"${decl.name}<{con.display}>" =
            "$" ++ decl.name ++ "<" ++ con.display ++ ">" := rfl
        rw [happend]
        exact .append (.append (.append (.append (.inl (by decide)) (hplain.traits _ _ hdecl).2)
          (.inl (by decide))) hdisplay) (.inl (by decide))
      refine .bind follows_freshBinding fun binding => ?_
      have hprovide : Echoes ρ leeway (provide span target decl.name
          (.binding s!"${decl.name}<{con.display}>" binding)) _ id :=
        follows_provide
      rw [Evidence.rename, ρ.name_of_fixes hname] at hprovide
      have hvalue : Echoes ρ leeway (bindValue s!"${decl.name}<{con.display}>"
          { kind := .binding binding, ty := (Impl.mk decl target binding).dictionaryType }) _ id :=
        follows_bindValue hname
      rw [Con.display_rename]
      exact .bind hprovide fun _ => .bind hvalue fun _ => .pure rfl

theorem follows_methodType {impl : Impl} {sig : Ty} {span : Span} :
    Echoes ρ leeway (impl.methodType sig span)
      ((impl.rename ρ).methodType (sig.rename ρ) span) (Ty.rename ρ) := by
  have hmap : [((impl.rename ρ).decl.selfVar.id, (impl.rename ρ).target)] =
      [(impl.decl.selfVar.id, impl.target)].map (Prod.map ρ.var (Ty.rename ρ)) := rfl
  rw [Impl.methodType, Impl.methodType, hmap, ← Ty.rename_substitute, Ty.asFunc?_rename]
  cases (sig.substitute [(impl.decl.selfVar.id, impl.target)]).asFunc? with
  | none => exact follows_fail rfl
  | some shape => exact .pure (Ty.rename_func ρ shape.params shape.ret).symm

end Checker

end TraitCheck
