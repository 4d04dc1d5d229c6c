import TraitCheck.Proofs.ShapedState

/-!
Every step of the checker outside the walk keeps states well shaped. A step that
opens a frame, a function or a unit does so if its body does. What a step returns
is shaped if what it was given is; where it fails, so are the types that it names.
-/

namespace TraitCheck

theorem Core.Expr.ty_mem_types (e : Core.Expr) : e.ty ∈ e.types := by
  obtain ⟨kind, ty⟩ := e
  rw [types]
  exact List.mem_cons_self

theorem Extent.Covers.ty {e : Extent} {v : Core.Expr} (h : e.Covers v.types) : e.Shapes v.ty :=
  h _ v.ty_mem_types

/-- A tracer in a shaped type is drawn. -/
theorem Ty.Shaped.con_below {arity : String → Option Nat} {next : Nat} {t : Ty} {con : Con}
    (h : t.Shaped arity next) (hcon : t.con? = some con) : con.Below next := by
  rintro id name rfl
  cases t with
  | var v => cases hcon
  | app head args =>
    obtain ⟨con, size, bounds⟩ := head
    cases hcon
    exact (Formed.admits h).2.2.2

/-! What the steps hand on to each other. -/

def Checker.Instance.types (inst : Checker.Instance) : List Ty :=
  inst.ty :: inst.map.map Prod.snd

namespace Extent

open Checker (Callee Generic Signature Impl Match)

/-- The function that is called, if it is an expression, is shaped. -/
def Calls (e : Extent) : Callee → Prop
  | .expr v => e.Covers v.types
  | .builtin _ | .method _ => True

/-- A function type taken apart. -/
structure Opens (e : Extent) (shape : FuncShape) : Prop where
  obligations : ∀ o ∈ shape.obligations, e.Shapes o.ty
  params : e.Covers shape.params
  ret : e.Shapes shape.ret

/-- The variable is drawn, and its bounds are declared traits. -/
structure Declares (e : Extent) (g : Generic) : Prop where
  var : g.var.id < e.vars
  bounds : ∀ bound ∈ g.bounds, (e.slots bound).isSome = true

structure Signs (e : Extent) (sig : Signature) : Prop where
  generics : ∀ g ∈ sig.generics, e.Declares g
  params : e.Covers sig.params
  ret : e.Shapes sig.ret

structure Implements (e : Extent) (impl : Impl) : Prop where
  decl : e.Covers impl.decl.types
  target : e.Shapes impl.target
  dictionary : e.Shapes impl.dictionaryType

structure Matches (e : Extent) (m : Match) : Prop where
  ty : e.Shapes m.ty
  adt : e.Shapes m.adt.ty
  tags : ∀ fields ∈ m.tags.values, e.Covers fields.values

variable {e e' : Extent}

theorem Within.calls (h : e.Within e') {callee : Callee} (hcallee : e.Calls callee) :
    e'.Calls callee := by
  cases callee with
  | expr v => exact h.covers hcallee
  | builtin op => trivial
  | method index => trivial

theorem Within.opens (h : e.Within e') {shape : FuncShape} (hshape : e.Opens shape) :
    e'.Opens shape :=
  ⟨fun o ho => h.shapes (hshape.obligations o ho), h.covers hshape.params, h.shapes hshape.ret⟩

theorem Within.declares (h : e.Within e') {g : Generic} (hg : e.Declares g) : e'.Declares g where
  var := lt_of_lt_of_le hg.var h.vars
  bounds := fun bound hbound => h.isSome_slots (hg.bounds bound hbound)

theorem Within.signs (h : e.Within e') {sig : Signature} (hsig : e.Signs sig) : e'.Signs sig :=
  ⟨fun g hg => h.declares (hsig.generics g hg), h.covers hsig.params, h.shapes hsig.ret⟩

theorem Within.implements (h : e.Within e') {impl : Impl} (himpl : e.Implements impl) :
    e'.Implements impl :=
  ⟨h.covers himpl.decl, h.shapes himpl.target, h.shapes himpl.dictionary⟩

theorem Within.matches (h : e.Within e') {m : Match} (hm : e.Matches m) : e'.Matches m :=
  ⟨h.shapes hm.ty, h.shapes hm.adt, fun fields hfields => h.covers (hm.tags fields hfields)⟩

end Extent

namespace Checker

open Surface (TypeExpr GenericParam FieldDecl TagDecl MethodSig FuncDecl Param ClosureParam
  CaseBinding Pattern FieldRef)

variable {α β : Type} {s s' : Checker} {t : Ty} {ts : List Ty} {span : Span}

/-! Changes of the scope. -/

variable {scope : Scope} {name : String}

/-- The innermost frame has changed, and bindings may have been made. -/
theorem WellShaped.setTop (hs : WellShaped s) (hbinding : s.scope.nextBinding ≤ scope.nextBinding)
    (hbelow : scope.below = s.scope.below)
    (htypes : ∀ name, s.scope.top.types.contains name = true →
      scope.top.types.contains name = true) (hscope : scope.Every (extent { s with scope }).rules) :
    Reaches s { s with scope } := by
  refine hs.setScope hbinding hscope fun name hname => ?_
  have heq : scope = { scope with below := s.scope.below } := by rw [← hbelow]
  rw [heq]
  exact Scope.contains_root_setTop scope.top htypes hname

theorem leaves_bindValue {value : Value}
    (htypes : s.extent.Covers value.types) (hkind : s.extent.Knows value.kind) :
    Leaves s (bindValue name value) fun _ _ => True :=
  .update (fun hs => hs.setTop (le_refl _) rfl (fun _ h => h)
    (hs.scope.bindValue ⟨htypes, hkind⟩)) trivial

theorem leaves_bindType {ty : Ty} (h : s.extent.Writes ty) :
    Leaves s (bindType name ty) fun _ _ => True :=
  .update (fun hs => hs.setTop (le_refl _) rfl (fun _ h => Assoc.contains_insert h)
    (hs.scope.bindType h)) trivial

theorem leaves_setValueType {ty : Ty} (h : s.extent.Shapes ty) :
    Leaves s (setValueType name ty) fun _ _ => True := by
  refine .update (fun hs => hs.setTop (le_refl _) rfl (fun _ h => h) (hs.scope.setValueType ?_))
    trivial
  intro value _ hvalue
  exact ⟨Extent.covers_cons.mpr ⟨h, (Extent.covers_cons.mp hvalue.1).2⟩, hvalue.2⟩

/-- A value in a binding of its own. -/
theorem WellShaped.bindLocal (hs : WellShaped s) (name : String) {ty : Ty}
    (h : s.extent.Shapes ty) : Reaches s { s with scope := (s.scope.bindLocal name ty).2 } := by
  have hwithin : s.extent.Within (extent { s with scope := (s.scope.bindLocal name ty).2 }) :=
    within_congr rfl rfl (le_refl _) (Nat.le_succ _)
  refine hs.setTop (Nat.le_succ _) rfl (fun _ h => h) ?_
  have hevery : s.scope.freshBinding.2.Every
      (extent { s with scope := (s.scope.bindLocal name ty).2 }).rules := hwithin.rules hs.scope
  refine hevery.bindValue ⟨?_, Nat.lt_succ_self _⟩
  exact Extent.covers_cons.mpr ⟨hwithin.shapes h, Extent.covers_nil.mpr trivial⟩

theorem leaves_bindLocal {ty : Ty} (h : s.extent.Shapes ty) :
    Leaves s (bindLocal name ty) fun e id => id < e.bindings :=
  .change (·.bindLocal name h) (Nat.lt_succ_self _)

theorem leaves_bindParam {ty : Ty} (h : s.extent.Shapes ty) :
    Leaves s (bindParam span name ty) fun e id => id < e.bindings := by
  refine .get ?_
  rw [Scope.bindParam]
  split
  · exact .bind (P := fun _ _ => False) (.fail .nil) fun _ _ _ _ h => h.elim
  · intro hs
    have hreaches := hs.bindLocal name h
    exact ⟨hreaches, fun _ heq => by cases heq; exact Nat.lt_succ_self _, by rintro _ ⟨⟩⟩

theorem leaves_lookup? {name : String} :
    Leaves s (lookup? name) fun e value => ∀ v, value = some v →
      e.Covers v.types ∧ e.Knows v.kind := by
  refine .of fun hs => ?_
  obtain ⟨hvalue, hscope⟩ := hs.scope.getValue s.extent.captures_rules name
  have hsteady := Scope.steady_getValue s.scope name
  have hwithin : s.extent.Within (extent { s with scope := (s.scope.getValue name).2 }) :=
    within_congr rfl rfl (le_refl _) (le_of_eq hsteady.next.symm)
  refine .change (fun _ => hs.setScope (le_of_eq hsteady.next.symm) (hwithin.rules hscope) ?_) ?_
  · intro other hother
    rw [hsteady.types_root]
    exact hother
  · intro v hv
    obtain ⟨depth, htypes, hkind⟩ := hvalue v hv
    exact ⟨hwithin.covers htypes, hwithin.knows hkind⟩

/-! Frames, functions and units. -/

theorem extent_scope (h : scope.nextBinding = s.scope.nextBinding) :
    extent { s with scope } = s.extent := by
  rw [extent, extent, h]
  rfl

/-- The outermost frame has the same types. -/
theorem WellShaped.reframe (hs : WellShaped s) (hnext : scope.nextBinding = s.scope.nextBinding)
    (hscope : scope.Every s.extent.rules) (hroot : scope.root.types = s.scope.root.types) :
    Reaches s { s with scope } := by
  refine hs.setScope (le_of_eq hnext.symm) ?_ fun _ hname => ?_
  · rw [extent_scope hnext]
    exact hscope
  · rw [hroot]
    exact hname

namespace Leaves

variable {body : CheckM α} {Q : Extent → α → Prop}

/-- A body that runs in a changed state and is followed by a change of state. -/
theorem bracket {x : CheckM α} {s0 : Checker} {k : Checker → Checker}
    (hrun : x.run.run s = ((body.run.run s0).1, k (body.run.run s0).2)) (henter : Reaches s s0)
    (h : ∀ s1, Reaches s s1 → Leaves s1 body Q)
    (hleave : ∀ s1, Reaches s0 s1 → Reaches s1 (k s1) ∧ (k s1).extent = s1.extent) :
    Leaves s x Q := by
  intro _
  obtain ⟨hreaches, hok, herror⟩ := h s0 henter henter.shaped
  obtain ⟨hback, hextent⟩ := hleave _ hreaches
  refine ⟨?_, ?_, ?_⟩
  all_goals rw [hrun]
  · exact (henter.trans hreaches).trans hback
  · exact hextent.symm ▸ hok
  · exact hextent.symm ▸ herror

theorem inScope (h : ∀ s1, Reaches s s1 → Leaves s1 body Q) : Leaves s (inScope body) Q := by
  refine .of fun hs => ?_
  refine .bracket (k := fun s1 => { s1 with scope := s1.scope.pop }) rfl ?_ h fun s1 h1 => ?_
  · exact hs.reframe rfl hs.scope.push (congrArg Frame.types (Scope.root_enter _ _))
  · have hnext := Scope.nextBinding_pop s1.scope
    exact ⟨h1.shaped.reframe hnext h1.shaped.scope.pop (congrArg Frame.types (Scope.root_pop _)),
      extent_scope hnext⟩

theorem inFunctionFrame (h : ∀ s1, Reaches s s1 → Leaves s1 body Q) :
    Leaves s (inFunctionFrame body) fun e r => Q e r.1 ∧ e.Covers (r.2.map (·.ty)) := by
  intro hs
  have hpush : Reaches s { s with scope := s.scope.pushFunction } :=
    hs.reframe rfl hs.scope.pushFunction (congrArg Frame.types (Scope.root_enter _ _))
  obtain ⟨hreaches, hok, herror⟩ := h _ hpush hpush.shaped
  cases hrun : body.run.run { s with scope := s.scope.pushFunction } with
  | mk r s1 =>
    rw [hrun] at hreaches hok herror
    have hsteady := Scope.steady_popFunction s1.scope
    have hnext := hsteady.next.trans (Scope.nextBinding_pop _)
    obtain ⟨hups, hevery⟩ := hreaches.shaped.scope.popFunction
    have hpop := hreaches.shaped.reframe hnext hevery
      (hsteady.types_root.trans (congrArg Frame.types (Scope.root_pop _)))
    have hrun' : (Checker.inFunctionFrame body).run.run s =
        (r.map (·, s1.scope.popFunction.1), { s1 with scope := s1.scope.popFunction.2 }) := by
      have hpair := congrArg (fun p : _ × Checker => (Except.map (·, p.2.scope.popFunction.1) p.1,
        { p.2 with scope := p.2.scope.popFunction.2 })) hrun
      exact hpair
    refine ⟨?_, ?_, ?_⟩
    all_goals rw [hrun']
    · exact (hpush.trans hreaches).trans hpop
    · intro b hb
      obtain ⟨a, ha, rfl⟩ := Except.map_eq_ok hb
      rw [extent_scope hnext]
      exact ⟨hok a ha, Extent.covers_map.mpr fun up hup => (hups up hup).1.1⟩
    · intro e he
      rw [extent_scope hnext]
      exact herror e (Except.map_eq_error he)

/-- Only the functions around have changed. -/
theorem inFunction {declared : Option Ty}
    (hdeclared : s.extent.Covers declared.toList) (h : ∀ s1, Reaches s s1 → Leaves s1 body Q) :
    Leaves s (inFunction declared body) Q := by
  refine .of fun hs => ?_
  refine .bracket (k := fun s1 => { s1 with functions := s1.functions.tail }) rfl
    (hs.setFunctions (List.forall_mem_cons.mpr ⟨hdeclared, hs.functions⟩)) h fun _ h1 => ?_
  exact ⟨h1.shaped.setFunctions fun f hf => h1.shaped.functions f (List.mem_of_mem_tail hf), rfl⟩

theorem isolated (h : ∀ s1, Reaches s s1 → Leaves s1 body Q) : Leaves s (isolated body) Q := by
  refine .of fun hs => ?_
  have hclear : Reaches s { s with unifier := { s.unifier with subst := {} } } :=
    hs.setUnifier (le_refl _) (by rintro _ _ ⟨⟩)
  refine .bracket
    (k := fun s1 => { s1 with unifier := { s1.unifier with subst := s.unifier.subst } }) rfl
    hclear h fun _ h1 => ?_
  exact ⟨h1.shaped.setUnifier (le_refl _) fun id t ht =>
    (hclear.trans h1).shapes (hs.unifier id t ht), rfl⟩

theorem topLevel {what : String} {f : Unit → CheckM α}
    (h : s.scope.below = [] → Leaves s (f ()) Q) :
    Leaves s (requireTopLevel what span >>= f) Q := by
  rw [requireTopLevel, bind_assoc]
  exact .get (.ensure .nil fun hroot => h (List.isEmpty_iff.mp hroot))

end Leaves

theorem leaves_inUnit {body : CheckM (List Core.Stmt)}
    (h : ∀ s1, Reaches s s1 → Leaves s1 body fun e stmts => e.Covers (Core.typesStmts stmts)) :
    Leaves s (inUnit body) fun e stmts => e.Covers (Core.typesStmts stmts) := by
  refine .isolated fun s1 h1 => .bind (h s1 h1) fun _ _ _ h2 hstmts => ?_
  refine .get (.pure ?_)
  rw [Core.types_mapTyStmts]
  exact h2.shaped.covers_resolve hstmts

theorem leaves_expecting {expected : Ty} (hexpected : s.extent.Shapes expected)
    {check : Option Ty → CheckM Core.Expr}
    (hcheck : ∀ hint, s.extent.Covers hint.toList → Leaves s (check hint) fun e v => e.Covers v.types) :
    Leaves s (expecting expected span check) fun e v => e.Covers v.types := by
  refine .of fun hs => ?_
  refine .resolve (.bind (hcheck _ ?_) fun _ _ _ h1 hv => ?_)
  · exact Extent.covers_toList.mpr fun _ ht => Option.some.inj ht ▸ hs.resolve hexpected
  · exact .bind (leaves_unify (h1.shapes hexpected) hv.ty) fun _ _ _ h2 _ =>
      .pure (h2.covers hv)

/-! Returns. -/

variable {value : Core.Expr} {stmts : List Core.Stmt} {e : Extent}

theorem WellShaped.covers_return (hs : WellShaped s) :
    s.extent.Covers (s.functions.head?.bind (·.ret)).toList := by
  cases hfunctions : s.functions with
  | nil => exact .nil
  | cons f rest => exact hs.functions f (hfunctions ▸ List.mem_cons_self)

theorem leaves_currentReturn : Leaves s currentReturn fun e ret => e.Covers ret.toList :=
  .of fun hs => .get (.pure hs.covers_return)

theorem leaves_requireFunction : Leaves s (requireFunction span) fun _ _ => True := by
  rw [requireFunction, ← bind_pure (get >>= _), bind_assoc]
  exact .get (.ensure .nil fun _ => .pure trivial)

theorem leaves_recordReturn {ty : Ty} (hty : s.extent.Shapes ty) :
    Leaves s (recordReturn ty span) fun _ _ => True := by
  refine .bind leaves_requireFunction fun _ _ _ h1 _ => ?_
  refine .bind leaves_currentReturn fun _ _ _ h2 hret => ?_
  refine .bind (leaves_join hret ((h1.trans h2).shapes hty)) fun _ _ _ h3 hty' => ?_
  refine .resolve (.update (·.setFunctions ?_) trivial)
  refine List.forall_mem_cons.mpr ⟨?_, fun f hf => h3.shaped.functions f (List.mem_of_mem_tail hf)⟩
  exact Extent.covers_toList.mpr fun _ ht => Option.some.inj ht ▸ h3.shaped.resolve hty'

theorem leaves_returning (hv : s.extent.Covers value.types) :
    Leaves s (returning value) fun e stmts => e.Covers (Core.typesStmts stmts) := by
  refine .resolve ?_
  split
  · refine .pure ?_
    simpa [Core.typesStmts, Core.Stmt.types] using hv
  · refine .pure ?_
    simpa [Core.typesStmts, Core.Stmt.types] using hv

theorem leaves_returnVoid : Leaves s (returnVoid span) fun _ _ => True := by
  refine .get ?_
  split
  · exact .pure trivial
  · exact .isolated fun _ h1 => leaves_recordReturn h1.shaped.shapes_void

theorem covers_endWithReturn (h : e.Covers (Core.typesStmts stmts)) :
    e.Covers (Core.typesStmts (endWithReturn stmts)) := by
  rw [endWithReturn]
  split
  · exact h
  · rw [Core.typesStmts_eq_flatMap] at h ⊢
    rw [List.flatMap_append]
    simpa [Core.Stmt.types] using h

theorem leaves_closeBody {trailing : Bool} (h : s.extent.Covers (Core.typesStmts stmts)) :
    Leaves s (closeBody span stmts trailing) fun e block => e.Covers block.types := by
  refine .of fun hs => ?_
  have hret : ∀ {s : Checker}, WellShaped s →
      s.extent.Shapes ((s.functions.head?.bind (·.ret)).getD .void) := by
    intro s hs
    cases hret : s.functions.head?.bind (·.ret) with
    | none => exact hs.shapes_void
    | some ty => exact hs.covers_return ty (by rw [hret]; exact List.mem_cons_self)
  unfold closeBody
  split
  · refine .get (.pure ?_)
    rw [Core.Block.types]
    exact Extent.covers_cons.mpr ⟨hret hs, h⟩
  · refine .bind leaves_returnVoid fun _ _ _ h1 _ => .get (.pure ?_)
    rw [Core.Block.types]
    exact Extent.covers_cons.mpr ⟨hret h1.shaped, covers_endWithReturn (h1.covers h)⟩

/-! Written types. -/

theorem WellShaped.writes_toTy (hs : WellShaped s) {written : TypeExpr} {ty : Ty}
    (h : written.toTy s.scope s.adts = .ok ty) : s.extent.Writes ty := by
  refine formed_toTy (s := s) ?_ h
  intro name ty hty _
  obtain ⟨_, _, hwrites⟩ := hs.scope.type? hty
  exact hwrites

theorem leaves_typeFor {written : TypeExpr} :
    Leaves s (typeFor written) fun e ty => e.Writes ty := by
  refine .of fun hs => ?_
  refine .get ?_
  split
  · rename_i ty hty
    exact .pure (hs.writes_toTy hty)
  · rename_i failed hfailed
    refine .throw ?_
    rw [(failure_toTy hfailed).types]
    exact .nil

theorem leaves_typesFor {written : List TypeExpr} :
    Leaves s (typesFor written) fun e tys => e.Covers tys := by
  induction written generalizing s with
  | nil => exact .pure .nil
  | cons w rest ih =>
    refine .bind leaves_typeFor fun _ _ _ _ hty => .bind ih ?_
    intro tys s2 _ h2 htys
    exact .pure (Extent.covers_cons.mpr ⟨h2.shapes hty.shapes, htys⟩)

theorem leaves_typeFor? {written : Option TypeExpr} :
    Leaves s (typeFor? written) fun e ty => e.Covers ty.toList := by
  cases written with
  | none => exact .pure .nil
  | some written =>
    refine .bind leaves_typeFor fun _ _ _ _ hty => .pure ?_
    exact Extent.covers_toList.mpr fun _ ht => Option.some.inj ht ▸ hty.shapes

/-! References and calls. -/

variable {bound : Trait} {callee : Callee} {args : List Core.Expr}

theorem leaves_lookupValue :
    Leaves s (lookupValue name span) fun e value => e.Covers value.types ∧ e.Knows value.kind := by
  refine .bind leaves_lookup? fun _ _ _ _ hvalue => ?_
  split
  · exact .pure (hvalue _ rfl)
  · exact .fail .nil

theorem leaves_reference : Leaves s (reference name span) fun e v => e.Covers v.types := by
  refine .bind leaves_lookupValue fun _ _ _ _ hvalue => ?_
  split
  · refine .bind (leaves_instantiate (hvalue.1 _ List.mem_cons_self)) ?_
    intro ty s2 _ h2 hty
    refine .pure ?_
    rw [Core.Expr.types, Core.ExprKind.types]
    exact Extent.covers_singleton.mpr hty
  · exact .fail .nil

theorem leaves_namedCallee :
    Leaves s (namedCallee name span) fun e r => e.Calls r.1 ∧ e.Shapes r.2 := by
  refine .bind leaves_lookupValue fun _ _ _ _ hvalue => ?_
  refine .bind (leaves_instantiate (hvalue.1 _ List.mem_cons_self)) ?_
  intro ty s2 _ h2 hty
  split
  · refine .pure ⟨?_, hty⟩
    change s2.extent.Covers (Core.Expr.types _)
    rw [Core.Expr.types, Core.ExprKind.types]
    exact Extent.covers_singleton.mpr hty
  · exact .pure ⟨trivial, hty⟩
  · exact .pure ⟨trivial, hty⟩

theorem leaves_calleeOf {callee : Surface.Expr} {check : CheckM Core.Expr}
    (h : Leaves s check fun e v => e.Covers v.types) :
    Leaves s (calleeOf callee check) fun e r => e.Calls r.1 ∧ e.Shapes r.2 := by
  unfold calleeOf
  split
  · exact leaves_namedCallee
  · exact .bind h fun _ _ _ _ hv => .pure ⟨hv, hv.ty⟩

theorem leaves_openCall {ty : Ty} (hty : s.extent.Shapes ty) :
    Leaves s (openCall ty span) fun e shape => e.Opens shape := by
  refine .of fun hs => ?_
  refine .resolve ?_
  split
  · rename_i shape hshape
    obtain ⟨hobligations, hparams, hret⟩ := (hs.resolve hty).shape hshape
    exact .pure ⟨hobligations, hparams, hret⟩
  · exact .failAt (hs.resolve hty) rfl

theorem covers_require {registry : Registry} {failure : Failure} (ht : e.Shapes t)
    (h : registry.require t bound = .error failure) : e.Covers failure.types := by
  cases t with
  | var v =>
    cases h
    exact Extent.covers_singleton.mpr ht
  | app head args =>
    rw [Registry.require] at h
    split at h
    · cases h
    · cases h
      exact Extent.covers_singleton.mpr ht

theorem WellShaped.isDeclared_of_require (hs : WellShaped s) {evidence : Evidence}
    (h : s.registry.require t bound = .ok evidence) : s.registry.isDeclared bound = true := by
  obtain ⟨con, _, hlookup⟩ := Registry.lookup_of_require h
  exact isSome_slots ▸ (hs.evidence con bound _ hlookup).declared

theorem leaves_dictionary {o : Obligation} (ho : s.extent.Shapes o.ty) :
    Leaves s (dictionary span o) fun e v => e.Covers v.types := by
  refine .of fun hs => ?_
  have hty := hs.resolve ho
  refine .resolve (.get (.bind
    (P := fun e _ => e.Shapes (dictionaryType o.bound (s.unifier.resolve o.ty)))
    (.ofExcept (fun _ h => ?_) fun _ h => covers_require hty h) fun _ _ _ _ hdict => ?_))
  · exact hs.shapes_dictionary (hs.isDeclared_of_require h) hty
  · split
    · refine .pure ?_
      rw [Core.Expr.types, Core.ExprKind.types, Core.typesExprs]
      exact Extent.covers_singleton.mpr hdict
    · refine .bind leaves_lookup? fun _ _ _ h2 _ => .ensure .nil fun _ => ?_
      refine .pure ?_
      rw [Core.Expr.types, Core.ExprKind.types]
      exact Extent.covers_singleton.mpr (h2.shapes hdict)

theorem leaves_dictionaries {os : List Obligation} (hos : ∀ o ∈ os, s.extent.Shapes o.ty) :
    Leaves s (dictionaries span os) fun e vs => e.Covers (Core.typesExprs vs) := by
  induction os generalizing s with
  | nil => exact .pure .nil
  | cons o rest ih =>
    obtain ⟨ho, hrest⟩ := List.forall_mem_cons.mp hos
    refine .bind (leaves_dictionary ho) fun _ _ _ h1 hv => ?_
    refine .bind (ih fun o' ho' => h1.shapes (hrest o' ho')) fun _ _ _ h2 hvs => ?_
    exact .pure (Extent.covers_append.mpr ⟨h2.covers hv, hvs⟩)

theorem typesExprs_append (vs ws : List Core.Expr) :
    Core.typesExprs (vs ++ ws) = Core.typesExprs vs ++ Core.typesExprs ws := by
  rw [Core.typesExprs_eq_flatMap, Core.typesExprs_eq_flatMap, Core.typesExprs_eq_flatMap,
    List.flatMap_append]

theorem leaves_applied {dicts : List Core.Expr} {params : List Ty} {ret : Ty}
    (hcallee : s.extent.Calls callee) (hdicts : s.extent.Covers (Core.typesExprs dicts))
    (hargs : s.extent.Covers (Core.typesExprs args)) (hparams : s.extent.Covers params)
    (hret : s.extent.Shapes ret) :
    Leaves s (applied callee dicts args params ret span) fun e v => e.Covers v.types := by
  unfold applied
  split
  · refine .pure ?_
    rw [Core.Expr.types, Core.ExprKind.types, typesExprs_append]
    exact Extent.covers_cons.mpr ⟨hret, Extent.covers_append.mpr ⟨hdicts, hargs⟩⟩
  · refine .pure ?_
    rw [Core.Expr.types, Core.ExprKind.types, typesExprs_append]
    exact Extent.covers_cons.mpr ⟨hret, Extent.covers_append.mpr
      ⟨hcallee, Extent.covers_append.mpr ⟨hdicts, hargs⟩⟩⟩
  · refine .pure ?_
    rw [Core.typesExprs, Extent.covers_append] at hdicts
    rw [Core.Expr.types, Core.ExprKind.types, Core.Expr.types, Core.ExprKind.types]
    exact Extent.covers_cons.mpr ⟨hret, Extent.covers_append.mpr
      ⟨Extent.covers_cons.mpr ⟨Extent.shapes_func hparams hret, hdicts.1⟩, hargs⟩⟩
  · exact .fail .nil

theorem leaves_closeCall {shape : FuncShape} (hcallee : s.extent.Calls callee)
    (hshape : s.extent.Opens shape) (hargs : s.extent.Covers (Core.typesExprs args)) :
    Leaves s (closeCall callee shape args span) fun e v => e.Covers v.types := by
  refine .bind (leaves_dictionaries hshape.obligations) fun _ _ _ h1 hdicts => ?_
  have hshape1 := h1.within.opens hshape
  have hret := h1.shaped.resolve hshape1.ret
  refine .resolve (.ensure (Extent.covers_singleton.mpr hret) fun _ => .get ?_)
  exact leaves_applied (h1.within.calls hcallee) hdicts (h1.covers hargs)
    (h1.shaped.covers_resolve hshape1.params) hret

/-! Structs, enums, tuples and arrays. -/

variable {adt : Adt} {fields : Fields} {hint : Option Ty}

theorem leaves_instantiateAdt (hadt : s.extent.Shapes adt.ty) :
    Leaves s (instantiateAdt adt) fun e inst => e.Covers inst.types := by
  refine .change (·.draw (Nat.le_add_right _ _)) ?_
  refine Extent.covers_cons.mpr ⟨hadt.relabel adt.generics, ?_⟩
  exact Extent.covers_map.mpr (Ty.shaped_relabelling _ _)

theorem Instance.shapes_fieldType {inst : Instance} (hinst : e.Covers inst.types)
    (ht : e.Shapes t) : e.Shapes (inst.fieldType t) :=
  ht.substitute (le_refl _) (Extent.covers_map.mp (Extent.covers_cons.mp hinst).2)

theorem leaves_lookupAdt {name : Name} :
    Leaves s (lookupAdt name) fun e adt => e.Covers adt.types := by
  refine .of fun hs => ?_
  refine .get ?_
  split
  · rename_i adt hfind
    exact .pure (hs.adts name.text adt hfind).2
  · exact .fail .nil

theorem leaves_constructedFields (hadt : s.extent.Covers adt.types) {tag : Option Name} :
    Leaves s (constructedFields adt tag span) fun e r => e.Covers r.2.values := by
  have hkind := (Extent.covers_cons.mp hadt).2
  unfold constructedFields
  split
  · rename_i fields heq
    rw [heq] at hkind
    exact .pure hkind
  · rename_i tags tag heq
    rw [heq] at hkind
    split
    · rename_i index fields hlocate
      have hmem := List.mem_of_getElem? (Assoc.getElem?_of_locate? hlocate).2
      exact .pure (Extent.covers_flatMap.mp hkind fields hmem)
    · exact .fail .nil
  · exact .fail .nil
  · exact .fail .nil
  · exact .fail .nil

theorem covers_constructed {ty : Ty} (tag : Option Nat) {values : List Core.Expr}
    (hty : e.Shapes ty) (hvalues : e.Covers (Core.typesExprs values)) :
    e.Covers (Core.Expr.types ⟨constructed tag values, ty⟩) := by
  rw [Core.Expr.types]
  refine Extent.covers_cons.mpr ⟨hty, ?_⟩
  unfold constructed
  split
  · rw [Core.ExprKind.types]
    exact .nil
  · rw [Core.ExprKind.types]
    exact hvalues

theorem WellShaped.covers_of (hs : WellShaped s) {ty : Ty} (h : s.adts.of? ty = some adt) :
    s.extent.Covers adt.types := by
  rw [AdtTable.of?] at h
  split at h
  · exact (hs.adts _ adt h).2
  · cases h

theorem WellShaped.covers_struct (hs : WellShaped s) {ty : Ty}
    (h : s.adts.struct? ty = some (adt, fields)) :
    s.extent.Shapes adt.ty ∧ s.extent.Covers fields.values := by
  obtain ⟨adt', hof, h⟩ := Option.bind_eq_some_iff.mp h
  obtain ⟨fields', hfields, heq⟩ := Option.bind_eq_some_iff.mp h
  cases heq
  obtain ⟨hadt, hkind⟩ := Extent.covers_cons.mp (hs.covers_of hof)
  rw [Adt.fields?] at hfields
  split at hfields
  · rename_i hstruct
    cases hfields
    rw [hstruct] at hkind
    exact ⟨hadt, hkind⟩
  · cases hfields

theorem WellShaped.covers_enum (hs : WellShaped s) {ty : Ty} {found : Adt × Assoc String Fields}
    (h : s.adts.enum? ty = some found) :
    s.extent.Shapes found.1.ty ∧ ∀ fields ∈ found.2.values, s.extent.Covers fields.values := by
  obtain ⟨adt, hof, h⟩ := Option.bind_eq_some_iff.mp h
  obtain ⟨tags, htags, heq⟩ := Option.bind_eq_some_iff.mp h
  cases heq
  obtain ⟨hadt, hkind⟩ := Extent.covers_cons.mp (hs.covers_of hof)
  rw [Adt.tags?] at htags
  split at htags
  · rename_i henum
    cases htags
    rw [henum] at hkind
    exact ⟨hadt, Extent.covers_flatMap.mp hkind⟩
  · cases htags

theorem leaves_fieldOf {target : Ty} (hadt : s.extent.Shapes adt.ty)
    (hfields : s.extent.Covers fields.values) (htarget : s.extent.Shapes target) {field : String} :
    Leaves s (fieldOf adt fields target field span) fun e r => e.Shapes r.2 := by
  refine .of fun hs => ?_
  unfold fieldOf
  split
  · exact .resolve (.failAt (hs.resolve htarget) rfl)
  · rename_i index ty hlocate
    have hty := hfields ty (List.mem_of_getElem? (Assoc.getElem?_of_locate? hlocate).2)
    refine .bind (leaves_instantiateAdt hadt) fun _ _ _ h1 hinst => ?_
    refine .bind (leaves_unify (hinst _ List.mem_cons_self) (h1.shapes htarget)) ?_
    intro _ s2 _ h2 _
    refine .resolve (.pure (h2.shaped.resolve ?_))
    exact Instance.shapes_fieldType (h2.covers hinst) ((h1.trans h2).shapes hty)

theorem leaves_selected {ty : Ty} (hty : s.extent.Shapes ty) {field : FieldRef}
    {targetSpan : Span} : Leaves s (selected ty field targetSpan span) fun e r => e.Shapes r.2 := by
  refine .of fun hs => ?_
  unfold selected
  split
  · exact .failAt hty rfl
  · split
    · rename_i elem helem
      exact .pure (hty.param (List.mem_of_getElem? helem))
    · exact .failAt hty rfl
  · split
    · rename_i elem _ hparams
      split
      · exact .pure (hty.param (hparams ▸ List.mem_cons_self))
      · exact .failAt hty rfl
    · exact .failAt hty rfl
  · refine .get ?_
    split
    · rename_i adt fields hstruct
      obtain ⟨hadt, hfields⟩ := hs.covers_struct hstruct
      exact leaves_fieldOf hadt hfields hty
    · exact .failAt hty rfl
  · exact .failAt hty rfl

theorem leaves_select {target : Core.Expr}
    (htarget : s.extent.Covers target.types) {field : FieldRef} {targetSpan : Span} :
    Leaves s (select target field targetSpan span) fun e v => e.Covers v.types := by
  refine .of fun hs => ?_
  refine .resolve (.bind (leaves_selected (hs.resolve htarget.ty)) ?_)
  intro r s1 _ h1 hr
  refine .pure ?_
  rw [Core.Expr.types, Core.ExprKind.types]
  exact Extent.covers_cons.mpr ⟨hr, h1.covers htarget⟩

theorem leaves_enumOf {ty : Ty} (hty : s.extent.Shapes ty) : Leaves s (enumOf ty span) fun e r =>
      e.Shapes r.1.ty ∧ ∀ fields ∈ r.2.values, e.Covers fields.values := by
  refine .of fun hs => ?_
  refine .get ?_
  split
  · rename_i found henum
    exact .pure (hs.covers_enum henum)
  · exact .failAt hty rfl

theorem leaves_bindCaseFields {m : Match} {seen : List String} {bindings : List CaseBinding}
    (hm : s.extent.Matches m) (hfields : s.extent.Covers fields.values) :
    Leaves s (bindCaseFields m fields seen bindings) fun e stmts =>
      e.Covers (Core.typesStmts stmts) := by
  induction bindings generalizing s seen with
  | nil => exact .pure .nil
  | cons b rest ih =>
    refine .ensure .nil fun _ => .bind (leaves_fieldOf hm.adt hfields hm.ty) ?_
    intro r s1 _ h1 hr
    refine .bind (leaves_bindLocal hr) fun _ _ _ h2 _ => ?_
    have h12 := h1.trans h2
    refine .bind (ih (h12.within.matches hm) (h12.covers hfields)) ?_
    intro stmts s3 _ h3 hstmts
    refine .pure ?_
    have hfield := (h2.trans h3).shapes hr
    have hscrutinee := (h12.trans h3).shapes hm.ty
    simp only [Core.typesStmts, Core.Stmt.types, Core.Expr.types, Core.ExprKind.types,
      Extent.covers_append, Extent.covers_cons, Extent.covers_nil, and_true]
    exact ⟨⟨hfield, hscrutinee⟩, hstmts⟩

theorem leaves_elementOf {ty : Ty} (hty : s.extent.Shapes ty) :
    Leaves s (elementOf ty span) fun e elem => e.Shapes elem := by
  unfold elementOf
  split
  · rename_i elem _ _ hparams
    exact .pure (hty.param (hparams ▸ List.mem_cons_self))
  · exact .failAt hty rfl

theorem leaves_tupleHints {length : Nat} (hhint : s.extent.Covers hint.toList) :
    Leaves s (tupleHints length hint) fun e hints => e.Covers hints := by
  refine .bind (leaves_resolve? hhint) fun hint _ _ _ hhint => .pure ?_
  cases hint with
  | none => exact .nil
  | some ty =>
    rw [Option.filter_some]
    split
    · exact fun _ ht => (hhint ty List.mem_cons_self).param ht
    · exact .nil

theorem leaves_arrayHint (hhint : s.extent.Covers hint.toList) :
    Leaves s (arrayHint hint) fun e hint => e.Covers hint.toList := by
  refine .bind (leaves_resolve? hhint) fun hint _ _ _ hhint => .pure ?_
  cases hint with
  | none => exact .nil
  | some ty =>
    rw [Option.filter_some]
    split
    · refine Extent.covers_toList.mpr fun _ ht => ?_
      exact (hhint ty List.mem_cons_self).param (List.mem_of_head? ht)
    · exact .nil

theorem leaves_freshAll {names : List Name} :
    Leaves s (freshAll names) fun e tys => e.Covers tys := by
  induction names generalizing s with
  | nil => exact .pure .nil
  | cons name rest ih =>
    refine .bind leaves_fresh fun _ _ _ _ hv => .bind ih ?_
    intro tys s2 _ h2 htys
    exact .pure (Extent.covers_cons.mpr ⟨h2.shapes hv, htys⟩)

theorem leaves_bindElements {source : Core.Expr} {index : Nat} {names : List Name}
    {tys : List Ty} (hsource : s.extent.Covers source.types) (htys : s.extent.Covers tys) :
    Leaves s (bindElements source index names tys) fun e stmts =>
      e.Covers (Core.typesStmts stmts) := by
  induction names generalizing s index tys with
  | nil => exact .pure .nil
  | cons name rest ih =>
    cases tys with
    | nil => exact .pure .nil
    | cons ty tys =>
      obtain ⟨hty, htys⟩ := Extent.covers_cons.mp htys
      refine .bind (leaves_bindLocal hty) fun _ _ _ h1 _ => ?_
      refine .bind (ih (h1.covers hsource) (h1.covers htys)) fun _ _ _ h2 hstmts => ?_
      refine .pure ?_
      have h12 := h1.trans h2
      simp only [Core.typesStmts, Core.Stmt.types, Core.Expr.types, Core.ExprKind.types,
        Extent.covers_append, Extent.covers_cons]
      exact ⟨⟨h12.shapes hty, h12.covers hsource⟩, hstmts⟩

theorem leaves_bindPattern {pattern : Pattern} {ty : Ty}
    (hty : s.extent.Shapes ty) (hvalue : s.extent.Covers value.types) :
    Leaves s (bindPattern pattern ty value span) fun e stmts =>
      e.Covers (Core.typesStmts stmts) := by
  unfold bindPattern
  split
  · refine .bind (leaves_bindLocal hty) fun _ s1 _ h1 _ => .pure ?_
    simp only [Core.typesStmts, Core.Stmt.types, List.append_nil]
    exact h1.covers hvalue
  · split
    · refine .ensure .nil fun _ => .bind leaves_freshBinding fun _ _ _ h1 _ => ?_
      refine .bind (leaves_bindElements ?_ ?_) fun _ _ _ h2 hstmts => ?_
      · rw [Core.Expr.types, Core.ExprKind.types]
        exact Extent.covers_singleton.mpr (h1.shapes hty)
      · exact fun _ ht => h1.shapes (hty.param ht)
      · refine .pure ?_
        simp only [Core.typesStmts, Core.Stmt.types, Extent.covers_append]
        exact ⟨(h1.trans h2).covers hvalue, hstmts⟩
    · refine .bind leaves_freshAll fun _ _ _ h1 htys => .fail ?_
      exact Extent.covers_cons.mpr ⟨Ty.formed_tuple htys, Extent.covers_singleton.mpr (h1.shapes hty)⟩

end Checker

end TraitCheck
