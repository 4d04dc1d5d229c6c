import Mathlib.Data.List.Forall2
import TraitCheck.Checker.Program
import TraitCheck.Proofs.Runs

/-!
Successful runs of the checker, taken apart step by step (`Yields`).
-/

namespace TraitCheck.Checker

variable {α β : Type} {s s' : Checker}
variable {a : Unit} {ty : Ty} {written : Surface.TypeExpr} {span : Span} {adts : AdtTable}
  {scope : Scope}
variable {bounds : List Name} {what : String}

/-- The step succeeds with the result, in the second state. -/
def Yields (x : CheckM α) (s : Checker) (a : α) (s' : Checker) : Prop :=
  x.run.run s = (.ok a, s')

theorem exists_ok {r : Except TypeError α} (h : r.isOk = true) : ∃ a, r = .ok a := by
  cases r with
  | error e => cases h
  | ok a => exact ⟨a, rfl⟩

theorem exists_yields {x : CheckM α} (h : (x.run.run s).1.isOk = true) :
    ∃ a s', Yields x s a s' := by
  obtain ⟨a, ha⟩ := exists_ok h
  exact ⟨a, _, Prod.ext ha rfl⟩

namespace Yields

variable {span : Span}

theorem bind {x : CheckM α} {f : α → CheckM β} {b : β} (h : Yields (x >>= f) s b s') :
    ∃ a s1, Yields x s a s1 ∧ Yields (f a) s1 b s' := by
  rw [Yields, Runs.run_bind] at h
  split at h
  · rename_i a s1 hx
    exact ⟨a, s1, hx, h⟩
  · cases h

theorem pure {a b : α} (h : Yields (Pure.pure a) s b s') : a = b ∧ s = s' := by
  cases h
  exact ⟨rfl, rfl⟩

theorem get {a : Checker} (h : Yields get s a s') : s = a ∧ s = s' := by
  cases h
  exact ⟨rfl, rfl⟩

theorem modifyGet {f : Checker → α × Checker} {a : α} (h : Yields (modifyGet f) s a s') :
    a = (f s).1 ∧ s' = (f s).2 := by
  cases h
  exact ⟨rfl, rfl⟩

theorem modify {f : Checker → Checker} (h : Yields (modify f) s a s') : s' = f s := by
  cases h
  rfl

theorem fail {failure : Failure} {a : α} (h : Yields (fail failure span) s a s') : False := by
  cases h

theorem ensure {condition : Prop} [Decidable condition] {failure : Failure} {span : Span}
    {a : Unit} (h : Yields (ensure condition failure span) s a s') : condition ∧ s = s' := by
  rw [Checker.ensure] at h
  split at h
  · rename_i hcondition
    exact ⟨hcondition, h.pure.2⟩
  · exact h.fail.elim

theorem get_bind {f : Checker → CheckM β} {b : β} (h : Yields (MonadState.get >>= f) s b s') :
    Yields (f s) s b s' :=
  h

theorem ensure_bind {condition : Prop} [Decidable condition] {failure : Failure} {span : Span}
    {f : Unit → CheckM β} {b : β} (h : Yields (Checker.ensure condition failure span >>= f) s b s') :
    condition ∧ Yields (f ()) s b s' := by
  obtain ⟨_, s1, h1, h⟩ := h.bind
  obtain ⟨hcondition, rfl⟩ := h1.ensure
  exact ⟨hcondition, h⟩

theorem ofExcept {r : Except Failure α} {a : α} (h : Yields (ofExcept span r) s a s') :
    r = .ok a ∧ s = s' := by
  cases r with
  | error failure => exact h.fail.elim
  | ok b =>
    obtain ⟨rfl, rfl⟩ := h.pure
    exact ⟨rfl, rfl⟩

theorem freshBinding {id : BindingId} (h : Yields freshBinding s id s') : id = s.scope.nextBinding ∧
      s' = { s with scope := { s.scope with nextBinding := s.scope.nextBinding + 1 } } :=
  h.modifyGet

/-- A parameter is bound to the next id. -/
theorem bindParam {span : Span} {name : String} {ty : Ty}
    {id : BindingId} (h : Yields (bindParam span name ty) s id s') :
    id = s.scope.nextBinding ∧ s' = { s with scope := (s.scope.bindLocal name ty).2 } := by
  have hrest := h.get_bind
  obtain ⟨⟨id', scope⟩, s2, h2, hrest⟩ := hrest.bind
  obtain ⟨hparam, rfl⟩ := h2.ofExcept
  obtain ⟨_, s3, h3, hrest⟩ := hrest.bind
  obtain ⟨rfl, rfl⟩ := hrest.pure
  rw [Scope.bindParam] at hparam
  split at hparam
  · cases hparam
  · cases hparam
    exact ⟨rfl, h3.modify⟩

/-! Frames, functions and units are left as they were entered. -/

/-- A body that runs in a changed state and is followed by a change of state. -/
theorem bracket {body : CheckM α} {s0 : Checker} {k : Checker → Checker} {a : α}
    (h : (match body.run.run s0 with | (r, s1) => (r, k s1)) = (Except.ok a, s')) :
    ∃ s1, Yields body s0 a s1 ∧ s' = k s1 := by
  cases hbody : body.run.run s0 with
  | mk r s1 =>
    rw [hbody] at h
    cases h
    exact ⟨s1, hbody, rfl⟩

theorem inScope {body : CheckM α} {a : α} (h : Yields (inScope body) s a s') :
    ∃ s1, Yields body { s with scope := s.scope.push } a s1 ∧
      s' = { s1 with scope := s1.scope.pop } :=
  bracket (k := fun s1 => { s1 with scope := s1.scope.pop }) h

theorem inFunction {declared : Option Ty} {body : CheckM α} {a : α}
    (h : Yields (inFunction declared body) s a s') :
    ∃ s1, Yields body { s with functions := { ret := declared } :: s.functions } a s1 ∧
      s' = { s1 with functions := s1.functions.tail } :=
  bracket (k := fun s1 => { s1 with functions := s1.functions.tail }) h

theorem isolated {body : CheckM α} {a : α} (h : Yields (isolated body) s a s') :
    ∃ s1, Yields body { s with unifier := { s.unifier with subst := {} } } a s1 ∧
      s' = { s1 with unifier := { s1.unifier with subst := s.unifier.subst } } :=
  bracket (k := fun s1 => { s1 with unifier := { s1.unifier with subst := s.unifier.subst } }) h

theorem inFunctionFrame {body : CheckM α} {a : α} {upvalues : List Upvalue}
    (h : Yields (inFunctionFrame body) s (a, upvalues) s') :
    ∃ s1, Yields body { s with scope := s.scope.pushFunction } a s1 ∧
      upvalues = s1.scope.popFunction.1 ∧ s' = { s1 with scope := s1.scope.popFunction.2 } := by
  change (match body.run.run { s with scope := s.scope.pushFunction } with
    | (r, s1) => (r.map (·, s1.scope.popFunction.1),
      { s1 with scope := s1.scope.popFunction.2 })) = (Except.ok (a, upvalues), s') at h
  cases hbody : body.run.run { s with scope := s.scope.pushFunction } with
  | mk r s1 =>
    rw [hbody] at h
    cases r with
    | error failure => cases h
    | ok b =>
      cases h
      exact ⟨s1, hbody, rfl, rfl⟩

end Yields

/-- Whatever the step yields is such a value. -/
def Results (P : α → Prop) (x : CheckM α) : Prop := ∀ ⦃s a s'⦄, Yields x s a s' → P a

namespace Results

variable {P : β → Prop} {x : CheckM α} {f : α → CheckM β}

theorem bind {Q : α → Prop} (hx : Results Q x) (hf : ∀ a, Q a → Results P (f a)) :
    Results P (x >>= f) := by
  intro s b s' h
  obtain ⟨a, s1, h1, h⟩ := h.bind
  exact hf a (hx h1) h

theorem imp {Q : α → Prop} {R : α → Prop} (hx : Results Q x) (h : ∀ a, Q a → R a) : Results R x :=
  fun _ a _ hrun => h a (hx hrun)

theorem after (hf : ∀ a, Results P (f a)) : Results P (x >>= f) :=
  .bind (Q := fun _ => True) (fun _ _ _ _ => trivial) fun a _ => hf a

theorem ensured {condition : Prop} [Decidable condition] {failure : Failure}
    {f : Unit → CheckM β} (hf : condition → Results P (f ())) :
    Results P (ensure condition failure span >>= f) :=
  fun _ _ _ h => hf h.ensure_bind.1 h.ensure_bind.2

theorem pure {b : β} (h : P b) : Results P (Pure.pure b) := by
  rintro s _ s' ⟨⟩
  exact h

theorem fail {failure : Failure} : Results P (fail failure span) := fun _ _ _ h => h.fail.elim

end Results

theorem Yields.results {P : α → Prop} {x : CheckM α} {a : α} (h : Yields x s a s')
    (hx : Results P x) : P a :=
  hx h

theorem Yields.provide {span : Span} {ty : Ty} {bound : Trait} {evidence : Evidence} {a : Unit}
    (h : Yields (provide span ty bound evidence) s a s') :
    ∃ registry, s.registry.provide ty bound evidence = .ok registry ∧ s' = { s with registry } := by
  have hrest := h.get_bind
  obtain ⟨registry, s2, h2, hrest⟩ := hrest.bind
  obtain ⟨hprovide, rfl⟩ := h2.ofExcept
  exact ⟨registry, hprovide, hrest.modify⟩

theorem Yields.requireDeclared (h : Yields (requireDeclared bounds) s a s') :
    (∀ bound ∈ bounds, s.registry.isDeclared bound.text = true) ∧ s = s' := by
  have hrest := h.get_bind
  dsimp only at hrest
  split at hrest
  · exact hrest.fail.elim
  · rename_i hnone
    refine ⟨fun bound hbound => ?_, hrest.pure.2⟩
    simpa using List.find?_eq_none.mp hnone bound hbound

/-- Type parameters have the names that are written, and their bounds are declared traits. -/
theorem Yields.genericNames {params : List Surface.GenericParam} {seen : List String}
    {generics : List Generic} (h : Yields (declareGenerics seen params) s generics s') :
    ∀ g ∈ generics, (∃ p ∈ params, p.name.text = g.name) ∧
      ∀ bound ∈ g.bounds, ∃ decl, s.registry.trait? bound = some decl := by
  induction params generalizing s seen generics with
  | nil =>
    obtain ⟨rfl, _⟩ := h.pure
    simp
  | cons g rest ih =>
    obtain ⟨_, h⟩ := h.ensure_bind
    obtain ⟨_, s1, h1, h⟩ := h.bind
    obtain ⟨hbounds, rfl⟩ := h1.requireDeclared
    obtain ⟨var, s2, h2, h⟩ := h.bind
    obtain ⟨_, rfl⟩ := h2.modifyGet
    obtain ⟨more, s3, h3, h⟩ := h.bind
    obtain ⟨rfl, rfl⟩ := h.pure
    refine List.forall_mem_cons.mpr ⟨⟨⟨g, List.mem_cons_self, rfl⟩, fun bound hbound => ?_⟩, ?_⟩
    · obtain ⟨name, hname, rfl⟩ := List.mem_map.mp hbound
      exact Option.isSome_iff_exists.mp (hbounds name hname)
    · intro g' hg'
      obtain ⟨⟨p, hp, hname⟩, hmore⟩ := ih h3 g' hg'
      exact ⟨⟨p, List.mem_cons_of_mem _ hp, hname⟩, hmore⟩

theorem Yields.signatureGenerics {decl : Surface.FuncDecl} {sig : Signature}
    (h : Yields (declareSignature decl) s sig s') :
    ∃ s1, Yields (declareGenerics [] decl.generics) s sig.generics s1 := by
  obtain ⟨generics, s1, h1, h⟩ := h.bind
  obtain ⟨s2, h, _⟩ := h.inScope
  obtain ⟨_, s3, _, h⟩ := h.bind
  obtain ⟨params, s4, _, h⟩ := h.bind
  split at h
  all_goals
    obtain ⟨ret, s5, _, h⟩ := h.bind
    obtain ⟨rfl, _⟩ := h.pure
    exact ⟨s1, h1⟩

theorem Yields.typeFor (h : Yields (typeFor written) s ty s') :
    written.toTy s.scope s.adts = .ok ty ∧ s = s' := by
  have hrest := h.get_bind
  split at hrest
  · rename_i ty' hty
    obtain ⟨rfl, rfl⟩ := hrest.pure
    exact ⟨hty, rfl⟩
  · cases hrest

theorem Yields.requireTopLevel (h : Yields (requireTopLevel what span) s a s') :
    s.scope.below = [] ∧ s = s' := by
  have hrest := h.get_bind
  obtain ⟨hroot, rfl⟩ := hrest.ensure
  exact ⟨List.isEmpty_iff.mp hroot, rfl⟩

/-- An implementation is opened for a trait and a type, and its dictionary is bound. -/
theorem Yields.openImpl {bound : Name} {impl : Impl}
    (h : Yields (openImpl bound written span) s impl s') :
    s.registry.trait? bound.text = some impl.decl ∧
      written.toTy s.scope s.adts = .ok impl.target ∧ impl.target.params.isEmpty ∧
      impl.binding = s.scope.nextBinding ∧ ∃ con registry, impl.target.con? = some con ∧
        s.registry.provide impl.target impl.decl.name
          (.binding s!"${impl.decl.name}<{con.display}>" impl.binding) = .ok registry ∧
        s' = { s with
          registry
          scope := { s.scope with nextBinding := s.scope.nextBinding + 1 }.bindValue
            s!"${impl.decl.name}<{con.display}>"
            { kind := .binding impl.binding, ty := impl.dictionaryType } } := by
  replace h := h.get_bind
  split at h
  · exact h.fail.elim
  rename_i decl hdecl
  obtain ⟨target, s1, h1, h⟩ := h.bind
  obtain ⟨htarget, rfl⟩ := h1.typeFor
  split at h
  · exact h.fail.elim
  rename_i con hcon
  obtain ⟨hparams, h⟩ := h.ensure_bind
  obtain ⟨id, s2, h2, h⟩ := h.bind
  obtain ⟨rfl, rfl⟩ := h2.freshBinding
  obtain ⟨_, s3, h3, h⟩ := h.bind
  obtain ⟨registry, hprovide, rfl⟩ := h3.provide
  obtain ⟨_, s4, h4, h⟩ := h.bind
  obtain ⟨rfl, rfl⟩ := h.pure
  exact ⟨hdecl, htarget, hparams, rfl, con, registry, hcon, hprovide, h4.modify⟩

theorem Yields.openCall {shape : FuncShape} (h : Yields (openCall ty span) s shape s') :
    (s.unifier.resolve ty).asFunc? = some shape := by
  obtain ⟨ty', s1, h1, h⟩ := h.bind
  replace h1 := h1.get_bind
  obtain ⟨rfl, rfl⟩ := h1.pure
  split at h
  · rename_i shape' hshape
    obtain ⟨rfl, _⟩ := h.pure
    exact hshape
  · exact h.fail.elim

theorem Except.map_eq_ok {ε : Type} {f : α → β} {r : Except ε α} {b : β} (h : r.map f = .ok b) :
    ∃ a, r = .ok a ∧ b = f a := by
  cases r with
  | error e => cases h
  | ok a =>
    cases h
    exact ⟨a, rfl, rfl⟩

theorem Except.bind_eq_ok {ε : Type} {f : α → Except ε β} {r : Except ε α} {b : β}
    (h : r >>= f = .ok b) : ∃ a, r = .ok a ∧ f a = .ok b := by
  cases r with
  | error e => cases h
  | ok a => exact ⟨a, rfl, h⟩

/-- Types are read one by one. -/
theorem forall₂_of_toTys {written : List Surface.TypeExpr} {types : List Ty}
    (h : Surface.TypeExpr.toTys scope adts written = .ok types) :
    List.Forall₂ (fun t ty => t.toTy scope adts = .ok ty) written types := by
  induction written generalizing types with
  | nil =>
    cases h
    exact .nil
  | cons t rest ih =>
    rw [Surface.TypeExpr.toTys] at h
    obtain ⟨ty, hty, h⟩ := Except.bind_eq_ok h
    obtain ⟨more, hmore, h⟩ := Except.bind_eq_ok h
    cases h
    exact .cons hty (ih hmore)

theorem toTys_of_typesFor {written : List Surface.TypeExpr} {types : List Ty}
    (h : Yields (typesFor written) s types s') :
    Surface.TypeExpr.toTys s.scope s.adts written = .ok types ∧ s = s' := by
  induction written generalizing types s' with
  | nil =>
    obtain ⟨rfl, rfl⟩ := h.pure
    exact ⟨rfl, rfl⟩
  | cons t rest ih =>
    obtain ⟨ty, s1, h1, h⟩ := h.bind
    obtain ⟨hty, rfl⟩ := h1.typeFor
    obtain ⟨more, s2, h2, h⟩ := h.bind
    obtain ⟨hmore, rfl⟩ := ih h2
    obtain ⟨rfl, rfl⟩ := h.pure
    refine ⟨?_, rfl⟩
    rw [Surface.TypeExpr.toTys, hty, hmore]
    rfl

/-- A type without type arguments is in scope, or the empty tuple. -/
theorem stored_or_unit_of_toTy (h : written.toTy scope adts = .ok ty) (hparams : ty.params = []) :
    (∃ name, scope.type? name = some ty) ∨ ty = .tuple [] := by
  cases written with
  | ident name args span =>
    rw [Surface.TypeExpr.toTy] at h
    split at h
    · cases h
    · rename_i found hfound
      dsimp only at h
      split at h
      · cases h
      · rename_i harity
        split at h
        · cases h
          exact .inl ⟨name, hfound⟩
        · rename_i hpositive
          obtain ⟨types, htys, rfl⟩ := Except.map_eq_ok h
          rw [Ty.named, Ty.params_concrete] at hparams
          have hlength := (forall₂_of_toTys htys).length_eq
          rw [hparams, List.length_nil] at hlength
          omega
  | tuple elems span =>
    rw [Surface.TypeExpr.toTy] at h
    obtain ⟨types, _, rfl⟩ := Except.map_eq_ok h
    rw [Ty.tuple, Ty.params_concrete] at hparams
    exact .inr (congrArg Ty.tuple hparams)
  | func params ret span =>
    rw [Surface.TypeExpr.toTy] at h
    obtain ⟨params', _, h⟩ := Except.bind_eq_ok h
    obtain ⟨ret', _, h⟩ := Except.bind_eq_ok h
    cases h
    rw [Ty.func, Ty.funcWith, Ty.params_concrete] at hparams
    cases hparams
  | array elem size span =>
    rw [Surface.TypeExpr.toTy] at h
    obtain ⟨ty', _, rfl⟩ := Except.map_eq_ok h
    rw [Ty.array, Ty.params_concrete] at hparams
    cases hparams

/-! The walk over statements. -/

open Surface (Stmt)

variable {stmt : Stmt} {rest : List Stmt} {room : Nat}

/-- A last expression is checked with the hint, and any other statement without
one, whatever the room. -/
theorem checkStmts_cons_rooms {P : (Nat → Option Ty → CheckM Core.Block) → Prop}
    (hlast : ∀ e span, stmt = .eval e span → rest = [] → P fun room hint => do
      let value ← checkExpr room hint e
      return ⟨[.eval value], value.ty⟩)
    (hcons : P fun room hint => do
      let out ← checkStmt room stmt
      let block ← checkStmts room hint rest
      return ⟨out ++ block.stmts, block.ty⟩) :
    P fun room hint => checkStmts room hint (stmt :: rest) := by
  by_cases h : ∃ e span, stmt :: rest = [.eval e span]
  · obtain ⟨e, span, heq⟩ := h
    rw [heq]
    simp only [checkStmts]
    exact hlast e span (List.cons.inj heq).1 (List.cons.inj heq).2
  · convert hcons using 1
    funext room hint
    rw [checkStmts]
    intro e span hstmt hrest
    exact h ⟨e, span, by rw [hstmt, hrest]⟩

theorem checkStmts_cons {P : (Option Ty → CheckM Core.Block) → Prop}
    (hlast : ∀ e span, stmt = .eval e span → P fun hint => do
      let value ← checkExpr room hint e
      return ⟨[.eval value], value.ty⟩)
    (hcons : P fun hint => do
      let out ← checkStmt room stmt
      let block ← checkStmts room hint rest
      return ⟨out ++ block.stmts, block.ty⟩) : P fun hint => checkStmts room hint (stmt :: rest) :=
  checkStmts_cons_rooms (P := fun x => P (x room)) (fun e span hstmt _ => hlast e span hstmt) hcons

/-- The same in the body of a function, where each statement is a unit. -/
theorem checkBodyStmts_cons_rooms {P : (Nat → CheckM (List Core.Stmt × Bool)) → Prop}
    (hlast : ∀ e span, stmt = .eval e span → rest = [] → P fun room => do
      let out ← inUnit do
        let hint ← currentReturn
        let value ← checkExpr room hint e
        recordReturn value.ty e.span
        returning value
      return (out, true))
    (hcons : P fun room => do
      let out ← inUnit (checkStmt room stmt)
      let (more, trailing) ← checkBodyStmts room rest
      return (out ++ more, trailing)) : P fun room => checkBodyStmts room (stmt :: rest) := by
  by_cases h : ∃ e span, stmt :: rest = [.eval e span]
  · obtain ⟨e, span, heq⟩ := h
    rw [heq]
    simp only [checkBodyStmts]
    exact hlast e span (List.cons.inj heq).1 (List.cons.inj heq).2
  · convert hcons using 1
    funext room
    rw [checkBodyStmts]
    intro e span hstmt hrest
    exact h ⟨e, span, by rw [hstmt, hrest]⟩

theorem checkBodyStmts_cons {P : CheckM (List Core.Stmt × Bool) → Prop}
    (hlast : ∀ e span, stmt = .eval e span → P (do
      let out ← inUnit do
        let hint ← currentReturn
        let value ← checkExpr room hint e
        recordReturn value.ty e.span
        returning value
      return (out, true)))
    (hcons : P (do
      let out ← inUnit (checkStmt room stmt)
      let (more, trailing) ← checkBodyStmts room rest
      return (out ++ more, trailing))) : P (checkBodyStmts room (stmt :: rest)) :=
  checkBodyStmts_cons_rooms (P := fun x => P (x room)) (fun e span hstmt _ => hlast e span hstmt)
    hcons

end TraitCheck.Checker
