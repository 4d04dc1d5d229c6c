import TraitCheck.Proofs.Sessions

/-!
Types of the right shape. A type is shaped if each of its constructors has as
many arguments as it takes, and if its variables and tracers are among those
drawn so far. Reading a type, putting types in place of its variables or of its
tracers, and unification keep this, also where they fail: what is bound by then
and what the failure names is shaped too.
-/

namespace TraitCheck

namespace Ty

variable {arity arity' : String → Option Nat} {next next' : Nat} {t : Ty}

/-- Every constructor in the type has its arguments, where `arity` gives those of
the type names, and every variable and tracer has an id below `next`. -/
def Shaped (arity : String → Option Nat) (next : Nat) (t : Ty) : Prop :=
  t.Formed ⟨arity, {id | id < next}, fun _ => True⟩ {v | v.id < next}

theorem shaped_var {v : TyVar} (h : v.id < next) : (Ty.var v).Shaped arity next := .var h

theorem shaped_relabelling (next : Nat) (vars : List TyVar) :
    ∀ entry ∈ Subst.relabelling next vars, entry.2.Shaped arity (next + vars.length) := by
  induction vars generalizing next with
  | nil => exact fun _ h => absurd h List.not_mem_nil
  | cons v rest ih =>
    rw [Subst.relabelling, List.length_cons, Nat.add_comm rest.length 1, ← Nat.add_assoc]
    refine List.forall_mem_cons.mpr ⟨shaped_var ?_, ih (next + 1)⟩
    exact Nat.lt_of_lt_of_le (Nat.lt_succ_self next) (Nat.le_add_right _ _)

namespace Shaped

theorem mono (h : t.Shaped arity next)
    (harity : ∀ name count, arity name = some count → arity' name = some count)
    (hnext : next ≤ next') : t.Shaped arity' next' := by
  have hextends : Lexicon.Extends ⟨arity, {id | id < next}, fun _ => True⟩
      ⟨arity', {id | id < next'}, fun _ => True⟩ :=
    ⟨⟨harity, fun _ hid => lt_of_lt_of_le hid hnext⟩, fun _ _ => trivial⟩
  exact (Formed.extend h hextends).mono fun _ hv => lt_of_lt_of_le hv hnext

theorem next_le (h : t.Shaped arity next) (hnext : next ≤ next') : t.Shaped arity next' :=
  h.mono (fun _ _ h => h) hnext

theorem arg {head : Head} {args : List Ty} (h : (Ty.app head args).Shaped arity next)
    (ht : t ∈ args) : t.Shaped arity next :=
  Formed.arg h ht

/-- A head over other arguments, if there are as many. -/
theorem exchange {head : Head} {args args' : List Ty} (h : (Ty.app head args).Shaped arity next)
    (hlength : args'.length = args.length) (hargs : ∀ t ∈ args', t.Shaped arity next')
    (hnext : next ≤ next') : (Ty.app head args').Shaped arity next' := by
  refine .app ?_ hargs fun _ _ => trivial
  rw [hlength]
  exact (Formed.admits h).include ⟨fun _ _ h => h, fun _ hid => lt_of_lt_of_le hid hnext⟩

theorem replace (h : t.Shaped arity next) {map : VarId → Option Ty} (hnext : next ≤ next')
    (hmap : ∀ id s, map id = some s → s.Shaped arity next') : (t.replace map).Shaped arity next' := by
  refine Formed.read (hom_replace map) h
    ⟨fun _ _ h => h, fun _ hid => lt_of_lt_of_le hid hnext⟩ ?_ fun _ _ _ _ => trivial
  intro v hv
  rw [replace_var]
  cases hid : map v.id with
  | none => exact shaped_var (lt_of_lt_of_le hv hnext)
  | some s => exact hmap v.id s hid

theorem substitute (h : t.Shaped arity next) {map : List (VarId × Ty)} (hnext : next ≤ next')
    (hmap : ∀ entry ∈ map, entry.2.Shaped arity next') : (t.substitute map).Shaped arity next' :=
  h.replace hnext fun id s hs => hmap (id, s) (Assoc.mem_of_find? hs)

/-- Fresh copies of some of the variables. -/
theorem relabel (h : t.Shaped arity next) (vars : List TyVar) :
    (t.substitute (Subst.relabelling next vars)).Shaped arity (next + vars.length) :=
  h.substitute (Nat.le_add_right _ _) (shaped_relabelling next vars)

theorem untrace (h : t.Shaped arity next) {map : Nat → Option Ty}
    (hmap : ∀ id s, map id = some s → s.Shaped arity next) : (t.untrace map).Shaped arity next :=
  Formed.untrace h (fun _ _ h => h) (fun _ hid _ => hid) hmap fun _ _ _ _ => trivial

end Shaped

theorem shaped_funcWith {os : List Obligation} {ps : List Ty} {ret : Ty}
    (hos : ∀ o ∈ os, o.ty.Shaped arity next) (hps : ∀ p ∈ ps, p.Shaped arity next)
    (hret : ret.Shaped arity next) : (funcWith os ps ret).Shaped arity next :=
  formed_funcWith (fun o ho => ⟨hos o ho, trivial⟩) hps hret

/-- The types that a function type is made of. -/
theorem Shaped.shape (h : t.Shaped arity next) {shape : FuncShape}
    (hshape : t.asFunc? = some shape) : (∀ o ∈ shape.obligations, o.ty.Shaped arity next) ∧
      (∀ p ∈ shape.params, p.Shaped arity next) ∧ shape.ret.Shaped arity next := by
  obtain ⟨hos, hps, hret⟩ := h.shape_param hshape
  exact ⟨fun o ho => (hos o ho).1, hps, hret⟩

end Ty

/-- The types that a failure names. -/
def Failure.types : Failure → List Ty
  | typeMismatch s t | infiniteType s t => [s, t]
  | traitMismatch t _ | missingImpl t _ | duplicateImpl t _ => [t]
  | unboundType t | unboundReturn t | notAFunction t | expectedEnum t | notIterable t => [t]
  | unknownField t _ | indexOutOfBounds t _ => [t]
  | invalidContext (.implWithTypeArguments _ t) => [t]
  | _ => []

theorem Failure.IsWritten.types {failure : Failure} (h : failure.IsWritten) :
    failure.types = [] := by
  cases h <;> rfl

namespace Unifier

variable {arity : String → Option Nat} {u u' : Unifier} {t : Ty} {registry : Registry}

/-- All bindings are shaped. -/
def Shaped (arity : String → Option Nat) (u : Unifier) : Prop :=
  ∀ id t, u.subst.find? id = some t → t.Shaped arity u.next

theorem Shaped.applyWithin (hu : u.Shaped arity) (n : Nat) (h : t.Shaped arity u.next) :
    (u.subst.applyWithin n t).Shaped arity u.next := by
  induction n generalizing t with
  | zero => exact h
  | succ n ih =>
    refine h.replace (le_refl _) fun id _ hs => ?_
    obtain ⟨s', hs', rfl⟩ := Option.map_eq_some_iff.mp hs
    exact ih (hu id s' hs')

theorem Shaped.resolve (hu : u.Shaped arity) (h : t.Shaped arity u.next) :
    (u.resolve t).Shaped arity u.next :=
  hu.applyWithin _ h

theorem Shaped.derefWithin (hu : u.Shaped arity) (n : Nat) (h : t.Shaped arity u.next) :
    (u.subst.derefWithin n t).Shaped arity u.next := by
  induction n generalizing t with
  | zero => exact h
  | succ n ih =>
    cases t with
    | app head args => exact h
    | var v =>
      rw [Subst.derefWithin]
      split
      · rename_i s hs
        exact ih (hu v.id s hs)
      · exact h

theorem Shaped.deref (hu : u.Shaped arity) (h : t.Shaped arity u.next) :
    (u.subst.deref t).Shaped arity u.next :=
  hu.derefWithin _ h

theorem Shaped.assign (hu : u.Shaped arity) (h : t.Shaped arity u.next) (id : VarId) :
    (u.assign id t).Shaped arity := by
  have hinsert : ∀ other s, (Subst.mk (u.subst.bindings.insert id t)).find? other = some s →
      s.Shaped arity u.next := Assoc.forall_insert h hu
  intro other s hs
  change (u.subst.insert id t).find? other = some s at hs
  cases t with
  | app head args => exact hinsert other s hs
  | var v =>
    rw [Subst.insert] at hs
    split at hs
    · exact hu other s hs
    · exact hinsert other s hs

/-- How a step of unification ends: what is bound, what is returned and what is
named in a failure is shaped. -/
structure Ends {α : Type} (arity : String → Option Nat) (u : Unifier) (x : UnifyM α)
    (Q : Nat → α → Prop) : Prop where
  next : u.next ≤ (x.run.run u).2.next
  shaped : (x.run.run u).2.Shaped arity
  ok : ∀ a, (x.run.run u).1 = .ok a → Q (x.run.run u).2.next a
  error : ∀ failure, (x.run.run u).1 = .error failure →
    ∀ t ∈ failure.types, t.Shaped arity (x.run.run u).2.next

namespace Ends

variable {α β : Type} {x : UnifyM α} {f : α → UnifyM β} {P : Nat → α → Prop} {Q : Nat → β → Prop}

theorem bind (hx : Ends arity u x P)
    (hf : ∀ a u1, u.next ≤ u1.next → u1.Shaped arity → P u1.next a → Ends arity u1 (f a) Q) :
    Ends arity u (x >>= f) Q := by
  obtain ⟨hnext, hshaped, hok, herror⟩ := hx
  cases hrun : x.run.run u with
  | mk r u1 =>
    rw [hrun] at hnext hshaped hok herror
    cases r with
    | error failure =>
      have hbind : (x >>= f).run.run u = (.error failure, u1) := by rw [Runs.run_bind, hrun]
      refine ⟨hbind ▸ hnext, hbind ▸ hshaped, ?_, ?_⟩
      · rw [hbind]
        rintro _ ⟨⟩
      · rw [hbind]
        rintro _ ⟨⟩
        exact herror failure rfl
    | ok a =>
      have hbind : (x >>= f).run.run u = (f a).run.run u1 := by rw [Runs.run_bind, hrun]
      obtain ⟨hnext', hshaped', hok', herror'⟩ := hf a u1 hnext hshaped (hok a rfl)
      rw [← hbind] at hnext' hshaped' hok' herror'
      exact ⟨le_trans hnext hnext', hshaped', hok', herror'⟩

theorem pure (hu : u.Shaped arity) {a : α} (ha : P u.next a) : Ends arity u (Pure.pure a) P where
  next := le_refl _
  shaped := hu
  ok := by
    rintro _ ⟨⟩
    exact ha
  error := by rintro _ ⟨⟩

theorem throw (hu : u.Shaped arity) {failure : Failure}
    (h : ∀ t ∈ failure.types, t.Shaped arity u.next) :
    Ends arity u (throw failure : UnifyM α) P where
  next := le_refl _
  shaped := hu
  ok := by rintro _ ⟨⟩
  error := by
    rintro _ ⟨⟩
    exact h

theorem get {f : Unifier → UnifyM β} (h : Ends arity u (f u) Q) : Ends arity u (get >>= f) Q :=
  ⟨h.next, h.shaped, h.ok, h.error⟩

end Ends

variable {a b : Ty}

theorem ends_mismatch (hu : u.Shaped arity) (ha : a.Shaped arity u.next)
    (hb : b.Shaped arity u.next) {Q : Nat → Ty → Prop} : Ends arity u (mismatch a b) Q := by
  refine .get (.throw hu ?_)
  simp only [Failure.types, List.mem_cons, List.not_mem_nil, or_false, forall_eq_or_imp, forall_eq]
  exact ⟨hu.resolve ha, hu.resolve hb⟩

theorem ends_bind (hu : u.Shaped arity) {v : TyVar} {head : Head} {args : List Ty}
    (hv : v.id < u.next) (h : (Ty.app head args).Shaped arity u.next) :
    Ends arity u (bind registry v head args) fun next c => c.Shaped arity next := by
  have hty := hu.resolve h
  refine .get ?_
  dsimp only
  split
  · refine .throw hu ?_
    simp only [Failure.types, List.mem_cons, List.not_mem_nil, or_false, forall_eq_or_imp,
      forall_eq]
    exact ⟨Ty.shaped_var hv, hty⟩
  · split
    · refine .throw hu ?_
      simp only [Failure.types, List.mem_cons, List.not_mem_nil, or_false, forall_eq]
      exact hty
    · refine ⟨le_refl _, hu.assign hty v.id, ?_, ?_⟩
      · rintro _ ⟨⟩
        exact hty
      · rintro _ ⟨⟩

/-- Two different variables are bound to a new one. -/
theorem ends_merge (hu : u.Shaped arity) (v w : TyVar) :
    Ends arity u (modifyGet (merge v w)) fun next c => c.Shaped arity next := by
  have hnext : u.next ≤ u.next + 1 := Nat.le_succ _
  have hvar : ∀ u' : Unifier, u'.next = u.next + 1 →
      (Ty.var ⟨u.next, v.name, v.traits.union w.traits⟩).Shaped arity u'.next :=
    fun _ h => Ty.shaped_var (h ▸ Nat.lt_succ_self _)
  have hdrawn : Shaped arity { u with next := u.next + 1 } :=
    fun id t ht => (hu id t ht).next_le hnext
  refine ⟨hnext, (hdrawn.assign (hvar _ rfl) v.id).assign (hvar _ rfl) w.id, ?_, ?_⟩
  · rintro _ ⟨⟩
    exact hvar _ rfl
  · rintro _ ⟨⟩

theorem ends_unifyAll {step : Ty → Ty → UnifyM Ty}
    (hstep : ∀ a b u, u.Shaped arity → a.Shaped arity u.next → b.Shaped arity u.next →
      Ends arity u (step a b) fun next c => c.Shaped arity next)
    {as bs : List Ty} (hlength : as.length = bs.length) (hu : u.Shaped arity)
    (has : ∀ a ∈ as, a.Shaped arity u.next) (hbs : ∀ b ∈ bs, b.Shaped arity u.next) :
    Ends arity u (unifyAll step as bs) fun next cs =>
      cs.length = as.length ∧ ∀ c ∈ cs, c.Shaped arity next := by
  induction as generalizing bs u with
  | nil => exact .pure hu ⟨rfl, fun _ hc => absurd hc List.not_mem_nil⟩
  | cons a as ih =>
    cases bs with
    | nil => cases hlength
    | cons b bs =>
      refine .bind (hstep a b u hu (has a List.mem_cons_self) (hbs b List.mem_cons_self))
        fun _ _ hnext1 hu1 hc => ?_
      refine .bind (ih (Nat.succ.inj hlength) hu1
        (fun t ht => (has t (List.mem_cons_of_mem a ht)).next_le hnext1)
        fun t ht => (hbs t (List.mem_cons_of_mem b ht)).next_le hnext1) ?_
      intro cs u2 hnext2 hu2 hcs
      refine .pure hu2 ⟨by rw [List.length_cons, List.length_cons, hcs.1], ?_⟩
      exact List.forall_mem_cons.mpr ⟨hc.next_le hnext2, hcs.2⟩

theorem ends_unifyWithin (depth : Nat) (hu : u.Shaped arity) (ha : a.Shaped arity u.next)
    (hb : b.Shaped arity u.next) :
    Ends arity u (unifyWithin registry depth a b) fun next c => c.Shaped arity next := by
  induction depth generalizing a b u with
  | zero => exact ends_mismatch hu ha hb
  | succ depth ih =>
    have ha' := hu.deref ha
    have hb' := hu.deref hb
    rw [unifyWithin]
    refine .get ?_
    split
    · rename_i v w hv hw
      rw [hv] at ha'
      split
      · exact .pure hu ha'
      · exact ends_merge hu v w
    · rename_i v head args hv hargs
      rw [hv] at ha'
      rw [hargs] at hb'
      exact ends_bind hu ha'.var_mem hb'
    · rename_i head args v hargs hv
      rw [hargs] at ha'
      rw [hv] at hb'
      exact ends_bind hu hb'.var_mem ha'
    · rename_i head as head' bs has hbs
      rw [has] at ha'
      rw [hbs] at hb'
      split
      · rename_i heq
        refine .bind (ends_unifyAll (fun _ _ _ hu ha hb => ih hu ha hb) heq.2 hu
          (fun _ ht => ha'.arg ht) fun _ ht => hb'.arg ht) fun _ _ hnext hu1 hcs => ?_
        exact .pure hu1 (ha'.exchange hcs.1 hcs.2 hnext)
      · exact ends_mismatch hu ha hb

theorem ends_unify (hu : u.Shaped arity) (ha : a.Shaped arity u.next) (hb : b.Shaped arity u.next) :
    Ends arity u (unify registry a b) fun next c => c.Shaped arity next :=
  .get (ends_unifyWithin _ hu ha hb)

end Unifier

/-! The types in a core program. -/

namespace Core

mutual

/-- Every type that is written in the expression. -/
def Expr.types (e : Expr) : List Ty :=
  match e with
  | ⟨kind, ty⟩ => ty :: kind.types

def ExprKind.types (kind : ExprKind) : List Ty :=
  match kind with
  | .int _ | .float _ | .bool _ | .void | .string _ | .ident _ => []
  | .object _ fields => typesExprs fields
  | .func func => func.types
  | .call callee args _ => callee.types ++ typesExprs args
  | .builtin _ args => typesExprs args
  | .field target _ => target.types
  | .block body => body.types
  | .cond branches otherwise => typesBranches branches ++ otherwise.types
  | .cases _ target cases => target.types ++ typesBlocks cases

def FuncExpr.types (func : FuncExpr) : List Ty :=
  match func with
  | ⟨_, captures, _, body⟩ => captures.map (·.ty) ++ body.types

def Block.types (block : Block) : List Ty :=
  match block with
  | ⟨stmts, ty⟩ => ty :: typesStmts stmts

def Stmt.types (stmt : Stmt) : List Ty :=
  match stmt with
  | .bind _ value => value.types
  | .ret none => []
  | .ret (some value) => value.types
  | .whileDo cond body => cond.types ++ body.types
  | .forEach _ iterable body => iterable.types ++ body.types
  | .eval value => value.types

def typesExprs (exprs : List Expr) : List Ty :=
  match exprs with
  | [] => []
  | e :: rest => e.types ++ typesExprs rest

def typesBranches (branches : List Branch) : List Ty :=
  match branches with
  | [] => []
  | ⟨cond, body⟩ :: rest => cond.types ++ body.types ++ typesBranches rest

def typesBlocks (blocks : List Block) : List Ty :=
  match blocks with
  | [] => []
  | b :: rest => b.types ++ typesBlocks rest

def typesStmts (stmts : List Stmt) : List Ty :=
  match stmts with
  | [] => []
  | s :: rest => s.types ++ typesStmts rest

end

theorem typesExprs_eq_flatMap (exprs : List Expr) :
    typesExprs exprs = exprs.flatMap Expr.types := by
  induction exprs with
  | nil => rw [typesExprs, List.flatMap_nil]
  | cons e rest ih => rw [typesExprs, ih, List.flatMap_cons]

theorem typesBlocks_eq_flatMap (blocks : List Block) :
    typesBlocks blocks = blocks.flatMap Block.types := by
  induction blocks with
  | nil => rw [typesBlocks, List.flatMap_nil]
  | cons b rest ih => rw [typesBlocks, ih, List.flatMap_cons]

theorem typesStmts_eq_flatMap (stmts : List Stmt) :
    typesStmts stmts = stmts.flatMap Stmt.types := by
  induction stmts with
  | nil => rw [typesStmts, List.flatMap_nil]
  | cons s rest ih => rw [typesStmts, ih, List.flatMap_cons]

section MapTy

variable (f : Ty → Ty)

theorem types_mapTy : (∀ e : Expr, (e.mapTy f).types = e.types.map f) ∧
    (∀ kind : ExprKind, (kind.mapTy f).types = kind.types.map f) ∧
    (∀ blocks, typesBlocks (mapTyBlocks f blocks) = (typesBlocks blocks).map f) ∧
    (∀ block : Block, (block.mapTy f).types = block.types.map f) ∧
    (∀ stmts, typesStmts (mapTyStmts f stmts) = (typesStmts stmts).map f) ∧
    (∀ stmt : Stmt, (stmt.mapTy f).types = stmt.types.map f) ∧
    (∀ branches, typesBranches (mapTyBranches f branches) = (typesBranches branches).map f) ∧
    (∀ func : FuncExpr, (func.mapTy f).types = func.types.map f) ∧
    (∀ exprs, typesExprs (mapTyExprs f exprs) = (typesExprs exprs).map f) := by
  apply Expr.mapTy.mutual_induct
  all_goals
    simp +contextual [Expr.mapTy, ExprKind.mapTy, mapTyBlocks, Block.mapTy, mapTyStmts, Stmt.mapTy,
      mapTyBranches, FuncExpr.mapTy, mapTyExprs, Expr.types, ExprKind.types, typesBlocks,
      Block.types, typesStmts, Stmt.types, typesBranches, FuncExpr.types, typesExprs, Capture.mapTy]

theorem types_mapTyStmts (stmts : List Stmt) :
    typesStmts (mapTyStmts f stmts) = (typesStmts stmts).map f :=
  (types_mapTy f).2.2.2.2.1 stmts

end MapTy

end Core

end TraitCheck
