import TraitCheck.Proofs.Captures

/-!
How the pieces of a program are put together. `ComesTo` says of a step what a run
has made after it, if it has made something else before: an expression inside of
another one, statements, or the parameters of a function. Whatever a step makes
comes after what was made (`Makes.next`, `Writes.next`), and a node is made where
its parts were. References and calls are the first steps: a reference is free
where it stands, and a call passes on what is free in its callee, its arguments
and the dictionaries that it looks up.
-/

namespace TraitCheck

/-! Pieces. -/

namespace Piece

variable {p q q' : Piece} {id x : BindingId} {es es' : List Core.Expr} {bs bs' : List Core.Block}

theorem mem_free_append : id ∈ (p ++ q).free ↔ id ∈ p.free ∨ id ∈ q.free := List.mem_append

theorem exact_append : Core.Exact (p ++ q).inside ↔ Core.Exact p.inside ∧ Core.Exact q.inside :=
  Core.exact_append

theorem mem_free_without : x ∈ (p.without id).free ↔ x ∈ p.free ∧ x ≠ id := by
  simp [without]

namespace Becomes

theorem append_left (p : Piece) (h : q.Becomes q') : (p ++ q).Becomes (p ++ q') where
  free := fun _ => by rw [mem_free_append, mem_free_append, h.free]
  exact := fun hexact =>
    exact_append.mpr ⟨(exact_append.mp hexact).1, h.exact (exact_append.mp hexact).2⟩

theorem without (h : p.Becomes q) : (p.without id).Becomes (q.without id) where
  free := fun _ => by rw [mem_free_without, mem_free_without, h.free]
  exact := h.exact

/-- Nothing depends on the order, or on how often an expression is there. -/
theorem exprs (h : ∀ e, e ∈ es' ↔ e ∈ es) : (exprs es).Becomes (.exprs es') where
  free := fun _ => by simp only [Piece.exprs, Core.mem_freeExprs, h]
  exact := fun hexact => hexact.mono fun _ he => by
    simpa only [Piece.exprs, Core.mem_walkExprs, h] using he

theorem blocks (h : ∀ b, b ∈ bs' ↔ b ∈ bs) : (blocks bs).Becomes (.blocks bs') where
  free := fun _ => by simp only [Piece.blocks, Core.mem_freeBlocks, h]
  exact := fun hexact => hexact.mono fun _ he => by
    simpa only [Piece.blocks, Core.mem_walkBlocks, h] using he

theorem insert_expr {table : Assoc String Core.Expr} {key : String} {e : Core.Expr}
    (h : ¬table.contains key) :
    (Piece.exprs table.values ++ .expr e).Becomes (.exprs (table.insert key e).values) where
  free := fun _ => by
    simp [mem_free_append, Piece.exprs, expr, Assoc.values_insert e h, Core.freeExprs_append,
      Core.freeExprs]
  exact := fun hexact => by
    rw [Piece.exprs, Assoc.values_insert e h, Core.walkExprs_append, Core.walkExprs,
      Core.walkExprs, List.append_nil]
    exact hexact

theorem insert_block {table : Assoc String Core.Block} {key : String} {b : Core.Block}
    (h : ¬table.contains key) :
    (Piece.blocks table.values ++ .block b).Becomes (.blocks (table.insert key b).values) where
  free := fun _ => by
    simp only [mem_free_append, Piece.blocks, block, Assoc.values_insert b h, Core.mem_freeBlocks,
      List.mem_append, List.mem_singleton, or_and_right, exists_or, exists_eq_left]
  exact := fun hexact => by
    obtain ⟨htable, hb⟩ := exact_append.mp hexact
    intro e he
    rw [Piece.blocks, Assoc.values_insert b h, Core.mem_walkBlocks] at he
    obtain ⟨b', hb', he⟩ := he
    rcases List.mem_append.mp hb' with hb' | hb'
    · exact htable e (Core.mem_walkBlocks.mpr ⟨b', hb', he⟩)
    · exact hb e (List.mem_singleton.mp hb' ▸ he)

theorem assoc : (p ++ q ++ q').Becomes (p ++ (q ++ q')) where
  free := fun _ => by simp only [mem_free_append, or_assoc]
  exact := fun hexact => by simpa only [exact_append, and_assoc] using hexact

theorem single {e : Core.Expr} : (expr e).Becomes (.exprs [e]) where
  free := fun _ => by simp [Piece.exprs, expr, Core.freeExprs]
  exact := fun hexact => by
    rw [Piece.exprs, Core.walkExprs, Core.walkExprs, List.append_nil]
    exact hexact

/-- Nothing is said of the name and the type of a function. -/
theorem rename {func : Core.FuncExpr} {name : Option String} {ty ty' : Ty} :
    (expr ⟨.func func, ty⟩).Becomes (.expr ⟨.func { func with name }, ty'⟩) where
  free := fun _ => Iff.rfl
  exact := fun hexact => by
    have hbody : Core.Exact func.body.walk := by
      refine hexact.mono fun _ he => ?_
      obtain ⟨name, captures, params, body⟩ := func
      rw [expr, Core.Expr.walk, Core.ExprKind.walk, Core.FuncExpr.walk]
      exact List.mem_cons_of_mem _ (List.mem_append_right _ he)
    have hfunc := hexact _ (by rw [expr, Core.Expr.walk]; exact List.mem_cons_self) _ rfl
    exact Core.Exact.func ⟨hfunc.nodup, hfunc.mem_iff⟩ hbody

theorem retype {func : Core.FuncExpr} {ty ty' : Ty} :
    (expr ⟨.func func, ty⟩).Becomes (.expr ⟨.func func, ty'⟩) := by
  obtain ⟨name, captures, params, body⟩ := func
  exact .rename

end Becomes

end Piece

namespace Checker

open TraitCheck.Core (freeExprs walkExprs freeStmts walkStmts binders)

variable {α β : Type} {marks : Marks} {V V' : Set BindingId} {s s' s'' : Checker} {p q : Piece}
  {id : BindingId}

theorem Made.quietly (h : Made p marks V V' s s') (hs : Alike s' s'') : Made p marks V V' s s'' :=
  h.silent (h.coherent.quiet hs).toMade

theorem MadeExpr.quietly (h : MadeExpr p marks V s s') (hs : Alike s' s'') :
    MadeExpr p marks V s s'' :=
  ⟨h.toMade.quietly hs, hs.scope ▸ h.top⟩

/-- The ids from outside of the innermost function are none of the new ones. -/
theorem Opens.ne_of_lt_base (h : Opens [id] marks V s s') {x : BindingId} (hx : x < marks.base) :
    x ≠ id :=
  Nat.ne_of_lt (lt_of_lt_of_le hx
    (le_trans h.made.before.base_le_next (h.new id List.mem_cons_self)))

/-- A binder and then what it is visible in. -/
theorem Opens.seq (h : Opens [id] marks V s s')
    (h' : Made p marks (V ∪ {x | x ∈ [id]}) V' s' s'') : Made (p.without id) marks V V' s s'' := by
  refine h.made.seq h' ?_ ?_
  · intro x hx
    obtain ⟨hx, hne⟩ := Piece.mem_free_without.mp hx
    exact (h'.visible x hx).resolve_right fun hid => hne (List.mem_singleton.mp hid)
  · intro x hx
    exact (Piece.mem_free_without.trans (and_iff_left (h.ne_of_lt_base hx))).trans
      (or_iff_right List.not_mem_nil).symm

/-! Statements. -/

/-- Statements were made, whose binders are open from now on. -/
structure MadeStmts (stmts : List Core.Stmt) (marks : Marks) (V : Set BindingId)
    (s s' : Checker) : Prop where
  made : Made ⟨freeStmts stmts, walkStmts stmts⟩ marks V (V ∪ {id | id ∈ binders stmts}) s s'
  new : ∀ id ∈ binders stmts, s.scope.nextBinding ≤ id

namespace MadeStmts

variable {value : Core.Expr}

theorem append {as bs : List Core.Stmt} (h : MadeStmts as marks V s s')
    (h' : MadeStmts bs marks (V ∪ {id | id ∈ binders as}) s' s'') :
    MadeStmts (as ++ bs) marks V s s'' := by
  have hlow : ∀ id < marks.base, id ∉ binders as := fun id hid hbinder =>
    absurd (le_trans h.made.before.base_le_next (h.new id hbinder)) (Nat.not_le.mpr hid)
  constructor
  · rw [Core.binders_append, ← union_append, Core.walkStmts_append]
    refine h.made.seq h'.made ?_ ?_
    · intro id hid
      rcases Core.mem_freeStmts_append.mp hid with hid | ⟨hid, hbinder⟩
      · exact h.made.visible id hid
      · exact (h'.made.visible id hid).resolve_right hbinder
    · intro id hid
      rw [Core.mem_freeStmts_append, and_iff_left (hlow id hid)]
  · intro id hid
    rw [Core.binders_append] at hid
    rcases List.mem_append.mp hid with hid | hid
    · exact h.new id hid
    · exact le_trans h.made.next_le (h'.new id hid)

theorem nil (h : Made ∅ marks V V s s') : MadeStmts [] marks V s s' := by
  constructor
  · rw [show binders [] = [] from rfl, union_nil]
    exact h
  · intro id hid
    cases hid

theorem after {stmts : List Core.Stmt} (h : MadeExpr ∅ marks V s s')
    (h' : MadeStmts stmts marks V s' s'') : MadeStmts stmts marks V s s'' :=
  (nil h.toMade).append ((union_nil V).symm ▸ h')

theorem block {b : Core.Block} (h : MadeStmts b.stmts marks V s s') :
    Made (.block b) marks V (V ∪ {id | id ∈ binders b.stmts}) s s' := by
  obtain ⟨stmts, ty⟩ := b
  exact h.made

/-- A statement that binds nothing. -/
theorem single {stmt : Core.Stmt} (h : MadeExpr ⟨stmt.free, stmt.walk⟩ marks V s s')
    (hbinders : stmt.binders = []) : MadeStmts [stmt] marks V s s' := by
  have hnone : binders [stmt] = [] := by rw [binders, List.flatMap_singleton, hbinders]
  constructor
  · rw [hnone, union_nil]
    refine h.toMade.conv ⟨?_, ?_⟩
    · intro id
      simp [freeStmts]
    · rw [walkStmts, walkStmts, List.append_nil]
      exact fun hexact => hexact
  · intro id hid
    rw [hnone] at hid
    cases hid

theorem ofBind (hnew : s.scope.nextBinding ≤ id)
    (h : Made ((Piece.expr value).without id) marks V (V ∪ {x | x ∈ [id]}) s s') :
    MadeStmts [.bind id value] marks V s s' := by
  constructor
  · refine h.conv ⟨?_, ?_⟩
    · intro x
      simp [freeStmts, Core.Stmt.free, Piece.without, Piece.expr]
    · rw [walkStmts, walkStmts, Core.Stmt.walk, List.append_nil]
      exact fun hexact => hexact
  · intro x hx
    rw [List.mem_singleton.mp hx]
    exact hnew

/-- A value and then its binder. -/
theorem bind (hvalue : MadeExpr (.expr value) marks V s s') (hopen : Opens [id] marks V s' s'') :
    MadeStmts [.bind id value] marks V s s'' := by
  refine .ofBind (le_trans hvalue.next_le (hopen.new id List.mem_cons_self)) ?_
  refine (hvalue.toMade.seq hopen.made (C := ((Piece.expr value).without id).free) ?_ ?_).conv
    ⟨fun _ => Iff.rfl, fun hexact => (Core.exact_append.mp hexact).1⟩
  · intro x hx
    exact hvalue.visible x (Piece.mem_free_without.mp hx).1
  · intro x hx
    exact (Piece.mem_free_without.trans (and_iff_left (hopen.ne_of_lt_base hx))).trans
      (or_iff_left List.not_mem_nil).symm

/-- A binder that is visible in its value. -/
theorem bindRec (hopen : Opens [id] marks V s s')
    (hvalue : Made (.expr value) marks (V ∪ {x | x ∈ [id]}) (V ∪ {x | x ∈ [id]}) s' s'') :
    MadeStmts [.bind id value] marks V s s'' :=
  .ofBind (hopen.new id List.mem_cons_self) (hopen.seq hvalue)

end MadeStmts

/-! Steps. -/

/-- What a run has made, from its first state to its last. -/
abbrev Trace := Marks → Set BindingId → Checker → Checker → Prop

/-- The step comes to `Q`, in a run that has come to `P` before it. -/
structure ComesTo (x : CheckM α) (Q : α → Trace) (P : Trace) : Prop where
  run : ∀ {marks V s₀ s a s'}, P marks V s₀ s → Yields x s a s' → Q a marks V s₀ s'

/-- The run ends in a coherent state, and quiet steps change nothing of what was
made. -/
class Endures (P : Trace) : Prop where
  coherent : ∀ {marks V s s'}, P marks V s s' → ∃ V', Coherent marks V' s'
  quietly : ∀ {marks V s s' s''}, P marks V s s' → Alike s' s'' → P marks V s s''

instance : Endures (MadeExpr p) := ⟨fun h => ⟨_, h.coherent⟩, fun h hs => h.quietly hs⟩

instance {stmts : List Core.Stmt} : Endures (MadeStmts stmts) :=
  ⟨fun h => ⟨_, h.made.coherent⟩, fun h hs => ⟨h.made.quietly hs, h.new⟩⟩

namespace ComesTo

variable {x body : CheckM α} {k : α → CheckM β} {P P' : Trace} {R : α → Trace} {Q : β → Trace}

theorem bind (hx : ComesTo x R P) (hk : ∀ a, ComesTo (k a) Q (R a)) : ComesTo (x >>= k) Q P := by
  constructor
  intro marks V s0 s b s' h hrun
  obtain ⟨a, s1, h1, hrun⟩ := hrun.bind
  exact (hk a).run (hx.run h h1) hrun

/-- The same where more is known of what the first step gives. -/
theorem bind_of [Endures P] {F : α → Prop} (hx : ComesTo x R P)
    (hF : ∀ {marks V s a s'}, Coherent marks V s → Yields x s a s' → F a)
    (hk : ∀ a, F a → ComesTo (k a) Q (R a)) : ComesTo (x >>= k) Q P := by
  constructor
  intro marks V s0 s b s' h hrun
  obtain ⟨a, s1, h1, hrun⟩ := hrun.bind
  obtain ⟨_, hs⟩ := Endures.coherent h
  exact (hk a (hF hs h1)).run (hx.run h h1) hrun

theorem quiet [Endures P] (hx : Ends Alike x) : ComesTo x (fun _ => P) P :=
  ⟨fun h hrun => Endures.quietly h (hx.alike hrun)⟩

theorem after [Endures P] (hx : Ends Alike x) (hk : ∀ a, ComesTo (k a) Q P) :
    ComesTo (x >>= k) Q P :=
  .bind (.quiet hx) hk

theorem pure {a : α} : ComesTo (Pure.pure a) R (R a) := by
  constructor
  intro marks V s0 s b s' h hrun
  obtain ⟨rfl, rfl⟩ := hrun.pure
  exact h

theorem fail {failure : Failure} {span : Span} : ComesTo (fail failure span) R P :=
  ⟨fun _ hrun => hrun.fail.elim⟩

theorem ensure {condition : Prop} [Decidable condition] {failure : Failure} {span : Span}
    {k : Unit → CheckM β} (hk : condition → ComesTo (k ()) Q P) :
    ComesTo (ensure condition failure span >>= k) Q P := by
  constructor
  intro marks V s0 s b s' h hrun
  obtain ⟨hcondition, hrun⟩ := hrun.ensure_bind
  exact (hk hcondition).run h hrun

theorem imp (h : ComesTo x R P') (himp : ∀ {marks V s s'}, P marks V s s' → P' marks V s s') :
    ComesTo x R P :=
  ⟨fun hP hrun => h.run (himp hP) hrun⟩

theorem inFunction [Endures P] [∀ a, Endures (R a)] {declared : Option Ty} (h : ComesTo body R P) :
    ComesTo (inFunction declared body) R P := by
  constructor
  intro marks V s0 s a s' hP hrun
  obtain ⟨s1, hbody, rfl⟩ := hrun.inFunction
  have hstart : Alike s { s with functions := { ret := declared } :: s.functions } := ⟨rfl, rfl⟩
  exact Endures.quietly (h.run (Endures.quietly hP hstart) hbody) ⟨rfl, rfl⟩

theorem isolated [Endures P] [∀ a, Endures (R a)] (h : ComesTo body R P) :
    ComesTo (isolated body) R P := by
  constructor
  intro marks V s0 s a s' hP hrun
  obtain ⟨s1, hbody, rfl⟩ := hrun.isolated
  have hstart : Alike s { s with unifier := { s.unifier with subst := {} } } := ⟨rfl, rfl⟩
  exact Endures.quietly (h.run (Endures.quietly hP hstart) hbody) ⟨rfl, rfl⟩

/-- An expression that is no function is made of its parts. -/
theorem node {kind : Core.ExprKind} {ty : Ty} (hkind : ∀ func, kind ≠ .func func := by simp) :
    ComesTo (Pure.pure ⟨kind, ty⟩) (fun e => MadeExpr (.expr e)) (MadeExpr ⟨kind.free, kind.walk⟩) :=
  .imp .pure fun h => h.conv ⟨fun _ => Iff.rfl, fun hexact => hexact.cons hkind⟩

theorem stmt {stmt : Core.Stmt} (hbinders : stmt.binders = [] := by rfl) :
    ComesTo (Pure.pure [stmt]) MadeStmts (MadeExpr ⟨stmt.free, stmt.walk⟩) :=
  .imp .pure fun h => .single h hbinders

theorem nil : ComesTo (Pure.pure []) MadeStmts (MadeExpr ∅) :=
  .imp .pure fun h => .nil h.toMade

end ComesTo

/-- Whenever the step succeeds, it makes the piece. -/
abbrev Makes (x : CheckM α) (piece : α → Piece) : Prop :=
  ComesTo x (fun a => MadeExpr (piece a)) (MadeExpr ∅)

/-- Whenever the step succeeds, it makes statements in the current frame. -/
abbrev Writes (x : CheckM α) (stmts : α → List Core.Stmt) : Prop :=
  ComesTo x (fun a => MadeStmts (stmts a)) (MadeExpr ∅)

variable {x : CheckM α} {k : α → CheckM β} {Q : β → Trace}

theorem Makes.next {piece : α → Piece} (hx : Makes x piece)
    (hk : ∀ a, ComesTo (k a) Q (MadeExpr (p ++ piece a))) : ComesTo (x >>= k) Q (MadeExpr p) :=
  .bind ⟨fun h hrun => h.seq (hx.run h.coherent.stay hrun)⟩ hk

theorem Writes.next {stmts : List Core.Stmt} {f : α → List Core.Stmt} (hx : Writes x f)
    (hk : ∀ a, ComesTo (k a) Q (MadeStmts (stmts ++ f a))) : ComesTo (x >>= k) Q (MadeStmts stmts) :=
  .bind ⟨fun h hrun => h.append (hx.run h.made.coherent.stay hrun)⟩ hk

/-- Unification with the expected type makes nothing. -/
theorem Makes.expecting {expected : Ty} {span : Span} {check : Option Ty → CheckM Core.Expr}
    (h : ∀ hint, Makes (check hint) .expr) : Makes (expecting expected span check) .expr :=
  .after ends_resolve fun _ => (h _).next fun _ => .after ends_unify fun _ => .pure

/-- Statements in a frame of their own are a block. -/
theorem Writes.inScope {x : CheckM Core.Block} (h : Writes x Core.Block.stmts) :
    Makes (inScope x) .block := by
  constructor
  intro marks V s0 s block s' hs hrun
  obtain ⟨s1, hbody, rfl⟩ := hrun.inScope
  exact hs.seq (hs.coherent.pop (h.run hs.coherent.push.stay hbody).block)

/-- The result of a unit differs from what was made in its types only. -/
theorem Writes.inUnit {x : CheckM (List Core.Stmt)} (h : Writes x fun stmts => stmts) :
    Writes (inUnit x) fun stmts => stmts := by
  refine .isolated (.bind h fun _ => .after .get fun _ => .imp .pure fun hmade => ⟨?_, ?_⟩)
  · rw [Core.binders_mapTy, Core.free_mapTyStmts, Core.walk_mapTyStmts]
    exact hmade.made.conv ⟨fun _ => Iff.rfl, fun hexact => hexact.mapTy _⟩
  · rw [Core.binders_mapTy]
    exact hmade.new

/-! References. -/

variable {value : Value} {span : Span} {name : String} {e : Core.Expr}

theorem Yields.lookupValue (h : Yields (lookupValue name span) s value s') :
    Yields (lookup? name) s (some value) s' := by
  obtain ⟨found, s1, h1, h⟩ := h.bind
  cases found with
  | none => exact h.fail.elim
  | some found =>
    obtain ⟨rfl, rfl⟩ := h.pure
    exact h1

/-- An identifier is free where it stands, and no function. -/
theorem becomes_ident (id : BindingId) (ty : Ty) :
    Piece.Becomes { free := [id] } (.expr ⟨.ident id, ty⟩) := by
  refine ⟨fun _ => ?_, fun _ => ?_⟩
  · rw [Piece.expr, Core.Expr.free, Core.ExprKind.free]
  · rw [Piece.expr, Core.Expr.walk, Core.ExprKind.walk]
    exact Core.exact_nil.cons (by simp)

theorem makes_reference : Makes (reference name span) .expr := by
  constructor
  intro marks V s0 s e s' h hrun
  obtain ⟨value, s1, h1, hrest⟩ := hrun.bind
  have hlookup := h.coherent.lookup h1.lookupValue
  split at hrest
  · rename_i id hkind
    obtain ⟨ty, s2, h2, hrest⟩ := hrest.bind
    obtain ⟨rfl, rfl⟩ := hrest.pure
    have hmade := (h.seq (hlookup.2.1 id hkind)).quietly (ends_instantiate.alike h2)
    exact hmade.conv (becomes_ident id ty)
  · exact hrest.fail.elim

/-! Calls. -/

variable {shape : FuncShape} {callee : Callee}

def Callee.free : Callee → List BindingId
  | .expr e => e.free
  | _ => []

def Callee.walk : Callee → List Core.Expr
  | .expr e => e.walk
  | _ => []

def Callee.piece (callee : Callee) : Piece := ⟨callee.free, callee.walk⟩

/-- The type asks for at most one dictionary. -/
def OneBound (ty : Ty) : Prop := ∃ head args, ty = .app head args ∧ head.bounds.length ≤ 1

theorem OneBound.replace {ty : Ty} (h : OneBound ty) (f : VarId → Option Ty) :
    OneBound (ty.replace f) := by
  obtain ⟨head, args, rfl, hle⟩ := h
  exact ⟨head, Ty.replaceAll f args, rfl, hle⟩

theorem OneBound.resolve {ty : Ty} (h : OneBound ty) (u : Unifier) : OneBound (u.resolve ty) := by
  rw [Unifier.resolve, Subst.apply]
  cases u.subst.size with
  | zero => exact h
  | succ n => exact h.replace _

theorem OneBound.obligations_length {ty : Ty} (h : OneBound ty) (hshape : ty.asFunc? = some shape) :
    shape.obligations.length ≤ 1 := by
  obtain ⟨head, args, rfl, hle⟩ := h
  rw [Ty.asFunc?] at hshape
  split at hshape
  · cases hshape
    rw [Ty.obligations, List.length_zipWith]
    omega
  · cases hshape

/-- A callee with its type was made, and a method asks for one dictionary only. -/
def Called (r : Callee × Ty) : Trace := fun marks V s s' =>
  (∀ index, r.1 = .method index → OneBound r.2) ∧ MadeExpr r.1.piece marks V s s'

theorem comes_namedCallee : ComesTo (namedCallee name span) Called (MadeExpr ∅) := by
  constructor
  intro marks V s0 s r s' h hrun
  obtain ⟨value, s1, h1, hrest⟩ := hrun.bind
  obtain ⟨⟨depth, hbinds⟩, hbinding, hother⟩ := h.coherent.lookup h1.lookupValue
  obtain ⟨ty, s2, h2, hrest⟩ := hrest.bind
  have halike := ends_instantiate.alike h2
  split at hrest
  · rename_i id hkind
    obtain ⟨rfl, rfl⟩ := hrest.pure
    refine ⟨nofun, ?_⟩
    exact ((h.seq (hbinding id hkind)).quietly halike).conv (becomes_ident id ty)
  · rename_i op hkind
    obtain ⟨rfl, rfl⟩ := hrest.pure
    have hmade := hother fun id hid => nomatch hkind.symm.trans hid
    exact ⟨nofun, (h.seq hmade).quietly halike⟩
  · rename_i bound index hkind
    obtain ⟨rfl, rfl⟩ := hrest.pure
    have hmade := hother fun _ hid => nomatch hkind.symm.trans hid
    refine ⟨fun _ _ => ?_, (h.seq hmade).quietly halike⟩
    obtain ⟨hty, _⟩ := h2.modifyGet
    rw [hty]
    exact OneBound.replace ((h.coherent.values hbinds).method bound index hkind) _

theorem comes_calleeOf {written : Surface.Expr} {check : CheckM Core.Expr}
    (hcheck : Makes check .expr) : ComesTo (calleeOf written check) Called (MadeExpr ∅) := by
  rw [calleeOf.eq_def]
  split
  · exact comes_namedCallee
  · exact hcheck.next fun _ => .imp .pure fun h => ⟨nofun, h⟩

/-- The type of a method is known to ask for one dictionary before the call is
opened, and still does after it was resolved. -/
theorem ComesTo.opened {r : Callee × Ty} {k : FuncShape → CheckM β}
    (hk : ∀ shape : FuncShape, (∀ index, r.1 = .method index → shape.obligations.length ≤ 1) →
      ComesTo (k shape) Q (MadeExpr r.1.piece)) : ComesTo (openCall r.2 span >>= k) Q (Called r) := by
  constructor
  intro marks V s0 s b s' h hrun
  obtain ⟨shape, s1, h1, hrun⟩ := hrun.bind
  refine (hk shape fun index hindex => ?_).run (h.2.quietly (ends_openCall.alike h1)) hrun
  exact ((h.1 index hindex).resolve s.unifier).obligations_length h1.openCall

/-- The name of a dictionary is bound to the dictionary, wherever it is found. -/
theorem Coherent.kind_dictionary (h : Coherent marks V s) {con : Con} {bound : Trait} {depth : Nat}
    (hlookup : s.registry.lookup con bound = some (.binding name id))
    (hbinds : Frame.Binds name value depth s.scope.frames) : value.kind = .binding id := by
  obtain ⟨hname, _⟩ := h.lawful.evidence hlookup
  have hreserved : Reserved name := hname ▸ reserved_dictionaryName bound con
  obtain ⟨con', bound', id', hlookup', hkind⟩ := (h.values hbinds).dictionary hreserved
  rw [hkind, h.lawful.binding_inj hlookup hlookup']

theorem makes_dictionary {obligation : Obligation} : Makes (dictionary span obligation) .expr := by
  refine .after ends_resolve fun _ => ⟨fun h hrun => ?_⟩
  have hrest := hrun.get_bind
  obtain ⟨evidence, s3, h3, hrest⟩ := hrest.bind
  obtain ⟨hrequire, rfl⟩ := h3.ofExcept
  obtain ⟨con, _, hlookup⟩ := Registry.lookup_of_require hrequire
  cases evidence with
  | intrinsic bound primitive =>
    obtain ⟨rfl, rfl⟩ := hrest.pure
    exact h.conv ⟨fun _ => Iff.rfl, fun hexact => hexact.cons nofun⟩
  | binding name id =>
    obtain ⟨value, s4, h4, hrest⟩ := hrest.bind
    obtain ⟨hsome, hrest⟩ := hrest.ensure_bind
    obtain ⟨rfl, rfl⟩ := hrest.pure
    obtain ⟨value, rfl⟩ := Option.isSome_iff_exists.mp hsome
    obtain ⟨⟨depth, hbinds⟩, hbinding, _⟩ := h.coherent.lookup h4
    have hmade := hbinding id (h.coherent.kind_dictionary hlookup hbinds)
    exact (h.seq hmade).conv (becomes_ident id _)

theorem makes_dictionaries {obligations : List Obligation} :
    Makes (dictionaries span obligations) .exprs := by
  induction obligations with
  | nil => exact .pure
  | cons obligation rest ih => exact makes_dictionary.next fun _ => ih.next fun _ => .pure

theorem length_dictionaries {obligations : List Obligation} :
    Results (·.length = obligations.length) (dictionaries span obligations) := by
  induction obligations with
  | nil => exact .pure rfl
  | cons obligation rest ih =>
    exact .after fun _ => .bind ih fun _ hdicts => .pure (congrArg (· + 1) hdicts)

/-- What a call is made of: the callee, the arguments and the dictionaries. A
method is called through its only dictionary. -/
theorem comes_applied {dicts args : List Core.Expr} {params : List Ty} {ret : Ty}
    (hmethod : ∀ index, callee = .method index → dicts.length ≤ 1) :
    ComesTo (applied callee dicts args params ret span) (fun e => MadeExpr (.expr e))
      (MadeExpr (callee.piece ++ .exprs args ++ .exprs dicts)) := by
  rw [applied.eq_def]
  split
  · rename_i op
    refine .imp .node fun h => h.conv ⟨?_, ?_⟩
    · intro id
      simp [Core.ExprKind.free, Piece.mem_free_append, Piece.exprs, Callee.piece, Callee.free,
        Core.freeExprs_append, or_comm]
    · rw [Piece.exact_append, Piece.exact_append, Core.ExprKind.walk, Core.walkExprs_append,
        Core.exact_append]
      exact fun hexact => ⟨hexact.2, hexact.1.2⟩
  · rename_i callee
    refine .imp .node fun h => h.conv ⟨?_, ?_⟩
    · intro id
      simp only [Core.ExprKind.free, Piece.mem_free_append, Piece.exprs, Callee.piece, Callee.free,
        Core.freeExprs_append, List.mem_append, or_assoc]
      exact or_congr_right or_comm
    · rw [Piece.exact_append, Piece.exact_append, Core.ExprKind.walk, Core.walkExprs_append,
        Core.exact_append, Core.exact_append]
      exact fun hexact => ⟨hexact.1.1, hexact.2, hexact.1.2⟩
  · rename_i index dict rest
    have hrest : rest = [] := by
      have hle := hmethod index rfl
      rw [List.length_cons] at hle
      exact List.length_eq_zero_iff.mp (by omega)
    subst hrest
    refine .imp .node fun h => h.conv ⟨?_, ?_⟩
    · intro id
      simp [Core.ExprKind.free, Core.Expr.free, Piece.mem_free_append, Piece.exprs, Callee.piece,
        Callee.free, freeExprs, or_comm]
    · rw [Piece.exact_append, Piece.exact_append, Core.ExprKind.walk, Core.exact_append]
      intro hexact
      have hdict := hexact.2
      rw [Piece.exprs, walkExprs, walkExprs, List.append_nil] at hdict
      exact ⟨hdict.cons (by simp), hexact.1.2⟩
  · exact .fail

/-- A call whose callee and arguments were made before. -/
theorem comes_closeCall {args : List Core.Expr}
    (hmethod : ∀ index, callee = .method index → shape.obligations.length ≤ 1) :
    ComesTo (closeCall callee shape args span) (fun e => MadeExpr (.expr e))
      (MadeExpr (callee.piece ++ .exprs args)) := by
  refine .bind_of (F := fun dicts => dicts.length = shape.obligations.length)
    ⟨fun h hrun => h.seq (makes_dictionaries.run h.coherent.stay hrun)⟩
    (fun _ hrun => length_dictionaries hrun) fun _ hlength => ?_
  refine .after ends_resolve fun _ => .ensure fun _ => .after .get fun _ => ?_
  exact comes_applied fun index hindex => hlength ▸ hmethod index hindex

end Checker

end TraitCheck
