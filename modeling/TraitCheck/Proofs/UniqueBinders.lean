import TraitCheck.Proofs.Sessions

/-!
Binding ids are unique. Every binder of a core program has an id of its own,
wherever it is: a `let`, a loop, the scrutinee of a match, or a parameter of a
function. The walk draws ids in increasing order, so what it makes between two
states introduces ids from the range between their counters, each once. Fields,
cases and methods are put in the order of their declaration after they are
checked, and each is there once, because no declaration has a name twice.
-/

namespace TraitCheck

namespace Core

mutual

/-- The ids that binders in the expression introduce, at every depth. -/
@[simp] def Expr.introduced (e : Expr) : List BindingId :=
  match e with
  | ⟨kind, _⟩ => kind.introduced

@[simp] def ExprKind.introduced (kind : ExprKind) : List BindingId :=
  match kind with
  | .int _ | .float _ | .bool _ | .void | .string _ | .ident _ => []
  | .object _ fields => introducedExprs fields
  | .func func => func.introduced
  | .call callee args _ => callee.introduced ++ introducedExprs args
  | .builtin _ args => introducedExprs args
  | .field target _ => target.introduced
  | .block body => body.introduced
  | .cond branches otherwise => introducedBranches branches ++ otherwise.introduced
  | .cases scrutinee target cases => target.introduced ++ scrutinee :: introducedBlocks cases

@[simp] def FuncExpr.introduced (func : FuncExpr) : List BindingId :=
  match func with
  | ⟨_, _, params, body⟩ => params ++ body.introduced

@[simp] def Block.introduced (block : Block) : List BindingId :=
  match block with
  | ⟨stmts, _⟩ => introducedStmts stmts

@[simp] def Stmt.introduced (stmt : Stmt) : List BindingId :=
  match stmt with
  | .bind id value => id :: value.introduced
  | .ret none => []
  | .ret (some value) => value.introduced
  | .whileDo cond body => cond.introduced ++ body.introduced
  | .forEach id iterable body => iterable.introduced ++ id :: body.introduced
  | .eval value => value.introduced

@[simp] def introducedExprs (exprs : List Expr) : List BindingId :=
  match exprs with
  | [] => []
  | e :: rest => e.introduced ++ introducedExprs rest

@[simp] def introducedBranches (branches : List Branch) : List BindingId :=
  match branches with
  | [] => []
  | ⟨cond, body⟩ :: rest => cond.introduced ++ body.introduced ++ introducedBranches rest

@[simp] def introducedBlocks (blocks : List Block) : List BindingId :=
  match blocks with
  | [] => []
  | b :: rest => b.introduced ++ introducedBlocks rest

@[simp] def introducedStmts (stmts : List Stmt) : List BindingId :=
  match stmts with
  | [] => []
  | s :: rest => s.introduced ++ introducedStmts rest

end

theorem introducedExprs_eq_flatMap (exprs : List Expr) :
    introducedExprs exprs = exprs.flatMap Expr.introduced := by
  induction exprs with
  | nil => rw [introducedExprs, List.flatMap_nil]
  | cons e rest ih => rw [introducedExprs, ih, List.flatMap_cons]

theorem introducedBlocks_eq_flatMap (blocks : List Block) :
    introducedBlocks blocks = blocks.flatMap Block.introduced := by
  induction blocks with
  | nil => rw [introducedBlocks, List.flatMap_nil]
  | cons b rest ih => rw [introducedBlocks, ih, List.flatMap_cons]

theorem introducedStmts_eq_flatMap (stmts : List Stmt) :
    introducedStmts stmts = stmts.flatMap Stmt.introduced := by
  induction stmts with
  | nil => rw [introducedStmts, List.flatMap_nil]
  | cons s rest ih => rw [introducedStmts, ih, List.flatMap_cons]

@[simp] theorem introducedExprs_append (as bs : List Expr) :
    introducedExprs (as ++ bs) = introducedExprs as ++ introducedExprs bs := by
  simp only [introducedExprs_eq_flatMap, List.flatMap_append]

@[simp] theorem introducedStmts_append (as bs : List Stmt) :
    introducedStmts (as ++ bs) = introducedStmts as ++ introducedStmts bs := by
  simp only [introducedStmts_eq_flatMap, List.flatMap_append]

@[simp] theorem introducedStmts_stmts (block : Block) :
    introducedStmts block.stmts = block.introduced := by
  obtain ⟨stmts, ty⟩ := block
  rw [Block.introduced]

section MapTy

variable (f : Ty → Ty)

theorem introduced_mapTy : (∀ e : Expr, (e.mapTy f).introduced = e.introduced) ∧
    (∀ kind : ExprKind, (kind.mapTy f).introduced = kind.introduced) ∧
    (∀ blocks, introducedBlocks (mapTyBlocks f blocks) = introducedBlocks blocks) ∧
    (∀ block : Block, (block.mapTy f).introduced = block.introduced) ∧
    (∀ stmts, introducedStmts (mapTyStmts f stmts) = introducedStmts stmts) ∧
    (∀ stmt : Stmt, (stmt.mapTy f).introduced = stmt.introduced) ∧
    (∀ branches, introducedBranches (mapTyBranches f branches) = introducedBranches branches) ∧
    (∀ func : FuncExpr, (func.mapTy f).introduced = func.introduced) ∧
    (∀ exprs, introducedExprs (mapTyExprs f exprs) = introducedExprs exprs) := by
  apply Expr.mapTy.mutual_induct
  all_goals
    simp +contextual [Expr.mapTy, ExprKind.mapTy, mapTyBlocks, Block.mapTy, mapTyStmts, Stmt.mapTy,
      mapTyBranches, FuncExpr.mapTy, mapTyExprs, Expr.introduced, ExprKind.introduced,
      introducedBlocks, Block.introduced, introducedStmts, Stmt.introduced, introducedBranches,
      FuncExpr.introduced, introducedExprs]

@[simp] theorem introduced_mapTyStmts (stmts : List Stmt) :
    introducedStmts (mapTyStmts f stmts) = introducedStmts stmts :=
  (introduced_mapTy f).2.2.2.2.1 stmts

end MapTy

end Core

namespace Checker

variable {α β : Type} {s s' : Checker} {lo mid hi : Nat} {ids pre : List BindingId}

/-- The ids are different ones from the range. -/
structure Between (lo hi : Nat) (ids : List BindingId) : Prop where
  le : lo ≤ hi
  nodup : ids.Nodup
  range : ∀ id ∈ ids, lo ≤ id ∧ id < hi

theorem Between.mono (h : Between lo mid ids) (hle : mid ≤ hi) : Between lo hi ids :=
  ⟨le_trans h.le hle, h.nodup, fun id hid =>
    ⟨(h.range id hid).1, lt_of_lt_of_le (h.range id hid).2 hle⟩⟩

theorem Between.perm {ids' : List BindingId} (h : Between lo hi ids) (hperm : ids'.Perm ids) :
    Between lo hi ids' :=
  ⟨h.le, hperm.nodup_iff.mpr h.nodup, fun id hid => h.range id (hperm.mem_iff.mp hid)⟩

theorem Between.append {ids' : List BindingId} (h : Between lo mid ids) (h' : Between mid hi ids') :
    Between lo hi (ids ++ ids') := by
  refine ⟨le_trans h.le h'.le, h.nodup.append h'.nodup ?_, fun id hid => ?_⟩
  · intro id hid hid'
    exact absurd (h'.range id hid').1 (Nat.not_le.mpr (h.range id hid).2)
  · rcases List.mem_append.mp hid with hid | hid
    · exact (h.mono h'.le).range id hid
    · exact ⟨le_trans h.le (h'.range id hid).1, (h'.range id hid).2⟩

theorem Between.snoc (h : Between lo mid ids) (hid : mid < hi) : Between lo hi (ids ++ [mid]) :=
  h.append ⟨le_of_lt hid, List.nodup_singleton _, by
    rintro _ (_ | ⟨_, ⟨⟩⟩)
    exact ⟨le_refl _, hid⟩⟩

def WellKeyed (s : Checker) : Prop := Keyed s.adts s.registry.traits

/-- If the ids before the step are fresh then so are those with its result, which
come to `goal`. -/
structure Draws (pre : List BindingId) (x : CheckM α) (goal : α → List BindingId) : Prop where
  between : ∀ {lo s a s'}, s.WellKeyed → Between lo s.scope.nextBinding pre → Yields x s a s' →
    s'.WellKeyed ∧ Between lo s'.scope.nextBinding (goal a)

/-- The step adds just what is introduced by its result. -/
def Brings (x : CheckM α) (f : α → List BindingId) : Prop :=
  ∀ pre, Draws pre x fun a => pre ++ f a

namespace Draws

variable {x body : CheckM α} {k : α → CheckM β} {f : α → List BindingId}
  {goal : β → List BindingId}

/-- One step after the other, where more may be known of what the first gives. -/
theorem bind_of {P : α → Prop} (hx : Brings x f)
    (hP : ∀ {s a s'}, s.WellKeyed → Yields x s a s' → P a)
    (hk : ∀ a, P a → Draws (pre ++ f a) (k a) goal) : Draws pre (x >>= k) goal := by
  constructor
  intro lo s b s' hs hpre hrun
  obtain ⟨a, s1, h1, hrun⟩ := hrun.bind
  obtain ⟨hs1, hids⟩ := (hx pre).between hs hpre h1
  exact (hk a (hP hs h1)).between hs1 hids hrun

theorem bind (hx : Brings x f) (hk : ∀ a, Draws (pre ++ f a) (k a) goal) :
    Draws pre (x >>= k) goal :=
  bind_of (P := fun _ => True) hx (fun _ _ => trivial) fun a _ => hk a

end Draws

/-- A step whose result introduces nothing. -/
theorem brings_nothing {x : CheckM α} (h : Ends Balanced x) : Brings x fun _ => [] := by
  intro pre
  constructor
  intro lo s a s' hs hpre hrun
  have hbalanced := h.yields hrun
  rw [List.append_nil]
  exact ⟨hbalanced.keyed hs, hpre.mono hbalanced.binding⟩

namespace Draws

variable {x body : CheckM α} {k : α → CheckM β} {f : α → List BindingId}
  {goal : β → List BindingId}

theorem after_of {P : α → Prop} (hx : Ends Balanced x)
    (hP : ∀ {s a s'}, s.WellKeyed → Yields x s a s' → P a)
    (hk : ∀ a, P a → Draws pre (k a) goal) : Draws pre (x >>= k) goal :=
  bind_of (brings_nothing hx) hP fun a ha => (List.append_nil pre).symm ▸ hk a ha

theorem after (hx : Ends Balanced x) (hk : ∀ a, Draws pre (k a) goal) : Draws pre (x >>= k) goal :=
  after_of (P := fun _ => True) hx (fun _ _ => trivial) fun a _ => hk a

theorem ensured {condition : Prop} [Decidable condition] {failure : Failure} {span : Span}
    {k : Unit → CheckM β} (hk : condition → Draws pre (k ()) goal) :
    Draws pre (ensure condition failure span >>= k) goal :=
  after_of (P := fun _ => condition) .test (fun _ h => h.ensure.1) fun _ => hk

theorem pure {a : α} (h : (f a).Perm pre) : Draws pre (Pure.pure a) f := by
  constructor
  intro lo s b s' hs hpre hrun
  obtain ⟨rfl, rfl⟩ := hrun.pure
  exact ⟨hs, hpre.perm h⟩

theorem fail {failure : Failure} {span : Span} : Draws pre (fail failure span) f :=
  ⟨fun _ _ hrun => hrun.fail.elim⟩

theorem inScope (h : Draws pre body f) : Draws pre (inScope body) f := by
  constructor
  intro lo s a s' hs hpre hrun
  obtain ⟨s1, hbody, rfl⟩ := hrun.inScope
  obtain ⟨hs1, hids⟩ := h.between (s := { s with scope := s.scope.push }) hs hpre hbody
  exact ⟨hs1, (Scope.nextBinding_pop s1.scope).symm ▸ hids⟩

theorem inFunctionFrame (h : Draws pre body f) :
    Draws pre (inFunctionFrame body) fun r => f r.1 := by
  constructor
  intro lo s r s' hs hpre hrun
  obtain ⟨s1, hbody, _, rfl⟩ := hrun.inFunctionFrame
  obtain ⟨hs1, hids⟩ := h.between (s := { s with scope := s.scope.pushFunction }) hs hpre hbody
  have hnext : s1.scope.popFunction.2.nextBinding = s1.scope.nextBinding :=
    (Scope.steady_popFunction s1.scope).next.trans (Scope.nextBinding_pop _)
  exact ⟨hs1, hnext.symm ▸ hids⟩

theorem inFunction {declared : Option Ty} (h : Draws pre body f) :
    Draws pre (inFunction declared body) f := by
  constructor
  intro lo s a s' hs hpre hrun
  obtain ⟨s1, hbody, rfl⟩ := hrun.inFunction
  obtain ⟨hs1, hids⟩ :=
    h.between (s := { s with functions := { ret := declared } :: s.functions }) hs hpre hbody
  exact ⟨hs1, hids⟩

theorem isolated (h : Draws pre body f) : Draws pre (isolated body) f := by
  constructor
  intro lo s a s' hs hpre hrun
  obtain ⟨s1, hbody, rfl⟩ := hrun.isolated
  obtain ⟨hs1, hids⟩ :=
    h.between (s := { s with unifier := { s.unifier with subst := {} } }) hs hpre hbody
  exact ⟨hs1, hids⟩

theorem of_perm {pre' : List BindingId} (h : Draws pre' x f) (hperm : pre'.Perm pre) :
    Draws pre x f :=
  ⟨fun hs hpre hrun => h.between hs (hpre.perm hperm) hrun⟩

end Draws

/-! Steps that draw ids. -/

variable {name : String} {ty : Ty} {span : Span} {types : List Ty} {fields : Fields} {m : Match}
  {value : Core.Expr}

theorem brings_freshBinding : Brings freshBinding fun id => [id] := by
  intro pre
  constructor
  intro lo s id s' hs hpre hrun
  obtain ⟨rfl, rfl⟩ := hrun.freshBinding
  exact ⟨hs, hpre.snoc (Nat.lt_succ_self _)⟩

theorem brings_bindLocal : Brings (bindLocal name ty) fun id => [id] := by
  intro pre
  constructor
  intro lo s id s' hs hpre hrun
  obtain ⟨rfl, rfl⟩ := hrun.modifyGet
  exact ⟨hs, hpre.snoc (Nat.lt_succ_self _)⟩

theorem brings_bindParam : Brings (bindParam span name ty) fun id => [id] := by
  intro pre
  constructor
  intro lo s id s' hs hpre hrun
  obtain ⟨rfl, rfl⟩ := hrun.bindParam
  exact ⟨hs, hpre.snoc (Nat.lt_succ_self _)⟩

theorem brings_bindDictionaries {id : Nat} {bounds : List Trait} :
    Brings (bindDictionaries span name id bounds) fun ids => ids := by
  induction bounds with
  | nil => exact fun pre => .pure (by simp)
  | cons bound rest ih =>
    intro pre
    exact .bind brings_bindParam fun _ => .after kept_provide.balanced
      fun _ => .bind ih fun _ => .pure (by simp)

theorem brings_bindTracers {generics : List Generic} :
    Brings (bindTracers span generics) Prod.fst := by
  induction generics with
  | nil => exact fun pre => .pure (by simp)
  | cons g rest ih =>
    intro pre
    exact .after ends_freshId fun _ =>
      .after passes_bindType.kept.balanced fun _ =>
        .bind brings_bindDictionaries fun _ => .bind ih fun _ => .pure (by simp)

theorem brings_bindParams {params : List Surface.Param} :
    Brings (bindParams params) fun ids => ids := by
  induction params with
  | nil => exact fun pre => .pure (by simp)
  | cons param rest ih =>
    intro pre
    exact .after ends_typeFor fun _ =>
      .bind brings_bindParam fun _ => .bind ih fun _ => .pure (by simp)

theorem brings_bindClosureParams {params : List Surface.ClosureParam} :
    Brings (bindClosureParams params types) fun ids => ids := by
  induction params generalizing types with
  | nil => exact fun pre => .pure (by simp)
  | cons param rest ih =>
    cases types with
    | nil => exact fun pre => .pure (by simp)
    | cons ty types =>
      intro pre
      exact .bind brings_bindParam fun _ => .bind ih fun _ => .pure (by simp)

theorem brings_bindCaseFields {seen : List String} {bindings : List Surface.CaseBinding} :
    Brings (bindCaseFields m fields seen bindings) Core.introducedStmts := by
  induction bindings generalizing seen with
  | nil => exact fun pre => .pure (by simp)
  | cons b rest ih =>
    intro pre
    exact .ensured fun _ => .after ends_fieldOf fun _ =>
      .bind brings_bindLocal fun _ => .bind ih fun _ => .pure (by simp)

theorem brings_bindElements {source : BindingId} {index : Nat} {names : List Name} :
    Brings (bindElements ⟨.ident source, ty⟩ index names types) Core.introducedStmts := by
  induction names generalizing index types with
  | nil => exact fun pre => .pure (by simp)
  | cons name rest ih =>
    cases types with
    | nil => exact fun pre => .pure (by simp)
    | cons elem types =>
      intro pre
      exact .bind brings_bindLocal fun _ => .bind ih fun _ => .pure (by simp)

/-- The value of a pattern is in the first statement for it. -/
theorem draws_bindPattern {pattern : Surface.Pattern} :
    Draws (pre ++ value.introduced) (bindPattern pattern ty value span)
      fun out => pre ++ Core.introducedStmts out := by
  unfold bindPattern
  split
  · refine .bind brings_bindLocal fun id => .pure ?_
    simpa using (@List.perm_append_comm _ [id] _).append_left pre
  · split
    · refine .ensured fun _ => .bind brings_freshBinding fun source =>
        .bind brings_bindElements fun _ => .pure ?_
      simpa using ((@List.perm_append_comm _ [source] _).append_right _).append_left pre
    · exact .after ends_freshAll fun _ => .fail

/-! References and calls. -/

variable {span : Span} {dicts : List Core.Expr}
variable {args : List Core.Expr} {callee : Callee}

@[simp] def Callee.introduced : Callee → List BindingId
  | .expr e => e.introduced
  | .builtin _ | .method _ => []

theorem brings_reference : Brings (reference name span) Core.Expr.introduced := by
  intro pre
  refine .after stays_lookupValue.lift fun _ => ?_
  split
  · exact .after ends_instantiate fun _ => .pure (by simp)
  · exact .fail

theorem brings_namedCallee : Brings (namedCallee name span) fun r => r.1.introduced := by
  intro pre
  refine .after stays_lookupValue.lift fun _ =>
    .after ends_instantiate fun _ => ?_
  split <;> refine .pure ?_
  · simp [Callee.introduced, Core.Expr.introduced, Core.ExprKind.introduced]
  · simp [Callee.introduced]
  · simp [Callee.introduced]

theorem brings_calleeOf {callee : Surface.Expr} {check : CheckM Core.Expr}
    (h : Brings check Core.Expr.introduced) :
    Brings (calleeOf callee check) fun r => r.1.introduced := by
  unfold calleeOf
  split
  · exact brings_namedCallee
  · exact fun _ => .bind h fun _ => .pure (by simp)

theorem introduced_dictionary {obligation : Obligation} :
    Results (·.introduced = []) (dictionary span obligation) := by
  refine .after fun ty => .after fun _ => .after fun evidence => ?_
  cases evidence with
  | intrinsic bound primitive =>
    exact .pure (by simp [Core.Expr.introduced, Core.ExprKind.introduced, Core.introducedExprs])
  | binding name id =>
    exact .after fun _ => .after fun _ => .pure (by rw [Core.Expr.introduced, Core.ExprKind.introduced])

theorem introduced_dictionaries {obligations : List Obligation} :
    Results (∀ dict ∈ ·, dict.introduced = []) (dictionaries span obligations) := by
  induction obligations with
  | nil => exact .pure fun _ hmem => absurd hmem List.not_mem_nil
  | cons obligation rest ih =>
    exact .bind introduced_dictionary fun _ hdict => .bind ih fun _ hdicts => .pure (List.forall_mem_cons.mpr ⟨hdict, hdicts⟩)

/-- What a call is made of is already there. -/
theorem draws_applied {params : List Ty} {ret : Ty}
    (hdicts : ∀ dict ∈ dicts, dict.introduced = []) :
    Draws (pre ++ (callee.introduced ++ Core.introducedExprs args))
      (applied callee dicts args params ret span) fun e => pre ++ e.introduced := by
  have hnone : Core.introducedExprs dicts = [] := by
    rw [Core.introducedExprs_eq_flatMap]
    exact List.flatMap_eq_nil_iff.mpr hdicts
  unfold applied
  split
  · exact .pure (by simp [hnone])
  · exact .pure (by simp [hnone])
  · exact .pure (by simp [hdicts _ List.mem_cons_self])
  · exact .fail

theorem draws_closeCall {shape : FuncShape} :
    Draws (pre ++ (callee.introduced ++ Core.introducedExprs args))
      (closeCall callee shape args span) fun e => pre ++ e.introduced :=
  .after_of stays_dictionaries.lift
    (fun _ h => introduced_dictionaries h) fun _ hdicts =>
      .after ends_resolve fun _ => .ensured fun _ =>
        .after .get fun _ => draws_applied hdicts

theorem brings_expecting {expected : Ty} {check : Option Ty → CheckM Core.Expr}
    (h : ∀ hint, Brings (check hint) Core.Expr.introduced) :
    Brings (expecting expected span check) Core.Expr.introduced :=
  fun _ => .after ends_resolve fun _ => .bind (h _) fun _ =>
    .after ends_unify fun _ => .pure (by simp)

/-! What is put in the order of its declaration. -/

variable {keys : List String} {adt : Adt} {room : Nat} {out : Assoc String Core.Expr}
  {impl : Impl}

theorem introducedExprs_inOrder {table : Assoc String Core.Expr} {values : List Core.Expr}
    (h : table.inOrder keys = .ok values) (hkeys : keys.Nodup) (hwithin : table.Within keys) :
    (Core.introducedExprs values).Perm (Core.introducedExprs table.values) := by
  rw [Core.introducedExprs_eq_flatMap, Core.introducedExprs_eq_flatMap]
  exact (hwithin.perm_inOrder hkeys h).flatMap_right _

theorem introducedBlocks_inOrder {table : Assoc String Core.Block} {values : List Core.Block}
    (h : table.inOrder keys = .ok values) (hkeys : keys.Nodup) (hwithin : table.Within keys) :
    (Core.introducedBlocks values).Perm (Core.introducedBlocks table.values) := by
  rw [Core.introducedBlocks_eq_flatMap, Core.introducedBlocks_eq_flatMap]
  exact (hwithin.perm_inOrder hkeys h).flatMap_right _

@[simp] theorem introduced_constructed (tag : Option Nat) (values : List Core.Expr) :
    (constructed tag values).introduced = Core.introducedExprs values := by
  unfold constructed
  split
  · rw [Core.ExprKind.introduced, Core.introducedExprs]
  · rw [Core.ExprKind.introduced]

theorem keyed_lookupAdt {name : Name} (hs : s.WellKeyed) (h : Yields (lookupAdt name) s adt s') :
    adt.kind.Keyed := by
  replace h := h.get_bind
  split at h
  · rename_i hfind
    obtain ⟨rfl, rfl⟩ := h.pure
    exact hs.adts _ _ hfind
  · exact h.fail.elim

theorem nodup_constructedFields {tag : Option Name} (hadt : adt.kind.Keyed) :
    Results (·.2.keys.Nodup) (constructedFields adt tag span) := by
  unfold constructedFields
  split
  · rename_i hkind
    rw [hkind] at hadt
    exact .pure hadt
  · rename_i tags tag hkind
    rw [hkind] at hadt
    split
    · rename_i hlocate
      exact .pure (hadt.2 _ (List.mem_of_getElem? (Assoc.getElem?_of_locate? hlocate).2))
    · exact .fail
  all_goals exact .fail

theorem nodup_enumOf {r : Adt × Assoc String Fields} (hs : s.WellKeyed)
    (h : Yields (enumOf ty span) s r s') : r.2.keys.Nodup := by
  replace h := h.get_bind
  split at h
  · rename_i found hfound
    obtain ⟨rfl, rfl⟩ := h.pure
    obtain ⟨adt, hadt, hrest⟩ := Option.bind_eq_some_iff.mp hfound
    obtain ⟨tags, htags, heq⟩ := Option.bind_eq_some_iff.mp hrest
    cases heq
    rw [AdtTable.of?] at hadt
    split at hadt
    · have hkeyed := hs.adts _ adt hadt
      rw [Adt.tags?] at htags
      split at htags
      · rename_i hkind
        cases htags
        rw [hkind] at hkeyed
        exact hkeyed.1
      · cases htags
    · cases hadt
  · exact h.fail.elim

/-! Bodies of functions. -/

theorem draws_returning : Draws (pre ++ value.introduced) (returning value)
    fun out => pre ++ Core.introducedStmts out := by
  refine .after ends_resolve fun _ => ?_
  split <;> exact .pure (by simp)

@[simp] theorem introduced_endWithReturn (stmts : List Core.Stmt) :
    Core.introducedStmts (endWithReturn stmts) = Core.introducedStmts stmts := by
  rw [endWithReturn]
  split
  · rfl
  · simp

theorem draws_closeBody {stmts : List Core.Stmt} {trailing : Bool} :
    Draws (pre ++ Core.introducedStmts stmts) (closeBody span stmts trailing)
      fun block => pre ++ block.introduced := by
  unfold closeBody
  split
  · exact .after ends_currentReturn fun _ => .pure (by simp)
  · exact .after stays_returnVoid.lift fun _ => .after ends_currentReturn fun _ => .pure (by simp)

theorem brings_inUnit {body : CheckM (List Core.Stmt)} (h : Brings body Core.introducedStmts) :
    Brings (inUnit body) Core.introducedStmts :=
  fun _ => .isolated (.bind h fun _ => .after .get fun _ => .pure (by simp))

/-! Implementations. -/

variable {written : Surface.TypeExpr} {bound : Name}

theorem brings_openImpl : Brings (openImpl bound written span) fun impl => [impl.binding] := by
  intro pre
  refine .after .get fun _ => ?_
  split
  · exact .fail
  · refine .after ends_typeFor fun _ => ?_
    split
    · exact .fail
    · exact .ensured fun _ => .bind brings_freshBinding fun _ =>
        .after kept_provide.balanced fun _ => .after passes_bindValue.kept.balanced fun _ => .pure (by simp)

/-! The walk. -/

open Surface (Expr FieldInit Branch Case Block Stmt FuncDecl Program)

mutual

theorem brings_checkExpr {room : Nat} {hint : Option Ty} {e : Expr} :
    Brings (checkExpr room hint e) Core.Expr.introduced := by
  intro pre
  cases room with
  | zero =>
    rw [checkExpr]
    exact .after .get fun _ => .fail
  | succ room =>
    match e with
    | .int value _ | .float bits _ | .bool value _ | .string text _ =>
      rw [checkExpr]
      exact .pure (by simp)
    | .ident name span =>
      rw [checkExpr]
      exact brings_reference pre
    | .tuple elems _ =>
      rw [checkExpr]
      exact .after ends_tupleHints fun _ =>
        .bind brings_checkElems fun _ => .pure (by simp)
    | .array elems _ =>
      rw [checkExpr]
      exact .after ends_arrayHint fun _ => .after ends_fresh fun _ =>
        .bind brings_checkItems fun r => .after ends_resolve fun _ => .pure (by simp)
    | .construct ty tag inits span =>
      rw [checkExpr]
      refine .after_of ends_lookupAdt keyed_lookupAdt fun _ hadt =>
        .after ends_instantiateAdt fun _ => .after_of ends_constructedFields (fun _ h =>
        nodup_constructedFields hadt h) fun r hr => ?_
      refine .bind_of (f := fun t => Core.introducedExprs t.values)
        (fun pre => draws_checkInits.of_perm (.of_eq (List.append_nil pre)))
        (fun _ h => within_checkInits (.empty _) h) fun _ hsupplied => ?_
      split
      · exact .fail
      · rename_i values hvalues
        refine .after ends_resolve fun _ => .pure ?_
        simpa [List.perm_append_left_iff] using introducedExprs_inOrder hvalues hr hsupplied
    | .field target field span =>
      rw [checkExpr]
      exact .bind brings_checkExpr fun value => .after ends_resolve fun _ =>
        .after ends_selected fun r => .pure (by simp)
    | .call callee args span =>
      rw [checkExpr]
      refine .bind (brings_calleeOf brings_checkExpr) fun r => .after ends_openCall fun shape =>
        .ensured fun _ => .bind brings_checkArgs fun _ => ?_
      rw [List.append_assoc]
      exact draws_closeCall
    | .binary op lhs rhs span =>
      rw [checkExpr]
      refine .bind brings_namedCallee fun r => .after ends_openCall
        fun shape => ?_
      split
      · exact .bind (brings_expecting fun hint => brings_checkExpr) fun _ =>
          .bind (brings_expecting fun _ => brings_checkExpr) fun r' => draws_closeCall.of_perm (by simp)
      · exact .fail
    | .unary op operand span =>
      rw [checkExpr]
      refine .bind brings_namedCallee fun r => .after ends_openCall
        fun _ => ?_
      split
      · exact .bind (brings_expecting fun _ => brings_checkExpr) fun _ => draws_closeCall.of_perm (by simp)
      · exact .fail
    | .closure params body span =>
      rw [checkExpr]
      refine .after ends_openClosure fun _ => .after ends_closureParams fun _ =>
        .after ends_resolve fun _ => .bind (f := fun r : (List BindingId × Core.Block) × List
        Upvalue => r.1.1 ++ r.1.2.introduced) (fun pre => .inFunctionFrame (α := List BindingId ×
        Core.Block) (f := fun r => pre ++ (r.1 ++ r.2.introduced)) ?_) fun _ =>
        .after ends_unify fun _ => .after ends_resolve fun _ => .pure (by simp)
      exact .bind brings_bindClosureParams fun _ => .bind brings_checkBody fun _ => .pure (by simp)
    | .cond branches otherwise span =>
      rw [checkExpr]
      exact .bind brings_checkBranches fun r => .bind brings_checkElse fun r' =>
        .after ends_join fun _ => .after ends_resolve fun _ => .pure (by simp)
    | .cases target cases span =>
      rw [checkExpr]
      refine .bind brings_checkExpr fun _ => .after ends_resolve fun _ =>
        .after_of ends_enumOf nodup_enumOf fun _ hr => .bind brings_freshBinding fun _ => ?_
      refine .bind_of (f := fun t => Core.introducedBlocks t.1.values)
        (fun pre => draws_checkCases.of_perm (.of_eq (List.append_nil pre)))
        (fun _ h => within_checkCases (.empty _) h) fun _ hr' => ?_
      dsimp only
      split
      · exact .fail
      · rename_i blocks hblocks
        refine .after ends_resolve fun _ => .pure ?_
        simpa [List.perm_append_left_iff] using introducedBlocks_inOrder hblocks hr hr'
    | .block body _ =>
      rw [checkExpr]
      exact .bind brings_checkBlock fun _ => .pure (by simp)

theorem brings_checkElems {room : Nat} {hints : List Ty} {es : List Expr} :
    Brings (checkElems room hints es) Core.introducedExprs := by
  intro pre
  match es with
  | [] =>
    rw [checkElems]
    exact .pure (by simp)
  | e :: rest =>
    rw [checkElems]
    exact .bind brings_checkExpr fun _ =>
      .bind brings_checkElems fun _ => .pure (by simp)

theorem brings_checkItems {room : Nat} {hint : Option Ty} {ty : Ty} {es : List Expr} :
    Brings (checkItems room hint ty es) fun r => Core.introducedExprs r.1 := by
  intro pre
  match es with
  | [] =>
    rw [checkItems]
    exact .pure (by simp)
  | e :: rest =>
    rw [checkItems]
    exact .after ends_resolve fun _ =>
      .bind brings_checkExpr fun _ => .after ends_unify fun _ =>
        .bind brings_checkItems fun _ => .pure (by simp)

theorem brings_checkArgs {room : Nat} {params : List Ty} {es : List Expr} :
    Brings (checkArgs room params es) Core.introducedExprs := by
  intro pre
  match es with
  | [] =>
    rw [checkArgs]
    exact .pure (by simp)
  | e :: rest =>
    cases params with
    | nil =>
      rw [checkArgs]
      exact .pure (by simp)
    | cons param params =>
      rw [checkArgs]
      exact .bind (brings_expecting fun _ => brings_checkExpr) fun _ =>
        .bind brings_checkArgs fun _ => .pure (by simp)

theorem draws_checkInits {room : Nat} {inst : Instance} {fields : Fields}
    {supplied : Assoc String Core.Expr} {inits : List FieldInit} {pre : List BindingId} :
    Draws (pre ++ Core.introducedExprs supplied.values) (checkInits room inst fields supplied inits)
      fun out => pre ++ Core.introducedExprs out.values := by
  match inits with
  | [] =>
    rw [checkInits]
    exact .pure (by simp)
  | ⟨name, e⟩ :: rest =>
    rw [checkInits]
    split
    · exact .after ends_resolve fun _ => .fail
    · exact .ensured fun hnew => .bind (brings_expecting fun _ => brings_checkExpr) fun _ =>
        draws_checkInits.of_perm (by simp [Assoc.values_insert _ hnew])

theorem brings_checkBranches {room : Nat} {hint before : Option Ty} {branches : List Branch} :
    Brings (checkBranches room hint before branches) fun r => Core.introducedBranches r.1 := by
  intro pre
  match branches with
  | [] =>
    rw [checkBranches]
    exact .pure (by simp)
  | ⟨cond, body⟩ :: rest =>
    rw [checkBranches]
    exact .bind (brings_expecting fun _ => brings_checkExpr) fun _ =>
      .bind brings_checkBlock fun _ => .after ends_join
        fun _ => .bind brings_checkBranches fun _ => .pure (by simp)

theorem brings_checkElse {room : Nat} {hint : Option Ty} {span : Span} {otherwise : Option Block} :
    Brings (checkElse room hint span otherwise) fun r => r.1.introduced := by
  intro pre
  match otherwise with
  | none =>
    rw [checkElse]
    exact .pure (by simp [Core.Block.empty])
  | some block =>
    rw [checkElse]
    exact .bind brings_checkBlock fun _ => .pure (by simp)

theorem draws_checkCases {room : Nat} {hint : Option Ty} {m : Match} {before : Option Ty}
    {done : Assoc String Core.Block} {cases : List Case} {pre : List BindingId} :
    Draws (pre ++ Core.introducedBlocks done.values) (checkCases room hint m before done cases)
      fun r => pre ++ Core.introducedBlocks r.1.values := by
  match cases with
  | [] =>
    rw [checkCases]
    exact .pure (by simp)
  | ⟨tag, bindings, ⟨stmts, bodySpan⟩, span⟩ :: rest =>
    rw [checkCases]
    split
    · exact .fail
    · refine .ensured fun hnew => .bind (f := Core.Block.introduced) (fun _ => .inScope ?_)
        fun _ => .after ends_join fun _ => draws_checkCases.of_perm ?_
      · exact .bind brings_bindCaseFields fun _ => .bind brings_checkStmts fun _ => .pure (by simp)
      · simp [Assoc.values_insert _ hnew, Core.introducedBlocks_eq_flatMap]

theorem brings_checkBlock {room : Nat} {hint : Option Ty} {block : Block} :
    Brings (checkBlock room hint block) Core.Block.introduced := by
  intro pre
  match block with
  | ⟨stmts, _⟩ =>
    rw [checkBlock]
    exact .inScope (brings_checkStmts pre)

theorem brings_checkStmts {room : Nat} {hint : Option Ty} {stmts : List Stmt} :
    Brings (checkStmts room hint stmts) Core.Block.introduced := by
  intro pre
  match stmts with
  | [] =>
    rw [checkStmts]
    exact .pure (by simp [Core.Block.empty])
  | stmt :: rest =>
    refine checkStmts_cons (P := fun x => Draws pre (x hint) _) ?_ ?_
    · intro e span hstmt
      match stmt, hstmt with
      | .eval e _, rfl =>
        exact .bind brings_checkExpr fun _ => .pure (by simp)
    · exact .bind brings_checkStmt fun _ => .bind brings_checkStmts fun _ => .pure (by simp)

theorem brings_checkStmt {room : Nat} {stmt : Stmt} :
    Brings (checkStmt room stmt) Core.introducedStmts := by
  intro pre
  match stmt with
  | .bind pattern written value _ =>
    rw [checkStmt]
    exact .after ends_typeFor? fun _ => .bind brings_checkExpr fun _ => .after ends_join fun _ =>
      .after ends_resolve fun _ => draws_bindPattern
  | .func decl =>
    rw [checkStmt]
    exact .after ends_declareSignature fun _ => .bind brings_freshBinding fun _ =>
      .after passes_bindValue.kept.balanced fun _ => .bind brings_checkFunc fun r =>
      .after passes_setValueType.kept.balanced fun _ => .pure (by simp)
  | .struct name generics fields span =>
    rw [checkStmt]
    exact .after ends_requireTopLevel fun _ => .after kept_defineStruct.balanced fun _ => .pure (by simp)
  | .enum name generics tags span =>
    rw [checkStmt]
    exact .after ends_requireTopLevel fun _ => .after kept_defineEnum.balanced fun _ => .pure (by simp)
  | .trait name methods span =>
    rw [checkStmt]
    exact .after ends_requireTopLevel fun _ => .after kept_declareTrait.balanced fun _ => .pure (by simp)
  | .impl bound ty methods span =>
    rw [checkStmt]
    refine .after ends_requireTopLevel fun _ =>
      .bind_of brings_openImpl (fun hs h => hs.traits _ _ h.openImpl.1) fun _ himpl => ?_
    refine .bind_of (f := fun t => Core.introducedExprs t.values)
      (fun pre => draws_checkMethods.of_perm (.of_eq (List.append_nil pre)))
      (fun _ h => within_checkMethods (.empty _) h) fun _ hdone => ?_
    split
    · exact .fail
    · rename_i fields hfields
      exact .pure (by simpa [List.perm_append_left_iff] using introducedExprs_inOrder hfields himpl hdone)
  | .ret none span =>
    rw [checkStmt]
    exact .after stays_recordReturn.lift fun _ => .pure (by simp)
  | .ret (some e) span =>
    rw [checkStmt]
    exact .after ends_requireFunction fun _ => .after ends_currentReturn
      fun hint => .bind brings_checkExpr fun value =>
        .after stays_recordReturn.lift fun _ => .pure (by simp)
  | .whileDo cond body _ =>
    rw [checkStmt]
    exact .bind (brings_expecting fun _ => brings_checkExpr) fun _ =>
      .bind brings_checkBlock fun _ => .pure (by simp)
  | .forEach name iterable body span =>
    rw [checkStmt]
    refine .bind brings_checkExpr fun _ => .after ends_resolve fun _ =>
      .after ends_elementOf fun _ =>
        .bind (f := fun r => r.1 :: r.2.introduced) (fun _ => .inScope ?_) fun _ => .pure (by simp)
    exact .bind brings_bindLocal fun _ => .bind brings_checkBlock fun _ => .pure (by simp)
  | .eval e _ =>
    rw [checkStmt]
    exact .bind brings_checkExpr fun _ => .pure (by simp)

theorem brings_checkFunc {room : Nat} {sig : Signature} {decl : FuncDecl} :
    Brings (checkFunc room sig decl) fun r => r.1.introduced := by
  intro pre
  match decl with
  | ⟨name, _, params, ret, body, span⟩ =>
    rw [checkFunc]
    refine .bind (α := (List BindingId × Core.Block × List (Nat × Ty)) × List Upvalue) (f := fun r
      => r.1.1 ++ r.1.2.1.introduced) (fun pre => .inFunctionFrame (α := List BindingId × Core.Block
      × List (Nat × Ty)) (f := fun r => pre ++ (r.1 ++ r.2.1.introduced)) ?_) fun _ => .pure (by simp)
    exact .bind brings_bindTracers fun _ => .bind brings_bindParams fun _ =>
      .after ends_typeFor? fun _ => .bind brings_checkBody fun _ => .pure (by simp)

theorem draws_checkMethods {room : Nat} {impl : Impl} {done : Assoc String Core.Expr}
    {methods : List FuncDecl} {pre : List BindingId} :
    Draws (pre ++ Core.introducedExprs done.values) (checkMethods room impl done methods)
      fun out => pre ++ Core.introducedExprs out.values := by
  match methods with
  | [] =>
    rw [checkMethods]
    exact .pure (by simp)
  | method :: rest =>
    rw [checkMethods]
    split
    · exact .fail
    · exact .ensured fun hnew => .after ends_methodType fun _ =>
        .after ends_declareSignature fun _ => .bind brings_checkFunc fun _ =>
          .after (.isolated (.bind ends_unify fun _ => ends_resolve)) fun _ =>
            draws_checkMethods.of_perm (by simp [Assoc.values_insert _ hnew])

theorem brings_checkBody {room : Nat} {declared : Option Ty} {body : Block} :
    Brings (checkBody room declared body) Core.Block.introduced := by
  intro pre
  match body with
  | ⟨stmts, span⟩ =>
    rw [checkBody]
    exact .inFunction (.bind brings_checkBodyStmts fun _ => draws_closeBody)

theorem brings_checkBodyStmts {room : Nat} {stmts : List Stmt} :
    Brings (checkBodyStmts room stmts) fun r => Core.introducedStmts r.1 := by
  intro pre
  match stmts with
  | [] =>
    rw [checkBodyStmts]
    exact .pure (by simp)
  | stmt :: rest =>
    refine checkBodyStmts_cons (P := fun x => Draws pre x _) ?_ ?_
    · intro e span hstmt
      match stmt, hstmt with
      | .eval e _, rfl =>
        refine .bind (brings_inUnit fun _ => ?_) fun out => .pure (by simp)
        exact .after ends_currentReturn fun _ => .bind brings_checkExpr
          fun _ => .after stays_recordReturn.lift fun _ => draws_returning
    · exact .bind (brings_inUnit brings_checkStmt) fun _ =>
        .bind brings_checkBodyStmts fun _ => .pure (by simp)

end

theorem brings_checkUnits {program : Program} :
    Brings (checkUnits room program) Core.introducedStmts := by
  intro pre
  induction program generalizing pre with
  | nil => exact .pure (by simp)
  | cons stmt rest ih =>
    exact .bind (brings_inUnit brings_checkStmt) fun _ =>
      .bind (fun pre => ih pre) fun _ => .pure (by simp)

/-! Sessions. -/

/-- All that is made in a session, by the programs that are accepted. -/
def produced (answers : List (Except TypeError (List Core.Stmt))) : List Core.Stmt :=
  answers.flatMap fun answer => (answer.toOption).getD []

theorem between_check (hs : s.WellKeyed) (program : Program) :
    Between s.scope.nextBinding (s.check program).2.scope.nextBinding
      (Core.introducedStmts ((s.check program).1.toOption.getD [])) := by
  cases hcheck : s.check program with
  | mk answer s' =>
    have hbalanced := balanced_check s program
    rw [hcheck] at hbalanced
    cases answer with
    | error e =>
      change Between _ _ (Core.introducedStmts [])
      rw [Core.introducedStmts]
      exact ⟨hbalanced.binding, List.nodup_nil, fun _ hid => absurd hid List.not_mem_nil⟩
    | ok core =>
      have hrun : Yields (checkProgram program) s core s' := hcheck
      have hdraws : Draws [] (checkProgram program) Core.introducedStmts :=
        .after balanced_preparePrelude fun _ => .after (balanced_declareAdts program) fun _ =>
          .after .get fun _ => brings_checkUnits []
      exact (hdraws.between hs ⟨le_refl _, List.nodup_nil, fun _ hid =>
        absurd hid List.not_mem_nil⟩ hrun).2

theorem between_session (hs : s.WellKeyed) (programs : List Program) :
    Between s.scope.nextBinding (s.session programs).2.scope.nextBinding
      (Core.introducedStmts (produced (s.session programs).1)) := by
  induction programs generalizing s with
  | nil =>
    change Between _ _ (Core.introducedStmts [])
    rw [Core.introducedStmts]
    exact ⟨le_refl _, List.nodup_nil, fun _ hid => absurd hid List.not_mem_nil⟩
  | cons program rest ih =>
    have hcheck := between_check hs program
    have hrest := ih ((balanced_check s program).keyed hs)
    have hboth := hcheck.append hrest
    rw [← Core.introducedStmts_append] at hboth
    exact hboth

/-- In all that a session makes, every binding id is introduced by one binder. -/
theorem introduced_nodup (options : Options) (programs : List Program) :
    (Core.introducedStmts (produced ((new options).session programs).1)).Nodup :=
  (between_session (s := new options) Keyed.empty programs).nodup

end Checker

end TraitCheck
