import TraitCheck.Proofs.WellTyped

/-!
Tracers stay inside of the functions that made them. A tracer stands for a type
parameter while the function is checked; in the result of a check it occurs only
in the body of that function, and in no type that is left in scope.
-/

namespace TraitCheck

namespace Core

variable {rules : Rules} {place : Place}

/-! No function stands inside of itself. -/

variable {creator : Nat → Option FuncExpr}

/-- The functions around are larger than what stands in them. -/
def Place.Exceeds (place : Place) (size : Nat) : Prop := ∀ func ∈ place.around, size < sizeOf func

theorem Place.Exceeds.mono {size size' : Nat} (h : place.Exceeds size) (hle : size' ≤ size) :
    place.Exceeds size' :=
  fun func hfunc => lt_of_le_of_lt hle (h func hfunc)

theorem Place.Exceeds.body {func : FuncExpr} (h : place.Exceeds (sizeOf func)) :
    (place.inside func).Exceeds (sizeOf func.body) := by
  have hbody : sizeOf func.body < sizeOf func := by
    obtain ⟨name, captures, params, body⟩ := func
    rw [FuncExpr.mk.sizeOf_spec]
    dsimp only
    omega
  intro f hf
  rcases List.mem_cons.mp hf with rfl | hf
  · exact hbody
  · exact lt_trans hbody (h f hf)

/-- The rules, for nodes that are not inside of themselves. -/
def Rules.proper (rules : Rules) : Rules :=
  { rules with expr := fun place e => rules.expr place e ∧
      ∀ func, e.kind = .func func → func ∉ place.around }

/-- By induction on the program: whatever stands in a node is smaller than it. -/
theorem every_proper :
    (∀ rules p (e : Expr), e.Every rules p → p.Exceeds (sizeOf e) → e.Every rules.proper p) ∧
    (∀ rules p (kind : ExprKind), kind.Every rules p → p.Exceeds (sizeOf kind) →
      kind.Every rules.proper p) ∧
    (∀ rules p id ty tag blocks, EveryCases rules p id ty tag blocks → p.Exceeds (sizeOf blocks) →
      EveryCases rules.proper p id ty tag blocks) ∧
    (∀ rules p (block : Block), block.Every rules p → p.Exceeds (sizeOf block) →
      block.Every rules.proper p) ∧
    (∀ rules p stmts, EveryStmts rules p stmts → p.Exceeds (sizeOf stmts) →
      EveryStmts rules.proper p stmts) ∧
    (∀ rules p (stmt : Stmt), stmt.Every rules p → p.Exceeds (sizeOf stmt) →
      stmt.Every rules.proper p) ∧
    (∀ rules p branches, EveryBranches rules p branches → p.Exceeds (sizeOf branches) →
      EveryBranches rules.proper p branches) ∧
    (∀ rules p (func : FuncExpr), func.Every rules p → p.Exceeds (sizeOf func) →
      func.Every rules.proper p) ∧
    (∀ rules p (block : Block), block.Inside rules p → p.Exceeds (sizeOf block) →
      block.Inside rules.proper p) ∧
    (∀ rules p exprs, EveryExprs rules p exprs → p.Exceeds (sizeOf exprs) →
      EveryExprs rules.proper p exprs) := by
  apply Expr.Every.mutual_induct
  case case1 =>
    intro rules place kind ty ih h hsize
    rw [Expr.mk.sizeOf_spec] at hsize
    rw [Expr.Every] at h ⊢
    refine ⟨⟨h.1, ?_⟩, ih h.2 (hsize.mono (by omega))⟩
    rintro func rfl hmem
    have hlt := hsize func hmem
    rw [ExprKind.func.sizeOf_spec] at hlt
    omega
  case case16 =>
    intro rules place name captures params body ih h hsize
    rw [FuncExpr.Every] at h ⊢
    exact ⟨fun c hc => ⟨h.1 c hc, by rintro _ ⟨⟩⟩, ih h.2 hsize.body⟩
  all_goals intros
  all_goals
    simp only [ExprKind.Every, EveryCases, Block.Every, EveryStmts, Stmt.Every, EveryBranches,
      Block.Inside, EveryExprs] at *
  all_goals grind [Place.Exceeds, Place.enter, Rules.proper]

theorem everyStmts_proper {stmts : List Stmt} (h : EveryStmts rules place stmts)
    (hsize : place.Exceeds (sizeOf stmts)) : EveryStmts rules.proper place stmts :=
  every_proper.2.2.2.2.1 rules place stmts h hsize

/-- Every tracer in the type of the node was made by a function around it. A
function has none of its own tracers in its type and in what it captures. -/
def Expr.Confined (creator : Nat → Option FuncExpr) (place : Place) (e : Expr) : Prop :=
  Core.Traced creator place e.ty ∧ ∀ func, e.kind = .func func →
    Core.Traced creator (place.inside func) func.body.ty ∧
      ∀ id, creator id = some func → ¬e.ty.Traces id ∧ ∀ c ∈ func.captures, ¬c.ty.Traces id

theorem Traced.not_traces {func : FuncExpr} {ty : Ty} (h : Traced creator place ty)
    (hfunc : func ∉ place.around) {id : Nat} (hid : creator id = some func) : ¬ty.Traces id := by
  intro htraces
  obtain ⟨func', hfunc', hid'⟩ := h id htraces
  obtain rfl : func = func' := Option.some.inj (hid.symm.trans hid')
  exact hfunc hfunc'

theorem Expr.Traced.confined {e : Expr} (h : e.Traced creator place)
    (hproper : ∀ func, e.kind = .func func → func ∉ place.around) : e.Confined creator place := by
  refine ⟨h.1, fun func hkind => ?_⟩
  obtain ⟨hcaptures, hbody⟩ := h.2 func hkind
  have hfunc := hproper func hkind
  refine ⟨hbody, fun _ hid => ⟨h.1.not_traces hfunc hid, fun c hc => ?_⟩⟩
  exact (hcaptures c hc).not_traces hfunc hid

end Core

namespace Checker

open Surface (Program functionsOf)

variable {options : Options} {program : Program} {core : List Core.Stmt} {s s' : Checker}
  {ledger : Ledger}

/-- No name that is left in scope has a tracer in its type. -/
theorem Finished.scope_untraced (h : Finished program ledger s core) : ∀ frame ∈ s.scope.frames,
      (∀ name value, frame.values.find? name = some value → ∀ id, ¬value.ty.Traces id) ∧
        ∀ name ty, frame.types.find? name = some ty → ∀ id, ¬ty.Traces id := by
  intro frame hframe
  obtain ⟨depth, _, hevery⟩ := h.state.scope.mem hframe
  have hlevel : ∀ id, id ∉ ledger.level depth := by
    intro id hid
    have hempty : id ∈ ledger.tracers := ⟨depth, hid⟩
    rw [h.tracers] at hempty
    exact hempty
  refine ⟨fun name value hfind id hid => ?_, fun name ty hfind id hid => ?_⟩
  · exact hlevel id ((hevery.values name value hfind).formed.traces hid)
  · exact hlevel id (Ty.Formed.traces (hevery.types name ty hfind) hid)

end Checker

end TraitCheck
