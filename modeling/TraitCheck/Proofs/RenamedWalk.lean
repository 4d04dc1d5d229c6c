import TraitCheck.Proofs.Effects
import TraitCheck.Proofs.Nesting
import TraitCheck.Proofs.RenamedFunctions

/-!
The walk under a renaming. By induction over the syntax every call of the walk
runs alike in states that differ by a renaming, and returns the renamed core
program, as long as the names that are written in the program hold no ids.
-/

namespace TraitCheck

namespace Surface

mutual

/-- The names that the expression declares, and those of the values it refers to. -/
def Expr.written (e : Expr) : List String :=
  match e with
  | .int _ _ | .float _ _ | .string _ _ | .bool _ _ => []
  | .ident name _ => [name]
  | .tuple elems _ | .array elems _ => writtenExprs elems
  | .construct _ _ inits _ => writtenInits inits
  | .field target _ _ => target.written
  | .call callee args _ => callee.written ++ writtenExprs args
  | .binary _ lhs rhs _ => lhs.written ++ rhs.written
  | .unary _ operand _ => operand.written
  | .closure params body _ => params.map (·.name.text) ++ body.written
  | .cond branches otherwise _ => writtenBranches branches ++ writtenElse otherwise
  | .cases target cases _ => target.written ++ writtenCases cases
  | .block body _ => body.written

def Block.written (block : Block) : List String :=
  match block with
  | ⟨stmts, _⟩ => writtenStmts stmts

def Stmt.written (stmt : Stmt) : List String :=
  match stmt with
  | .bind pattern _ value _ => pattern.declared ++ value.written
  | .func decl => decl.written
  | .struct name generics _ _ => name.text :: genericNames generics
  | .enum name generics tags _ => name.text :: genericNames generics ++ tags.map (·.name.text)
  | .trait name methods _ => name.text :: methods.map (·.name.text)
  | .impl _ _ methods _ => writtenFuncs methods
  | .ret none _ => []
  | .ret (some value) _ => value.written
  | .whileDo cond body _ => cond.written ++ body.written
  | .forEach name iterable body _ => name.text :: iterable.written ++ body.written
  | .eval value _ => value.written

def FuncDecl.written (decl : FuncDecl) : List String :=
  match decl with
  | ⟨name, generics, params, _, body, _⟩ =>
    name.text :: genericNames generics ++ params.map (·.name.text) ++ body.written

def writtenElse (otherwise : Option Block) : List String :=
  match otherwise with
  | none => []
  | some block => block.written

def writtenExprs (es : List Expr) : List String :=
  match es with
  | [] => []
  | e :: rest => e.written ++ writtenExprs rest

def writtenInits (inits : List FieldInit) : List String :=
  match inits with
  | [] => []
  | ⟨_, e⟩ :: rest => e.written ++ writtenInits rest

def writtenBranches (branches : List Branch) : List String :=
  match branches with
  | [] => []
  | ⟨cond, body⟩ :: rest => cond.written ++ body.written ++ writtenBranches rest

def writtenCases (cases : List Case) : List String :=
  match cases with
  | [] => []
  | ⟨_, bindings, body, _⟩ :: rest =>
    bindings.map (·.binding.text) ++ body.written ++ writtenCases rest

def writtenStmts (stmts : List Stmt) : List String :=
  match stmts with
  | [] => []
  | s :: rest => s.written ++ writtenStmts rest

def writtenFuncs (decls : List FuncDecl) : List String :=
  match decls with
  | [] => []
  | d :: rest => d.written ++ writtenFuncs rest

end

/-- No name that is written in the program holds an id. -/
def Plain (program : Program) : Prop := ∀ name ∈ writtenStmts program, Unnumbered name

instance (program : Program) : Decidable (Plain program) :=
  List.decidableBAll Unnumbered (writtenStmts program)

theorem forall_written_funcDecl {decl : FuncDecl} {p : String → Prop} :
    (∀ name ∈ decl.written, p name) ↔ p decl.name.text ∧
      (∀ g ∈ decl.generics, p g.name.text) ∧ (∀ param ∈ decl.params, p param.name.text) ∧
      ∀ name ∈ decl.body.written, p name := by
  obtain ⟨name, generics, params, ret, body, span⟩ := decl
  rw [FuncDecl.written, List.forall_mem_append, List.forall_mem_append, List.forall_mem_cons,
    genericNames, List.forall_mem_map, List.forall_mem_map, and_assoc, and_assoc]

end Surface

variable {ρ : Renaming} {leeway : Checker.Leeway}

namespace Checker

open Surface (Expr FieldInit Branch Case Block Stmt FuncDecl)

/-- Both runs have the same room, or both have room for `n` expressions. -/
def Leeway.Roomy (leeway : Leeway) (room room' n : Nat) : Prop :=
  (leeway.aligned ∧ room' = room) ∨ (n ≤ room ∧ n ≤ room')

namespace Leeway.Roomy

variable {room room' m n : Nat}

theorem mono (h : leeway.Roomy room room' n) (hmn : m ≤ n) : leeway.Roomy room room' m :=
  h.imp_right fun hn => ⟨hmn.trans hn.1, hmn.trans hn.2⟩

theorem left (h : leeway.Roomy room room' (max m n)) : leeway.Roomy room room' m :=
  h.mono (Nat.le_max_left m n)

theorem right (h : leeway.Roomy room room' (max m n)) : leeway.Roomy room room' n :=
  h.mono (Nat.le_max_right m n)

/-- Both runs are at their limit, or both can enter an expression. -/
theorem enter (h : leeway.Roomy room room' (n + 1)) : (leeway.aligned ∧ room = 0 ∧ room' = 0) ∨
    ∃ r r', room = r + 1 ∧ room' = r' + 1 ∧ leeway.Roomy r r' n := by
  rcases h with ⟨haligned, rfl⟩ | ⟨hn, hn'⟩
  · cases room' with
    | zero => exact .inl ⟨haligned, rfl, rfl⟩
    | succ r => exact .inr ⟨r, r, rfl, rfl, .inl ⟨haligned, rfl⟩⟩
  · obtain ⟨r, rfl⟩ := Nat.exists_eq_add_one_of_ne_zero (Nat.ne_of_gt (Nat.lt_of_lt_of_le n.succ_pos hn))
    obtain ⟨r', rfl⟩ :=
      Nat.exists_eq_add_one_of_ne_zero (Nat.ne_of_gt (Nat.lt_of_lt_of_le n.succ_pos hn'))
    exact .inr ⟨r, r', rfl, rfl, .inr ⟨Nat.le_of_succ_le_succ hn, Nat.le_of_succ_le_succ hn'⟩⟩

end Leeway.Roomy

theorem unnumbered_binOp (op : Surface.BinOp) : Unnumbered op.symbol := by
  cases op <;> decide

theorem unnumbered_unOp (op : Surface.UnOp) : Unnumbered op.symbol := by
  cases op <;> decide

theorem follows_calleeOf {callee : Expr} {check check' : CheckM Core.Expr}
    (hnames : ∀ name ∈ callee.written, ρ.Fixes name)
    (h : callee.isIdent = false → Echoes ρ leeway check check' (Core.Expr.rename ρ)) :
    Echoes ρ leeway (calleeOf callee check) (calleeOf callee check')
      (Prod.map (Callee.rename ρ) (Ty.rename ρ)) := by
  have hvalue : callee.isIdent = false → Echoes ρ leeway
      (do let value ← check; return (Callee.expr value, value.ty))
      (do let value ← check'; return (Callee.expr value, value.ty))
      (Prod.map (Callee.rename ρ) (Ty.rename ρ)) := by
    refine fun hident => .bind (h hident) fun _ => .pure ?_
    rw [Core.Expr.ty_rename]
    rfl
  cases callee with
  | ident name span =>
    rw [Expr.written, List.forall_mem_singleton] at hnames
    exact follows_namedCallee hnames
  | _ => exact hvalue rfl

/-- The condition of a branch or a loop. -/
theorem follows_condition {span : Span} {check check' : Option Ty → CheckM Core.Expr}
    (h : ∀ hint, Echoes ρ leeway (check hint) (check' (hint.map (Ty.rename ρ)))
      (Core.Expr.rename ρ)) :
    Echoes ρ leeway (expecting .bool span check) (expecting .bool span check')
      (Core.Expr.rename ρ) := by
  have hexpecting : Echoes ρ leeway (expecting .bool span check) _ _ :=
    follows_expecting h
  rwa [Ty.rename_bool] at hexpecting

mutual

theorem follows_checkExpr {room room' : Nat} {hint : Option Ty} {e : Expr}
    (hroom : leeway.Roomy room room' (e.inner + 1)) (hnames : ∀ name ∈ e.written, ρ.Fixes name) :
    Echoes ρ leeway (checkExpr room hint e) (checkExpr room' (hint.map (Ty.rename ρ)) e)
      (Core.Expr.rename ρ) := by
  rcases hroom.enter with ⟨haligned, rfl, rfl⟩ | ⟨room, room', rfl, rfl, hinner⟩
  · rw [checkExpr, checkExpr]
    refine .get fun _ _ _ h => ?_
    rw [h.limit haligned]
    exact follows_fail rfl
  · match e with
    | .int _ _ | .float _ _ | .bool _ _ | .string _ _ =>
      rw [checkExpr, checkExpr]
      exact .pure (by simp)
    | .ident name span =>
      rw [checkExpr, checkExpr]
      rw [Expr.written, List.forall_mem_singleton] at hnames
      exact follows_reference hnames
    | .tuple elems _ =>
      rw [checkExpr, checkExpr]
      rw [Expr.inner] at hinner
      rw [Expr.written] at hnames
      refine .bind follows_tupleHints fun _ =>
        .bind (follows_checkElems hinner hnames) fun fields => .pure ?_
      simp [List.map_map, Function.comp_def]
    | .array elems _ =>
      rw [checkExpr, checkExpr]
      rw [Expr.inner] at hinner
      rw [Expr.written] at hnames
      refine .bind follows_arrayHint fun _ => .bind follows_fresh fun _ => ?_
      rw [← Ty.rename_var]
      refine .bind (follows_checkItems hinner hnames) fun r =>
        .bind follows_resolve fun ty => .pure ?_
      simp
    | .construct ty tag inits span =>
      rw [checkExpr, checkExpr]
      rw [Expr.inner] at hinner
      rw [Expr.written] at hnames
      refine .bind follows_lookupAdt fun adt => .bind follows_instantiateAdt fun _ =>
        .bind follows_constructedFields fun r => ?_
      obtain ⟨index, fields⟩ := r
      refine .bind (follows_checkInits hinner hnames) fun supplied => ?_
      rw [Fields.rename, Assoc.keys_mapVal, Assoc.inOrder_mapVal]
      cases supplied.inOrder fields.keys with
      | error field => exact follows_fail rfl
      | ok values =>
        refine .bind follows_resolve fun ty => .pure ?_
        rw [Core.Expr.rename_mk, rename_constructed]
        rfl
    | .field target field span =>
      rw [checkExpr, checkExpr]
      rw [Expr.inner] at hinner
      rw [Expr.written] at hnames
      exact .bind (follows_checkExpr hinner hnames) fun value =>
        follows_select
    | .call callee args span =>
      rw [checkExpr, checkExpr]
      rw [Expr.inner] at hinner
      rw [Expr.written, List.forall_mem_append] at hnames
      refine .bind (follows_calleeOf hnames.1 fun hident =>
        follows_checkExpr (by simpa [hident] using hinner.left) hnames.1) fun target => ?_
      obtain ⟨target, ty⟩ := target
      refine .bind follows_openCall fun shape => ?_
      have hlength : (shape.rename ρ).params.length = shape.params.length := List.length_map _
      rw [hlength]
      exact .bind (follows_ensure .rfl rfl) fun _ => .bind (follows_checkArgs hinner.right hnames.2)
        fun _ => follows_closeCall
    | .binary op lhs rhs span =>
      rw [checkExpr, checkExpr]
      rw [Expr.inner] at hinner
      rw [Expr.written, List.forall_mem_append] at hnames
      refine .bind (follows_namedCallee (.inl (unnumbered_binOp op))) fun target => ?_
      obtain ⟨target, ty⟩ := target
      refine .bind follows_openCall fun shape => ?_
      obtain ⟨obligations, params, ret⟩ := shape
      rcases params with _ | ⟨p, _ | ⟨q, _ | ⟨r, rest⟩⟩⟩
      · exact follows_fail rfl
      · exact follows_fail rfl
      · exact .bind (follows_expecting fun hint => follows_checkExpr hinner.left hnames.1) fun _ =>
          .bind (follows_expecting fun _ => follows_checkExpr hinner.right hnames.2) fun r =>
          follows_closeCall
      · exact follows_fail (congrArg (Failure.arityMismatch "arguments" · 2) (by simp))
    | .unary op operand span =>
      rw [checkExpr, checkExpr]
      rw [Expr.inner] at hinner
      rw [Expr.written] at hnames
      refine .bind (follows_namedCallee (.inl (unnumbered_unOp op))) fun target => ?_
      obtain ⟨target, ty⟩ := target
      refine .bind follows_openCall fun shape => ?_
      obtain ⟨obligations, params, ret⟩ := shape
      rcases params with _ | ⟨p, _ | ⟨q, rest⟩⟩
      · exact follows_fail rfl
      · exact .bind (follows_expecting fun _ => follows_checkExpr hinner hnames) fun _ =>
          follows_closeCall
      · exact follows_fail (congrArg (Failure.arityMismatch "arguments" · 1) (by simp))
    | .closure params body span =>
      rw [checkExpr, checkExpr]
      rw [Expr.inner] at hinner
      rw [Expr.written, List.forall_mem_append, List.forall_mem_map] at hnames
      refine .bind follows_openClosure fun shape =>
        .bind follows_closureParams fun _ =>
        .bind follows_resolve fun ret => ?_
      have hdeclared : (if (ret.rename ρ).isVar = true then none else some (ret.rename ρ)) =
          (if ret.isVar = true then none else some ret).map (Ty.rename ρ) := by
        rw [Ty.isVar_rename]
        split <;> rfl
      dsimp only
      rw [hdeclared]
      refine .bind (follows_inFunctionFrame (f := Prod.map (List.map ρ.binding) (Core.Block.rename ρ))
        (.bind (follows_bindClosureParams hnames.1) fun ids =>
          .bind (follows_checkBody hinner hnames.2) fun block => .pure rfl)) fun r => ?_
      obtain ⟨⟨ids, block⟩, upvalues⟩ := r
      dsimp only [Prod.map_apply]
      rw [Core.Block.ty_rename]
      refine .bind (follows_unify body.span shape.ret block.ty) fun ty =>
        .bind follows_resolve fun _ => .pure ?_
      simp [captures_rename]
    | .cond branches otherwise span =>
      rw [checkExpr, checkExpr]
      rw [Expr.inner] at hinner
      rw [Expr.written, List.forall_mem_append] at hnames
      refine .bind (follows_checkBranches hinner.left hnames.1) fun r => ?_
      obtain ⟨checked, ty⟩ := r
      refine .bind (follows_checkElse hinner.right hnames.2) fun r => ?_
      obtain ⟨last, lastSpan⟩ := r
      dsimp only [Prod.map_apply]
      rw [Core.Block.ty_rename]
      refine .bind follows_join fun ty =>
        .bind follows_resolve fun ty => .pure ?_
      simp
    | .cases target cases span =>
      rw [checkExpr, checkExpr]
      rw [Expr.inner] at hinner
      rw [Expr.written, List.forall_mem_append] at hnames
      refine .bind (follows_checkExpr hinner.left hnames.1) fun _ => ?_
      rw [Core.Expr.ty_rename]
      refine .bind follows_resolve fun ty =>
        .bind follows_enumOf fun r => .bind follows_freshBinding fun _ => ?_
      obtain ⟨adt, tags⟩ := r
      refine .bind (follows_checkCases hinner.right hnames.2)
        fun r => ?_
      obtain ⟨checked, result⟩ := r
      dsimp only [Prod.map_apply]
      rw [Assoc.keys_mapVal, Assoc.inOrder_mapVal]
      cases checked.inOrder tags.keys with
      | error tag => exact follows_fail rfl
      | ok blocks =>
        have hresult : (result.map (Ty.rename ρ)).getD .void = (result.getD .void).rename ρ := by
          cases result with
          | none => exact (Ty.rename_void ρ).symm
          | some ty => rfl
        dsimp only
        rw [hresult]
        refine .bind follows_resolve fun _ => .pure ?_
        simp
    | .block body _ =>
      rw [checkExpr, checkExpr]
      rw [Expr.inner] at hinner
      rw [Expr.written] at hnames
      refine .bind (follows_checkBlock hinner hnames) fun _ => .pure ?_
      simp

theorem follows_checkElems {room room' : Nat} {hints : List Ty} {es : List Expr}
    (hroom : leeway.Roomy room room' (Surface.nestingExprs es))
    (hnames : ∀ name ∈ Surface.writtenExprs es, ρ.Fixes name) :
    Echoes ρ leeway (checkElems room hints es)
      (checkElems room' (hints.map (Ty.rename ρ)) es) (List.map (Core.Expr.rename ρ)) := by
  match es with
  | [] =>
    rw [checkElems, checkElems]
    exact .pure rfl
  | e :: rest =>
    rw [checkElems, checkElems, List.head?_map, ← List.map_tail]
    rw [Surface.nestingExprs] at hroom
    rw [Surface.writtenExprs, List.forall_mem_append] at hnames
    exact .bind (follows_checkExpr hroom.left hnames.1) fun _ =>
      .bind (follows_checkElems hroom.right hnames.2) fun _ => .pure rfl

theorem follows_checkItems {room room' : Nat} {hint : Option Ty} {ty : Ty} {es : List Expr}
    (hroom : leeway.Roomy room room' (Surface.nestingExprs es))
    (hnames : ∀ name ∈ Surface.writtenExprs es, ρ.Fixes name) :
    Echoes ρ leeway (checkItems room hint ty es)
      (checkItems room' (hint.map (Ty.rename ρ)) (ty.rename ρ) es)
      (Prod.map (List.map (Core.Expr.rename ρ)) (Ty.rename ρ)) := by
  match es with
  | [] =>
    rw [checkItems, checkItems]
    exact .pure rfl
  | e :: rest =>
    rw [checkItems, checkItems]
    rw [Surface.nestingExprs] at hroom
    rw [Surface.writtenExprs, List.forall_mem_append] at hnames
    refine .bind follows_resolve fun known => ?_
    have hhint : (if (known.rename ρ).isVar = true then hint.map (Ty.rename ρ)
        else some (known.rename ρ)) =
          (if known.isVar = true then hint else some known).map (Ty.rename ρ) := by
      rw [Ty.isVar_rename]
      split <;> rfl
    rw [hhint]
    refine .bind (follows_checkExpr hroom.left hnames.1) fun value => ?_
    rw [Core.Expr.ty_rename]
    exact .bind (follows_unify e.span ty value.ty) fun _ =>
      .bind (follows_checkItems hroom.right hnames.2) fun _ => .pure rfl

theorem follows_checkArgs {room room' : Nat} {params : List Ty} {es : List Expr}
    (hroom : leeway.Roomy room room' (Surface.nestingExprs es))
    (hnames : ∀ name ∈ Surface.writtenExprs es, ρ.Fixes name) :
    Echoes ρ leeway (checkArgs room params es)
      (checkArgs room' (params.map (Ty.rename ρ)) es) (List.map (Core.Expr.rename ρ)) := by
  match es with
  | [] =>
    rw [checkArgs, checkArgs]
    exact .pure rfl
  | e :: rest =>
    rw [Surface.nestingExprs] at hroom
    rw [Surface.writtenExprs, List.forall_mem_append] at hnames
    cases params with
    | nil =>
      rw [List.map_nil, checkArgs]
      exact .pure rfl
    | cons param params =>
      rw [List.map_cons, checkArgs, checkArgs]
      exact .bind (follows_expecting fun _ => follows_checkExpr hroom.left hnames.1) fun _ =>
        .bind (follows_checkArgs hroom.right hnames.2) fun _ => .pure rfl

theorem follows_checkInits {room room' : Nat} {inst : Instance} {fields : Fields}
    {supplied : Assoc String Core.Expr} {inits : List FieldInit}
    (hroom : leeway.Roomy room room' (Surface.nestingInits inits))
    (hnames : ∀ name ∈ Surface.writtenInits inits, ρ.Fixes name) :
    Echoes ρ leeway (checkInits room inst fields supplied inits)
      (checkInits room' (inst.rename ρ) (Fields.rename ρ fields)
        (supplied.mapVal (Core.Expr.rename ρ)) inits) (Assoc.mapVal (Core.Expr.rename ρ)) := by
  match inits with
  | [] =>
    rw [checkInits, checkInits]
    exact .pure rfl
  | ⟨name, e⟩ :: rest =>
    rw [checkInits, checkInits, Fields.rename, Assoc.find?_mapVal]
    rw [Surface.nestingInits] at hroom
    rw [Surface.writtenInits, List.forall_mem_append] at hnames
    cases fields.find? name.text with
    | none => exact .bind follows_resolve fun ty => follows_fail rfl
    | some ty =>
      dsimp only [Option.map_some]
      rw [Assoc.contains_mapVal, Instance.fieldType_rename]
      refine .bind (follows_ensure .rfl rfl) fun _ => .bind (follows_expecting fun _ =>
        follows_checkExpr hroom.left hnames.1) fun _ => ?_
      rw [← Assoc.insert_mapVal]
      exact follows_checkInits hroom.right hnames.2

theorem follows_checkBranches {room room' : Nat} {hint before : Option Ty} {branches : List Branch}
    (hroom : leeway.Roomy room room' (Surface.nestingBranches branches))
    (hnames : ∀ name ∈ Surface.writtenBranches branches, ρ.Fixes name) :
    Echoes ρ leeway (checkBranches room hint before branches)
      (checkBranches room' (hint.map (Ty.rename ρ)) (before.map (Ty.rename ρ)) branches)
      (Prod.map (List.map (Core.Branch.rename ρ)) (Option.map (Ty.rename ρ))) := by
  match branches with
  | [] =>
    rw [checkBranches, checkBranches]
    exact .pure rfl
  | ⟨cond, body⟩ :: rest =>
    rw [checkBranches, checkBranches]
    rw [Surface.nestingBranches] at hroom
    rw [Surface.writtenBranches, List.forall_mem_append, List.forall_mem_append] at hnames
    refine .bind (follows_condition fun _ =>
        follows_checkExpr hroom.left.left hnames.1.1) fun _ =>
      .bind (follows_checkBlock hroom.left.right hnames.1.2) fun _ => ?_
    rw [Core.Block.ty_rename]
    exact .bind follows_join fun _ =>
      .bind (follows_checkBranches hroom.right hnames.2) fun _ => .pure rfl

theorem follows_checkElse {room room' : Nat} {hint : Option Ty} {span : Span} {otherwise : Option Block}
    (hroom : leeway.Roomy room room' (Surface.nestingElse otherwise))
    (hnames : ∀ name ∈ Surface.writtenElse otherwise, ρ.Fixes name) :
    Echoes ρ leeway (checkElse room hint span otherwise)
      (checkElse room' (hint.map (Ty.rename ρ)) span otherwise) (Prod.map (Core.Block.rename ρ) id) := by
  match otherwise with
  | none =>
    rw [checkElse, checkElse]
    exact .pure (by simp)
  | some block =>
    rw [checkElse, checkElse]
    rw [Surface.nestingElse] at hroom
    rw [Surface.writtenElse] at hnames
    exact .bind (follows_checkBlock hroom hnames) fun _ => .pure rfl

theorem follows_checkCases {room room' : Nat} {hint : Option Ty} {m : Match} {before : Option Ty}
    {done : Assoc String Core.Block} {cases : List Case}
    (hroom : leeway.Roomy room room' (Surface.nestingCases cases))
    (hnames : ∀ name ∈ Surface.writtenCases cases, ρ.Fixes name) :
    Echoes ρ leeway (checkCases room hint m before done cases)
      (checkCases room' (hint.map (Ty.rename ρ)) (m.rename ρ) (before.map (Ty.rename ρ))
        (done.mapVal (Core.Block.rename ρ)) cases)
      (Prod.map (Assoc.mapVal (Core.Block.rename ρ)) (Option.map (Ty.rename ρ))) := by
  match cases with
  | [] =>
    rw [checkCases, checkCases]
    exact .pure rfl
  | ⟨tag, bindings, ⟨stmts, bodySpan⟩, span⟩ :: rest =>
    rw [checkCases, checkCases, Match.rename, Assoc.find?_mapVal]
    rw [Surface.nestingCases, Block.nesting] at hroom
    rw [Surface.writtenCases, List.forall_mem_append, List.forall_mem_append, List.forall_mem_map,
      Block.written] at hnames
    cases m.tags.find? tag.text with
    | none => exact follows_fail rfl
    | some fields =>
      dsimp only [Option.map_some]
      rw [Assoc.contains_mapVal]
      refine .bind (follows_ensure .rfl rfl) fun _ => .bind (follows_inScope (f := Core.Block.rename
        ρ) (.bind (follows_bindCaseFields hnames.1.1) fun _ =>
        .bind (follows_checkStmts hroom.left hnames.1.2) fun _ => .pure ?_)) fun _ => ?_
      · simp
      · rw [Core.Block.ty_rename, ← Assoc.insert_mapVal]
        exact .bind follows_join fun _ => follows_checkCases hroom.right hnames.2

theorem follows_checkBlock {room room' : Nat} {hint : Option Ty} {block : Block}
    (hroom : leeway.Roomy room room' block.nesting)
    (hnames : ∀ name ∈ block.written, ρ.Fixes name) : Echoes ρ leeway (checkBlock room hint block)
      (checkBlock room' (hint.map (Ty.rename ρ)) block) (Core.Block.rename ρ) := by
  match block with
  | ⟨stmts, span⟩ =>
    rw [checkBlock, checkBlock]
    rw [Block.nesting] at hroom
    rw [Block.written] at hnames
    exact follows_inScope (follows_checkStmts hroom hnames)

theorem follows_checkStmts {room room' : Nat} {hint : Option Ty} {stmts : List Stmt}
    (hroom : leeway.Roomy room room' (Surface.nestingStmts stmts))
    (hnames : ∀ name ∈ Surface.writtenStmts stmts, ρ.Fixes name) :
    Echoes ρ leeway (checkStmts room hint stmts)
      (checkStmts room' (hint.map (Ty.rename ρ)) stmts) (Core.Block.rename ρ) := by
  match stmts with
  | [] =>
    rw [checkStmts, checkStmts]
    exact .pure (by simp)
  | stmt :: rest =>
    rw [Surface.nestingStmts] at hroom
    rw [Surface.writtenStmts, List.forall_mem_append] at hnames
    refine checkStmts_cons_rooms (P := fun x => Echoes ρ leeway (x room hint)
      (x room' (hint.map (Ty.rename ρ))) (Core.Block.rename ρ)) ?_ ?_
    · intro e span hstmt _
      match stmt, hstmt with
      | .eval e _, rfl =>
        rw [Stmt.nesting] at hroom
        rw [Stmt.written] at hnames
        refine .bind (follows_checkExpr hroom.left hnames.1) fun _ => .pure ?_
        simp
    · refine .bind (follows_checkStmt hroom.left hnames.1) fun _ =>
        .bind (follows_checkStmts hroom.right hnames.2) fun _ => .pure ?_
      simp

theorem follows_checkStmt {room room' : Nat} {stmt : Stmt}
    (hroom : leeway.Roomy room room' stmt.nesting) (hnames : ∀ name ∈ stmt.written, ρ.Fixes name) :
    Echoes ρ leeway (checkStmt room stmt) (checkStmt room' stmt)
      (List.map (Core.Stmt.rename ρ)) := by
  match stmt with
  | .bind pattern written value _ =>
    rw [checkStmt]
    rw [Stmt.nesting] at hroom
    rw [Stmt.written, List.forall_mem_append] at hnames
    refine .bind follows_typeFor? fun _ =>
      .bind (follows_checkExpr hroom hnames.2) fun _ => ?_
    rw [Core.Expr.ty_rename]
    exact .bind follows_join fun ty =>
      .bind follows_resolve fun ty => follows_bindPattern hnames.1
  | .func decl =>
    rw [checkStmt]
    rw [Stmt.nesting] at hroom
    rw [Stmt.written] at hnames
    obtain ⟨hname, hgenerics, _⟩ := Surface.forall_written_funcDecl.mp hnames
    refine .bind_of (follows_declareSignature hgenerics) fun sig hsig =>
      .bind follows_freshBinding fun id => ?_
    have hvalue : Value.mk (.binding (ρ.binding id)) (sig.rename ρ).ty
        ((sig.rename ρ).generics.map (·.var)) =
          (Value.mk (.binding id) sig.ty (sig.generics.map (·.var))).rename ρ := by
      rw [Signature.ty_rename, Value.rename, Signature.rename, List.map_map, List.map_map]
      rfl
    rw [hvalue]
    refine .bind (follows_bindValue hname) fun _ =>
      .bind (follows_checkFunc hroom hnames ?_) fun func => ?_
    · obtain ⟨s, s', hplain, hrun⟩ := hsig
      exact Yields.plainSignature hrun hplain hgenerics
    · obtain ⟨func, ty⟩ := func
      refine .bind (follows_setValueType hname) fun _ => .pure ?_
      simp
  | .struct name generics fields span =>
    rw [checkStmt]
    rw [Stmt.written, List.forall_mem_cons] at hnames
    exact .bind follows_requireTopLevel fun _ =>
      .bind (follows_defineStruct hnames.1) fun _ => .pure rfl
  | .enum name generics tags span =>
    rw [checkStmt]
    rw [Stmt.written, List.forall_mem_append, List.forall_mem_cons, List.forall_mem_map] at hnames
    exact .bind follows_requireTopLevel fun _ =>
      .bind (follows_defineEnum hnames.1.1 hnames.2) fun _ => .pure rfl
  | .trait name methods span =>
    rw [checkStmt]
    rw [Stmt.written, List.forall_mem_cons, List.forall_mem_map] at hnames
    exact .bind follows_requireTopLevel fun _ =>
      .bind (follows_declareTrait hnames.1 hnames.2) fun _ => .pure rfl
  | .impl bound ty methods span =>
    rw [checkStmt]
    rw [Stmt.nesting] at hroom
    rw [Stmt.written] at hnames
    refine .bind follows_requireTopLevel fun _ =>
      .bind follows_openImpl fun impl =>
      .bind (follows_checkMethods hroom hnames) fun done => ?_
    have hkeys : (impl.rename ρ).decl.methods.keys = impl.decl.methods.keys :=
      Assoc.keys_mapVal _ _
    rw [hkeys, Assoc.inOrder_mapVal]
    cases done.inOrder impl.decl.methods.keys with
    | error method => exact follows_fail rfl
    | ok fields =>
      refine .pure ?_
      simp [Impl.rename, TraitDecl.rename, Impl.dictionaryType, dictionaryType, Ty.rename_named]
  | .ret none span =>
    rw [checkStmt]
    have hreturn : Echoes ρ leeway (recordReturn .void span) _ id :=
      follows_recordReturn
    rw [Ty.rename_void] at hreturn
    exact .bind hreturn fun _ => .pure (by simp)
  | .ret (some e) span =>
    rw [checkStmt]
    rw [Stmt.nesting] at hroom
    rw [Stmt.written] at hnames
    refine .bind follows_requireFunction fun _ => .bind follows_currentReturn fun _ =>
      .bind (follows_checkExpr hroom hnames) fun value => ?_
    rw [Core.Expr.ty_rename]
    exact .bind follows_recordReturn fun _ => .pure (by simp)
  | .whileDo cond body _ =>
    rw [checkStmt]
    rw [Stmt.nesting] at hroom
    rw [Stmt.written, List.forall_mem_append] at hnames
    refine .bind (follows_condition fun _ =>
        follows_checkExpr hroom.left hnames.1) fun _ =>
      .bind (follows_checkBlock hroom.right hnames.2) fun _ => .pure ?_
    simp
  | .forEach name iterable body span =>
    rw [checkStmt]
    rw [Stmt.nesting] at hroom
    rw [Stmt.written, List.forall_mem_append, List.forall_mem_cons] at hnames
    refine .bind (follows_checkExpr hroom.left hnames.1.2) fun _ => ?_
    rw [Core.Expr.ty_rename]
    refine .bind follows_resolve fun _ => .bind follows_elementOf fun _ =>
      .bind (follows_inScope (f := Prod.map ρ.binding (Core.Block.rename ρ))
        (.bind (follows_bindLocal hnames.1.1) fun _ =>
          .bind (follows_checkBlock hroom.right hnames.2) fun _ => .pure rfl)) fun _ => .pure ?_
    simp
  | .eval e _ =>
    rw [checkStmt]
    rw [Stmt.nesting] at hroom
    rw [Stmt.written] at hnames
    refine .bind (follows_checkExpr hroom hnames) fun _ => .pure ?_
    simp

theorem follows_checkFunc {room room' : Nat} {sig : Signature} {decl : FuncDecl}
    (hroom : leeway.Roomy room room' decl.nesting)
    (hnames : ∀ name ∈ decl.written, ρ.Fixes name) (hgenerics : PlainGenerics ρ sig.generics) :
    Echoes ρ leeway (checkFunc room sig decl) (checkFunc room' (sig.rename ρ) decl)
      (Prod.map (Core.FuncExpr.rename ρ) (Ty.rename ρ)) := by
  match decl with
  | ⟨name, generics, params, ret, body, span⟩ =>
    obtain ⟨_, _, hparams, hbody⟩ := Surface.forall_written_funcDecl.mp hnames
    rw [FuncDecl.nesting] at hroom
    rw [checkFunc, checkFunc]
    refine .bind (follows_inFunctionFrame (f := Prod.map (List.map ρ.binding) (Prod.map
      (Core.Block.rename ρ) (List.map (Prod.map ρ.var (Ty.rename ρ))))) (.bind (follows_bindTracers
      hgenerics) fun r => .bind (follows_bindParams hparams) fun ids =>
      .bind follows_typeFor? fun _ => .bind (follows_checkBody hroom hbody) fun block =>
      .pure ?_)) fun r => ?_
    · simp
    · obtain ⟨⟨ids, block, tracers⟩, upvalues⟩ := r
      refine .pure ?_
      dsimp only [Prod.map_apply]
      rw [Core.Block.ty_rename, Signature.finalRet_rename, Signature.obligations_rename]
      simp [captures_rename, Signature.rename]

theorem follows_checkMethods {room room' : Nat} {impl : Impl} {done : Assoc String Core.Expr}
    {methods : List FuncDecl} (hroom : leeway.Roomy room room' (Surface.nestingFuncs methods))
    (hnames : ∀ name ∈ Surface.writtenFuncs methods, ρ.Fixes name) :
    Echoes ρ leeway (checkMethods room impl done methods)
      (checkMethods room' (impl.rename ρ) (done.mapVal (Core.Expr.rename ρ)) methods)
      (Assoc.mapVal (Core.Expr.rename ρ)) := by
  match methods with
  | [] =>
    rw [checkMethods, checkMethods]
    exact .pure rfl
  | method :: rest =>
    rw [Surface.nestingFuncs] at hroom
    rw [Surface.writtenFuncs, List.forall_mem_append] at hnames
    obtain ⟨hname, hgenerics, _⟩ := Surface.forall_written_funcDecl.mp hnames.1
    have hfind : (impl.rename ρ).decl.methods.find? method.name.text =
        (impl.decl.methods.find? method.name.text).map (Ty.rename ρ) :=
      Assoc.find?_mapVal impl.decl.methods method.name.text
    rw [checkMethods, checkMethods, hfind]
    cases impl.decl.methods.find? method.name.text with
    | none => exact follows_fail rfl
    | some declared =>
      dsimp only [Option.map_some]
      rw [Assoc.contains_mapVal]
      refine .bind (follows_ensure .rfl (duplicateDeclaration_rename hname)) fun _ =>
        .bind follows_methodType fun expected =>
        .bind_of (follows_declareSignature hgenerics) fun sig hsig => ?_
      have hplain : PlainGenerics ρ sig.generics := by
        obtain ⟨s, s', hplain, hrun⟩ := hsig
        exact Yields.plainSignature hrun hplain hgenerics
      refine .bind (follows_checkFunc hroom.left hnames.1 hplain) fun r => ?_
      obtain ⟨func, ty⟩ := r
      refine .bind (follows_isolated (.bind (follows_unify method.span expected ty) fun _ =>
        follows_resolve)) fun ty => ?_
      have hinsert := Assoc.insert_mapVal (g := Core.Expr.rename ρ) done method.name.text
        ⟨.func func, ty⟩
      rw [Core.Expr.rename_mk, Core.ExprKind.rename] at hinsert
      rw [Prod.map_apply, ← hinsert]
      exact follows_checkMethods hroom.right hnames.2

theorem follows_checkBody {room room' : Nat} {declared : Option Ty} {body : Block}
    (hroom : leeway.Roomy room room' body.nesting) (hnames : ∀ name ∈ body.written, ρ.Fixes name) :
    Echoes ρ leeway (checkBody room declared body)
      (checkBody room' (declared.map (Ty.rename ρ)) body) (Core.Block.rename ρ) := by
  match body with
  | ⟨stmts, span⟩ =>
    rw [checkBody, checkBody]
    rw [Block.nesting] at hroom
    rw [Block.written] at hnames
    exact follows_inFunction (.bind (follows_checkBodyStmts hroom hnames) fun _ =>
      follows_closeBody)

theorem follows_checkBodyStmts {room room' : Nat} {stmts : List Stmt}
    (hroom : leeway.Roomy room room' (Surface.nestingStmts stmts))
    (hnames : ∀ name ∈ Surface.writtenStmts stmts, ρ.Fixes name) :
    Echoes ρ leeway (checkBodyStmts room stmts) (checkBodyStmts room' stmts)
      (Prod.map (List.map (Core.Stmt.rename ρ)) id) := by
  match stmts with
  | [] =>
    rw [checkBodyStmts]
    exact .pure rfl
  | stmt :: rest =>
    rw [Surface.nestingStmts] at hroom
    rw [Surface.writtenStmts, List.forall_mem_append] at hnames
    refine checkBodyStmts_cons_rooms (P := fun x => Echoes ρ leeway (x room) (x room') _)
      ?_ ?_
    · intro e span hstmt _
      match stmt, hstmt with
      | .eval e _, rfl =>
        rw [Stmt.nesting] at hroom
        rw [Stmt.written] at hnames
        refine .bind (follows_inUnit (.bind follows_currentReturn fun _ =>
          .bind (follows_checkExpr hroom.left hnames.1) fun _ => ?_)) fun _ => .pure rfl
        rw [Core.Expr.ty_rename]
        exact .bind follows_recordReturn fun _ => follows_returning
    · refine .bind (follows_inUnit (follows_checkStmt hroom.left hnames.1)) fun _ =>
        .bind (follows_checkBodyStmts hroom.right hnames.2) fun _ => .pure ?_
      simp

end

end Checker

end TraitCheck
