import TraitCheck.Proofs.ShapedDeclarations

/-!
The walk keeps states well shaped. By induction over the syntax every call of the
walk, on types that are shaped, leaves a well-shaped state, and the core program
that it returns has shaped types only.
-/

namespace TraitCheck

namespace Extent

variable {e e' : Extent}

theorem covers_expr {kind : Core.ExprKind} {ty : Ty} :
    e.Covers (Core.Expr.types ⟨kind, ty⟩) ↔ e.Shapes ty ∧ e.Covers kind.types := by
  rw [Core.Expr.types, covers_cons]

theorem covers_block {block : Core.Block} :
    e.Covers block.types ↔ e.Shapes block.ty ∧ e.Covers (Core.typesStmts block.stmts) := by
  obtain ⟨stmts, ty⟩ := block
  rw [Core.Block.types, covers_cons]

theorem covers_typesStmts_append {stmts stmts' : List Core.Stmt} :
    e.Covers (Core.typesStmts (stmts ++ stmts')) ↔
      e.Covers (Core.typesStmts stmts) ∧ e.Covers (Core.typesStmts stmts') := by
  rw [Core.typesStmts_eq_flatMap, Core.typesStmts_eq_flatMap, Core.typesStmts_eq_flatMap,
    List.flatMap_append, covers_append]

theorem covers_typesExprs {values : List Core.Expr} :
    e.Covers (Core.typesExprs values) ↔ ∀ v ∈ values, e.Covers v.types := by
  rw [Core.typesExprs_eq_flatMap, covers_flatMap]

theorem covers_typesBlocks {blocks : List Core.Block} :
    e.Covers (Core.typesBlocks blocks) ↔ ∀ b ∈ blocks, e.Covers b.types := by
  rw [Core.typesBlocks_eq_flatMap, covers_flatMap]

theorem covers_some {ty : Ty} : e.Covers (some ty).toList ↔ e.Shapes ty := covers_singleton

theorem covers_none : e.Covers (none : Option Ty).toList := covers_nil.mpr trivial

end Extent

namespace Checker

open Surface (Expr FieldInit Branch Case Block Stmt FuncDecl)
open Extent (covers_nil covers_cons covers_append covers_singleton covers_expr covers_block
  covers_typesExprs covers_typesBlocks covers_typesStmts_append covers_some covers_none)

mutual

theorem leaves_checkExpr {s : Checker} {room : Nat} {hint : Option Ty}
    (hhint : s.extent.Covers hint.toList) {e : Expr} :
    Leaves s (checkExpr room hint e) fun ext v => ext.Covers v.types := by
  refine .of fun hs => ?_
  cases room with
  | zero =>
    rw [checkExpr]
    exact .get (.fail .nil)
  | succ room =>
    match e with
    | .int _ _ | .float _ _ | .bool _ _ | .string _ _ =>
      rw [checkExpr]
      exact .pure (covers_expr.mpr ⟨hs.shapes_builtin (by decide), covers_nil.mpr trivial⟩)
    | .ident name span =>
      rw [checkExpr]
      exact leaves_reference
    | .tuple elems _ =>
      rw [checkExpr]
      refine .bind (leaves_tupleHints hhint) fun _ s1 _ h1 hhints => ?_
      refine .bind (leaves_checkElems hhints) fun _ s2 _ h2 hfields => ?_
      refine .pure (covers_expr.mpr ⟨Ty.formed_tuple ?_, hfields⟩)
      exact List.forall_mem_map.mpr fun v hv => (covers_typesExprs.mp hfields v hv).ty
    | .array elems _ =>
      rw [checkExpr]
      refine .bind (leaves_arrayHint hhint) fun _ s1 _ h1 hitem => ?_
      refine .bind leaves_fresh fun _ s2 _ h2 hvar => ?_
      refine .bind (leaves_checkItems (h2.covers hitem) hvar) ?_
      intro r s3 _ h3 hr
      refine .resolve (.pure (covers_expr.mpr ⟨?_, hr.1⟩))
      exact Ty.formed_array (h3.shaped.resolve hr.2) _
    | .construct ty tag inits span =>
      rw [checkExpr]
      refine .bind leaves_lookupAdt fun _ s1 _ h1 hadt => ?_
      refine .bind (leaves_instantiateAdt (hadt _ List.mem_cons_self)) ?_
      intro inst s2 _ h2 hinst
      refine .bind (leaves_constructedFields (h2.covers hadt)) ?_
      intro r s3 _ h3 hfields
      refine .bind (leaves_checkInits (h3.covers hinst) hfields
        (fun _ h => absurd h List.not_mem_nil)) fun _ s4 _ h4 hsupplied => ?_
      split
      · exact .fail .nil
      · rename_i values hvalues
        refine .resolve (.pure (covers_constructed _ ?_ ?_))
        · exact h4.shaped.resolve ((h3.trans h4).covers hinst _ List.mem_cons_self)
        · exact covers_typesExprs.mpr (fun v hv => hsupplied v (Assoc.mem_values_of_inOrder hvalues hv))
    | .field target field span =>
      rw [checkExpr]
      exact .bind (leaves_checkExpr covers_none) fun _ s1 _ h1 hv =>
        leaves_select hv
    | .call callee args span =>
      rw [checkExpr]
      refine .bind (leaves_calleeOf (leaves_checkExpr covers_none)) ?_
      intro r s1 _ h1 hr
      refine .bind (leaves_openCall hr.2) fun shape s2 _ h2 hshape => ?_
      refine .ensure .nil fun _ => ?_
      refine .bind (leaves_checkArgs hshape.params) fun _ s3 _ h3 hvs => ?_
      exact leaves_closeCall ((h2.trans h3).within.calls hr.1) (h3.within.opens hshape) hvs
    | .binary op lhs rhs span =>
      rw [checkExpr]
      refine .bind leaves_namedCallee fun r s1 _ h1 hr => ?_
      refine .bind (leaves_openCall hr.2) fun shape s2 _ h2 hshape => ?_
      split
      · rename_i p q hparams
        have hpq := hshape.params
        rw [hparams, covers_cons, covers_singleton] at hpq
        refine .bind (leaves_expecting hpq.1
          fun hint hhint => leaves_checkExpr hhint) fun _ s3 _ h3 hl => ?_
        refine .bind (leaves_expecting (h3.shapes hpq.2)
          fun _ hhint => leaves_checkExpr hhint) fun r' s4 _ h4 hr' => ?_
        have h24 := h3.trans h4
        refine leaves_closeCall ((h2.trans h24).within.calls hr.1)
          (h24.within.opens hshape) (covers_typesExprs.mpr ?_)
        exact List.forall_mem_cons.mpr ⟨h4.covers hl, List.forall_mem_singleton.mpr hr'⟩
      · exact .fail .nil
    | .unary op operand span =>
      rw [checkExpr]
      refine .bind leaves_namedCallee fun r s1 _ h1 hr => ?_
      refine .bind (leaves_openCall hr.2) fun shape s2 _ h2 hshape => ?_
      split
      · rename_i p hparams
        have hp := hshape.params
        rw [hparams, covers_singleton] at hp
        refine .bind (leaves_expecting hp
          fun _ hhint => leaves_checkExpr hhint) fun _ s3 _ h3 hv => ?_
        exact leaves_closeCall ((h2.trans h3).within.calls hr.1)
          (h3.within.opens hshape) (covers_typesExprs.mpr (List.forall_mem_singleton.mpr hv))
      · exact .fail .nil
    | .closure params body span =>
      rw [checkExpr]
      refine .bind (leaves_openClosure hhint) fun shape s1 _ h1 hshape => ?_
      refine .bind (leaves_closureParams hshape.params) fun _ s2 _ h2 htypes => ?_
      have hshape2 := h2.within.opens hshape
      refine .resolve ?_
      have hdeclared : s2.extent.Covers (if (s2.unifier.resolve shape.ret).isVar then none
          else some (s2.unifier.resolve shape.ret)).toList := by
        split
        · exact covers_none
        · exact covers_some.mpr (h2.shaped.resolve hshape2.ret)
      refine .bind (.inFunctionFrame (Q := fun ext r => ext.Covers r.2.types) ?_) ?_
      · intro s3 h3
        refine .bind (leaves_bindClosureParams (h3.covers htypes)) ?_
        intro ids s4 _ h4 _
        refine .bind (leaves_checkBody ((h3.trans h4).covers hdeclared)) ?_
        exact fun _ _ _ _ hblock => .pure hblock
      · intro r s3 _ h3 hr
        have hblock := covers_block.mp hr.1
        refine .bind (leaves_unify (h3.shapes hshape2.ret) hblock.1) ?_
        intro ty s4 _ h4 hty
        refine .resolve (.pure (covers_expr.mpr ⟨?_, ?_⟩))
        · exact Extent.shapes_func ((h3.trans h4).covers htypes) (h4.shaped.resolve hty)
        · rw [Core.ExprKind.types, Core.FuncExpr.types, captures, List.map_map]
          exact covers_append.mpr ⟨h4.covers hr.2, h4.covers hr.1⟩
    | .cond branches otherwise span =>
      rw [checkExpr]
      refine .bind (leaves_checkBranches hhint covers_none) fun r s1 _ h1 hr => ?_
      refine .bind (leaves_checkElse (h1.covers hhint)) ?_
      intro r' s2 _ h2 hr'
      refine .bind (leaves_join (h2.covers hr.2) (covers_block.mp hr').1) ?_
      intro ty s3 _ h3 hty
      refine .resolve (.pure (covers_expr.mpr ⟨h3.shaped.resolve hty, ?_⟩))
      exact covers_append.mpr ⟨(h2.trans h3).covers hr.1, h3.covers hr'⟩
    | .cases target cases span =>
      rw [checkExpr]
      refine .bind (leaves_checkExpr covers_none) fun value s1 _ h1 hvalue => ?_
      have hty := h1.shaped.resolve hvalue.ty
      refine .resolve (.bind (leaves_enumOf hty) fun r _ _ h2 hr => ?_)
      refine .bind leaves_freshBinding fun scrutinee s3 _ h3 _ => ?_
      have hm : s3.extent.Matches ⟨r.1, r.2, s1.unifier.resolve value.ty, scrutinee⟩ :=
        h3.within.matches ⟨h2.shapes hty, hr.1, hr.2⟩
      have h23 := h2.trans h3
      refine .bind (leaves_checkCases ((h1.trans h23).covers hhint) hm covers_none
        (fun _ h => absurd h List.not_mem_nil)) fun r' _ _ h4 hr' => ?_
      dsimp only
      split
      · exact .fail .nil
      · rename_i blocks hblocks
        refine .resolve (.pure (covers_expr.mpr ⟨h4.shaped.resolve ?_, ?_⟩))
        · cases hresult : r'.2 with
          | none => exact h4.shaped.shapes_void
          | some ty => exact hr'.2 ty (hresult ▸ List.mem_cons_self)
        · rw [Core.ExprKind.types]
          exact covers_append.mpr ⟨(h23.trans h4).covers hvalue,
            covers_typesBlocks.mpr (fun b hb => hr'.1 b (Assoc.mem_values_of_inOrder hblocks hb))⟩
    | .block body _ =>
      rw [checkExpr]
      refine .bind (leaves_checkBlock hhint) fun _ _ _ _ hblock => ?_
      exact .pure (covers_expr.mpr ⟨(covers_block.mp hblock).1, hblock⟩)

theorem leaves_checkElems {s : Checker} {room : Nat} {hints : List Ty}
    (hhints : s.extent.Covers hints) {es : List Expr} :
    Leaves s (checkElems room hints es) fun ext vs => ext.Covers (Core.typesExprs vs) := by
  match es with
  | [] =>
    rw [checkElems]
    exact .pure (covers_nil.mpr trivial)
  | e :: rest =>
    rw [checkElems]
    have hhead : s.extent.Covers hints.head?.toList :=
      Extent.covers_toList.mpr fun t ht => hhints t (List.mem_of_head? ht)
    refine .bind (leaves_checkExpr hhead) fun _ _ _ h1 hv => ?_
    refine .bind (leaves_checkElems
      (fun t ht => h1.shapes (hhints t (List.mem_of_mem_tail ht)))) fun _ _ _ h2 hvs => ?_
    exact .pure (covers_append.mpr ⟨h2.covers hv, hvs⟩)

theorem leaves_checkItems {s : Checker} {room : Nat} {hint : Option Ty}
    (hhint : s.extent.Covers hint.toList) {ty : Ty} (hty : s.extent.Shapes ty) {es : List Expr} :
    Leaves s (checkItems room hint ty es) fun ext r =>
      ext.Covers (Core.typesExprs r.1) ∧ ext.Shapes r.2 := by
  refine .of fun hs => ?_
  match es with
  | [] =>
    rw [checkItems]
    exact .pure ⟨covers_nil.mpr trivial, hty⟩
  | e :: rest =>
    rw [checkItems]
    have hknown : s.extent.Covers (if (s.unifier.resolve ty).isVar then hint
        else some (s.unifier.resolve ty)).toList := by
      split
      · exact hhint
      · exact covers_some.mpr (hs.resolve hty)
    refine .resolve (.bind (leaves_checkExpr hknown) fun _ _ _ h1 hv => ?_)
    refine .bind (leaves_unify (h1.shapes hty) hv.ty) fun _ _ _ h2 hty' => ?_
    refine .bind (leaves_checkItems ((h1.trans h2).covers hhint) hty') ?_
    intro r s3 _ h3 hr
    exact .pure ⟨covers_append.mpr ⟨(h2.trans h3).covers hv, hr.1⟩, hr.2⟩

theorem leaves_checkArgs {s : Checker} {room : Nat} {params : List Ty}
    (hparams : s.extent.Covers params) {es : List Expr} :
    Leaves s (checkArgs room params es) fun ext vs => ext.Covers (Core.typesExprs vs) := by
  match es with
  | [] =>
    rw [checkArgs]
    exact .pure (covers_nil.mpr trivial)
  | e :: rest =>
    cases params with
    | nil =>
      rw [checkArgs]
      exact .pure (covers_nil.mpr trivial)
    | cons param params =>
      rw [checkArgs]
      obtain ⟨hparam, hparams⟩ := covers_cons.mp hparams
      refine .bind (leaves_expecting hparam
        fun _ hhint => leaves_checkExpr hhint) fun _ _ _ h1 hv => ?_
      refine .bind (leaves_checkArgs (h1.covers hparams)) ?_
      exact fun _ _ _ h2 hvs => .pure (covers_append.mpr ⟨h2.covers hv, hvs⟩)

theorem leaves_checkInits {s : Checker} {room : Nat} {inst : Instance}
    (hinst : s.extent.Covers inst.types) {fields : Fields} (hfields : s.extent.Covers fields.values)
    {supplied : Assoc String Core.Expr}
    (hsupplied : ∀ v ∈ supplied.values, s.extent.Covers v.types) {inits : List FieldInit} :
    Leaves s (checkInits room inst fields supplied inits) fun ext supplied =>
      ∀ v ∈ supplied.values, ext.Covers v.types := by
  refine .of fun hs => ?_
  match inits with
  | [] =>
    rw [checkInits]
    exact .pure hsupplied
  | ⟨name, e⟩ :: rest =>
    rw [checkInits]
    split
    · exact .resolve (.failAt (hs.resolve (hinst _ List.mem_cons_self)) rfl)
    · rename_i ty hfind
      have hty := Instance.shapes_fieldType hinst (hfields ty (Assoc.mem_values_of_find? hfind))
      refine .ensure .nil fun _ => .bind (leaves_expecting hty
        fun _ hhint => leaves_checkExpr hhint) fun v _ _ h1 hv => ?_
      exact leaves_checkInits (h1.covers hinst) (h1.covers hfields)
        (Assoc.forall_values_insert hv fun v hv => h1.covers (hsupplied v hv))

theorem leaves_checkBranches {s : Checker} {room : Nat} {hint : Option Ty}
    (hhint : s.extent.Covers hint.toList) {before : Option Ty}
    (hbefore : s.extent.Covers before.toList) {branches : List Branch} :
    Leaves s (checkBranches room hint before branches) fun ext r =>
      ext.Covers (Core.typesBranches r.1) ∧ ext.Covers r.2.toList := by
  refine .of fun hs => ?_
  match branches with
  | [] =>
    rw [checkBranches]
    exact .pure ⟨covers_nil.mpr trivial, hbefore⟩
  | ⟨cond, body⟩ :: rest =>
    rw [checkBranches]
    refine .bind (leaves_expecting hs.shapes_bool
      fun _ hhint => leaves_checkExpr hhint) fun _ _ _ h1 htest => ?_
    refine .bind (leaves_checkBlock (h1.covers hhint)) ?_
    intro block s2 _ h2 hblock
    refine .bind (leaves_join ((h1.trans h2).covers hbefore) (covers_block.mp hblock).1) ?_
    intro ty s3 _ h3 hty
    have h23 := h2.trans h3
    refine .bind (leaves_checkBranches ((h1.trans h23).covers hhint)
      (covers_some.mpr hty)) fun _ _ _ h4 hr => .pure ⟨?_, hr.2⟩
    exact covers_append.mpr ⟨covers_append.mpr
      ⟨(h23.trans h4).covers htest, (h3.trans h4).covers hblock⟩, hr.1⟩

theorem leaves_checkElse {s : Checker} {room : Nat} {hint : Option Ty}
    (hhint : s.extent.Covers hint.toList) {span : Span} {otherwise : Option Block} :
    Leaves s (checkElse room hint span otherwise) fun ext r => ext.Covers r.1.types := by
  refine .of fun hs => ?_
  match otherwise with
  | none =>
    rw [checkElse]
    exact .pure (covers_block.mpr ⟨hs.shapes_void, covers_nil.mpr trivial⟩)
  | some block =>
    rw [checkElse]
    exact .bind (leaves_checkBlock hhint) fun _ _ _ _ hblock =>
      .pure hblock

theorem leaves_checkCases {s : Checker} {room : Nat} {hint : Option Ty}
    (hhint : s.extent.Covers hint.toList) {m : Match} (hm : s.extent.Matches m)
    {before : Option Ty} (hbefore : s.extent.Covers before.toList) {done : Assoc String Core.Block}
    (hdone : ∀ b ∈ done.values, s.extent.Covers b.types) {cases : List Case} :
    Leaves s (checkCases room hint m before done cases) fun ext r =>
      (∀ b ∈ r.1.values, ext.Covers b.types) ∧ ext.Covers r.2.toList := by
  match cases with
  | [] =>
    rw [checkCases]
    exact .pure ⟨hdone, hbefore⟩
  | ⟨tag, bindings, ⟨stmts, bodySpan⟩, span⟩ :: rest =>
    rw [checkCases]
    split
    · exact .fail .nil
    · rename_i fields hfind
      have hfields := hm.tags fields (Assoc.mem_values_of_find? hfind)
      refine .ensure .nil fun _ => .bind (.inScope (Q := fun ext b => ext.Covers b.types) ?_) ?_
      · intro s1 h1
        refine .bind (leaves_bindCaseFields (h1.within.matches hm) (h1.covers hfields)) ?_
        intro lets s2 _ h2 hlets
        refine .bind (leaves_checkStmts ((h1.trans h2).covers hhint)) ?_
        intro body s3 _ h3 hbody
        obtain ⟨hty, hstmts⟩ := covers_block.mp hbody
        refine .pure (covers_block.mpr ⟨hty, ?_⟩)
        exact covers_typesStmts_append.mpr ⟨h3.covers hlets, hstmts⟩
      · intro block s1 _ h1 hblock
        refine .bind (leaves_join (h1.covers hbefore) (covers_block.mp hblock).1) ?_
        intro ty s2 _ h2 hty
        have h12 := h1.trans h2
        exact leaves_checkCases (h12.covers hhint) (h12.within.matches hm)
          (covers_some.mpr hty)
          (Assoc.forall_values_insert (h2.covers hblock) fun b hb => h12.covers (hdone b hb))

theorem leaves_checkBlock {s : Checker} {room : Nat} {hint : Option Ty}
    (hhint : s.extent.Covers hint.toList) {block : Block} :
    Leaves s (checkBlock room hint block) fun ext b => ext.Covers b.types := by
  match block with
  | ⟨stmts, _⟩ =>
    rw [checkBlock]
    exact .inScope fun _ h1 => leaves_checkStmts (h1.covers hhint)

theorem leaves_checkStmts {s : Checker} {room : Nat} {hint : Option Ty}
    (hhint : s.extent.Covers hint.toList) {stmts : List Stmt} :
    Leaves s (checkStmts room hint stmts) fun ext b => ext.Covers b.types := by
  refine .of fun hs => ?_
  match stmts with
  | [] =>
    rw [checkStmts]
    exact .pure (covers_block.mpr ⟨hs.shapes_void, covers_nil.mpr trivial⟩)
  | stmt :: rest =>
    refine checkStmts_cons (P := fun x => Leaves s (x hint) fun ext b => ext.Covers b.types) ?_ ?_
    · intro e span hstmt
      match stmt, hstmt with
      | .eval e _, rfl =>
        refine .bind (leaves_checkExpr hhint) fun _ _ _ h1 hv => ?_
        refine .pure (covers_block.mpr ⟨hv.ty, ?_⟩)
        exact covers_append.mpr ⟨hv, covers_nil.mpr trivial⟩
    · refine .bind leaves_checkStmt fun _ _ _ h1 hout => ?_
      refine .bind (leaves_checkStmts (h1.covers hhint)) ?_
      intro block s2 _ h2 hblock
      obtain ⟨hty, hstmts⟩ := covers_block.mp hblock
      refine .pure (covers_block.mpr ⟨hty, ?_⟩)
      exact covers_typesStmts_append.mpr ⟨h2.covers hout, hstmts⟩

theorem leaves_checkStmt {s : Checker} {room : Nat} {stmt : Stmt} :
    Leaves s (checkStmt room stmt) fun ext out => ext.Covers (Core.typesStmts out) := by
  refine .of fun hs => ?_
  match stmt with
  | .bind pattern written value _ =>
    rw [checkStmt]
    refine .bind leaves_typeFor? fun _ s1 _ h1 hdeclared => ?_
    refine .bind (leaves_checkExpr hdeclared) fun v s2 _ h2 hv => ?_
    refine .bind (leaves_join (h2.covers hdeclared) hv.ty) fun ty s3 _ h3 hty => ?_
    exact .resolve (leaves_bindPattern (h3.shaped.resolve hty) (h3.covers hv))
  | .func decl =>
    rw [checkStmt]
    refine .bind leaves_declareSignature fun _ s1 _ h1 hsig => ?_
    refine .bind leaves_freshBinding fun _ s2 _ h2 hid => ?_
    have hsig2 := h2.within.signs hsig
    refine .bind (leaves_bindValue (covers_cons.mpr ⟨?_, ?_⟩) hid) fun _ s3 _ h3 _ => ?_
    · exact Ty.shaped_funcWith (covers_obligations hsig2) hsig2.params hsig2.ret
    · refine Extent.covers_map.mpr (List.forall_mem_map.mpr fun g hg => ?_)
      exact Ty.shaped_var (hsig2.generics g hg).var
    · refine .bind (leaves_checkFunc (h3.within.signs hsig2)) ?_
      intro r s4 _ h4 hr
      refine .bind (leaves_setValueType hr.2) fun _ _ _ h5 _ => .pure ?_
      exact covers_append.mpr ⟨covers_expr.mpr ⟨h5.shapes hr.2, h5.covers hr.1⟩,
        covers_nil.mpr trivial⟩
  | .struct name generics fields span =>
    rw [checkStmt]
    exact .topLevel fun _ => .bind leaves_defineStruct fun _ s1 _ h1 _ =>
      .pure (covers_nil.mpr trivial)
  | .enum name generics tags span =>
    rw [checkStmt]
    exact .topLevel fun _ => .bind leaves_defineEnum fun _ s1 _ h1 _ =>
      .pure (covers_nil.mpr trivial)
  | .trait name methods span =>
    rw [checkStmt]
    exact .topLevel fun hroot => .bind (leaves_declareTrait hroot)
      fun _ s1 _ h1 _ => .pure (covers_nil.mpr trivial)
  | .impl bound ty methods span =>
    rw [checkStmt]
    refine .topLevel fun _ => .bind leaves_openImpl fun _ s1 _ h1 himpl => ?_
    refine .bind (leaves_checkMethods himpl
      (fun _ h => absurd h List.not_mem_nil)) fun _ s2 _ h2 hdone => ?_
    split
    · exact .fail .nil
    · rename_i fields hfields
      refine .pure (covers_append.mpr ⟨covers_expr.mpr ⟨?_, ?_⟩, covers_nil.mpr trivial⟩)
      · exact h2.shapes himpl.dictionary
      · exact covers_typesExprs.mpr (fun v hv => hdone v (Assoc.mem_values_of_inOrder hfields hv))
  | .ret none span =>
    rw [checkStmt]
    exact .bind (leaves_recordReturn hs.shapes_void) fun _ s1 _ h1 _ =>
      .pure (covers_nil.mpr trivial)
  | .ret (some e) span =>
    rw [checkStmt]
    refine .bind leaves_requireFunction fun _ s1 _ h1 _ => ?_
    refine .bind leaves_currentReturn fun _ s2 _ h2 hhint => ?_
    refine .bind (leaves_checkExpr hhint) fun v s3 _ h3 hv => ?_
    refine .bind (leaves_recordReturn hv.ty) fun _ _ _ h4 _ => .pure ?_
    exact covers_append.mpr ⟨h4.covers hv, covers_nil.mpr trivial⟩
  | .whileDo cond body _ =>
    rw [checkStmt]
    refine .bind (leaves_expecting hs.shapes_bool
      fun _ hhint => leaves_checkExpr hhint) fun _ s1 _ h1 htest => ?_
    refine .bind (leaves_checkBlock covers_none) fun _ s2 _ h2 hblock => ?_
    exact .pure (covers_append.mpr
      ⟨covers_append.mpr ⟨h2.covers htest, hblock⟩, covers_nil.mpr trivial⟩)
  | .forEach name iterable body span =>
    rw [checkStmt]
    refine .bind (leaves_checkExpr covers_none) fun _ _ _ h1 hv => ?_
    refine .resolve (.bind (leaves_elementOf (h1.shaped.resolve hv.ty)) ?_)
    intro elem s2 _ h2 helem
    refine .bind (.inScope (Q := fun ext r => ext.Covers r.2.types) ?_) ?_
    · intro s3 h3
      refine .bind (leaves_bindLocal (h3.shapes helem)) fun _ _ _ _ _ => ?_
      exact .bind (leaves_checkBlock covers_none) fun _ _ _ _ hblock =>
        .pure hblock
    · intro r s3 _ h3 hr
      exact .pure (covers_append.mpr
        ⟨covers_append.mpr ⟨(h2.trans h3).covers hv, hr⟩, covers_nil.mpr trivial⟩)
  | .eval e _ =>
    rw [checkStmt]
    refine .bind (leaves_checkExpr covers_none) fun _ _ _ _ hv => ?_
    exact .pure (covers_append.mpr ⟨hv, covers_nil.mpr trivial⟩)

theorem leaves_checkFunc {s : Checker} {room : Nat} {sig : Signature}
    (hsig : s.extent.Signs sig) {decl : FuncDecl} :
    Leaves s (checkFunc room sig decl) fun ext r => ext.Covers r.1.types ∧ ext.Shapes r.2 := by
  match decl with
  | ⟨name, _, params, ret, body, span⟩ =>
    rw [checkFunc]
    refine .bind (.inFunctionFrame (Q := fun ext r =>
      ext.Covers r.2.1.types ∧ ext.Covers (r.2.2.map Prod.snd)) ?_) ?_
    · intro s1 h1
      refine .bind (leaves_bindTracers (h1.within.signs hsig).generics) ?_
      intro r s2 _ h2 htracers
      refine .bind leaves_bindParams fun _ _ _ h3 _ => ?_
      refine .bind leaves_typeFor? fun _ _ _ h4 hdeclared => ?_
      refine .bind (leaves_checkBody hdeclared) fun _ _ _ h5 hblock => ?_
      exact .pure ⟨hblock, ((h3.trans h4).trans h5).covers htracers⟩
    · intro r s1 _ h1 hr
      have hsig1 := h1.within.signs hsig
      refine .pure ⟨?_, ?_⟩
      · rw [Core.FuncExpr.types, captures, List.map_map]
        exact covers_append.mpr ⟨hr.2, hr.1.1⟩
      · refine Ty.shaped_funcWith (covers_obligations hsig1) hsig1.params ?_
        exact shapes_finalRet hsig1 hr.1.2 (covers_block.mp hr.1.1).1

theorem leaves_checkMethods {s : Checker} {room : Nat} {impl : Impl}
    (himpl : s.extent.Implements impl) {done : Assoc String Core.Expr}
    (hdone : ∀ v ∈ done.values, s.extent.Covers v.types) {methods : List FuncDecl} :
    Leaves s (checkMethods room impl done methods) fun ext done =>
      ∀ v ∈ done.values, ext.Covers v.types := by
  match methods with
  | [] =>
    rw [checkMethods]
    exact .pure hdone
  | method :: rest =>
    rw [checkMethods]
    split
    · exact .fail .nil
    · rename_i declared hfind
      have hdeclared := (covers_cons.mp himpl.decl).2 declared (Assoc.mem_values_of_find? hfind)
      refine .ensure .nil fun _ => .bind (leaves_methodType himpl hdeclared) ?_
      intro expected s1 _ h1 hexpected
      refine .bind leaves_declareSignature fun _ _ _ h2 hsig => ?_
      refine .bind (leaves_checkFunc hsig) fun r _ _ h3 hr => ?_
      refine .bind (.isolated (Q := fun ext ty => ext.Shapes ty) ?_) ?_
      · intro s4 h4
        refine .bind (leaves_unify (((h2.trans h3).trans h4).shapes hexpected)
          (h4.shapes hr.2)) fun _ _ _ h5 _ => .get (.pure ?_)
        exact h5.shaped.resolve ((h4.trans h5).shapes hr.2)
      · intro ty s4 _ h4 hty
        have h14 := ((h1.trans h2).trans h3).trans h4
        have hfunc : s4.extent.Covers (Core.Expr.types ⟨.func r.1, ty⟩) :=
          covers_expr.mpr ⟨hty, h4.covers hr.1⟩
        exact leaves_checkMethods (h14.within.implements himpl)
          (Assoc.forall_values_insert hfunc fun v hv => h14.covers (hdone v hv))

theorem leaves_checkBody {s : Checker} {room : Nat} {declared : Option Ty}
    (hdeclared : s.extent.Covers declared.toList) {body : Block} :
    Leaves s (checkBody room declared body) fun ext b => ext.Covers b.types := by
  match body with
  | ⟨stmts, span⟩ =>
    rw [checkBody]
    exact .inFunction hdeclared fun _ _ =>
      .bind leaves_checkBodyStmts fun _ _ _ _ hr =>
        leaves_closeBody hr

theorem leaves_checkBodyStmts {s : Checker} {room : Nat} {stmts : List Stmt} :
    Leaves s (checkBodyStmts room stmts) fun ext r => ext.Covers (Core.typesStmts r.1) := by
  match stmts with
  | [] =>
    rw [checkBodyStmts]
    exact .pure (covers_nil.mpr trivial)
  | stmt :: rest =>
    refine checkBodyStmts_cons
      (P := fun x => Leaves s x fun ext r => ext.Covers (Core.typesStmts r.1)) ?_ ?_
    · intro e span hstmt
      match stmt, hstmt with
      | .eval e _, rfl =>
        refine .bind (leaves_inUnit fun s1 h1 => ?_) fun out s1 _ h1 hout => .pure hout
        refine .bind leaves_currentReturn fun _ _ _ h2 hhint => ?_
        refine .bind (leaves_checkExpr hhint) fun _ _ _ _ hv => ?_
        refine .bind (leaves_recordReturn hv.ty) fun _ _ _ h4 _ => ?_
        exact leaves_returning (h4.covers hv)
    · refine .bind (leaves_inUnit fun s1 h1 => leaves_checkStmt) ?_
      intro out s1 _ h1 hout
      refine .bind leaves_checkBodyStmts fun _ _ _ h2 hr => ?_
      exact .pure (covers_typesStmts_append.mpr ⟨h2.covers hout, hr⟩)

end

end Checker

end TraitCheck
