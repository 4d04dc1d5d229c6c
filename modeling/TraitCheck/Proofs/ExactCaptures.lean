import TraitCheck.Proofs.CaptureBinders

/-!
Captures are exact. The walk makes exact pieces, by induction over the syntax,
and a fresh checker starts in a coherent state. So a program that a fresh
checker accepts is well scoped, and each function in it captures what is free
in its body.
-/

namespace TraitCheck.Checker

open Surface (declaredElse declaredExprs declaredInits declaredBranches declaredCases declaredStmts
  declaredFuncs)

/-! The walk. -/

theorem ordinary_of_func {decl : Surface.FuncDecl} (hnames : OrdinaryAll decl.declared) :
    Ordinary decl.name.text ∧ OrdinaryAll (Surface.genericNames decl.generics) := by
  obtain ⟨name, generics, params, ret, body, span⟩ := decl
  rw [Surface.FuncDecl.declared, ordinaryAll_append, ordinaryAll_append, ordinaryAll_cons] at hnames
  exact hnames.1.1

theorem makes_constructed {tag : Option Nat} {values : List Core.Expr} {ty : Ty} :
    ComesTo (pure ⟨constructed tag values, ty⟩) (fun e => MadeExpr (.expr e))
      (MadeExpr (.exprs values)) := by
  rw [constructed.eq_def]
  split
  · exact .node
  · exact .node

mutual

theorem makes_checkExpr {room : Nat} {hint : Option Ty} {e : Surface.Expr}
    (hnames : OrdinaryAll e.declared) : Makes (checkExpr room hint e) .expr := by
  cases room with
  | zero =>
    rw [checkExpr]
    exact .after .get fun _ => .fail
  | succ room =>
    match e with
    | .int _ _ | .float _ _ | .bool _ _ | .string _ _ =>
      rw [checkExpr]
      exact .node
    | .ident name span =>
      rw [checkExpr]
      exact makes_reference
    | .tuple elems _ =>
      rw [checkExpr]
      rw [Surface.Expr.declared] at hnames
      refine .after ends_tupleHints fun _ => ?_
      exact (makes_checkElems hnames).next fun _ => .node
    | .array elems _ =>
      rw [checkExpr]
      rw [Surface.Expr.declared] at hnames
      refine .after ends_arrayHint fun _ => .after ends_fresh fun _ => ?_
      refine (makes_checkItems hnames).next fun _ => ?_
      exact .after ends_resolve fun _ => .node
    | .construct ty tag inits span =>
      rw [checkExpr]
      rw [Surface.Expr.declared] at hnames
      refine .after ends_lookupAdt fun _ => .after ends_instantiateAdt fun _ => ?_
      refine .after ends_constructedFields fun r => ?_
      refine .bind_of (makes_checkInits hnames)
        (fun _ h => within_checkInits (.empty _) h) fun _ hwithin => ?_
      split
      · exact .fail
      · rename_i values hvalues
        refine .after ends_resolve fun _ => .imp makes_constructed fun h => ?_
        exact h.conv (.exprs fun _ => hwithin.mem_inOrder hvalues)
    | .field target field span =>
      rw [checkExpr]
      rw [Surface.Expr.declared] at hnames
      refine (makes_checkExpr hnames).next fun value => ?_
      exact .after ends_resolve fun _ => .after ends_selected fun _ => .node
    | .call callee args span =>
      rw [checkExpr]
      rw [Surface.Expr.declared, ordinaryAll_append] at hnames
      refine .bind (comes_calleeOf (makes_checkExpr hnames.1)) fun r => ?_
      refine .opened fun shape hmethod => .ensure fun _ => ?_
      exact (makes_checkArgs hnames.2).next fun _ => comes_closeCall hmethod
    | .binary op lhs rhs span =>
      rw [checkExpr]
      rw [Surface.Expr.declared, ordinaryAll_append] at hnames
      refine .bind comes_namedCallee fun r => .opened fun shape hmethod => ?_
      split
      · refine (Makes.expecting fun hint => makes_checkExpr hnames.1).next fun _ => ?_
        refine (Makes.expecting fun hint => makes_checkExpr hnames.2).next fun r => ?_
        refine .imp (comes_closeCall hmethod) fun h => ?_
        exact (h.conv (.append_left _ .single)).conv .assoc
      · exact .fail
    | .unary op operand span =>
      rw [checkExpr]
      rw [Surface.Expr.declared] at hnames
      refine .bind comes_namedCallee fun r => .opened fun _ hmethod => ?_
      split
      · refine (Makes.expecting fun _ => makes_checkExpr hnames).next ?_
        exact fun _ => .imp (comes_closeCall hmethod) fun h => h.conv (.append_left _ .single)
      · exact .fail
    | .closure params body span =>
      rw [checkExpr]
      rw [Surface.Expr.declared, ordinaryAll_append] at hnames
      refine .after ends_openClosure fun _ => ?_
      refine .after ends_closureParams fun _ => .after ends_resolve fun _ => ?_
      refine (ComesTo.inFunctionFrame Prod.fst Prod.snd ?_).next fun r => ?_
      · refine (bindsIds_bindClosureParams hnames.1).next fun _ => ?_
        exact .bind (writes_checkBody hnames.2).body fun _ => .pure
      · refine .after ends_unify fun _ => .after ends_resolve fun _ => ?_
        exact .imp .pure fun h => h.conv .rename
    | .cond branches otherwise span =>
      rw [checkExpr]
      rw [Surface.Expr.declared, ordinaryAll_append] at hnames
      refine (makes_checkBranches hnames.1).next fun _ => ?_
      refine (makes_checkElse hnames.2).next fun _ => ?_
      exact .after ends_join fun _ => .after ends_resolve fun _ => .node
    | .cases target cases span =>
      rw [checkExpr]
      rw [Surface.Expr.declared, ordinaryAll_append] at hnames
      refine (makes_checkExpr hnames.1).next fun value => ?_
      refine .after ends_resolve fun _ => .after ends_enumOf fun r => ?_
      refine .hidden (F := fun r' => r'.1.Within r.2.keys)
        (fun id => comes_checkCases hnames.2)
        (fun h => within_checkCases (.empty _) h) fun id r' hwithin => ?_
      obtain ⟨checked, result⟩ := r'
      dsimp only
      split
      · exact .fail
      · rename_i blocks hblocks
        have hordered : ((Piece.blocks checked.values).without id).Becomes
            ((Piece.blocks blocks).without id) := .without (.blocks fun _ => hwithin.mem_inOrder hblocks)
        exact .after ends_resolve fun _ =>
          .imp .node fun h => h.conv (hordered.append_left (.expr value))
    | .block body _ =>
      rw [checkExpr]
      rw [Surface.Expr.declared] at hnames
      exact (makes_checkBlock hnames).next fun _ => .node

theorem makes_checkElems {room : Nat} {hints : List Ty} {es : List Surface.Expr}
    (hnames : OrdinaryAll (declaredExprs es)) : Makes (checkElems room hints es) .exprs := by
  match es with
  | [] =>
    rw [checkElems]
    exact .pure
  | e :: rest =>
    rw [declaredExprs, ordinaryAll_append] at hnames
    rw [checkElems]
    refine (makes_checkExpr hnames.1).next fun _ => ?_
    exact (makes_checkElems hnames.2).next fun _ => .pure

theorem makes_checkItems {room : Nat} {hint : Option Ty} {ty : Ty} {es : List Surface.Expr}
    (hnames : OrdinaryAll (declaredExprs es)) :
    Makes (checkItems room hint ty es) fun r => .exprs r.1 := by
  match es with
  | [] =>
    rw [checkItems]
    exact .pure
  | e :: rest =>
    rw [declaredExprs, ordinaryAll_append] at hnames
    rw [checkItems]
    refine .after ends_resolve fun _ => (makes_checkExpr hnames.1).next fun _ => ?_
    refine .after ends_unify fun _ => ?_
    exact (makes_checkItems hnames.2).next fun _ => .pure

theorem makes_checkArgs {room : Nat} {params : List Ty} {es : List Surface.Expr}
    (hnames : OrdinaryAll (declaredExprs es)) : Makes (checkArgs room params es) .exprs := by
  match es with
  | [] =>
    rw [checkArgs]
    exact .pure
  | e :: rest =>
    rw [declaredExprs, ordinaryAll_append] at hnames
    cases params with
    | nil =>
      rw [checkArgs]
      exact .pure
    | cons param params =>
      rw [checkArgs]
      refine (Makes.expecting fun _ => makes_checkExpr hnames.1).next fun _ => ?_
      exact (makes_checkArgs hnames.2).next fun _ => .pure

theorem makes_checkInits {room : Nat} {inst : Instance} {fields : Fields}
    {supplied : Assoc String Core.Expr} {inits : List Surface.FieldInit}
    (hnames : OrdinaryAll (declaredInits inits)) :
    ComesTo (checkInits room inst fields supplied inits) (fun out => MadeExpr (.exprs out.values))
      (MadeExpr (.exprs supplied.values)) := by
  match inits with
  | [] =>
    rw [checkInits]
    exact .pure
  | ⟨name, e⟩ :: rest =>
    rw [declaredInits, ordinaryAll_append] at hnames
    rw [checkInits]
    split
    · exact .after ends_resolve fun _ => .fail
    · refine .ensure fun hnew => ?_
      refine (Makes.expecting fun _ => makes_checkExpr hnames.1).next fun _ => ?_
      exact .imp (makes_checkInits hnames.2) fun h =>
        h.conv (.insert_expr hnew)

theorem makes_checkBranches {room : Nat} {hint before : Option Ty} {branches : List Surface.Branch}
    (hnames : OrdinaryAll (declaredBranches branches)) :
    Makes (checkBranches room hint before branches) fun r => .branches r.1 := by
  match branches with
  | [] =>
    rw [checkBranches]
    exact .pure
  | ⟨cond, body⟩ :: rest =>
    rw [declaredBranches, ordinaryAll_append, ordinaryAll_append] at hnames
    rw [checkBranches]
    refine (Makes.expecting fun _ => makes_checkExpr hnames.1.1).next fun _ => ?_
    refine (makes_checkBlock hnames.1.2).next fun _ => .after ends_join fun _ => ?_
    exact (makes_checkBranches hnames.2).next fun _ => .pure

theorem makes_checkElse {room : Nat} {hint : Option Ty} {span : Span}
    {otherwise : Option Surface.Block} (hnames : OrdinaryAll (declaredElse otherwise)) :
    Makes (checkElse room hint span otherwise) fun r => .block r.1 := by
  match otherwise with
  | none =>
    rw [checkElse]
    exact .pure
  | some block =>
    rw [declaredElse] at hnames
    rw [checkElse]
    exact (makes_checkBlock hnames).next fun _ => .pure

theorem comes_checkCases {room : Nat} {hint : Option Ty} {m : Match} {before : Option Ty}
    {done : Assoc String Core.Block} {cases : List Surface.Case}
    (hnames : OrdinaryAll (declaredCases cases)) :
    ComesTo (checkCases room hint m before done cases)
      (fun r => Holding m.scrutinee (MadeExpr (.blocks r.1.values)))
      (Holding m.scrutinee (MadeExpr (.blocks done.values))) := by
  match cases with
  | [] =>
    rw [checkCases]
    exact .pure
  | ⟨tag, bindings, ⟨stmts, bodySpan⟩, span⟩ :: rest =>
    rw [declaredCases, ordinaryAll_append, ordinaryAll_append, Surface.Block.declared] at hnames
    rw [checkCases]
    split
    · exact .fail
    · refine .ensure fun hnew => ?_
      refine .bind (comes_case hnames.1.1 (writes_checkStmts hnames.1.2)) ?_
      refine fun _ => .after ends_join fun _ => ?_
      exact .imp (comes_checkCases hnames.2) fun h =>
        ⟨h.1, h.2.conv (.insert_block hnew)⟩

theorem makes_checkBlock {room : Nat} {hint : Option Ty} {block : Surface.Block}
    (hnames : OrdinaryAll block.declared) : Makes (checkBlock room hint block) .block := by
  match block with
  | ⟨stmts, _⟩ =>
    rw [Surface.Block.declared] at hnames
    rw [checkBlock]
    exact (writes_checkStmts hnames).inScope

theorem writes_checkStmts {room : Nat} {hint : Option Ty} {stmts : List Surface.Stmt}
    (hnames : OrdinaryAll (declaredStmts stmts)) :
    Writes (checkStmts room hint stmts) Core.Block.stmts := by
  match stmts with
  | [] =>
    rw [checkStmts]
    exact .imp .pure fun h => .nil h.toMade
  | stmt :: rest =>
    rw [declaredStmts, ordinaryAll_append] at hnames
    refine checkStmts_cons (P := fun x => Writes (x hint) Core.Block.stmts) ?_ ?_
    · -- a last expression is a part of its statement, so the induction covers it
      intro e span hstmt
      match stmt, hnames.1, hstmt with
      | .eval e span, hnames, rfl =>
        rw [Surface.Stmt.declared] at hnames
        exact (makes_checkExpr hnames).next fun _ => .imp .pure fun h => .single h rfl
    · refine .bind (writes_checkStmt hnames.1) fun _ => ?_
      exact (writes_checkStmts hnames.2).next fun _ => .pure

theorem writes_checkStmt {room : Nat} {stmt : Surface.Stmt} (hnames : OrdinaryAll stmt.declared) :
    Writes (checkStmt room stmt) id := by
  match stmt with
  | .bind pattern written value _ =>
    rw [Surface.Stmt.declared, ordinaryAll_append] at hnames
    rw [checkStmt]
    refine .after ends_typeFor? fun _ => ?_
    refine (makes_checkExpr hnames.2).next fun _ => ?_
    exact .after ends_join fun _ => .after ends_resolve fun _ => comes_bindPattern hnames.1
  | .func decl =>
    rw [Surface.Stmt.declared] at hnames
    rw [checkStmt]
    obtain ⟨hname, hgenerics⟩ := ordinary_of_func hnames
    refine .bind_of (.quiet ends_declareSignature)
      (fun hs h => h.declareSignature hs.lawful hgenerics) fun _ hsig => ⟨fun h hrun => ?_⟩
    obtain ⟨id, s2, h2, hrun⟩ := hrun.bind
    obtain ⟨_, s3, h3, hrun⟩ := hrun.bind
    obtain ⟨⟨func, ty⟩, s4, h4, hrun⟩ := hrun.bind
    obtain ⟨_, s5, h5, hrun⟩ := hrun.bind
    obtain ⟨rfl, rfl⟩ := hrun.pure
    obtain ⟨hopen, hfind⟩ := h.coherent.bindFunction hname h2 h3
    have hfunc := (makes_checkFunc hsig hnames).run hopen.made.coherent.stay h4
    -- the body has left the frame of the function as it was, so the name is still bound to it
    have hvalues := congrArg Frame.values hfunc.top
    change s4.scope.top.values = s3.scope.top.values at hvalues
    rw [← hvalues] at hfind
    have hset := hfunc.coherent.setValueType hfind rfl h5
    exact .after h (.bindRec hopen ((hfunc.toMade.silent hset).conv .retype))
  | .struct name generics fields span =>
    rw [checkStmt]
    exact .after ends_requireTopLevel fun _ => .after (ends_defineStruct fun _ => alike_setAdtKind) fun _ => .nil
  | .enum name generics tags span =>
    rw [checkStmt]
    exact .after ends_requireTopLevel fun _ => .after (ends_defineEnum fun _ => alike_setAdtKind) fun _ => .nil
  | .trait name methods span =>
    rw [Surface.Stmt.declared, ordinaryAll_cons] at hnames
    rw [checkStmt]
    refine .after ends_requireTopLevel fun _ => ⟨fun h hrun => ?_⟩
    obtain ⟨_, s1, h1, hrun⟩ := hrun.bind
    obtain ⟨rfl, rfl⟩ := hrun.pure
    exact .nil (h.toMade.silent (h.coherent.declareTrait hnames.1 hnames.2 h1))
  | .impl bound ty methods span =>
    rw [Surface.Stmt.declared] at hnames
    rw [checkStmt]
    constructor
    intro marks V s0 s stmts s' h hrun
    obtain ⟨_, s1, h1, hrun⟩ := hrun.bind
    obtain ⟨hroot, rfl⟩ := h1.requireTopLevel
    obtain ⟨impl, s2, h2, hrun⟩ := hrun.bind
    obtain ⟨done, s3, h3, hrun⟩ := hrun.bind
    have hwithin := within_checkMethods (.empty _) h3
    split at hrun
    · exact hrun.fail.elim
    · rename_i fields hfields
      obtain ⟨rfl, rfl⟩ := hrun.pure
      have hopen := h.coherent.openImpl hroot h2
      have hdone := (makes_checkMethods ∅ hnames).run hopen.made.coherent.stay h3
      have hmade := hdone.conv (.exprs fun _ => hwithin.mem_inOrder hfields)
      have hnode : (Piece.exprs fields).Becomes (.expr ⟨.object none fields, impl.dictionaryType⟩) :=
        ⟨fun _ => Iff.rfl, fun hexact => hexact.cons nofun⟩
      exact .after h (.bindRec hopen (hmade.conv hnode).toMade)
  | .ret none span =>
    rw [checkStmt]
    exact .after alike_recordReturn fun _ => .stmt
  | .ret (some e) span =>
    rw [Surface.Stmt.declared] at hnames
    rw [checkStmt]
    refine .after ends_requireFunction fun _ => .after ends_currentReturn fun hint => ?_
    refine (makes_checkExpr hnames).next fun _ => ?_
    exact .after alike_recordReturn fun _ => .stmt
  | .whileDo cond body _ =>
    rw [Surface.Stmt.declared, ordinaryAll_append] at hnames
    rw [checkStmt]
    refine (Makes.expecting fun _ => makes_checkExpr hnames.1).next fun _ => ?_
    exact (makes_checkBlock hnames.2).next fun _ => .stmt
  | .forEach name iterable body span =>
    rw [Surface.Stmt.declared, List.cons_append, ordinaryAll_cons, ordinaryAll_append] at hnames
    rw [checkStmt]
    refine (makes_checkExpr hnames.2.1).next fun _ => ?_
    refine .after ends_resolve fun _ => .after ends_elementOf fun _ => ?_
    exact (makes_loop hnames.1 (makes_checkBlock hnames.2.2)).next fun _ => .stmt
  | .eval e _ =>
    rw [Surface.Stmt.declared] at hnames
    rw [checkStmt]
    exact (makes_checkExpr hnames).next fun _ => .stmt

theorem makes_checkFunc {room : Nat} {sig : Signature} (hsig : OrdinaryGenerics sig.generics)
    {decl : Surface.FuncDecl} (hnames : OrdinaryAll decl.declared) :
    Makes (checkFunc room sig decl) fun r => .expr ⟨.func r.1, .void⟩ := by
  match decl with
  | ⟨name, generics, params, ret, body, span⟩ =>
    rw [Surface.FuncDecl.declared, ordinaryAll_append, ordinaryAll_append] at hnames
    rw [checkFunc]
    refine Makes.next (.inFunctionFrame Prod.fst
      (fun a : List BindingId × Core.Block × List (Nat × Ty) => a.2.1) ?_) fun _ =>
      .imp .pure fun h => h.conv .rename
    refine (bindsIds_bindTracers hsig).next fun _ => ?_
    refine (bindsIds_bindParams hnames.1.2).next fun _ => .after ends_typeFor? fun _ => ?_
    exact .bind (writes_checkBody hnames.2).body fun _ => .pure

theorem makes_checkMethods {room : Nat} {impl : Impl} (done : Assoc String Core.Expr)
    {methods : List Surface.FuncDecl} (hnames : OrdinaryAll (declaredFuncs methods)) :
    ComesTo (checkMethods room impl done methods) (fun out => MadeExpr (.exprs out.values))
      (MadeExpr (.exprs done.values)) := by
  match methods with
  | [] =>
    rw [checkMethods]
    exact .pure
  | method :: rest =>
    rw [declaredFuncs, ordinaryAll_append] at hnames
    rw [checkMethods]
    split
    · exact .fail
    · refine .ensure fun hnew => .after ends_methodType fun _ => ?_
      refine .bind_of (.quiet ends_declareSignature)
        (fun hs h => h.declareSignature hs.lawful (ordinary_of_func hnames.1).2) fun _ hsig => ?_
      refine (makes_checkFunc hsig hnames.1).next fun _ => ?_
      refine .after (.isolated (.bind ends_unify fun _ => ends_resolve)) fun _ => ?_
      exact .imp (makes_checkMethods _ hnames.2) fun h =>
        (h.conv (.append_left _ .retype)).conv (.insert_expr hnew)

theorem writes_checkBody {room : Nat} {declared : Option Ty} {body : Surface.Block}
    (hnames : OrdinaryAll body.declared) :
    Writes (checkBody room declared body) Core.Block.stmts := by
  match body with
  | ⟨stmts, span⟩ =>
    rw [Surface.Block.declared] at hnames
    rw [checkBody]
    exact .inFunction (.bind (writes_checkBodyStmts hnames) fun _ => comes_closeBody)

theorem writes_checkBodyStmts {room : Nat} {stmts : List Surface.Stmt}
    (hnames : OrdinaryAll (declaredStmts stmts)) : Writes (checkBodyStmts room stmts) Prod.fst := by
  match stmts with
  | [] =>
    rw [checkBodyStmts]
    exact .imp .pure fun h => .nil h.toMade
  | stmt :: rest =>
    rw [declaredStmts, ordinaryAll_append] at hnames
    refine checkBodyStmts_cons (P := fun x => Writes x Prod.fst) ?_ ?_
    · intro e span hstmt
      match stmt, hnames.1, hstmt with
      | .eval e span, hnames, rfl =>
        rw [Surface.Stmt.declared] at hnames
        refine .bind (Writes.inUnit (.after ends_currentReturn fun _ => ?_)) fun _ => .pure
        refine (makes_checkExpr hnames).next fun _ => ?_
        exact .after alike_recordReturn fun _ => comes_returning
    · refine .bind (Writes.inUnit (writes_checkStmt hnames.1)) fun _ => ?_
      exact (writes_checkBodyStmts hnames.2).next fun _ => .pure

end

theorem writes_checkUnits {room : Nat} {program : Surface.Program}
    (hnames : OrdinaryAll (declaredStmts program)) : Writes (checkUnits room program) id := by
  induction program with
  | nil => exact .nil
  | cons stmt rest ih =>
    rw [declaredStmts, ordinaryAll_append] at hnames
    refine .bind (Writes.inUnit (writes_checkStmt hnames.1)) fun _ => ?_
    exact (ih hnames.2).next fun _ => .pure

/-! The state before the first statement. -/

/-- Only what is built in is bound, and dictionaries are built in. -/
structure Initial (s : Checker) : Prop where
  below : s.scope.below = []
  upvalues : s.scope.top.upvalues = none
  values : ∀ {name value}, s.scope.top.values.find? name = some value →
    (∃ op, value.kind = .builtin op) ∧ ¬Reserved name
  types : s.scope.top.NamesTypes
  evidence : ∀ {con bound e}, s.registry.lookup con bound = some e →
    ∃ bound' ty, e = .intrinsic bound' ty
  traits : ∀ {name decl}, s.registry.trait? name = some decl → decl.name = name ∧ Ordinary name

theorem ordinary_types : ∀ name ∈ Prelude.types, Ordinary name := by decide

theorem ordinary_traits : ∀ trait ∈ Prelude.traits, Ordinary trait.1 := by decide

theorem not_reserved_genericFuncs : ∀ f ∈ Prelude.genericFuncs, ¬Reserved f.name := by decide

theorem not_reserved_plainFuncs : ∀ f ∈ Prelude.plainFuncs, ¬Reserved f.1 := by decide

namespace Initial

variable {s s' : Checker}
variable {a : Unit}

theorem new (options : Options) : Initial (new options) where
  below := rfl
  upvalues := rfl
  values := fun h => nomatch h
  types := fun _ _ h => nomatch h
  evidence := fun h => nomatch h
  traits := fun h => nomatch h

/-- No function is open yet, and no binder. -/
theorem coherent (h : Initial s) : Coherent [] ∅ s := by
  have hframes : s.scope.frames = [s.scope.top] := by rw [Scope.frames, h.below]
  refine ⟨fun id hid => absurd hid (Set.notMem_empty id), List.forall_mem_nil _, ⟨?_, ?_⟩, ?_, ?_,
    ?_, h.traits⟩
  · rw [hframes, Frame.functionDepths, h.upvalues]
    rfl
  · rw [hframes, Frame.tables, List.filterMap_cons, h.upvalues]
    trivial
  · intro name value depth hbinds
    rw [hframes] at hbinds
    rcases hbinds with ⟨_, hfind⟩ | hbinds
    · obtain ⟨⟨op, hop⟩, hname⟩ := h.values hfind
      refine ⟨?_, ?_, fun hreserved => absurd hreserved hname⟩
      · intro id hid
        rw [hop] at hid
        cases hid
      · intro bound index hmethod
        rw [hop] at hmethod
        cases hmethod
    · cases hbinds
  · intro frame hframe
    rw [hframes] at hframe
    obtain rfl := Option.some.inj hframe
    exact h.types
  · intro con bound name id hlookup
    obtain ⟨_, _, he⟩ := h.evidence hlookup
    cases he

theorem alike (h : Initial s) (hs : Alike s s') : Initial s' := by
  obtain ⟨hscope, hregistry⟩ := hs
  constructor
  · rw [hscope]
    exact h.below
  · rw [hscope]
    exact h.upvalues
  · rw [hscope]
    exact h.values
  · rw [hscope]
    exact h.types
  · rw [hregistry]
    exact h.evidence
  · rw [hregistry]
    exact h.traits

theorem bindType (h : Initial s) {name n : String} {ty : Ty} (hty : ty.con? = some (.named n))
    (hn : Ordinary n) : Initial { s with scope := s.scope.bindType name ty } := by
  exact ⟨h.below, h.upvalues, h.values, Assoc.forall_insert ⟨n, hty, hn⟩ h.types, h.evidence,
    h.traits⟩

theorem bindValue (h : Initial s) {name : String} (hname : ¬Reserved name) {value : Value} {op : Op}
    (hop : value.kind = .builtin op) :
    Initial { s with scope := s.scope.bindValue name value } := by
  exact ⟨h.below, h.upvalues, Assoc.forall_insert ⟨⟨op, hop⟩, hname⟩ (fun _ _ => h.values) _ _,
    h.types, h.evidence, h.traits⟩

/-- Built-in traits come with built-in evidence. -/
theorem addTrait (h : Initial s) (trait : Trait × List String) (hname : Ordinary trait.1) :
    Initial (Prelude.addTrait s trait) := by
  obtain ⟨name, types⟩ := trait
  refine ⟨h.below, h.upvalues, h.values, h.types, ?_, ?_⟩
  · have hfold : ∀ (types : List String) (evidence : Assoc (Con × Trait) Evidence),
        (∀ key e, evidence.find? key = some e → ∃ bound ty, e = .intrinsic bound ty) →
        ∀ key e, (types.foldl (fun evidence ty =>
          evidence.insert (.named ty, name) (.intrinsic name ty)) evidence).find? key = some e →
            ∃ bound ty, e = .intrinsic bound ty := by
      intro types
      induction types with
      | nil => exact fun evidence hevidence => hevidence
      | cons ty rest ih =>
        exact fun evidence hevidence => ih _ (Assoc.forall_insert ⟨name, ty, rfl⟩ hevidence)
    intro con bound e hlookup
    exact hfold types s.registry.evidence (fun _ e he => h.evidence he) (con, bound) e hlookup
  · intro name' decl hfind
    exact Assoc.forall_insert ⟨rfl, hname⟩ (fun _ _ => h.traits) name' decl hfind

theorem installed (h : Initial s) : Initial { s with preludeInstalled := true } :=
  h.alike ⟨rfl, rfl⟩

theorem addGenericFunc (h : Initial s) (f : Prelude.GenericFunc) (hname : ¬Reserved f.name) :
    Initial (Prelude.addGenericFunc s f) := by
  have hunifier : Initial { s with unifier := (s.unifier.freshVar "T" (.singleton f.bound)).2 } :=
    h.alike ⟨rfl, rfl⟩
  exact hunifier.bindValue hname rfl

theorem addPlainFunc (h : Initial s) (f : String × Op × Ty) (hname : ¬Reserved f.1) :
    Initial (Prelude.addPlainFunc s f) :=
  h.bindValue hname rfl

theorem install (h : Initial s) : Initial (Prelude.install s) := by
  have htypes := List.foldlRecOn (motive := Initial) Prelude.types Prelude.addType h
    fun s hs name hname => hs.bindType rfl (ordinary_types name hname)
  have htraits := List.foldlRecOn (motive := Initial) Prelude.traits Prelude.addTrait htypes
    fun s hs trait htrait => hs.addTrait trait (ordinary_traits trait htrait)
  have hgeneric := List.foldlRecOn (motive := Initial) Prelude.genericFuncs Prelude.addGenericFunc
    htraits fun _ hs f hf => hs.addGenericFunc f (not_reserved_genericFuncs f hf)
  have hplain := List.foldlRecOn (motive := Initial) Prelude.plainFuncs Prelude.addPlainFunc
    hgeneric fun _ hs f hf => hs.addPlainFunc f (not_reserved_plainFuncs f hf)
  unfold Prelude.install
  exact hplain.installed

theorem preparePrelude (h : Initial s) (hrun : Yields preparePrelude s a s') : Initial s' := by
  rw [hrun.modify]
  split
  · exact h.install
  · exact h

theorem declareAdt (h : Initial s) {name : Name} (hname : Ordinary name.text)
    {generics : List Surface.GenericParam} (hrun : Yields (declareAdt name generics) s a s') :
    Initial s' := by
  replace hrun := hrun.get_bind
  obtain ⟨_, hrun⟩ := hrun.ensure_bind
  obtain ⟨declared, s3, h3, hrun⟩ := hrun.bind
  obtain ⟨_, s4, h4, hrun⟩ := hrun.bind
  obtain rfl := h4.modify
  rw [hrun.modify]
  have hquiet := h.alike (ends_declareGenerics.alike h3)
  exact (hquiet.bindType rfl hname).alike ⟨rfl, rfl⟩

/-- The names of structs and enums are known before the first statement. -/
theorem declareAdts (h : Initial s) {program : Surface.Program}
    (hnames : OrdinaryAll (declaredStmts program)) (hrun : Yields (declareAdts program) s a s') :
    Initial s' := by
  induction program generalizing s with
  | nil =>
    rw [← hrun.pure.2]
    exact h
  | cons stmt rest ih =>
    rw [declaredStmts, ordinaryAll_append] at hnames
    cases stmt with
    | struct name generics fields span =>
      obtain ⟨_, s1, h1, hrun⟩ := hrun.bind
      rw [Surface.Stmt.declared, ordinaryAll_cons] at hnames
      exact ih (h.declareAdt hnames.1.1 h1) hnames.2 hrun
    | enum name generics tags span =>
      obtain ⟨_, s1, h1, hrun⟩ := hrun.bind
      rw [Surface.Stmt.declared, ordinaryAll_cons] at hnames
      exact ih (h.declareAdt hnames.1.1 h1) hnames.2 hrun
    | _ => exact ih h hnames.2 hrun

end Initial

/-! Whole programs. -/

variable {core : List Core.Stmt}

/-- What a fresh checker makes of a program is closed, and all functions in it
are exact. -/
theorem madeStmts_check {options : Options} {program : Surface.Program} {s' : Checker}
    (hnames : OrdinaryAll (Surface.declared program))
    (h : check (new options) program = (.ok core, s')) : ∃ s, MadeStmts core [] ∅ s s' := by
  have hrun : Yields (checkProgram program) (new options) core s' := h
  obtain ⟨_, s1, h1, hrun⟩ := hrun.bind
  obtain ⟨_, s2, h2, hrun⟩ := hrun.bind
  replace hrun := hrun.get_bind
  have hinitial := ((Initial.new options).preparePrelude h1).declareAdts hnames h2
  exact ⟨s2, (writes_checkUnits hnames).run hinitial.coherent.stay hrun⟩

/-- The functions of a program are found by the walk over its expressions. -/
theorem exact_of_mem_functions (h : Core.Exact (Core.walkStmts core)) {func : Core.FuncExpr}
    (hfunc : func ∈ Core.functions core) : func.Exact := by
  obtain ⟨e, he, hkind⟩ := List.mem_filterMap.mp hfunc
  split at hkind
  · rename_i func' hfunc'
    cases hkind
    exact h e he func hfunc'
  · cases hkind

/-- A program whose check succeeds on a fresh checker is closed: every
identifier refers to a binder that is visible where it stands, and so does
every capture of a function. Each function captures an id once, and captures
just the ids that are free in its body and are not its parameters. -/
theorem check_captures_exact {options : Options} {program : Surface.Program}
    {core : List Core.Stmt} {s' : Checker} (hnames : OrdinaryAll (Surface.declared program))
    (h : check (new options) program = (.ok core, s')) :
    Core.ScopedStmts [] core ∧ ∀ func ∈ Core.functions core,
      func.captured.Nodup ∧ (∀ id, id ∈ func.captured ↔ id ∈ func.body.free ∧ id ∉ func.params) ∧
        ∀ capture ∈ func.captures, capture.value.kind = .ident capture.binding := by
  obtain ⟨s, hmade⟩ := madeStmts_check hnames h
  have hclosed : ∀ id ∈ Core.freeStmts core, id ∈ ([] : List BindingId) :=
    fun id hid => absurd (hmade.made.visible id hid) (Set.notMem_empty id)
  refine ⟨Core.scoped_stmts core hclosed hmade.made.exact, ?_⟩
  intro func hfunc
  have hexact := exact_of_mem_functions hmade.made.exact hfunc
  exact ⟨hexact.nodup, hexact.mem_iff, fun _ _ => rfl⟩

/-- A generic function around one that uses a global value, the parameter and
its dictionary. -/
def echo : Surface.Program :=
  [.bind (.name ⟨"z", .dummy⟩) none (.int 1 .dummy) .dummy,
   .func ⟨⟨"outer", .dummy⟩, [⟨⟨"T", .dummy⟩, [⟨"Show", .dummy⟩]⟩],
     [⟨⟨"x", .dummy⟩, .ident "T" [] .dummy⟩], some (.ident "String" [] .dummy),
     ⟨[.func ⟨⟨"inner", .dummy⟩, [], [], some (.ident "String" [] .dummy),
         ⟨[.eval (.call (.ident "print_int" .dummy) [.ident "z" .dummy] .dummy) .dummy,
           .eval (.call (.ident "show" .dummy) [.ident "x" .dummy] .dummy) .dummy], .dummy⟩,
         .dummy⟩,
       .eval (.call (.ident "inner" .dummy) [] .dummy) .dummy], .dummy⟩, .dummy⟩]

theorem captured_echo : (check (new {}) echo).1.toOption.map
    (fun core => (Core.functions core).map (·.captured)) = some [[0], [0, 3, 2]] := by
  decide +kernel

/-- The inner function captures the global value, the parameter and its
dictionary. Of these the outer function captures the first. -/
theorem check_captures_exact_echo :
    OrdinaryAll (Surface.declared echo) ∧ ∃ core s', check (new {}) echo = (.ok core, s') ∧
      (Core.functions core).map (·.captured) = [[0], [0, 3, 2]] ∧
      Core.ScopedStmts [] core ∧ ∀ func ∈ Core.functions core, func.captured.Nodup ∧
          (∀ id, id ∈ func.captured ↔ id ∈ func.body.free ∧ id ∉ func.params) ∧
          ∀ capture ∈ func.captures, capture.value.kind = .ident capture.binding := by
  have hnames : OrdinaryAll (Surface.declared echo) := by decide
  refine ⟨hnames, ?_⟩
  have hcaptured := captured_echo
  cases hrun : check (new {}) echo with
  | mk r s' =>
    rw [hrun] at hcaptured
    cases r with
    | error e => cases hcaptured
    | ok core =>
      exact ⟨core, s', rfl, Option.some.inj hcaptured, check_captures_exact hnames hrun⟩

end TraitCheck.Checker
