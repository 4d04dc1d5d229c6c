import TraitCheck.Proofs.BuiltIns
import TraitCheck.Proofs.MethodSlots

/-!
Operators. Each is a call of the built-in function that has its symbol for a name,
and the symbol is looked up like every other name. It has characters that no word
has, except for negation, whose symbol is a word. So an operator stands for its
built-in operation wherever it is written and whatever is bound around it, and so
does a negation unless that word is bound.
-/

namespace TraitCheck

/-- There is a built-in function with the name and the operation, over a type that
implements the traits. -/
def Prelude.HasFunc (symbol : String) (op : Op) (bounds : List Trait) : Prop :=
  (∃ f ∈ genericFuncs, f.name = symbol ∧ f.op = op ∧ bounds = [f.bound]) ∨
    ∃ f ∈ plainFuncs, f.1 = symbol ∧ f.2.1 = op ∧ bounds = []

instance (symbol : String) (op : Op) (bounds : List Trait) :
    Decidable (Prelude.HasFunc symbol op bounds) :=
  inferInstanceAs (Decidable ((∃ f ∈ Prelude.genericFuncs, _) ∨ ∃ f ∈ Prelude.plainFuncs, _))

namespace Surface

def BinOp.op : BinOp → Op
  | add => .add
  | sub => .sub
  | mul => .mul
  | div => .div
  | rem => .rem
  | lt => .lt
  | gt => .gt
  | le => .le
  | ge => .ge
  | eq => .eq
  | ne => .ne
  | and => .and
  | or => .or

def UnOp.op : UnOp → Op
  | not => .not
  | neg => .neg

/-- The traits that the type of the operands has to implement. -/
def BinOp.bounds : BinOp → List Trait
  | eq | ne => ["Eq"]
  | and | or => []
  | _ => ["Num"]

def UnOp.bounds : UnOp → List Trait
  | not => []
  | neg => ["Num"]

/-- An operator with its operands. -/
structure Operation where
  symbol : String
  op : Op
  bounds : List Trait
  operands : List Expr

def Expr.operation? : Expr → Option Operation
  | .binary op lhs rhs _ => some ⟨op.symbol, op.op, op.bounds, [lhs, rhs]⟩
  | .unary op operand _ => some ⟨op.symbol, op.op, op.bounds, [operand]⟩
  | _ => none

def operatorChars : List Char := ['+', '-', '*', '/', '%', '<', '>', '=', '!', '&', '|']

/-- A name without the characters of operators. -/
def Word (name : String) : Prop := ∀ c ∈ name.toList, c ∉ operatorChars

instance (name : String) : Decidable (Word name) := List.decidableBAll _ _

theorem BinOp.hasFunc (op : BinOp) : Prelude.HasFunc op.symbol op.op op.bounds := by
  cases op <;> decide

theorem UnOp.hasFunc (op : UnOp) : Prelude.HasFunc op.symbol op.op op.bounds := by
  cases op <;> decide

theorem BinOp.symbol_no_word (op : BinOp) : ¬Reserved op.symbol ∧ ¬Word op.symbol := by
  cases op <;> decide

theorem UnOp.symbol_word (op : UnOp) :
    ¬Reserved op.symbol ∧ (Word op.symbol → op.symbol = "neg" ∧ op.op = .neg) := by
  cases op <;> decide

variable {e : Expr} {o : Operation}

/-- Only the symbol of negation is a word, and no symbol is the name of a dictionary. -/
theorem symbol_of_operation (h : e.operation? = some o) :
    ¬Reserved o.symbol ∧ (Word o.symbol → o.symbol = "neg" ∧ o.op = .neg) := by
  cases e with
  | binary op lhs rhs span =>
    cases h
    exact ⟨op.symbol_no_word.1, fun hword => absurd hword op.symbol_no_word.2⟩
  | unary op operand span =>
    cases h
    exact op.symbol_word
  | _ => cases h

theorem symbol_notMem {names : List String} (h : e.operation? = some o)
    (hwords : ∀ name ∈ names, Word name) (hneg : o.op = .neg → "neg" ∉ names) :
    o.symbol ∉ names := by
  intro hmem
  obtain ⟨hsymbol, hop⟩ := (symbol_of_operation h).2 (hwords _ hmem)
  exact hneg hop (hsymbol ▸ hmem)

end Surface

namespace Checker

open Surface (Expr Operation Stmt Program Word symbol_of_operation symbol_notMem)

variable {s s' : Checker} {name : String} {room : Nat} {span : Span} {stmt : Stmt}
variable {e : Expr} {o : Operation} {node : Core.Expr}

/-- The symbol stands for the built-in operation. -/
def Denotes (s : Checker) (o : Operation) : Prop :=
  ∃ value var params ret, s.scope.peek? o.symbol = some value ∧ value.kind = .builtin o.op ∧
    value.ty = .funcWith (o.bounds.map fun bound => ⟨.var var, bound⟩) params ret

/-- The expression applies the operation to what its operands are checked to. Before
them it passes a dictionary for each trait that the operation asks for. -/
def Operates (s : Checker) (o : Operation) (node : Core.Expr) : Prop :=
  ∃ dicts args ty, node.kind = .builtin o.op (dicts ++ args) ∧
    dicts.map (·.ty) = o.bounds.map (dictionaryType · ty) ∧
      List.Forall₂ (fun operand arg => ∃ s₁, Rebinds [] s s₁ ∧ Lowers s₁ operand arg)
        o.operands args

theorem Operates.mapTy (h : Operates s o node) {f : Ty → Ty} (hf : Ty.Hom f) :
    Operates s o (node.mapTy f) := by
  obtain ⟨dicts, args, ty, hkind, hdicts, hargs⟩ := h
  refine ⟨dicts.map (Core.Expr.mapTy f), args.map (Core.Expr.mapTy f), f ty, ?_, ?_, ?_⟩
  · obtain ⟨kind, _⟩ := node
    obtain rfl : kind = _ := hkind
    rw [← List.map_append, ← Core.mapTyExprs_eq_map]
    rfl
  · have hmapped := congrArg (List.map f) hdicts
    simp only [List.map_map, Function.comp_def, hf.dictionaryType, Core.Expr.mapTy_ty]
      at hmapped ⊢
    exact hmapped
  · rw [List.forall₂_map_right_iff]
    refine hargs.imp fun _ _ harg => ?_
    obtain ⟨s1, hrebinds, hlowers⟩ := harg
    exact ⟨s1, hrebinds, hlowers.mapTy hf⟩

/-! One operator. -/

theorem lowers_of_expecting {s0 : Checker} (hstays : Stays s0 s) {expected : Ty} {v : Core.Expr}
    (h : Yields (expecting expected span fun hint => checkExpr room hint e) s v s') :
    ∃ s1, Rebinds [] s0 s1 ∧ Lowers s1 e v := by
  obtain ⟨hint, s1, h1, h⟩ := h.bind
  obtain ⟨value, s2, h2, h⟩ := h.bind
  obtain ⟨_, s3, _, h⟩ := h.bind
  obtain ⟨rfl, _⟩ := h.pure
  exact ⟨s1, (trans_of Stays hstays (ends_resolve.yields h1)).lift, h2.lowers⟩

/-- A call of the symbol with the operands applies the operation. -/
theorem Denotes.operates (h : Denotes s o) {callee : Callee × Ty} {shape : FuncShape}
    {args : List Core.Expr} {s1 s2 s3 : Checker}
    (hcallee : Yields (namedCallee o.symbol span) s callee s1)
    (hshape : Yields (openCall callee.2 span) s1 shape s2)
    (hargs : List.Forall₂ (fun operand arg => ∃ s1, Rebinds [] s s1 ∧ Lowers s1 operand arg)
      o.operands args)
    (hnode : Yields (closeCall callee.1 shape args span) s3 node s') : Operates s o node := by
  obtain ⟨value, var, params, ret, hvalue, hkind, hty⟩ := h
  obtain ⟨htype, hbuiltin, _⟩ := callee_of_named hcallee hvalue
  have hfunc := hshape.openCall
  rw [htype, hty, (Ty.hom_substitute _).funcWith, (Unifier.hom_resolved _).funcWith,
    Ty.asFunc?_funcWith] at hfunc
  obtain rfl := Option.some.inj hfunc
  obtain ⟨dicts, s4, hdicts, hnode⟩ := applied_of_closeCall hnode
  rw [hbuiltin o.op hkind] at hnode
  obtain ⟨rfl, _⟩ := hnode.pure
  refine ⟨dicts, args, s3.unifier.resolve (s1.unifier.resolve ((Ty.var var).substitute
    (Subst.relabelling s.unifier.next value.generics))), rfl, ?_, hargs⟩
  rw [hdicts, List.map_map, List.map_map, List.map_map]
  rfl

theorem Denotes.operates_of_checkExpr (h : Denotes s o) (ho : e.operation? = some o)
    {hint : Option Ty} (hrun : Yields (checkExpr room hint e) s node s') : Operates s o node := by
  cases room with
  | zero =>
    rw [checkExpr] at hrun
    obtain ⟨_, _, _, hrun⟩ := hrun.bind
    exact hrun.fail.elim
  | succ room =>
    cases e with
    | binary op lhs rhs span =>
      cases ho
      rw [checkExpr] at hrun
      obtain ⟨callee, s1, h1, hrun⟩ := hrun.bind
      obtain ⟨shape, s2, h2, hrun⟩ := hrun.bind
      have hstays := trans_of Stays (stays_namedCallee.yields h1) (ends_openCall.yields h2)
      split at hrun
      · obtain ⟨l, s3, h3, hrun⟩ := hrun.bind
        obtain ⟨r, s4, h4, hrun⟩ := hrun.bind
        have hstays' := trans_of Stays hstays
          ((ends_expecting fun _ => stays_checkExpr).yields h3)
        exact h.operates h1 h2 (.cons (lowers_of_expecting hstays h3)
          (.cons (lowers_of_expecting hstays' h4) .nil)) hrun
      · exact hrun.fail.elim
    | unary op operand span =>
      cases ho
      rw [checkExpr] at hrun
      obtain ⟨callee, s1, h1, hrun⟩ := hrun.bind
      obtain ⟨shape, s2, h2, hrun⟩ := hrun.bind
      have hstays := trans_of Stays (stays_namedCallee.yields h1) (ends_openCall.yields h2)
      split at hrun
      · obtain ⟨value, s3, h3, hrun⟩ := hrun.bind
        exact h.operates h1 h2 (.cons (lowers_of_expecting hstays h3) .nil) hrun
      · exact hrun.fail.elim
    | _ => cases ho

/-! What is built in. -/

/-- Of values that are bound one after the other under different names each stays. -/
theorem peek?_foldl {α : Type} {add : Checker → α → Checker} {key : α → String}
    {P : α → Value → Prop} (hadd : ∀ s a, ∃ value, P a value ∧ ∀ other,
      (add s a).scope.peek? other = if other = key a then some value else s.scope.peek? other)
    {as : List α} (hnodup : (as.map key).Nodup) (s : Checker) :
    (∀ a ∈ as, ∃ value, (as.foldl add s).scope.peek? (key a) = some value ∧ P a value) ∧
      ∀ other, other ∉ as.map key → (as.foldl add s).scope.peek? other = s.scope.peek? other := by
  induction as generalizing s with
  | nil => exact ⟨nofun, fun _ _ => rfl⟩
  | cons a rest ih =>
    obtain ⟨hkey, hnodup⟩ := List.nodup_cons.mp hnodup
    obtain ⟨hrest, hothers⟩ := ih hnodup (add s a)
    obtain ⟨value, hvalue, hpeek⟩ := hadd s a
    refine ⟨List.forall_mem_cons.mpr ⟨⟨value, ?_, hvalue⟩, hrest⟩, fun other hother => ?_⟩
    · exact (hothers (key a) hkey).trans ((hpeek (key a)).trans (if_pos rfl))
    · obtain ⟨hne, hmem⟩ := not_or.mp (mt List.mem_cons.mpr hother)
      exact (hothers other hmem).trans ((hpeek other).trans (if_neg hne))

theorem peek?_addGenericFuncs (s : Checker) : ∀ f ∈ Prelude.genericFuncs, ∃ value,
      (Prelude.genericFuncs.foldl Prelude.addGenericFunc s).scope.peek? f.name = some value ∧
        value.kind = .builtin f.op ∧ ∃ var, value.ty = f.ty var :=
  (peek?_foldl (fun s f => ⟨_, ⟨rfl, _, rfl⟩, s.scope.peek?_bindValue f.name _⟩) (by decide) s).1

theorem peek?_addPlainFuncs (s : Checker) : (∀ f ∈ Prelude.plainFuncs, ∃ value,
      (Prelude.plainFuncs.foldl Prelude.addPlainFunc s).scope.peek? f.1 = some value ∧
        value.kind = .builtin f.2.1 ∧ value.ty = f.2.2) ∧
      ∀ other, other ∉ Prelude.plainFuncs.map Prod.fst →
        (Prelude.plainFuncs.foldl Prelude.addPlainFunc s).scope.peek? other = s.scope.peek? other :=
  peek?_foldl (fun s f => ⟨_, ⟨rfl, rfl⟩, s.scope.peek?_bindValue f.1 _⟩) (by decide) s

theorem denotes_install (ho : e.operation? = some o) (s : Checker) :
    Denotes (Prelude.install s) o := by
  have hfunc : Prelude.HasFunc o.symbol o.op o.bounds := by
    cases e with
    | binary op lhs rhs span =>
      cases ho
      exact op.hasFunc
    | unary op operand span =>
      cases ho
      exact op.hasFunc
    | _ => cases ho
  have hscope : (Prelude.install s).scope = (Prelude.plainFuncs.foldl Prelude.addPlainFunc
      (Prelude.genericFuncs.foldl Prelude.addGenericFunc (Prelude.traits.foldl Prelude.addTrait
        (Prelude.types.foldl Prelude.addType s)))).scope := rfl
  generalize Prelude.traits.foldl Prelude.addTrait (Prelude.types.foldl Prelude.addType s) = s0
    at hscope
  obtain ⟨symbol, op, bounds, operands⟩ := o
  rw [Denotes, hscope]
  rcases hfunc with ⟨f, hf, rfl, rfl, rfl⟩ | ⟨f, hf, rfl, rfl, rfl⟩
  · have hplain : ∀ f ∈ Prelude.genericFuncs, f.name ∉ Prelude.plainFuncs.map Prod.fst := by
      decide
    obtain ⟨value, hvalue, hkind, var, hty⟩ := peek?_addGenericFuncs s0 f hf
    refine ⟨value, var, _, _, ?_, hkind, hty⟩
    exact ((peek?_addPlainFuncs _).2 f.name (hplain f hf)).trans hvalue
  · obtain ⟨value, hvalue, hkind, hty⟩ :=
      (peek?_addPlainFuncs (Prelude.genericFuncs.foldl Prelude.addGenericFunc s0)).1 f hf
    obtain ⟨params, ret, htype⟩ := Prelude.func_plainFunc hf
    exact ⟨value, ⟨0, "", ∅⟩, params, ret, hvalue, hkind, hty.trans htype⟩

/-! Names that a program does not bind. -/

/-- The name stands for the same in both states. -/
def KeepsName (name : String) (s s' : Checker) : Prop :=
  s'.scope.peek? name = s.scope.peek? name

instance : StaysClosed (KeepsName name) where
  refl := fun _ => rfl
  trans := fun _ _ _ h h' => h'.trans h
  stays := fun h => Scope.peek?_congr h.frames name

theorem keepsName_declareTrait {trait : Name} {methods : List Surface.MethodSig}
    (hname : name ∉ methods.map (·.name.text)) :
    Ends (KeepsName name) (declareTrait trait methods) := by
  refine .bind .get fun _ => .bind (.ensure rfl) fun _ =>
    .bind ends_fresh fun selfVar => .of_rel fun s => ?_
  refine Ends.rel_bind ((ends_traitMethods trait.text selfVar methods).rel s) fun table s1 h1 => ?_
  -- the names of the methods are those that are written
  obtain ⟨s2, hbody, _⟩ := h1.inScope
  obtain ⟨_, s3, _, hbody⟩ := hbody.bind
  obtain ⟨more, hentries, hreads⟩ := readsAs_addMethods hbody
  obtain rfl : table.entries = more := hentries
  have hkeys : ∀ {sigs entries}, List.Forall₂ (ReadsAs s3.scope s3.adts ⟨.var selfVar, trait.text⟩)
      sigs entries → entries.map Prod.fst = sigs.map (·.name.text) := by
    intro sigs entries hreads
    induction hreads with
    | nil => rfl
    | cons hread _ ih => rw [List.map_cons, List.map_cons, ih, hread.1]
  rw [← hkeys hreads] at hname
  have hdeclare : ∀ registry, Ends (KeepsName name)
      (modify fun s : Checker => { s with registry }) := fun registry => .modify fun _ => rfl
  have hmethod : ∀ method ∈ table.entries, ∀ s value,
      KeepsName name s { s with scope := s.scope.bindValue method.1 value } := by
    intro method hmem s value
    refine (s.scope.peek?_bindValue method.1 value name).trans (if_neg fun heq => hname ?_)
    exact heq ▸ List.mem_map_of_mem hmem
  exact (EndsIn.bind .get fun _ => .bind ends_declare fun registry => .bind (hdeclare registry) fun _ =>
    ends_bindMethods hmethod).rel s1

theorem keepsName_checkStmt (hreserved : ¬TraitCheck.Reserved name) (hname : name ∉ stmt.binds) :
    Ends (KeepsName name) (checkStmt room stmt) := by
  cases htrait : stmt.trait? with
  | none => exact (rebinds_checkStmt htrait).imp fun h => h.same name hname hreserved
  | some _ =>
    cases stmt with
    | trait trait methods span =>
      rw [checkStmt]
      exact .bind ends_requireTopLevel fun _ =>
        .bind (keepsName_declareTrait hname) fun _ => .pure
    | _ => cases htrait

theorem keepsName_checkUnits {program : Program} (hreserved : ¬TraitCheck.Reserved name)
    (hname : name ∉ program.flatMap Stmt.binds) : Ends (KeepsName name) (checkUnits room program) :=
  ends_checkUnits fun _ hstmt => keepsName_checkStmt hreserved fun hbinds =>
    hname (List.mem_flatMap_of_mem hstmt hbinds)

theorem keepsName_session (hreserved : ¬TraitCheck.Reserved name) {programs : List Program}
    (hname : name ∉ programs.flatten.flatMap Stmt.binds) {stmts : List Stmt}
    (htabled : Tabled stmts s.prepared) :
    KeepsName name s.prepared (s.session programs).2.prepared := by
  induction programs generalizing s stmts with
  | nil => exact rfl
  | cons program rest ih =>
    rw [List.flatten_cons, List.flatMap_append, List.mem_append, not_or] at hname
    have hcheck : KeepsName name s.prepared (s.check program).2 := by
      rw [check_prepared]
      have hadts : Ends (KeepsName name) (declareAdts program) :=
        (rebinds_declareAdts program).imp fun h => h.same name List.not_mem_nil hreserved
      exact (EndsIn.bind hadts fun _ => keepsName_checkUnits hreserved hname.1).rel _
    have htabled' := (htabled.check program).1
    rw [← htabled'.prepared_eq] at hcheck htabled'
    exact trans_of (KeepsName name) hcheck (ih hname.2 htabled')

/-! Programs that are accepted. -/

theorem Denotes.of_peek (h : Denotes s o) (hpeek : KeepsName o.symbol s s') : Denotes s' o := by
  obtain ⟨value, var, params, ret, hvalue, hfunc⟩ := h
  exact ⟨value, var, params, ret, hpeek.trans hvalue, hfunc⟩

/-- In a program that is accepted after any programs whatever, every operator with its
operands has become its built-in operation, applied to what the operands are checked
to, after a dictionary for each trait that the operation asks for. The names that the
statements before it and the parts of the statement around it bind have to be words,
and in the case of a negation none of them its symbol. -/
theorem check_operators_builtin (options : Options) (hprelude : options.prelude = true)
    (before : List Program) {pre post : Program} {stmt : Stmt} {out : List Core.Stmt}
    (h : (((new options).session before).2.check (pre ++ stmt :: post)).1 = .ok out) :
    ∃ first lowered rest s₁ s s', out = first ++ (lowered ++ rest) ∧
      Yields (declareAdts (pre ++ stmt :: post)) ((new options).session before).2.prepared () s₁ ∧
      Yields (checkUnits options.maxDepth pre) s₁ first s ∧
      Yields (inUnit (checkStmt options.maxDepth stmt)) s lowered s' ∧
      ∀ part ∈ stmt.parts [], ∀ o, part.expr.operation? = some o →
        (∀ name ∈ (before.flatten ++ pre).flatMap Stmt.binds ++ part.bound, Word name) →
        (o.op = .neg → "neg" ∉ (before.flatten ++ pre).flatMap Stmt.binds ++ part.bound) →
          ∃ s₀, Rebinds part.bound s s₀ ∧ ∃ node ∈ Core.walkStmts lowered,
            Lowers s₀ part.expr node ∧ Operates s₀ o node := by
  obtain ⟨first, lowered, rest, s₁, s, s', hout, hnames, hfirst, hstmt, _⟩ :=
    runs_of_check options before h
  refine ⟨first, lowered, rest, s₁, s, s', hout, hnames, hfirst, hstmt, ?_⟩
  intro part hpart o ho hwords hneg
  have hfits := (Shows.inUnit renders_checkStmt).holds (.refl [] s) False.elim hstmt
  obtain ⟨s₀, hrebinds, node, hnode, hlowers⟩ := hfits.renders part hpart
  have hsymbol := symbol_notMem ho hwords hneg
  rw [List.flatMap_append, List.mem_append, List.mem_append, not_or, not_or] at hsymbol
  obtain ⟨⟨hbefore, hpre⟩, hbound⟩ := hsymbol
  have hreserved := (symbol_of_operation ho).1
  have hstart : Denotes (new options).prepared o := by
    rw [prepared, new, hprelude]
    exact denotes_install ho _
  -- the symbol stands for the same from there to where the operator is checked
  have hsession := keepsName_session hreserved hbefore (tabled_new options)
  have hadts : KeepsName o.symbol _ s₁ :=
    ((rebinds_declareAdts _).yields hnames).same _ List.not_mem_nil hreserved
  have hunits := (keepsName_checkUnits hreserved hpre).yields hfirst
  have hinside : KeepsName o.symbol s s₀ := hrebinds.same _ hbound hreserved
  have hdenotes := (((hstart.of_peek hsession).of_peek hadts).of_peek hunits).of_peek hinside
  refine ⟨s₀, hrebinds, node, hnode, hlowers, ?_⟩
  obtain ⟨room, hint, checked, s₂, f, hrun, hf, rfl⟩ := hlowers
  exact (hdenotes.operates_of_checkExpr ho hrun).mapTy hf

/-- The sum of two names, negated. -/
def negatedSum : Expr :=
  .unary .neg (.binary .add (.ident "add" .dummy) (.ident "sub" .dummy) .dummy) .dummy

/-- A generic function that negates a sum, where names that sound like operations are
bound around it. -/
def soundalike : Stmt :=
  .func ⟨⟨"f", .dummy⟩, [⟨⟨"T", .dummy⟩, [⟨"Num", .dummy⟩]⟩],
    [⟨⟨"sub", .dummy⟩, .ident "T" [] .dummy⟩], some (.ident "T" [] .dummy),
    ⟨[.bind (.name ⟨"add", .dummy⟩) none (.ident "sub" .dummy) .dummy,
      .eval negatedSum .dummy], .dummy⟩, .dummy⟩

theorem check_operators_builtin_soundalike :
    let negate : Stmt := .func ⟨⟨"negate", .dummy⟩, [], [⟨⟨"x", .dummy⟩, .ident "Int" [] .dummy⟩],
      some (.ident "Int" [] .dummy), ⟨[.ret (some (.ident "x" .dummy)) .dummy], .dummy⟩, .dummy⟩
    ∃ out, ((new {}).check ([negate] ++ soundalike :: [])).1 = .ok out ∧
      ∃ node ∈ Core.walkStmts out, ∃ dicts args, node.kind = .builtin .neg (dicts ++ args) ∧
        dicts.length = 1 ∧ args.length = 1 := by
  intro negate
  obtain ⟨out, hout⟩ : ∃ out, ((new {}).check ([negate] ++ soundalike :: [])).1 = .ok out :=
    exists_ok (by decide +kernel)
  obtain ⟨first, lowered, rest, _, _, _, rfl, _, _, _, hparts⟩ :=
    check_operators_builtin {} rfl [] hout
  obtain ⟨_, _, node, hnode, _, dicts, args, ty, hkind, hdicts, hargs⟩ :=
    hparts ⟨["add", "sub", "f"], negatedSum⟩ (by
      simp [soundalike, negatedSum, Surface.Stmt.parts, Surface.FuncDecl.parts,
        Surface.Block.parts, Surface.partsOfStmts, Surface.Expr.parts, Surface.Expr.self,
        Surface.Stmt.binds, Surface.Pattern.declared]) _ rfl (by decide) (by decide)
  refine ⟨_, hout, node, ?_, dicts, args, hkind, ?_, hargs.length_eq.symm⟩
  · rw [Core.walkStmts_append, Core.walkStmts_append]
    exact List.mem_append_right _ (List.mem_append_left _ hnode)
  · rw [← List.length_map, hdicts]
    rfl

/-- The expression is a built-in operation. -/
def isBuiltin (e : Core.Expr) : Bool :=
  match e.kind with
  | .builtin _ _ => true
  | _ => false

/-- A function with the symbol of negation for its name is called in its place. -/
theorem negation_captured :
    let neg : Stmt := .func ⟨⟨"neg", .dummy⟩, [], [⟨⟨"x", .dummy⟩, .ident "Int" [] .dummy⟩],
      some (.ident "Int" [] .dummy), ⟨[.ret (some (.ident "x" .dummy)) .dummy], .dummy⟩, .dummy⟩
    let negation : Stmt := .eval (.unary .neg (.int 1 .dummy) .dummy) .dummy
    ((new {}).check [neg, negation]).1.toOption.map (fun out =>
      (Core.walkStmts out).any isBuiltin) = some false := by
  decide +kernel

end Checker

end TraitCheck
