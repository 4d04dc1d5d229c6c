import TraitCheck.Checker.Call
import TraitCheck.Checker.Data
import TraitCheck.Checker.Function
import TraitCheck.Checker.Implementation

/-!
The walk over a program. It follows the surface tree, so it ends. `room` is the
number of expressions that may still stand inside each other, and `hint` is the
type that the context expects: closures need it, all else only hands it on.
-/

namespace TraitCheck.Checker

open Surface (Expr FieldInit Branch Case Block Stmt FuncDecl)

mutual

def checkExpr (room : Nat) (hint : Option Ty) (e : Expr) : CheckM Core.Expr :=
  match room with
  | 0 => do
    let limit := (← get).options.maxDepth
    fail (.invalidContext (.nestingTooDeep limit)) e.span
  | room + 1 =>
    match e with
    | .int value _ => return ⟨.int value, .int⟩
    | .float bits _ => return ⟨.float bits, .float⟩
    | .bool value _ => return ⟨.bool value, .bool⟩
    | .string text _ => return ⟨.string text, .string⟩
    | .ident name span => reference name span
    | .tuple elems _ => do
      let hints ← tupleHints elems.length hint
      let fields ← checkElems room hints elems
      return ⟨.object none fields, .tuple (fields.map (·.ty))⟩
    | .array elems _ => do
      let itemHint ← arrayHint hint
      let var ← fresh "T" ∅
      let (fields, ty) ← checkItems room itemHint (.var var) elems
      return ⟨.object none fields, .array (← resolve ty) fields.length⟩
    | .construct ty tag inits span => do
      let adt ← lookupAdt ty
      let inst ← instantiateAdt adt
      let (index, fields) ← constructedFields adt tag span
      let supplied ← checkInits room inst fields ∅ inits
      match supplied.inOrder fields.keys with
      | .error field => fail (.missingField adt.name field) span
      | .ok values => return ⟨constructed index values, ← resolve inst.ty⟩
    | .field target field span => do
      let value ← checkExpr room none target
      select value field target.span span
    | .call callee args span => do
      let (target, ty) ← calleeOf callee (checkExpr room none callee)
      let shape ← openCall ty callee.span
      ensure (shape.params.length = args.length)
        (.arityMismatch "arguments" shape.params.length args.length) span
      let values ← checkArgs room shape.params args
      closeCall target shape values span
    | .binary op lhs rhs span => do
      let (target, ty) ← namedCallee op.symbol span
      let shape ← openCall ty span
      match shape.params with
      | [p, q] => do
        let l ← expecting p lhs.span fun hint => checkExpr room hint lhs
        let r ← expecting q rhs.span fun hint => checkExpr room hint rhs
        closeCall target shape [l, r] span
      | params => fail (.arityMismatch "arguments" params.length 2) span
    | .unary op operand span => do
      let (target, ty) ← namedCallee op.symbol span
      let shape ← openCall ty span
      match shape.params with
      | [p] => do
        let value ← expecting p operand.span fun hint => checkExpr room hint operand
        closeCall target shape [value] span
      | params => fail (.arityMismatch "arguments" params.length 1) span
    | .closure params body span => do
      let shape ← openClosure hint params.length span
      let types ← closureParams params shape.params
      let ret ← resolve shape.ret
      let declared := if ret.isVar then none else some ret
      let ((ids, block), upvalues) ← inFunctionFrame do
        let ids ← bindClosureParams params types
        let block ← checkBody room declared body
        pure (ids, block)
      let ret ← resolve (← unify body.span shape.ret block.ty)
      return ⟨.func ⟨none, captures upvalues, ids, block⟩, .func types ret⟩
    | .cond branches otherwise span => do
      let (checked, ty) ← checkBranches room hint none branches
      let (last, lastSpan) ← checkElse room hint span otherwise
      let ty ← resolve (← join lastSpan ty last.ty)
      return ⟨.cond checked last, ty⟩
    | .cases target cases span => do
      let value ← checkExpr room none target
      let ty ← resolve value.ty
      let (adt, tags) ← enumOf ty target.span
      let scrutinee ← freshBinding
      let (checked, result) ← checkCases room hint ⟨adt, tags, ty, scrutinee⟩ none ∅ cases
      match checked.inOrder tags.keys with
      | .error tag => fail (.incompleteMatch adt.name tag) span
      | .ok blocks => return ⟨.cases scrutinee value blocks, ← resolve (result.getD .void)⟩
    | .block body _ => do
      let block ← checkBlock room hint body
      return ⟨.block block, block.ty⟩
termination_by structural e

/-- The elements of a tuple, each with its own hint. -/
def checkElems (room : Nat) (hints : List Ty) (es : List Expr) : CheckM (List Core.Expr) :=
  match es with
  | [] => return []
  | e :: rest => do
    let value ← checkExpr room hints.head? e
    let values ← checkElems room hints.tail rest
    return value :: values
termination_by structural es

/-- The elements of an array, which all have the type `ty`. Once an element
shows it, that type is the hint for the others. -/
def checkItems (room : Nat) (hint : Option Ty) (ty : Ty) (es : List Expr) :
    CheckM (List Core.Expr × Ty) :=
  match es with
  | [] => return ([], ty)
  | e :: rest => do
    let known ← resolve ty
    let value ← checkExpr room (if known.isVar then hint else some known) e
    let ty ← unify e.span ty value.ty
    let (values, ty) ← checkItems room hint ty rest
    return (value :: values, ty)
termination_by structural es

def checkArgs (room : Nat) (params : List Ty) (es : List Expr) : CheckM (List Core.Expr) :=
  match es with
  | [] => return []
  | e :: rest =>
    match params with
    | [] => return []
    | param :: params => do
      let value ← expecting param e.span fun hint => checkExpr room hint e
      let values ← checkArgs room params rest
      return value :: values
termination_by structural es

/-- The supplied fields by name, each once. -/
def checkInits (room : Nat) (inst : Instance) (fields : Fields)
    (supplied : Assoc String Core.Expr) (inits : List FieldInit) :
    CheckM (Assoc String Core.Expr) :=
  match inits with
  | [] => return supplied
  | ⟨name, e⟩ :: rest => do
    match fields.find? name.text with
    | none => fail (.unknownField (← resolve inst.ty) name.text) name.span
    | some ty =>
      ensure (¬supplied.contains name.text) (.duplicateField name.text) name.span
      let value ← expecting (inst.fieldType ty) e.span fun hint => checkExpr room hint e
      checkInits room inst fields (supplied.insert name.text value) rest
termination_by structural inits

def checkBranches (room : Nat) (hint : Option Ty) (before : Option Ty)
    (branches : List Branch) : CheckM (List Core.Branch × Option Ty) :=
  match branches with
  | [] => return ([], before)
  | ⟨cond, body⟩ :: rest => do
    let test ← expecting .bool cond.span fun hint => checkExpr room hint cond
    let block ← checkBlock room hint body
    let ty ← join body.span before block.ty
    let (checked, result) ← checkBranches room hint (some ty) rest
    return (⟨test, block⟩ :: checked, result)
termination_by structural branches

/-- The last block of a conditional and its place. Without one the conditional
ends in nothing, at its own place. -/
def checkElse (room : Nat) (hint : Option Ty) (span : Span) (otherwise : Option Block) :
    CheckM (Core.Block × Span) :=
  match otherwise with
  | none => return (.empty, span)
  | some block => do
    let checked ← checkBlock room hint block
    return (checked, block.span)
termination_by structural otherwise

/-- The cases by tag, each once. -/
def checkCases (room : Nat) (hint : Option Ty) (m : Match) (before : Option Ty)
    (done : Assoc String Core.Block) (cases : List Case) :
    CheckM (Assoc String Core.Block × Option Ty) :=
  match cases with
  | [] => return (done, before)
  | ⟨tag, bindings, ⟨stmts, bodySpan⟩, span⟩ :: rest => do
    match m.tags.find? tag.text with
    | none => fail (.unknownCaseTag m.adt.name tag.text) tag.span
    | some fields =>
      ensure (¬done.contains tag.text) (.duplicateCase tag.text) span
      let block ← inScope do
        let lets ← bindCaseFields m fields [] bindings
        let body ← checkStmts room hint stmts
        pure (⟨lets ++ body.stmts, body.ty⟩ : Core.Block)
      let ty ← join bodySpan before block.ty
      checkCases room hint m (some ty) (done.insert tag.text block) rest
termination_by structural cases

def checkBlock (room : Nat) (hint : Option Ty) (block : Block) : CheckM Core.Block :=
  match block with
  | ⟨stmts, _⟩ => inScope (checkStmts room hint stmts)
termination_by structural block

/-- Statements in the current frame. A trailing expression gives the value. -/
def checkStmts (room : Nat) (hint : Option Ty) (stmts : List Stmt) : CheckM Core.Block :=
  match stmts with
  | [] => return .empty
  | [.eval e _] => do
    let value ← checkExpr room hint e
    return ⟨[.eval value], value.ty⟩
  | stmt :: rest => do
    let out ← checkStmt room stmt
    let block ← checkStmts room hint rest
    return ⟨out ++ block.stmts, block.ty⟩
termination_by structural stmts

def checkStmt (room : Nat) (stmt : Stmt) : CheckM (List Core.Stmt) :=
  match stmt with
  | .bind pattern written value _ => do
    let declared ← typeFor? written
    let checked ← checkExpr room declared value
    let ty ← resolve (← join value.span declared checked.ty)
    bindPattern pattern ty checked value.span
  | .func decl => do
    let sig ← declareSignature decl
    let id ← freshBinding
    bindValue decl.name.text
      { kind := .binding id, ty := sig.ty, generics := sig.generics.map (·.var) }
    let (func, ty) ← checkFunc room sig decl
    setValueType decl.name.text ty
    return [.bind id ⟨.func func, ty⟩]
  | .struct name _ fields span => do
    requireTopLevel "struct" span
    defineStruct name fields
    return []
  | .enum name _ tags span => do
    requireTopLevel "enum" span
    defineEnum name tags
    return []
  | .trait name methods span => do
    requireTopLevel "trait" span
    declareTrait name methods
    return []
  | .impl bound ty methods span => do
    requireTopLevel "impl" span
    let impl ← openImpl bound ty span
    let done ← checkMethods room impl ∅ methods
    match done.inOrder impl.decl.methods.keys with
    | .error method => fail (.missingMethod impl.decl.name method) span
    | .ok fields => return [.bind impl.binding ⟨.object none fields, impl.dictionaryType⟩]
  | .ret none span => do
    recordReturn .void span
    return [.ret none]
  | .ret (some e) span => do
    requireFunction span
    let hint ← currentReturn
    let value ← checkExpr room hint e
    recordReturn value.ty span
    return [.ret (some value)]
  | .whileDo cond body _ => do
    let test ← expecting .bool cond.span fun hint => checkExpr room hint cond
    let block ← checkBlock room none body
    return [.whileDo test block]
  | .forEach name iterable body span => do
    let value ← checkExpr room none iterable
    let elem ← elementOf (← resolve value.ty) span
    let (id, block) ← inScope do
      let id ← bindLocal name.text elem
      let block ← checkBlock room none body
      pure (id, block)
    return [.forEach id value block]
  | .eval e _ => do
    let value ← checkExpr room none e
    return [.eval value]
termination_by structural stmt

/-- A declared function and its type as seen from outside. -/
def checkFunc (room : Nat) (sig : Signature) (decl : FuncDecl) : CheckM (Core.FuncExpr × Ty) :=
  match decl with
  | ⟨name, _, params, ret, body, span⟩ => do
    let ((ids, block, tracers), upvalues) ← inFunctionFrame do
      let (dicts, tracers) ← bindTracers span sig.generics
      let ids ← bindParams params
      let declared ← typeFor? ret
      let block ← checkBody room declared body
      pure (dicts ++ ids, block, tracers)
    let ret := sig.finalRet tracers block.ty
    return (⟨some name.text, captures upvalues, ids, block⟩,
      .funcWith sig.obligations sig.params ret)
termination_by structural decl

/-- The methods of an implementation by name, each once. -/
def checkMethods (room : Nat) (impl : Impl) (done : Assoc String Core.Expr)
    (methods : List FuncDecl) : CheckM (Assoc String Core.Expr) :=
  match methods with
  | [] => return done
  | method :: rest => do
    match impl.decl.methods.find? method.name.text with
    | none => fail (.unknownMethod impl.decl.name method.name.text) method.name.span
    | some declared =>
      ensure (¬done.contains method.name.text) (.duplicateDeclaration method.name.text)
        method.name.span
      let expected ← impl.methodType declared method.span
      let sig ← declareSignature method
      let (func, ty) ← checkFunc room sig method
      let ty ← isolated do
        let _ ← unify method.span expected ty
        resolve ty
      checkMethods room impl (done.insert method.name.text ⟨.func func, ty⟩) rest
termination_by structural methods

/-- The body of a function with the given result type, if any. The type of the
block is the result type. -/
def checkBody (room : Nat) (declared : Option Ty) (body : Block) : CheckM Core.Block :=
  match body with
  | ⟨stmts, span⟩ =>
    inFunction declared do
      let (out, trailing) ← checkBodyStmts room stmts
      closeBody span out trailing
termination_by structural body

/-- The statements of a function body, each a unit of its own, and whether the
last is an expression, whose value is returned. -/
def checkBodyStmts (room : Nat) (stmts : List Stmt) : CheckM (List Core.Stmt × Bool) :=
  match stmts with
  | [] => return ([], false)
  | [.eval e _] => do
    let out ← inUnit do
      let hint ← currentReturn
      let value ← checkExpr room hint e
      recordReturn value.ty e.span
      returning value
    return (out, true)
  | stmt :: rest => do
    let out ← inUnit (checkStmt room stmt)
    let (more, trailing) ← checkBodyStmts room rest
    return (out ++ more, trailing)
termination_by structural stmts

end

end TraitCheck.Checker
