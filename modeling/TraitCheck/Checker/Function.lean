import TraitCheck.Checker.Declare

/-!
Functions and closures, apart from what is inside their bodies. A declared
function is seen from outside over type variables, one for each type parameter.
Inside its body each is a tracer, which unifies with nothing but itself, and
each bound of it is a dictionary parameter. A closure takes its types from the
function type that its context expects.
-/

namespace TraitCheck.Checker

open Surface

/-- The type parameters, parameters and result of a function seen from outside. -/
structure Signature where
  generics : List Generic
  params : List Ty
  ret : Ty
  retDeclared : Bool

def Signature.obligations (sig : Signature) : List Obligation :=
  sig.generics.flatMap fun g => g.bounds.map fun bound => ⟨.var g.var, bound⟩

def Signature.ty (sig : Signature) : Ty := .funcWith sig.obligations sig.params sig.ret

/-- The signature of a function. A result type that is not written is a fresh
variable. -/
def declareSignature (decl : FuncDecl) : CheckM Signature := do
  let generics ← declareGenerics [] decl.generics
  inScope do
    generics.forM fun g => bindType g.name (.var g.var)
    let params ← typesFor (decl.params.map (·.ty))
    match decl.ret with
    | some ret => return ⟨generics, params, ← typeFor ret, true⟩
    | none => return ⟨generics, params, .var (← fresh "R" ∅), false⟩

/-- Binds a dictionary parameter for each bound of a tracer. -/
def bindDictionaries (span : Span) (name : String) (id : Nat) : List Trait → CheckM (List BindingId)
  | [] => return []
  | bound :: rest => do
    let tracer := Ty.tracer id name
    let dictionary := s!"${bound}<{name}#{id}>"
    let binding ← bindParam span dictionary (dictionaryType bound tracer)
    provide span tracer bound (.binding dictionary binding)
    let bindings ← bindDictionaries span name id rest
    return binding :: bindings

/-- Puts a tracer in place of each type parameter. Returns the dictionary
parameters, and the variable that each tracer stands for. -/
def bindTracers (span : Span) : List Generic → CheckM (List BindingId × List (Nat × Ty))
  | [] => return ([], [])
  | g :: rest => do
    let id ← freshId
    bindType g.name (.tracer id g.name)
    let bindings ← bindDictionaries span g.name id g.bounds
    let (more, tracers) ← bindTracers span rest
    return (bindings ++ more, (id, .var g.var) :: tracers)

def bindParams : List Param → CheckM (List BindingId)
  | [] => return []
  | param :: rest => do
    let ty ← typeFor param.ty
    let id ← bindParam param.name.span param.name.text ty
    let ids ← bindParams rest
    return id :: ids

/-- The result type seen from outside: the written one, or the one found for
the body with type variables back in place of tracers. -/
def Signature.finalRet (sig : Signature) (tracers : List (Nat × Ty)) (found : Ty) : Ty :=
  if sig.retDeclared then sig.ret else found.untrace (Assoc.mk tracers).find?

def captures (upvalues : List Upvalue) : List Core.Capture :=
  upvalues.map fun up => ⟨up.binding, up.ty⟩

/-- The function type that a closure is expected to have. -/
def openClosure (hint : Option Ty) (arity : Nat) (span : Span) : CheckM FuncShape := do
  match ← resolve? hint with
  | none => fail .missingTypeContext span
  | some ty =>
    match ty.asFunc? with
    | none => fail .missingTypeContext span
    | some shape =>
      ensure (shape.params.length = arity)
        (.arityMismatch "closure parameters" shape.params.length arity) span
      return shape

/-- The type of a closure parameter: the expected one, unified with the written
one if there is one. It has to be known. -/
def closureParam (param : ClosureParam) (expected : Ty) : CheckM Ty := do
  let written ← typeFor? param.ty
  let ty ← resolve (← joinWritten param.name.span expected written)
  ensure (¬ty.isVar) .missingTypeContext param.name.span
  return ty
where
  joinWritten (span : Span) (expected : Ty) : Option Ty → CheckM Ty
    | none => return expected
    | some written => unify span expected written

def closureParams : List ClosureParam → List Ty → CheckM (List Ty)
  | param :: params, expected :: rest => do
    let ty ← closureParam param expected
    let tys ← closureParams params rest
    return ty :: tys
  | _, _ => return []

def bindClosureParams : List ClosureParam → List Ty → CheckM (List BindingId)
  | param :: params, ty :: tys => do
    let id ← bindParam param.name.span param.name.text ty
    let ids ← bindClosureParams params tys
    return id :: ids
  | _, _ => return []

/-- The statements that return the value of a trailing expression. -/
def returning (value : Core.Expr) : CheckM (List Core.Stmt) := do
  if (← resolve value.ty).isVoid then
    return [.eval value, .ret none]
  else
    return [.ret (some value)]

/-- A body without a trailing expression returns `Void`, unless it has
returned in some other place. -/
def returnVoid (span : Span) : CheckM Unit := do
  if (← get).functions.head?.any (·.returned) then
    return ()
  else
    isolated (recordReturn .void span)

def endWithReturn (stmts : List Core.Stmt) : List Core.Stmt :=
  if stmts.getLast?.any (·.isRet) then stmts else stmts ++ [.ret none]

/-- Ends a function body. Its block has the result type of the function. -/
def closeBody (span : Span) (stmts : List Core.Stmt) (trailing : Bool) : CheckM Core.Block := do
  if trailing then
    return ⟨stmts, (← currentReturn).getD .void⟩
  else
    returnVoid span
    return ⟨endWithReturn stmts, (← currentReturn).getD .void⟩

end TraitCheck.Checker
