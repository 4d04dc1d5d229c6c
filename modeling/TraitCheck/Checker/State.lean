import TraitCheck.Adt
import TraitCheck.Core.Walk
import TraitCheck.Scope
import TraitCheck.Unifier

/-!
The state of a checker and the steps that every part of the walk is made of.
A step may fail, and keeps what it did before it failed. Frames, function
contexts and units are only ever entered through a step that leaves them again,
whether its body succeeds or fails.
-/

namespace TraitCheck

structure Options where
  /-- Whether the built-in types, traits and functions are there. -/
  prelude : Bool := true
  /-- How many expressions may stand inside each other. -/
  maxDepth : Nat := 512

/-- The result type of the function being checked, as declared or as far as
its returns show it, and whether it has returned at all. -/
structure Returning where
  ret : Option Ty
  returned : Bool := false

structure Checker where
  options : Options := {}
  unifier : Unifier := {}
  registry : Registry := {}
  adts : AdtTable := ∅
  scope : Scope := {}
  /-- The functions whose bodies are being checked, innermost first. -/
  functions : List Returning := []
  preludeInstalled : Bool := false

abbrev CheckM := ExceptT TypeError (StateM Checker)

namespace Checker

variable {α : Type}

def fail (failure : Failure) (span : Span) : CheckM α := throw ⟨failure, span⟩

/-- Fails unless the condition holds. -/
def ensure (condition : Prop) [Decidable condition] (failure : Failure) (span : Span) :
    CheckM Unit :=
  if condition then return () else fail failure span

/-- Puts a failure at a place. -/
def ofExcept (span : Span) : Except Failure α → CheckM α
  | .ok a => pure a
  | .error failure => fail failure span

def fresh (name : String) (traits : TraitSet) : CheckM TyVar :=
  modifyGet fun s =>
    let (v, unifier) := s.unifier.freshVar name traits
    (v, { s with unifier })

def freshId : CheckM Nat :=
  modifyGet fun s =>
    let (id, unifier) := s.unifier.freshId
    (id, { s with unifier })

def resolve (ty : Ty) : CheckM Ty := return (← get).unifier.resolve ty

def resolve? : Option Ty → CheckM (Option Ty)
  | none => return none
  | some ty => return some (← resolve ty)

def unify (span : Span) (expected found : Ty) : CheckM Ty := do
  let s ← get
  let (result, unifier) := (Unifier.unify s.registry expected found).run.run s.unifier
  set { s with unifier }
  ofExcept span result

/-- Unifies with the type before, if there is one. -/
def join (span : Span) (before : Option Ty) (ty : Ty) : CheckM Ty :=
  match before with
  | none => return ty
  | some before => unify span before ty

/-- Checks something with an expected type as its hint, and unifies the two. -/
def expecting (expected : Ty) (span : Span) (check : Option Ty → CheckM Core.Expr) :
    CheckM Core.Expr := do
  let value ← check (some (← resolve expected))
  let _ ← unify span expected value.ty
  return value

def provide (span : Span) (ty : Ty) (bound : Trait) (evidence : Evidence) : CheckM Unit := do
  let registry ← ofExcept span ((← get).registry.provide ty bound evidence)
  modify ({ · with registry })

def freshBinding : CheckM BindingId :=
  modifyGet fun s =>
    let (id, scope) := s.scope.freshBinding
    (id, { s with scope })

def bindValue (name : String) (value : Value) : CheckM Unit :=
  modify fun s => { s with scope := s.scope.bindValue name value }

def bindLocal (name : String) (ty : Ty) : CheckM BindingId :=
  modifyGet fun s =>
    let (id, scope) := s.scope.bindLocal name ty
    (id, { s with scope })

def bindParam (span : Span) (name : String) (ty : Ty) : CheckM BindingId := do
  let (id, scope) ← ofExcept span ((← get).scope.bindParam name ty)
  modify ({ · with scope })
  return id

def bindType (name : String) (ty : Ty) : CheckM Unit :=
  modify fun s => { s with scope := s.scope.bindType name ty }

def setValueType (name : String) (ty : Ty) : CheckM Unit :=
  modify fun s => { s with scope := s.scope.setValueType name ty }

/-- Runs the body in a frame of its own. -/
def inScope (body : CheckM α) : CheckM α := fun s =>
  let (result, s) := body { s with scope := s.scope.push }
  (result, { s with scope := s.scope.pop })

/-- Runs the body in the frame of a function, and returns what it captured. -/
def inFunctionFrame (body : CheckM α) : CheckM (α × List Upvalue) := fun s =>
  let (result, s) := body { s with scope := s.scope.pushFunction }
  let (upvalues, scope) := s.scope.popFunction
  (result.map (·, upvalues), { s with scope })

/-- Runs the body as that of a function with the given result type, if any. -/
def inFunction (declared : Option Ty) (body : CheckM α) : CheckM α := fun s =>
  let (result, s) := body { s with functions := { ret := declared } :: s.functions }
  (result, { s with functions := s.functions.tail })

/-- Runs the body with no bindings of type variables, and afterwards goes back
to those from before. -/
def isolated (body : CheckM α) : CheckM α := fun s =>
  let outer := s.unifier.subst
  let (result, s) := body { s with unifier := { s.unifier with subst := {} } }
  (result, { s with unifier := { s.unifier with subst := outer } })

/-- Checks a statement as a unit of inference: no binding of a type variable
goes in or out, and the types in its result are resolved. -/
def inUnit (body : CheckM (List Core.Stmt)) : CheckM (List Core.Stmt) :=
  isolated do
    let stmts ← body
    return Core.mapTyStmts (← get).unifier.resolve stmts

/-- The result type, as far as known, of the function being checked. -/
def currentReturn : CheckM (Option Ty) := return (← get).functions.head?.bind (·.ret)

def requireFunction (span : Span) : CheckM Unit := do
  ensure ((← get).functions ≠ []) (.invalidContext .returnOutsideFunction) span

/-- Joins a returned type with the result type of the function. -/
def recordReturn (ty : Ty) (span : Span) : CheckM Unit := do
  requireFunction span
  let ty ← resolve (← join span (← currentReturn) ty)
  modify fun s => { s with functions := { ret := ty, returned := true } :: s.functions.tail }

def requireTopLevel (what : String) (span : Span) : CheckM Unit := do
  ensure (← get).scope.isRoot (.invalidContext (.nestedDeclaration what)) span

end Checker

end TraitCheck
