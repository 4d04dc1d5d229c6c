import TraitCheck.Registry
import TraitCheck.Subst

/-!
Unification of types whose variables carry trait bounds. A variable meets a
concrete type only if the registry has evidence for each of its traits. Two
different variables are both bound to a new one that carries the traits of
both. What was bound before a failure stays bound.
-/

namespace TraitCheck

/-- The next unused variable id and the bindings made so far. -/
structure Unifier where
  next : Nat := 0
  subst : Subst := {}

/-- A step that changes the unifier and may fail, keeping its changes. -/
abbrev UnifyM := ExceptT Failure (StateM Unifier)

namespace Unifier

def resolve (u : Unifier) (ty : Ty) : Ty := u.subst.apply ty

/-- Resolves a type in which no variable may be left. -/
def mustResolve (u : Unifier) (ty : Ty) : Except Failure Ty :=
  let ty := u.resolve ty
  if ty.hasVars then .error (.unboundType ty) else .ok ty

def freshId (u : Unifier) : Nat × Unifier := (u.next, { u with next := u.next + 1 })

def freshVar (name : String) (traits : TraitSet) (u : Unifier) : TyVar × Unifier :=
  (⟨u.next, name, traits⟩, { u with next := u.next + 1 })

/-- A type over fresh copies of the given variables. -/
def instantiate (vars : List TyVar) (ty : Ty) (u : Unifier) : Ty × Unifier :=
  (ty.substitute (Subst.relabelling u.next vars), { u with next := u.next + vars.length })

def assign (id : VarId) (ty : Ty) (u : Unifier) : Unifier :=
  { u with subst := u.subst.insert id ty }

/-- Binds two variables to a new one with the name of the first. -/
def merge (a b : TyVar) (u : Unifier) : Ty × Unifier :=
  let (merged, u) := u.freshVar a.name (a.traits.union b.traits)
  (.var merged, (u.assign a.id (.var merged)).assign b.id (.var merged))

/-- Binds a variable to a concrete type. The type may not contain the variable,
and has to implement all its traits. -/
def bind (registry : Registry) (v : TyVar) (head : Head) (args : List Ty) : UnifyM Ty := do
  let ty := (← get).resolve (.app head args)
  if ty.mentions v.id then
    throw (.infiniteType (.var v) ty)
  else
    match registry.firstMissing head.con v.traits with
    | some bound => throw (.traitMismatch ty bound)
    | none => modifyGet fun u => (ty, u.assign v.id ty)

def mismatch (expected found : Ty) : UnifyM Ty := do
  let u ← get
  throw (.typeMismatch (u.resolve expected) (u.resolve found))

/-- Unifies two lists position by position, first to last. -/
def unifyAll (step : Ty → Ty → UnifyM Ty) : List Ty → List Ty → UnifyM (List Ty)
  | a :: as, b :: bs => do
    let c ← step a b
    let cs ← unifyAll step as bs
    return c :: cs
  | _, _ => return []

/-- Unifies two types, descending at most `depth` levels. -/
def unifyWithin (registry : Registry) : Nat → Ty → Ty → UnifyM Ty
  | 0, expected, found => mismatch expected found
  | depth + 1, expected, found => do
    let u ← get
    match u.subst.deref expected, u.subst.deref found with
    | .var v, .var w =>
      if v.id = w.id then return .var v else modifyGet (merge v w)
    | .var v, .app head args => bind registry v head args
    | .app head args, .var v => bind registry v head args
    | .app head as, .app head' bs =>
      if head = head' ∧ as.length = bs.length then
        return .app head (← unifyAll (unifyWithin registry depth) as bs)
      else
        mismatch expected found

/-- Unifies two types and returns the type both now stand for. The bindings
are not circular, so no path is longer than all nodes in play together. -/
def unify (registry : Registry) (expected found : Ty) : UnifyM Ty := do
  let u ← get
  unifyWithin registry (u.subst.nodes + expected.nodes + found.nodes) expected found

end Unifier

end TraitCheck
