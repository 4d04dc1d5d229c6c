import TraitCheck.Assoc
import TraitCheck.Core.Basic
import TraitCheck.Failure

/-!
Declared traits, and the evidence that types implement them. Evidence is kept
by type constructor, so it covers every choice of type arguments.
-/

namespace TraitCheck

/-- What a caller passes to show that a type implements a trait. -/
inductive Evidence where
  /-- Built in for a primitive type. -/
  | intrinsic (bound : Trait) (ty : String)
  /-- A dictionary held in a binding. -/
  | binding (name : String) (id : BindingId)
deriving DecidableEq

/-- The type of a dictionary of the trait for the type. -/
def dictionaryType (bound : Trait) (ty : Ty) : Ty := .named bound [ty]

/-- A trait with its methods, whose types are written over `selfVar`. The place
of a method is its slot in every dictionary of the trait. -/
structure TraitDecl where
  name : Trait
  selfVar : TyVar
  methods : Assoc String Ty

structure Registry where
  traits : Assoc Trait TraitDecl := ∅
  evidence : Assoc (Con × Trait) Evidence := ∅

namespace Registry

def trait? (r : Registry) (name : Trait) : Option TraitDecl := r.traits.find? name

def isDeclared (r : Registry) (name : Trait) : Bool := (r.trait? name).isSome

/-- The slot and the type of a method. -/
def method? (r : Registry) (name : Trait) (method : String) : Option (Nat × Ty) :=
  (r.trait? name).bind (·.methods.locate? method)

def declare (r : Registry) (decl : TraitDecl) : Except Failure Registry :=
  if r.isDeclared decl.name then .error (.duplicateDeclaration decl.name)
  else .ok { r with traits := r.traits.insert decl.name decl }

def lookup (r : Registry) (con : Con) (bound : Trait) : Option Evidence :=
  r.evidence.find? (con, bound)

def provide (r : Registry) (ty : Ty) (bound : Trait) (evidence : Evidence) :
    Except Failure Registry :=
  match ty with
  | .var _ => .error (.unboundType ty)
  | .app head _ =>
    if (r.lookup head.con bound).isSome then .error (.duplicateImpl ty bound)
    else .ok { r with evidence := r.evidence.insert (head.con, bound) evidence }

/-- The evidence that a call passes for `ty` and `bound`. -/
def require (r : Registry) (ty : Ty) (bound : Trait) : Except Failure Evidence :=
  match ty with
  | .var _ => .error (.unboundType ty)
  | .app head _ =>
    match r.lookup head.con bound with
    | some evidence => .ok evidence
    | none => .error (.missingImpl ty bound)

theorem lookup_of_require {r : Registry} {ty : Ty} {bound : Trait} {evidence : Evidence}
    (h : r.require ty bound = .ok evidence) :
    ∃ con, ty.con? = some con ∧ r.lookup con bound = some evidence := by
  cases ty with
  | var v => cases h
  | app head args =>
    rw [require] at h
    split at h
    · rename_i hlookup
      cases h
      exact ⟨head.con, rfl, hlookup⟩
    · cases h

def implements (r : Registry) (ty : Ty) (bound : Trait) : Bool :=
  (r.require ty bound).isOk

/-- The first trait of the set, in name order, without evidence for `con`. -/
def firstMissing (r : Registry) (con : Con) (traits : TraitSet) : Option Trait :=
  traits.elems.find? fun bound => (r.lookup con bound).isNone

end Registry

end TraitCheck
