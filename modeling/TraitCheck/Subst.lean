import TraitCheck.Assoc
import TraitCheck.Ty.Basic

/-!
Substitutions: finite maps from type variables to types. A binding may mention
further bound variables, so reading a type through a substitution follows
bindings until none is left. Along one path of a type no variable comes twice
unless the substitution is circular, so as many steps as there are bindings are
enough.
-/

namespace TraitCheck

structure Subst where
  bindings : Assoc VarId Ty := ∅

namespace Subst

def find? (σ : Subst) (id : VarId) : Option Ty := σ.bindings.find? id

def size (σ : Subst) : Nat := σ.bindings.size

/-- Binds a variable. Binding a variable to itself changes nothing. -/
def insert (σ : Subst) (id : VarId) (ty : Ty) : Subst :=
  match ty with
  | .var v => if v.id = id then σ else ⟨σ.bindings.insert id ty⟩
  | .app _ _ => ⟨σ.bindings.insert id ty⟩

/-- Follows at most `n` bindings at the root of the type. -/
def derefWithin (σ : Subst) : Nat → Ty → Ty
  | 0, t => t
  | _ + 1, .app head args => .app head args
  | n + 1, .var v =>
    match σ.find? v.id with
    | some t => derefWithin σ n t
    | none => .var v

/-- Follows bindings at the root of the type, and leaves its arguments. -/
def deref (σ : Subst) (t : Ty) : Ty := σ.derefWithin σ.size t

/-- Follows at most `n` bindings on every path of the type. -/
def applyWithin (σ : Subst) : Nat → Ty → Ty
  | 0, t => t
  | n + 1, t => t.replace fun id => (σ.find? id).map (applyWithin σ n)

/-- Follows bindings everywhere in the type. -/
def apply (σ : Subst) (t : Ty) : Ty := σ.applyWithin σ.size t

/-- The number of nodes in all bindings together. -/
def nodes (σ : Subst) : Nat := Ty.allNodes σ.bindings.values

/-- Sends each of the variables to one with the same name and traits and a new
id, counted from `next`. -/
def relabelling (next : Nat) : List TyVar → List (VarId × Ty)
  | [] => []
  | v :: rest => (v.id, .var { v with id := next }) :: relabelling (next + 1) rest

end Subst

/-- Puts types in place of the given variables, all at once. -/
def Ty.substitute (map : List (VarId × Ty)) (ty : Ty) : Ty :=
  ty.replace (Assoc.mk map).find?

end TraitCheck
