import TraitCheck.Assoc
import TraitCheck.Ty.Basic

/-!
Declared structs and enums. The types of their fields are written over the
generic variables of the declaration. Fields and tags are in declaration order,
and their place is their index.
-/

namespace TraitCheck

abbrev Fields := Assoc String Ty

inductive AdtKind where
  /-- Named, with fields still to come. -/
  | pending
  | struct (fields : Fields)
  | enum (tags : Assoc String Fields)

structure Adt where
  name : String
  generics : List TyVar
  kind : AdtKind

abbrev AdtTable := Assoc String Adt

/-- The declared type over its own generic variables. -/
def Adt.ty (adt : Adt) : Ty := .named adt.name (adt.generics.map .var)

def Adt.isPending (adt : Adt) : Bool :=
  match adt.kind with
  | .pending => true
  | _ => false

def Adt.fields? (adt : Adt) : Option Fields :=
  match adt.kind with
  | .struct fields => some fields
  | _ => none

def Adt.tags? (adt : Adt) : Option (Assoc String Fields) :=
  match adt.kind with
  | .enum tags => some tags
  | _ => none

/-- The declaration that a type is made from. -/
def AdtTable.of? (adts : AdtTable) (ty : Ty) : Option Adt :=
  match ty.con? with
  | some (.named name) => Assoc.find? adts name
  | _ => none

/-- The struct that a type is made from, with its fields. -/
def AdtTable.struct? (adts : AdtTable) (ty : Ty) : Option (Adt × Fields) := do
  let adt ← adts.of? ty
  return (adt, ← adt.fields?)

/-- The enum that a type is made from, with its tags. -/
def AdtTable.enum? (adts : AdtTable) (ty : Ty) : Option (Adt × Assoc String Fields) := do
  let adt ← adts.of? ty
  return (adt, ← adt.tags?)

/-- How many type arguments the name takes, given what it stands for. -/
def AdtTable.arity (adts : AdtTable) (name : String) (ty : Ty) : Nat :=
  match Assoc.find? adts name with
  | some adt => if ty.isNamed name then adt.generics.length else 0
  | none => 0

end TraitCheck
