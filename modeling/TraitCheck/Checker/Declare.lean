import TraitCheck.Checker.TypeExpr
import TraitCheck.Surface.Program

/-!
Declarations of type parameters, structs, enums and traits.
-/

namespace TraitCheck.Checker

open Surface

/-- A type parameter with the variable that stands for it. -/
structure Generic where
  name : String
  var : TyVar
  bounds : List Trait

def requireDeclared (bounds : List Name) : CheckM Unit := do
  let registry := (← get).registry
  match bounds.find? fun bound => !registry.isDeclared bound.text with
  | some bound => fail (.unknownType bound.text) bound.span
  | none => return ()

/-- Draws a variable for each type parameter. Their names are distinct, and
their bounds are declared traits. -/
def declareGenerics (seen : List String) : List GenericParam → CheckM (List Generic)
  | [] => return []
  | g :: rest => do
    ensure (g.name.text ∉ seen) (.duplicateDeclaration g.name.text) g.name.span
    requireDeclared g.bounds
    let bounds := g.bounds.map (·.text)
    let var ← fresh g.name.text (.ofList bounds)
    let generics ← declareGenerics (g.name.text :: seen) rest
    return ⟨g.name.text, var, bounds⟩ :: generics

/-- Makes the name of a struct or an enum known before its fields. -/
def declareAdt (name : Name) (generics : List GenericParam) : CheckM Unit := do
  let s ← get
  ensure (¬(s.scope.declaresType name.text || s.registry.isDeclared name.text))
    (.duplicateDeclaration name.text) name.span
  let generics ← declareGenerics [] generics
  let adt : Adt := ⟨name.text, generics.map (·.var), .pending⟩
  bindType name.text adt.ty
  modify fun s => { s with adts := s.adts.insert name.text adt }

def pendingAdt (name : Name) : CheckM Adt := do
  match ((← get).adts.find? name.text).filter (·.isPending) with
  | some adt => return adt
  | none => fail (.duplicateDeclaration name.text) name.span

def addFields (fields : Fields) : List FieldDecl → CheckM Fields
  | [] => return fields
  | field :: rest => do
    ensure (¬fields.contains field.name.text) (.duplicateField field.name.text) field.name.span
    let ty ← typeFor field.ty
    addFields (fields.insert field.name.text ty) rest

/-- The fields, with the generic names of their declaration in scope. -/
def resolveFields (generics : List TyVar) (fields : List FieldDecl) : CheckM Fields :=
  inScope do
    generics.forM fun var => bindType var.name (.var var)
    addFields ∅ fields

def addTags (generics : List TyVar) (tags : Assoc String Fields) :
    List TagDecl → CheckM (Assoc String Fields)
  | [] => return tags
  | tag :: rest => do
    ensure (¬tags.contains tag.name.text) (.duplicateDeclaration tag.name.text) tag.name.span
    let fields ← resolveFields generics tag.fields
    addTags generics (tags.insert tag.name.text fields) rest

def setAdtKind (name : String) (kind : AdtKind) : CheckM Unit :=
  modify fun s => { s with adts := s.adts.modify name ({ · with kind }) }

def defineStruct (name : Name) (fields : List FieldDecl) : CheckM Unit := do
  let adt ← pendingAdt name
  let fields ← resolveFields adt.generics fields
  setAdtKind name.text (.struct fields)

def defineEnum (name : Name) (tags : List TagDecl) : CheckM Unit := do
  let adt ← pendingAdt name
  let tags ← addTags adt.generics ∅ tags
  setAdtKind name.text (.enum tags)

/-- Every method asks its caller for a dictionary of the trait for `Self`. -/
def addMethods (bound : Trait) (selfVar : TyVar) (methods : Assoc String Ty) :
    List MethodSig → CheckM (Assoc String Ty)
  | [] => return methods
  | method :: rest => do
    ensure (¬methods.contains method.name.text) (.duplicateDeclaration method.name.text)
      method.name.span
    let params ← typesFor method.params
    let ret ← typeFor method.ret
    let ty := Ty.funcWith [⟨.var selfVar, bound⟩] params ret
    addMethods bound selfVar (methods.insert method.name.text ty) rest

/-- Binds the method names, each to its slot from `index` on. -/
def bindMethods (bound : Trait) (selfVar : TyVar) (index : Nat) :
    List (String × Ty) → CheckM Unit
  | [] => return ()
  | (method, ty) :: rest => do
    bindValue method { kind := .method bound index, ty, generics := [selfVar] }
    bindMethods bound selfVar (index + 1) rest

def declareTrait (name : Name) (methods : List MethodSig) : CheckM Unit := do
  ensure (¬(← get).scope.declaresType name.text) (.duplicateDeclaration name.text) name.span
  let selfVar ← fresh "Self" (.singleton name.text)
  let methods ← inScope do
    bindType "Self" (.var selfVar)
    addMethods name.text selfVar ∅ methods
  let registry ← ofExcept name.span ((← get).registry.declare ⟨name.text, selfVar, methods⟩)
  modify ({ · with registry })
  bindMethods name.text selfVar 0 methods.entries

end TraitCheck.Checker
