import TraitCheck.Checker.Declare

/-!
Structs, enums, tuples and arrays in use. Every use of a declared type is over
fresh variables for its generics, unified with the value at hand, so that field
types follow the type arguments.
-/

namespace TraitCheck.Checker

open Surface

/-- A declared type over fresh variables, and what they stand for. -/
structure Instance where
  ty : Ty
  map : List (VarId × Ty)

def Instance.fieldType (inst : Instance) (field : Ty) : Ty := field.substitute inst.map

def instantiateAdt (adt : Adt) : CheckM Instance :=
  modifyGet fun s =>
    let map := Subst.relabelling s.unifier.next adt.generics
    (⟨adt.ty.substitute map, map⟩,
      { s with unifier := { s.unifier with next := s.unifier.next + adt.generics.length } })

def lookupAdt (name : Name) : CheckM Adt := do
  match (← get).adts.find? name.text with
  | some adt => return adt
  | none => fail (.unknownType name.text) name.span

/-- The tag index, for an enum, and the fields of what is constructed. -/
def constructedFields (adt : Adt) (tag : Option Name) (span : Span) :
    CheckM (Option Nat × Fields) :=
  match adt.kind, tag with
  | .struct fields, none => return (none, fields)
  | .enum tags, some tag =>
    match tags.locate? tag.text with
    | some (index, fields) => return (some index, fields)
    | none => fail (.unknownCaseTag adt.name tag.text) tag.span
  | .struct _, some tag => fail (.invalidContext (.structHasNoCase adt.name tag.text)) tag.span
  | .enum _, none => fail (.invalidContext (.enumNeedsCase adt.name)) span
  | .pending, _ => fail (.invalidContext (.constructedBeforeDeclared adt.name)) span

/-- A case without fields is its index, all else is an object. -/
def constructed (tag : Option Nat) (values : List Core.Expr) : Core.ExprKind :=
  match tag, values with
  | some index, [] => .int index
  | tag, values => .object tag values

/-- The index and the type of a field of a value of type `target`. -/
def fieldOf (adt : Adt) (fields : Fields) (target : Ty) (field : String) (span : Span) :
    CheckM (Nat × Ty) := do
  match fields.locate? field with
  | none => fail (.unknownField (← resolve target) field) span
  | some (index, ty) =>
    let inst ← instantiateAdt adt
    let _ ← unify span inst.ty target
    return (index, ← resolve (inst.fieldType ty))

/-- The index and the type of what is selected from a value of type `ty`. -/
def selected (ty : Ty) (field : FieldRef) (targetSpan span : Span) : CheckM (Nat × Ty) :=
  match ty.con?, field with
  | none, _ => fail (.unboundType ty) targetSpan
  | some (.tuple _), .index i =>
    match ty.params[i]? with
    | some elem => return (i, elem)
    | none => fail (.indexOutOfBounds ty i) span
  | some .array, .index i =>
    match ty.params with
    | elem :: _ => if i < ty.size then return (i, elem) else fail (.indexOutOfBounds ty i) span
    | [] => fail (.unknownField ty field.text) span
  | some (.named _), .name name => do
    match (← get).adts.struct? ty with
    | some (adt, fields) => fieldOf adt fields ty name span
    | none => fail (.unknownField ty field.text) span
  | _, _ => fail (.unknownField ty field.text) span

def select (target : Core.Expr) (field : FieldRef) (targetSpan span : Span) :
    CheckM Core.Expr := do
  let (index, ty) ← selected (← resolve target.ty) field targetSpan span
  return ⟨.field target index, ty⟩

/-- The enum that a value of type `ty` belongs to, with its tags. -/
def enumOf (ty : Ty) (span : Span) : CheckM (Adt × Assoc String Fields) := do
  match (← get).adts.enum? ty with
  | some found => return found
  | none => fail (.expectedEnum ty) span

/-- What all cases of a match have in common. -/
structure Match where
  adt : Adt
  tags : Assoc String Fields
  ty : Ty
  scrutinee : BindingId

/-- Binds the payload of a case, each name once. -/
def bindCaseFields (m : Match) (fields : Fields) (seen : List String) :
    List CaseBinding → CheckM (List Core.Stmt)
  | [] => return []
  | b :: rest => do
    ensure (b.binding.text ∉ seen) (.duplicateDeclaration b.binding.text) b.binding.span
    let (index, ty) ← fieldOf m.adt fields m.ty b.field.text b.field.span
    let id ← bindLocal b.binding.text ty
    let stmts ← bindCaseFields m fields (b.binding.text :: seen) rest
    return .bind id ⟨.field ⟨.ident m.scrutinee, m.ty⟩ index, ty⟩ :: stmts

def elementOf (ty : Ty) (span : Span) : CheckM Ty :=
  match ty.con?, ty.params with
  | some .array, elem :: _ => return elem
  | _, _ => fail (.notIterable ty) span

/-- The hints for the elements of a tuple of the given length. -/
def tupleHints (length : Nat) (hint : Option Ty) : CheckM (List Ty) := do
  let hint ← resolve? hint
  return ((hint.filter (·.con? = some (.tuple length))).map (·.params)).getD []

def arrayHint (hint : Option Ty) : CheckM (Option Ty) := do
  let hint ← resolve? hint
  return (hint.filter (·.con? = some .array)).bind (·.params.head?)

def freshAll : List Name → CheckM (List Ty)
  | [] => return []
  | name :: rest => do
    let var ← fresh name.text ∅
    let vars ← freshAll rest
    return .var var :: vars

/-- Binds the elements of the tuple held in `source`, from `index` on. -/
def bindElements (source : Core.Expr) (index : Nat) : List Name → List Ty → CheckM (List Core.Stmt)
  | name :: names, ty :: tys => do
    let id ← bindLocal name.text ty
    let stmts ← bindElements source (index + 1) names tys
    return .bind id ⟨.field source index, ty⟩ :: stmts
  | _, _ => return []

/-- Binds a checked value of type `ty` to a pattern. -/
def bindPattern (pattern : Pattern) (ty : Ty) (value : Core.Expr) (span : Span) :
    CheckM (List Core.Stmt) := do
  match pattern with
  | .name name =>
    let id ← bindLocal name.text ty
    return [.bind id value]
  | .tuple names =>
    match ty.con? with
    | some (.tuple _) =>
      ensure (ty.params.length = names.length)
        (.arityMismatch "tuple elements" ty.params.length names.length) span
      let source ← freshBinding
      let stmts ← bindElements ⟨.ident source, ty⟩ 0 names ty.params
      return .bind source value :: stmts
    | _ => fail (.typeMismatch (.tuple (← freshAll names)) ty) span

end TraitCheck.Checker
