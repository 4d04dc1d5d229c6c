import TraitCheck.Checker.Prelude
import TraitCheck.Proofs.CoreRules

/-!
What it means for the nodes of a core program to be well typed. A value of a
type is laid out in components (`Layout`): an object has one field for each of
them, and a field is one of them. A call passes a dictionary for each obligation
of its callee and then the arguments, and a built-in operation takes what its
signature asks for. These rules look at one node and the types of its parts.
-/

namespace TraitCheck

/-- The fields of a struct, or of the enum case with the given index. -/
def Adt.fieldsAt (adt : Adt) : Option Nat → Option Fields
  | none => adt.fields?
  | some tag => adt.tags?.bind (·.values[tag]?)

/-- The type arguments for the generics of the declaration. -/
def Adt.arguments (adt : Adt) (args : List Ty) : List (VarId × Ty) :=
  (adt.generics.map (·.id)).zip args

/-- What a dictionary for `ty` holds for a method with the given signature: a
function that needs no dictionary any more. -/
def TraitDecl.slotType (decl : TraitDecl) (ty sig : Ty) : Ty :=
  match (sig.substitute [(decl.selfVar.id, ty)]).asFunc? with
  | some shape => .func shape.params shape.ret
  | none => sig

/-- The built-in operation takes dictionaries for these obligations and then
operands of these types, and gives a result of this type. -/
inductive Prelude.Offers (op : Op) : List Obligation → List Ty → Ty → Prop
  | generic {f : GenericFunc} (ty : Ty) : f ∈ genericFuncs → f.op = op →
      Offers op [⟨ty, f.bound⟩] (List.replicate f.arity ty) (f.ret.getD ty)
  | plain {name : String} {params : List Ty} {ret : Ty} :
      (name, op, .func params ret) ∈ plainFuncs → Offers op [] params ret

namespace Core

/-- A value of the type, with the given tag if it belongs to an enum, consists
of components of these types. -/
inductive Layout (adts : AdtTable) (registry : Registry) : Ty → Option Nat → List Ty → Prop
  | tuple (elems : List Ty) : Layout adts registry (.tuple elems) none elems
  | array (elem : Ty) (size : Nat) :
      Layout adts registry (.array elem size) none (List.replicate size elem)
  /-- A field has its declared type, at the type arguments. -/
  | data {adt : Adt} {tag : Option Nat} {fields : Fields} {args : List Ty} :
      Assoc.find? adts adt.name = some adt → adt.fieldsAt tag = some fields →
      args.length = adt.generics.length →
      Layout adts registry (.named adt.name args) tag
        (fields.values.map (·.substitute (adt.arguments args)))
  /-- A dictionary holds the methods of its trait. -/
  | dictionary {bound : Trait} {decl : TraitDecl} (ty : Ty) :
      Assoc.find? adts bound = none → registry.trait? bound = some decl →
      Layout adts registry (dictionaryType bound ty) none
        (decl.methods.values.map (decl.slotType ty))

/-- The match case that the expression is the scrutinee of. -/
def Expr.scrutinee? (place : Place) (e : Expr) : Option (Ty × Nat) :=
  match e.kind with
  | .ident id => place.cases id
  | _ => none

/-- The type is that of the component with the given index. -/
def HasComponent (adts : AdtTable) (registry : Registry) (target : Ty) (tag : Option Nat)
    (index : Nat) (ty : Ty) : Prop :=
  ∃ tys, Layout adts registry target tag tys ∧ tys[index]? = some ty

/-- A node that makes, reads or chooses between values fits its parts. A field
of a scrutinee belongs to the case that it is read in. -/
def Expr.DataTyped (adts : AdtTable) (registry : Registry) (place : Place) (e : Expr) : Prop :=
  match e.kind with
  | .object tag fields => Layout adts registry e.ty tag (fields.map (·.ty))
  | .field target index =>
    match target.scrutinee? place with
    | some (ty, tag) => target.ty = ty ∧ HasComponent adts registry ty (some tag) index e.ty
    | none => HasComponent adts registry target.ty none index e.ty
  | .block body => body.ty = e.ty
  | .cond branches otherwise =>
    (∀ b ∈ branches, b.cond.ty = .bool ∧ b.body.ty = e.ty) ∧ otherwise.ty = e.ty
  | .cases _ _ blocks => ∀ b ∈ blocks, b.ty = e.ty
  | _ => True

/-- A block has the type of its last statement if that is an expression. -/
def Block.ValueTyped (block : Block) : Prop :=
  match block.stmts.getLast? with
  | some (.eval value) => block.ty = value.ty
  | _ => block.ty = .void

/-- The dictionaries for the obligations, and then the arguments. -/
def Passes (obligations : List Obligation) (params : List Ty) (args : List Expr) : Prop :=
  args.map (·.ty) = obligations.map (fun o => dictionaryType o.bound o.ty) ++ params

/-- A node that calls something, or is a function, fits its parts. -/
def Expr.CallTyped (e : Expr) : Prop :=
  match e.kind with
  | .call callee args hasValue =>
    ∃ os ps, callee.ty = .funcWith os ps e.ty ∧ Passes os ps args ∧
      (hasValue = true ↔ e.ty ≠ .void)
  | .builtin (.dictionary _ _) args => args = []
  | .builtin op args => ∃ os ps, Prelude.Offers op os ps e.ty ∧ Passes os ps args
  | .func func =>
    ∃ os ps ret, e.ty = .funcWith os ps ret ∧ func.params.length = os.length + ps.length
  | _ => True

/-- The node passes the second expression for an obligation of what it calls, or
reads a method from it. -/
inductive Expr.TakesEvidence (registry : Registry) : Expr → Expr → Prop
  | call {callee d : Expr} {args : List Expr} {hasValue : Bool} {ty : Ty} {os : List Obligation}
      {ps : List Ty} : callee.ty = .funcWith os ps ty → d ∈ args.take os.length →
      TakesEvidence registry ⟨.call callee args hasValue, ty⟩ d
  | builtin {op : Op} {d : Expr} {args : List Expr} {ty : Ty} {os : List Obligation}
      {ps : List Ty} : Prelude.Offers op os ps ty → d ∈ args.take os.length →
      TakesEvidence registry ⟨.builtin op args, ty⟩ d
  | method {target : Expr} {index : Nat} {ty self : Ty} {bound : Trait} :
      target.ty = dictionaryType bound self → registry.isDeclared bound = true →
      TakesEvidence registry ⟨.field target index, ty⟩ target

/-- A call of what a dictionary holds passes no dictionary. -/
def Expr.MethodTyped (registry : Registry) (e : Expr) : Prop :=
  ∀ callee args hasValue target index bound ty, e.kind = .call callee args hasValue →
    callee.kind = .field target index → target.ty = dictionaryType bound ty →
      registry.isDeclared bound = true → callee.ty = .func (args.map (·.ty)) e.ty

/-- A return gives a value of the type, or nothing if that is `Void`. -/
def Delivers (ty : Ty) : Option Expr → Prop
  | some value => value.ty = ty
  | none => ty = .void

def delivering (ty : Ty) : Rules := { ret := Delivers ty }

/-- The statements end in a return, and the returns in them deliver the type,
except that the last one may deliver nothing where `full` does not hold. -/
def Block.Returns (block : Block) (ty : Ty) (full : Prop) : Prop :=
  ∃ init last, block.stmts = init ++ [.ret last] ∧ EveryStmts (delivering ty) .outside init ∧
    (∀ value, last = some value → value.ty = ty ∧ value.Every (delivering ty) .outside) ∧
    (full → Delivers ty last)

end Core

end TraitCheck
