import TraitCheck.Checker.State
import TraitCheck.Surface.TypeExpr

/-!
What a written type stands for in a scope. The name of a struct or an enum is
always written with all its type arguments, and no other name takes any.
-/

namespace TraitCheck.Surface.TypeExpr

mutual

def toTy (scope : Scope) (adts : AdtTable) : TypeExpr → Except TypeError Ty
  | .ident name args span =>
    match scope.type? name with
    | none => .error ⟨.unknownType name, span⟩
    | some ty =>
      let expected := adts.arity name ty
      if args.length ≠ expected then
        .error ⟨.arityMismatch "type arguments" expected args.length, span⟩
      else if expected = 0 then
        .ok ty
      else
        (toTys scope adts args).map (.named name)
  | .tuple elems _ => (toTys scope adts elems).map .tuple
  | .func params ret _ => do
    let params ← toTys scope adts params
    let ret ← ret.toTy scope adts
    return .func params ret
  | .array elem size _ => (elem.toTy scope adts).map (.array · size)

def toTys (scope : Scope) (adts : AdtTable) : List TypeExpr → Except TypeError (List Ty)
  | [] => .ok []
  | t :: rest => do
    let ty ← t.toTy scope adts
    let tys ← toTys scope adts rest
    return ty :: tys

end

end TraitCheck.Surface.TypeExpr

namespace TraitCheck.Checker

open Surface (TypeExpr)

def typeFor (ty : TypeExpr) : CheckM Ty := do
  let s ← get
  match ty.toTy s.scope s.adts with
  | .ok ty => return ty
  | .error e => throw e

def typesFor : List TypeExpr → CheckM (List Ty)
  | [] => return []
  | t :: rest => do
    let ty ← typeFor t
    let tys ← typesFor rest
    return ty :: tys

def typeFor? : Option TypeExpr → CheckM (Option Ty)
  | none => return none
  | some ty => return some (← typeFor ty)

end TraitCheck.Checker
