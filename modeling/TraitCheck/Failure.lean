import TraitCheck.Diagnostic.Basic
import TraitCheck.Ty.Display

/-!
Why a program is rejected. A `Failure` names the cause, a `TypeError` adds the
place. The wording, the code and the diagnostic of every cause are given here
and nowhere else.
-/

namespace TraitCheck

/-- A construct in a place where it means nothing. -/
inductive Misuse where
  | returnOutsideFunction
  | nestedDeclaration (what : String)
  | nestingTooDeep (limit : Nat)
  | structHasNoCase (name tag : String)
  | enumNeedsCase (name : String)
  | constructedBeforeDeclared (name : String)
  | onlyCallable (name : String)
  | implWithTypeArguments (bound : Trait) (target : Ty)
  | methodWithoutDictionary
  | evidenceOutOfScope (bound : Trait)
  /-- Any other, in words. -/
  | stated (text : String)
deriving DecidableEq

namespace Misuse

def text : Misuse → String
  | returnOutsideFunction => "`return` outside of a function"
  | nestedDeclaration what => s!"`{what}` declarations are only allowed at the top level"
  | nestingTooDeep limit => s!"expression nesting exceeds the limit of {limit}"
  | structHasNoCase name tag => s!"struct `{name}` has no case `{tag}`"
  | enumNeedsCase name => s!"enum `{name}` needs a case tag"
  | constructedBeforeDeclared name => s!"`{name}` cannot be constructed before it is declared"
  | onlyCallable name => s!"`{name}` can only be called"
  | implWithTypeArguments bound target =>
    s!"`impl {bound}` is only allowed for types without type arguments, found `{target}`"
  | methodWithoutDictionary => "trait method without a dictionary"
  | evidenceOutOfScope bound => s!"evidence for `{bound}` is out of scope"
  | stated text => text

end Misuse

inductive Failure where
  | typeMismatch (expected found : Ty)
  /-- A bound of a variable that the type bound to it does not meet. -/
  | traitMismatch (ty : Ty) (bound : Trait)
  | missingImpl (ty : Ty) (bound : Trait)
  | duplicateImpl (ty : Ty) (bound : Trait)
  | unboundType (ty : Ty)
  | unboundReturn (ty : Ty)
  | unknownIdentifier (name : String)
  | unknownType (name : String)
  | unknownField (ty : Ty) (field : String)
  | unknownCaseTag (enum tag : String)
  | unknownMethod (bound : Trait) (method : String)
  | duplicateField (name : String)
  | duplicateCase (name : String)
  | duplicateDeclaration (name : String)
  | missingField (adt field : String)
  | incompleteMatch (enum tag : String)
  | missingMethod (bound : Trait) (method : String)
  /-- `what` names, in the plural, the things that were counted. -/
  | arityMismatch (what : String) (expected found : Nat)
  | invalidContext (misuse : Misuse)
  | missingTypeContext
  | indexOutOfBounds (ty : Ty) (index : Nat)
  | infiniteType (var ty : Ty)
  | notAFunction (ty : Ty)
  | expectedEnum (ty : Ty)
  | notIterable (ty : Ty)
deriving DecidableEq

namespace Failure

def message : Failure → String
  | typeMismatch expected found => s!"mismatched types: expected `{expected}`, found `{found}`"
  | traitMismatch ty bound => s!"the trait `{bound}` is not satisfied by `{ty}`"
  | missingImpl ty bound => s!"no implementation of `{bound}` for `{ty}`"
  | duplicateImpl ty bound => s!"`{bound}` is already implemented for `{ty}`"
  | unboundType ty => s!"type annotations needed: `{ty}` is not fully known here"
  | unboundReturn ty => s!"cannot infer the return type of this call (found `{ty}`)"
  | unknownIdentifier name => s!"cannot find value `{name}` in this scope"
  | unknownType name => s!"cannot find type `{name}` in this scope"
  | unknownField ty field => s!"`{ty}` has no field `{field}`"
  | unknownCaseTag enum tag => s!"enum `{enum}` has no case `{tag}`"
  | unknownMethod bound method => s!"`{method}` is not a method of trait `{bound}`"
  | duplicateField name => s!"field `{name}` is specified more than once"
  | duplicateCase name => s!"case `{name}` is matched more than once"
  | duplicateDeclaration name => s!"`{name}` is declared more than once"
  | missingField adt field => s!"missing field `{field}` in `{adt}`"
  | incompleteMatch enum tag => s!"match on `{enum}` does not cover case `{tag}`"
  | missingMethod bound method => s!"missing method `{method}` in impl of `{bound}`"
  | arityMismatch what expected found => s!"expected {expected} {what}, found {found}"
  | invalidContext misuse => misuse.text
  | missingTypeContext =>
    "cannot infer the type of this closure without an expected function type"
  | indexOutOfBounds ty index => s!"index {index} is out of bounds for `{ty}`"
  | infiniteType var ty => s!"cannot construct infinite type: `{var}` occurs in `{ty}`"
  | notAFunction ty => s!"expected a function, found `{ty}`"
  | expectedEnum ty => s!"expected an enum value, found `{ty}`"
  | notIterable ty => s!"cannot iterate over `{ty}`; expected an array"

def code : Failure → Code
  | typeMismatch _ _ | notIterable _ => .typeMismatch
  | traitMismatch _ _ => .traitMismatch
  | missingImpl _ _ => .missingImpl
  | duplicateImpl _ _ => .duplicateImpl
  | unboundType _ => .unboundType
  | unboundReturn _ => .unboundReturn
  | unknownIdentifier _ => .unknownIdentifier
  | unknownType _ => .unknownType
  | unknownField _ _ => .unknownField
  | unknownCaseTag _ _ => .unknownCaseTag
  | unknownMethod _ _ => .unknownMethod
  | duplicateField _ => .duplicateField
  | duplicateCase _ => .duplicateCase
  | duplicateDeclaration _ => .duplicateDeclaration
  | missingField _ _ => .missingField
  | incompleteMatch _ _ => .incompleteMatch
  | missingMethod _ _ => .missingMethod
  | arityMismatch _ _ _ => .arityMismatch
  | invalidContext _ => .invalidContext
  | missingTypeContext => .missingTypeContext
  | indexOutOfBounds _ _ => .indexOutOfBounds
  | infiniteType _ _ => .infiniteType
  | notAFunction _ => .notAFunction
  | expectedEnum _ => .expectedEnum

/-- A trait bound without evidence, met while binding a variable or while
looking for the evidence that a call passes. -/
def isTraitFailure : Failure → Bool
  | traitMismatch _ _ | missingImpl _ _ => true
  | _ => false

end Failure

/-- A failure at a place. -/
structure TypeError where
  failure : Failure
  span : Span
deriving DecidableEq

namespace TypeError

/-- What else is worth saying about two types that do not agree. -/
def explainMismatch (d : Diagnostic) (expected found : Ty) : Diagnostic :=
  if expected.isNamed "Int" && found.isNamed "Float" then
    d.withNote "Tarn never converts between Float and Int implicitly"
  else if expected.isNamed "Float" && found.isNamed "Int" then
    d.withHelp "write the literal with a decimal point, e.g. `1.0`"
  else if found.isVoid then
    d.withNote "this expression does not produce a value"
  else
    match expected.asFunc?, found.asFunc? with
    | some e, some f =>
      if e.params.length ≠ f.params.length then
        d.withNote s!"expected function with {e.params.length} parameter(s), found function with {f.params.length} parameter(s)"
      else d
    | _, _ => d

def toDiagnostic (e : TypeError) : Diagnostic :=
  let d := (Diagnostic.error e.span e.failure.message).withCode e.failure.code
  match e.failure with
  | .typeMismatch expected found =>
    explainMismatch (d.withLabel e.span s!"expected `{expected}`, found `{found}`") expected found
  | .traitMismatch ty bound | .missingImpl ty bound =>
    (d.withLabel e.span s!"`{ty}` does not implement `{bound}`").withHelp
      s!"add `impl {bound} for {ty}`, or use a type that implements it"
  | .unknownIdentifier name => d.withLabel e.span s!"`{name}` not found in this scope"
  | .arityMismatch what expected _ => d.withLabel e.span s!"expected {expected} {what}"
  | .incompleteMatch _ tag =>
    (d.withLabel e.span s!"case `{tag}` not covered").withNote
      "every enum case must be matched exactly once"
  | .infiniteType _ _ =>
    d.withNote "this would create a recursive type that is infinite in size"
  | failure => d.withLabel e.span failure.code.description

end TypeError

end TraitCheck
