/-!
The stable codes of checking failures, each with a description and, for some,
a suggested fix.
-/

namespace TraitCheck

inductive Code where
  | typeMismatch
  | traitMismatch
  | missingImpl
  | duplicateImpl
  | unboundType
  | unboundReturn
  | unknownIdentifier
  | unknownType
  | unknownField
  | unknownCaseTag
  | unknownMethod
  | duplicateField
  | duplicateCase
  | duplicateDeclaration
  | missingField
  | incompleteMatch
  | missingMethod
  | arityMismatch
  | invalidContext
  | missingTypeContext
  | indexOutOfBounds
  | infiniteType
  | notAFunction
  | expectedEnum
deriving DecidableEq, Inhabited

namespace Code

def text : Code → String
  | typeMismatch => "E0200"
  | traitMismatch => "E0201"
  | missingImpl => "E0202"
  | duplicateImpl => "E0203"
  | unboundType => "E0204"
  | unboundReturn => "E0205"
  | unknownIdentifier => "E0206"
  | unknownType => "E0207"
  | unknownField => "E0208"
  | unknownCaseTag => "E0209"
  | unknownMethod => "E0210"
  | duplicateField => "E0211"
  | duplicateCase => "E0212"
  | duplicateDeclaration => "E0213"
  | missingField => "E0214"
  | incompleteMatch => "E0215"
  | missingMethod => "E0216"
  | arityMismatch => "E0217"
  | invalidContext => "E0218"
  | missingTypeContext => "E0219"
  | indexOutOfBounds => "E0220"
  | infiniteType => "E0221"
  | notAFunction => "E0222"
  | expectedEnum => "E0223"

def description : Code → String
  | typeMismatch => "mismatched types"
  | traitMismatch => "type does not satisfy a trait bound"
  | missingImpl => "trait is not implemented for type"
  | duplicateImpl => "trait is implemented twice for the same type"
  | unboundType => "type could not be inferred"
  | unboundReturn => "return type could not be inferred"
  | unknownIdentifier => "cannot find value in this scope"
  | unknownType => "cannot find type in this scope"
  | unknownField => "no such field"
  | unknownCaseTag => "no such enum case"
  | unknownMethod => "method is not a member of the trait"
  | duplicateField => "field specified more than once"
  | duplicateCase => "enum case matched more than once"
  | duplicateDeclaration => "name declared more than once"
  | missingField => "missing field in construction"
  | incompleteMatch => "match does not cover every case"
  | missingMethod => "missing required method in trait implementation"
  | arityMismatch => "wrong number of arguments"
  | invalidContext => "construct used outside of a valid context"
  | missingTypeContext => "closure needs a known function type"
  | indexOutOfBounds => "index out of bounds"
  | infiniteType => "cannot construct infinite type"
  | notAFunction => "expected a function, found a different type"
  | expectedEnum => "expected an enum value"

def suggestion : Code → Option String
  | unknownIdentifier => some "check the spelling or ensure the value is in scope"
  | unknownType => some "check the spelling or declare the type before use"
  | missingField => some "add the missing field to the construction"
  | incompleteMatch => some "add a case for every enum tag"
  | missingMethod => some "implement all methods declared by the trait"
  | missingTypeContext =>
    some "pass the closure where a function type is expected, or annotate the binding"
  | unboundReturn => some "annotate the return type"
  | _ => none

end Code

end TraitCheck
