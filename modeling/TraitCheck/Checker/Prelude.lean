import TraitCheck.Checker.State

/-!
The built-in types, traits, operators and functions.
-/

namespace TraitCheck.Prelude

def types : List String := ["Void", "Int", "Float", "String", "Bool"]

/-- Each built-in trait with the primitive types that implement it. -/
def traits : List (Trait × List String) :=
  [("Num", ["Int", "Float"]),
   ("Eq", ["Int", "Float", "String", "Bool"]),
   ("Show", ["Int", "Float", "String", "Bool"]),
   ("Debug", ["Int", "Float", "String", "Bool"])]

/-- A function whose operands all have one type that implements `bound`. The
result has that type too, unless `ret` gives another. -/
structure GenericFunc where
  name : String
  op : Op
  bound : Trait
  arity : Nat
  ret : Option Ty

def genericFuncs : List GenericFunc :=
  [⟨"+", .add, "Num", 2, none⟩,
   ⟨"-", .sub, "Num", 2, none⟩,
   ⟨"*", .mul, "Num", 2, none⟩,
   ⟨"/", .div, "Num", 2, none⟩,
   ⟨"%", .rem, "Num", 2, none⟩,
   ⟨"<", .lt, "Num", 2, some .bool⟩,
   ⟨">", .gt, "Num", 2, some .bool⟩,
   ⟨"<=", .le, "Num", 2, some .bool⟩,
   ⟨">=", .ge, "Num", 2, some .bool⟩,
   ⟨"==", .eq, "Eq", 2, some .bool⟩,
   ⟨"!=", .ne, "Eq", 2, some .bool⟩,
   ⟨"neg", .neg, "Num", 1, none⟩,
   ⟨"show", .show, "Show", 1, some .string⟩,
   ⟨"debug", .debug, "Debug", 1, some .string⟩]

def plainFuncs : List (String × Op × Ty) :=
  [("!", .not, .func [.bool] .bool),
   ("&&", .and, .func [.bool, .bool] .bool),
   ("||", .or, .func [.bool, .bool] .bool),
   ("print_int", .printInt, .func [.int] .void),
   ("print_float", .printFloat, .func [.float] .void),
   ("print_string", .printString, .func [.string] .void),
   ("print_bool", .printBool, .func [.bool] .void)]

def addType (s : Checker) (name : String) : Checker :=
  { s with scope := s.scope.bindType name (.named name []) }

def addTrait (s : Checker) (trait : Trait × List String) : Checker :=
  let (name, types) := trait
  let (selfVar, unifier) := s.unifier.freshVar "Self" (.singleton name)
  let evidence := types.foldl
    (fun evidence ty => evidence.insert (.named ty, name) (.intrinsic name ty))
    s.registry.evidence
  let traits := s.registry.traits.insert name ⟨name, selfVar, ∅⟩
  { s with unifier, registry := { traits, evidence } }

/-- The type of a generic function over its type variable. -/
def GenericFunc.ty (f : GenericFunc) (var : TyVar) : Ty :=
  .funcWith [⟨.var var, f.bound⟩] (List.replicate f.arity (.var var)) (f.ret.getD (.var var))

def addGenericFunc (s : Checker) (f : GenericFunc) : Checker :=
  let (var, unifier) := s.unifier.freshVar "T" (.singleton f.bound)
  let value : Value := { kind := .builtin f.op, ty := f.ty var, generics := [var] }
  { s with unifier, scope := s.scope.bindValue f.name value }

def addPlainFunc (s : Checker) (f : String × Op × Ty) : Checker :=
  let (name, op, ty) := f
  { s with scope := s.scope.bindValue name { kind := .builtin op, ty } }

/-- Adds all that is built in. -/
def install (s : Checker) : Checker :=
  let s := types.foldl addType s
  let s := traits.foldl addTrait s
  let s := genericFuncs.foldl addGenericFunc s
  let s := plainFuncs.foldl addPlainFunc s
  { s with preludeInstalled := true }

end TraitCheck.Prelude
