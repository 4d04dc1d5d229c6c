import TraitCheck.Ty.Basic

/-!
The typed core program that checking produces. Names are gone: every value is
known by a binding id, fields and cases by their index, and traits by the
dictionaries passed for them.
-/

namespace TraitCheck

/-- The identity of a bound value. Shadowed names have different ids. -/
abbrev BindingId := Nat

/-- A built-in operation. -/
inductive Op where
  | add | sub | mul | div | rem | neg
  | lt | gt | le | ge | eq | ne
  | not | and | or
  | printInt | printFloat | printString | printBool
  | show | debug
  /-- The built-in dictionary of a trait for a primitive type. -/
  | dictionary (bound : Trait) (ty : String)
deriving DecidableEq, Inhabited

namespace Core

/-- A value that a function takes along from outside, with its type. -/
structure Capture where
  binding : BindingId
  ty : Ty
deriving DecidableEq

mutual

structure Expr where
  kind : ExprKind
  ty : Ty

inductive ExprKind where
  | int (value : Int)
  /-- The bits of a double. -/
  | float (bits : UInt64)
  | bool (value : Bool)
  | void
  | string (text : String)
  | ident (id : BindingId)
  /-- A struct, a tuple, an array, or the payload of an enum case. -/
  | object (tag : Option Nat) (fields : List Expr)
  | func (func : FuncExpr)
  /-- `hasValue` is false where the callee returns `Void`. -/
  | call (callee : Expr) (args : List Expr) (hasValue : Bool)
  | builtin (op : Op) (args : List Expr)
  | field (target : Expr) (index : Nat)
  | block (body : Block)
  | cond (branches : List Branch) (otherwise : Block)
  /-- Binds `target` to `scrutinee` and runs the case of its tag. -/
  | cases (scrutinee : BindingId) (target : Expr) (cases : List Block)

/-- A function: its dictionary parameters come before its own. -/
structure FuncExpr where
  name : Option String
  captures : List Capture
  params : List BindingId
  body : Block

structure Branch where
  cond : Expr
  body : Block

/-- Statements and the type of the value that the last of them gives. -/
structure Block where
  stmts : List Stmt
  ty : Ty

inductive Stmt where
  | bind (id : BindingId) (value : Expr)
  | ret (value : Option Expr)
  | whileDo (cond : Expr) (body : Block)
  | forEach (id : BindingId) (iterable : Expr) (body : Block)
  | eval (value : Expr)

end

instance : Inhabited Expr := ⟨⟨.void, .void⟩⟩

def Block.empty : Block := ⟨[], .void⟩

def Stmt.isRet : Stmt → Bool
  | .ret _ => true
  | _ => false

/-- What stands for a captured value where the function is made. -/
def Capture.value (c : Capture) : Expr := ⟨.ident c.binding, c.ty⟩

end Core

end TraitCheck
