import TraitCheck.Surface.TypeExpr

/-!
Programs as they are written: statements, declarations and expressions, each
with its place in the source text.
-/

namespace TraitCheck.Surface

inductive BinOp where
  | add | sub | mul | div | rem
  | lt | gt | le | ge | eq | ne
  | and | or
deriving DecidableEq

/-- The value name that an operator calls. -/
def BinOp.symbol : BinOp → String
  | add => "+"
  | sub => "-"
  | mul => "*"
  | div => "/"
  | rem => "%"
  | lt => "<"
  | gt => ">"
  | le => "<="
  | ge => ">="
  | eq => "=="
  | ne => "!="
  | and => "&&"
  | or => "||"

inductive UnOp where
  | not | neg
deriving DecidableEq

def UnOp.symbol : UnOp → String
  | not => "!"
  | neg => "neg"

/-- `p:x` selects by name, `t:0` by position. -/
inductive FieldRef where
  | name (name : String)
  | index (index : Nat)

def FieldRef.text : FieldRef → String
  | .name text => text
  | .index i => toString i

inductive Pattern where
  | name (name : Name)
  | tuple (names : List Name)

/-- A type parameter with its bounds: `T: Num + Eq`. -/
structure GenericParam where
  name : Name
  bounds : List Name

structure Param where
  name : Name
  ty : TypeExpr

structure ClosureParam where
  name : Name
  ty : Option TypeExpr

structure FieldDecl where
  name : Name
  ty : TypeExpr

/-- A case of an enum with the fields of its payload. -/
structure TagDecl where
  name : Name
  fields : List FieldDecl

/-- A trait method. `Self` names the implementing type. -/
structure MethodSig where
  name : Name
  params : List TypeExpr
  ret : TypeExpr

/-- Binds the payload field `field` to the name `binding`. -/
structure CaseBinding where
  field : Name
  binding : Name

mutual

inductive Expr where
  | int (value : Int) (span : Span)
  /-- The bits of a double. -/
  | float (bits : UInt64) (span : Span)
  | string (text : String) (span : Span)
  | bool (value : Bool) (span : Span)
  | ident (name : String) (span : Span)
  | tuple (elems : List Expr) (span : Span)
  | array (elems : List Expr) (span : Span)
  /-- A struct or, with a tag, a value of an enum. -/
  | construct (ty : Name) (tag : Option Name) (inits : List FieldInit) (span : Span)
  | field (target : Expr) (field : FieldRef) (span : Span)
  | call (callee : Expr) (args : List Expr) (span : Span)
  | binary (op : BinOp) (lhs rhs : Expr) (span : Span)
  | unary (op : UnOp) (operand : Expr) (span : Span)
  | closure (params : List ClosureParam) (body : Block) (span : Span)
  | cond (branches : List Branch) (otherwise : Option Block) (span : Span)
  | cases (target : Expr) (cases : List Case) (span : Span)
  | block (body : Block) (span : Span)

structure FieldInit where
  name : Name
  value : Expr

structure Branch where
  cond : Expr
  body : Block

structure Case where
  tag : Name
  bindings : List CaseBinding
  body : Block
  span : Span

/-- Statements whose value is that of the last, if it is an expression. -/
structure Block where
  stmts : List Stmt
  span : Span

inductive Stmt where
  | bind (pattern : Pattern) (written : Option TypeExpr) (value : Expr) (span : Span)
  | func (decl : FuncDecl)
  | struct (name : Name) (generics : List GenericParam) (fields : List FieldDecl) (span : Span)
  | enum (name : Name) (generics : List GenericParam) (tags : List TagDecl) (span : Span)
  | trait (name : Name) (methods : List MethodSig) (span : Span)
  | impl (bound : Name) (ty : TypeExpr) (methods : List FuncDecl) (span : Span)
  | ret (value : Option Expr) (span : Span)
  | whileDo (cond : Expr) (body : Block) (span : Span)
  | forEach (name : Name) (iterable : Expr) (body : Block) (span : Span)
  | eval (value : Expr) (span : Span)

structure FuncDecl where
  name : Name
  generics : List GenericParam
  params : List Param
  ret : Option TypeExpr
  body : Block
  span : Span

end

abbrev Program := List Stmt

def Expr.span : Expr → Span
  | .int _ span | .float _ span | .string _ span | .bool _ span | .ident _ span
  | .tuple _ span | .array _ span | .construct _ _ _ span | .field _ _ span
  | .call _ _ span | .binary _ _ _ span | .unary _ _ span | .closure _ _ span
  | .cond _ _ span | .cases _ _ span | .block _ span => span

end TraitCheck.Surface
