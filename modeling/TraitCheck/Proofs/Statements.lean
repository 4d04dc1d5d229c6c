import TraitCheck.Surface.Program

/-!
The statements of a program, at any depth. An occurrence of a statement tells
whether it stands inside a further function, and whether inside of another
statement other than a function.
-/

namespace TraitCheck.Surface

/-- A statement that occurs in a piece of program. -/
structure Occurrence where
  stmt : Stmt
  /-- Whether it stands inside of a function in that piece. -/
  inner : Bool
  /-- Whether it stands inside of an expression or a loop, and not only in the
  bodies of declared functions. -/
  nested : Bool

/-- The occurrence as seen from outside of a function. -/
def Occurrence.deepen (o : Occurrence) : Occurrence := { o with inner := true }

/-- The occurrence as seen from outside of a statement. -/
def Occurrence.nest (o : Occurrence) : Occurrence := { o with nested := true }

mutual

/-- All statements in the expression. -/
def Expr.stmts (e : Expr) : List Occurrence :=
  match e with
  | .int _ _ | .float _ _ | .string _ _ | .bool _ _ | .ident _ _ => []
  | .tuple elems _ => stmtsOfExprs elems
  | .array elems _ => stmtsOfExprs elems
  | .construct _ _ inits _ => stmtsOfInits inits
  | .field target _ _ => target.stmts
  | .call callee args _ => callee.stmts ++ stmtsOfExprs args
  | .binary _ lhs rhs _ => lhs.stmts ++ rhs.stmts
  | .unary _ operand _ => operand.stmts
  | .closure _ body _ => body.occurrences.map .deepen
  | .cond branches otherwise _ => stmtsOfBranches branches ++ stmtsOfElse otherwise
  | .cases target cases _ => target.stmts ++ stmtsOfCases cases
  | .block body _ => body.occurrences
termination_by structural e

def stmtsOfExprs (es : List Expr) : List Occurrence :=
  match es with
  | [] => []
  | e :: rest => e.stmts ++ stmtsOfExprs rest
termination_by structural es

def stmtsOfInits (inits : List FieldInit) : List Occurrence :=
  match inits with
  | [] => []
  | ⟨_, e⟩ :: rest => e.stmts ++ stmtsOfInits rest
termination_by structural inits

def stmtsOfBranches (branches : List Branch) : List Occurrence :=
  match branches with
  | [] => []
  | ⟨cond, body⟩ :: rest => cond.stmts ++ body.occurrences ++ stmtsOfBranches rest
termination_by structural branches

def stmtsOfElse (otherwise : Option Block) : List Occurrence :=
  match otherwise with
  | none => []
  | some block => block.occurrences
termination_by structural otherwise

def stmtsOfCases (cases : List Case) : List Occurrence :=
  match cases with
  | [] => []
  | ⟨_, _, ⟨stmts, _⟩, _⟩ :: rest => stmtsOfStmts stmts ++ stmtsOfCases rest
termination_by structural cases

def Block.occurrences (block : Block) : List Occurrence :=
  match block with
  | ⟨stmts, _⟩ => stmtsOfStmts stmts
termination_by structural block

def stmtsOfStmts (stmts : List Stmt) : List Occurrence :=
  match stmts with
  | [] => []
  | stmt :: rest => stmt.stmts ++ stmtsOfStmts rest
termination_by structural stmts

/-- The statement itself, and all statements in it. -/
def Stmt.stmts (stmt : Stmt) : List Occurrence :=
  ⟨stmt, false, false⟩ ::
    match stmt with
    | .bind _ _ value _ => value.stmts.map .nest
    | .func decl => decl.stmts
    | .struct _ _ _ _ => []
    | .enum _ _ _ _ => []
    | .trait _ _ _ => []
    | .impl _ _ methods _ => stmtsOfDecls methods
    | .ret none _ => []
    | .ret (some value) _ => value.stmts.map .nest
    | .whileDo cond body _ => (cond.stmts ++ body.occurrences).map .nest
    | .forEach _ iterable body _ => (iterable.stmts ++ body.occurrences).map .nest
    | .eval value _ => value.stmts.map .nest
termination_by structural stmt

def FuncDecl.stmts (decl : FuncDecl) : List Occurrence :=
  match decl with
  | ⟨_, _, _, _, body, _⟩ => body.occurrences.map .deepen
termination_by structural decl

def stmtsOfDecls (decls : List FuncDecl) : List Occurrence :=
  match decls with
  | [] => []
  | decl :: rest => decl.stmts ++ stmtsOfDecls rest
termination_by structural decls

end

/-- The functions that the statement itself declares. -/
def Stmt.functions : Stmt → List FuncDecl
  | .func decl => [decl]
  | .impl _ _ methods _ => methods
  | _ => []

/-- All functions that a program declares, at any depth. -/
def functionsOf (program : Program) : List FuncDecl :=
  (stmtsOfStmts program).flatMap (·.stmt.functions)

def Stmt.isReturn : Stmt → Bool
  | .ret _ _ => true
  | _ => false

def Stmt.isEval : Stmt → Bool
  | .eval _ _ => true
  | _ => false

def Stmt.isImpl : Stmt → Bool
  | .impl _ _ _ _ => true
  | _ => false

def Stmt.isBind : Stmt → Bool
  | .bind _ _ _ _ => true
  | _ => false

/-- The name of the type or the trait that the statement declares. -/
def Stmt.typeName? : Stmt → Option String
  | .struct name _ _ _ | .enum name _ _ _ | .trait name _ _ => some name.text
  | _ => none

/-- A binding with a type, or a function with a result type. -/
def Stmt.isAnnotated : Stmt → Bool
  | .bind _ written _ _ => written.isSome
  | .func decl => decl.ret.isSome
  | _ => true

end TraitCheck.Surface
