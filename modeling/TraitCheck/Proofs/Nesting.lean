import TraitCheck.Surface.Program

/-!
How many expressions of a program stand inside each other. A callee that is only
a name is not an expression of its own.
-/

namespace TraitCheck.Surface

def Expr.isIdent : Expr → Bool
  | .ident _ _ => true
  | _ => false

mutual

/-- The number of expressions inside each other, not counting the whole. -/
def Expr.inner (e : Expr) : Nat :=
  match e with
  | .int _ _ | .float _ _ | .string _ _ | .bool _ _ | .ident _ _ => 0
  | .tuple elems _ | .array elems _ => nestingExprs elems
  | .construct _ _ inits _ => nestingInits inits
  | .field target _ _ => target.inner + 1
  | .call callee args _ => max (if callee.isIdent then 0 else callee.inner + 1) (nestingExprs args)
  | .binary _ lhs rhs _ => max (lhs.inner + 1) (rhs.inner + 1)
  | .unary _ operand _ => operand.inner + 1
  | .closure _ body _ => body.nesting
  | .cond branches otherwise _ => max (nestingBranches branches) (nestingElse otherwise)
  | .cases target cases _ => max (target.inner + 1) (nestingCases cases)
  | .block body _ => body.nesting

def Block.nesting (block : Block) : Nat :=
  match block with
  | ⟨stmts, _⟩ => nestingStmts stmts

def Stmt.nesting (stmt : Stmt) : Nat :=
  match stmt with
  | .bind _ _ value _ => value.inner + 1
  | .func decl => decl.nesting
  | .struct .. | .enum .. | .trait .. => 0
  | .impl _ _ methods _ => nestingFuncs methods
  | .ret none _ => 0
  | .ret (some value) _ => value.inner + 1
  | .whileDo cond body _ => max (cond.inner + 1) body.nesting
  | .forEach _ iterable body _ => max (iterable.inner + 1) body.nesting
  | .eval value _ => value.inner + 1

def FuncDecl.nesting (decl : FuncDecl) : Nat :=
  match decl with
  | ⟨_, _, _, _, body, _⟩ => body.nesting

def nestingElse (otherwise : Option Block) : Nat :=
  match otherwise with
  | none => 0
  | some block => block.nesting

def nestingExprs (es : List Expr) : Nat :=
  match es with
  | [] => 0
  | e :: rest => max (e.inner + 1) (nestingExprs rest)

def nestingInits (inits : List FieldInit) : Nat :=
  match inits with
  | [] => 0
  | ⟨_, e⟩ :: rest => max (e.inner + 1) (nestingInits rest)

def nestingBranches (branches : List Branch) : Nat :=
  match branches with
  | [] => 0
  | ⟨cond, body⟩ :: rest => max (max (cond.inner + 1) body.nesting) (nestingBranches rest)

def nestingCases (cases : List Case) : Nat :=
  match cases with
  | [] => 0
  | ⟨_, _, body, _⟩ :: rest => max body.nesting (nestingCases rest)

/-- The number of expressions inside each other in a list of statements. -/
def nestingStmts (stmts : List Stmt) : Nat :=
  match stmts with
  | [] => 0
  | stmt :: rest => max stmt.nesting (nestingStmts rest)

def nestingFuncs (decls : List FuncDecl) : Nat :=
  match decls with
  | [] => 0
  | decl :: rest => max decl.nesting (nestingFuncs rest)

end

/-- `f(-1)`: the call, the negation and the number, but not the name. -/
example : nestingStmts [.eval (.call (.ident "f" .dummy) [.unary .neg (.int 1 .dummy) .dummy] .dummy)
    .dummy] = 3 := rfl

end TraitCheck.Surface
