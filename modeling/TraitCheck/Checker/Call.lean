import TraitCheck.Checker.State
import TraitCheck.Surface.Program

/-!
References to values, and calls. A call unifies its arguments with the
parameters from left to right and then passes, before the arguments, the
evidence for each obligation of the callee.
-/

namespace TraitCheck.Checker

/-- What a call is made to. -/
inductive Callee where
  | expr (e : Core.Expr)
  | builtin (op : Op)
  /-- A slot of the dictionary that the call finds. -/
  | method (index : Nat)

/-- Looks a value up, and lets the innermost function capture it. -/
def lookup? (name : String) : CheckM (Option Value) :=
  modifyGet fun s =>
    let (value, scope) := s.scope.getValue name
    (value, { s with scope })

def lookupValue (name : String) (span : Span) : CheckM Value := do
  match ← lookup? name with
  | some value => return value
  | none => fail (.unknownIdentifier name) span

/-- The type of a reference to the value, over fresh variables. -/
def instantiate (value : Value) : CheckM Ty :=
  modifyGet fun s =>
    let (ty, unifier) := s.unifier.instantiate value.generics value.ty
    (ty, { s with unifier })

/-- A value that is not called. -/
def reference (name : String) (span : Span) : CheckM Core.Expr := do
  let value ← lookupValue name span
  match value.kind with
  | .binding id => return ⟨.ident id, ← instantiate value⟩
  | _ => fail (.invalidContext (.onlyCallable name)) span

/-- A value that is called, with its type. -/
def namedCallee (name : String) (span : Span) : CheckM (Callee × Ty) := do
  let value ← lookupValue name span
  let ty ← instantiate value
  match value.kind with
  | .binding id => return (.expr ⟨.ident id, ty⟩, ty)
  | .builtin op => return (.builtin op, ty)
  | .method _ index => return (.method index, ty)

/-- What is called, with its type: a value by its name, or what `check` gives. -/
def calleeOf (callee : Surface.Expr) (check : CheckM Core.Expr) : CheckM (Callee × Ty) :=
  match callee with
  | .ident name span => namedCallee name span
  | _ => do
    let value ← check
    return (.expr value, value.ty)

def openCall (ty : Ty) (span : Span) : CheckM FuncShape := do
  let ty ← resolve ty
  match ty.asFunc? with
  | some shape => return shape
  | none => fail (.notAFunction ty) span

/-- The dictionary to pass for an obligation. A dictionary that is held in a
binding is looked up by its name, so that the function that uses it captures
it. -/
def dictionary (span : Span) (obligation : Obligation) : CheckM Core.Expr := do
  let ty ← resolve obligation.ty
  let evidence ← ofExcept span ((← get).registry.require ty obligation.bound)
  let dictTy := dictionaryType obligation.bound ty
  match evidence with
  | .intrinsic bound primitive => return ⟨.builtin (.dictionary bound primitive) [], dictTy⟩
  | .binding name id => do
    let value ← lookup? name
    ensure value.isSome (.invalidContext (.evidenceOutOfScope obligation.bound)) span
    return ⟨.ident id, dictTy⟩

def dictionaries (span : Span) : List Obligation → CheckM (List Core.Expr)
  | [] => return []
  | obligation :: rest => do
    let dict ← dictionary span obligation
    let dicts ← dictionaries span rest
    return dict :: dicts

/-- The call itself, once all its parts are known. -/
def applied (callee : Callee) (dicts args : List Core.Expr) (params : List Ty) (ret : Ty)
    (span : Span) : CheckM Core.Expr :=
  match callee, dicts with
  | .builtin op, dicts => return ⟨.builtin op (dicts ++ args), ret⟩
  | .expr callee, dicts => return ⟨.call callee (dicts ++ args) (!ret.isVoid), ret⟩
  | .method index, dict :: _ =>
    return ⟨.call ⟨.field dict index, .func params ret⟩ args (!ret.isVoid), ret⟩
  | .method _, [] => fail (.invalidContext .methodWithoutDictionary) span

/-- Finishes a call whose arguments are checked. -/
def closeCall (callee : Callee) (shape : FuncShape) (args : List Core.Expr) (span : Span) :
    CheckM Core.Expr := do
  let dicts ← dictionaries span shape.obligations
  let ret ← resolve shape.ret
  ensure (¬ret.isVar) (.unboundReturn ret) span
  let unifier := (← get).unifier
  applied callee dicts args (shape.params.map unifier.resolve) ret span

end TraitCheck.Checker
