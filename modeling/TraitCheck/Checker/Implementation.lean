import TraitCheck.Checker.TypeExpr

/-!
Implementations of traits. An implementation becomes a dictionary, an object
that holds its methods in the order of the trait, and the binding of the
dictionary is the evidence for the implementing type.
-/

namespace TraitCheck.Checker

open Surface (TypeExpr)

/-- An implementation whose methods are being checked. -/
structure Impl where
  decl : TraitDecl
  target : Ty
  binding : BindingId

def Impl.dictionaryType (impl : Impl) : Ty := TraitCheck.dictionaryType impl.decl.name impl.target

/-- Registers the dictionary of an implementation before its methods. Evidence
is kept by constructor, so the type may not take type arguments. -/
def openImpl (bound : Name) (written : TypeExpr) (span : Span) : CheckM Impl := do
  match (← get).registry.trait? bound.text with
  | none => fail (.unknownType bound.text) bound.span
  | some decl =>
    let target ← typeFor written
    match target.con? with
    | none => fail (.unboundType target) written.span
    | some con =>
      ensure target.params.isEmpty (.invalidContext (.implWithTypeArguments decl.name target))
        written.span
      let name := s!"${decl.name}<{con.display}>"
      let binding ← freshBinding
      provide span target decl.name (.binding name binding)
      let impl : Impl := ⟨decl, target, binding⟩
      bindValue name { kind := .binding binding, ty := impl.dictionaryType }
      return impl

/-- The type that a method of the implementation has to have: that of the
trait at the implementing type, without the dictionary. -/
def Impl.methodType (impl : Impl) (sig : Ty) (span : Span) : CheckM Ty :=
  match (sig.substitute [(impl.decl.selfVar.id, impl.target)]).asFunc? with
  | some shape => return .func shape.params shape.ret
  | none => fail (.notAFunction sig) span

end TraitCheck.Checker
