import TraitCheck.Span

/-!
Type annotations as they are written.
-/

namespace TraitCheck.Surface

inductive TypeExpr where
  /-- `Int`, `T`, `Option<Int>` -/
  | ident (name : String) (args : List TypeExpr) (span : Span)
  /-- `(Int, String)` -/
  | tuple (elems : List TypeExpr) (span : Span)
  /-- `Func(Int, Int): Bool` -/
  | func (params : List TypeExpr) (ret : TypeExpr) (span : Span)
  /-- `[Int; 3]` -/
  | array (elem : TypeExpr) (size : Nat) (span : Span)

def TypeExpr.span : TypeExpr → Span
  | .ident _ _ span | .tuple _ span | .func _ _ span | .array _ _ span => span

end TraitCheck.Surface
