import TraitCheck.Ty.Basic

/-!
How types are written in messages: `?T7`, `Cell<Int>`, `(Int, Bool)`,
`Func(Int): Bool`, `[Int; 3]`. Obligations are not written.
-/

namespace TraitCheck

def Con.display : Con → String
  | .named name => name
  | .tuple arity => s!"Tuple({arity})"
  | .func arity => s!"Func({arity})"
  | .array => "Array"
  | .tracer _ name => name

/-- A concrete type, given how its parameters are written. -/
def Head.display (head : Head) (params : List String) : String :=
  match head.con, params with
  | .named name, [] => name
  | .named name, params => name ++ "<" ++ ", ".intercalate params ++ ">"
  | .tuple _, params => "(" ++ ", ".intercalate params ++ ")"
  | .func _, ret :: params => "Func(" ++ ", ".intercalate params ++ "): " ++ ret
  | .array, elem :: _ => s!"[{elem}; {head.size}]"
  | .tracer _ name, _ => name
  | con, [] => con.display

namespace Ty

mutual

def display : Ty → String
  | .var v => s!"?{v.name}{v.id}"
  | .app head args =>
    head.display ((displayAll args).take (args.length - head.bounds.length))

def displayAll : List Ty → List String
  | [] => []
  | t :: rest => t.display :: displayAll rest

end

end Ty

instance : ToString Ty := ⟨Ty.display⟩

end TraitCheck
