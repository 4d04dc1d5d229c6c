import TraitCheck.TraitSet

/-!
Types. A type is a variable, or a head applied to arguments: first the
parameters of its constructor, then one subject for each trait bound that the
head lists. So types are first-order terms, and whatever walks a type walks one
list of arguments. The parameters and the obligations of a type are read back
by `params` and `obligations`.
-/

namespace TraitCheck

abbrev VarId := Nat

/-- The identity of a type constructor. -/
inductive Con where
  /-- A primitive, a struct or an enum. -/
  | named (name : String)
  | tuple (arity : Nat)
  /-- A function of the given arity. Its first parameter is the result. -/
  | func (arity : Nat)
  | array
  /-- Stands for a type parameter inside the body of its function. -/
  | tracer (id : Nat) (name : String)
deriving DecidableEq, Inhabited

/-- An unknown type and the traits that it has to implement. -/
structure TyVar where
  id : VarId
  name : String
  traits : TraitSet
deriving DecidableEq, Inhabited

/-- What a concrete type has besides its arguments: its constructor, the
length of an array, and the trait required of each of its last arguments. -/
structure Head where
  con : Con
  size : Nat := 0
  bounds : List Trait := []
deriving DecidableEq, Inhabited

inductive Ty where
  | var (v : TyVar)
  | app (head : Head) (args : List Ty)
deriving Inhabited

/-- The demand that a caller shows `ty` to implement `bound`. -/
structure Obligation where
  ty : Ty
  bound : Trait

/-- A function type taken apart. -/
structure FuncShape where
  obligations : List Obligation
  params : List Ty
  ret : Ty

namespace Ty

/-- The type with the given constructor, parameters, obligations and size. -/
def concrete (con : Con) (params : List Ty) (obligations : List Obligation)
    (size : Nat) : Ty :=
  .app ⟨con, size, obligations.map (·.bound)⟩ (params ++ obligations.map (·.ty))

def named (name : String) (params : List Ty) : Ty := concrete (.named name) params [] 0

def void : Ty := named "Void" []

def int : Ty := named "Int" []

def float : Ty := named "Float" []

def string : Ty := named "String" []

def bool : Ty := named "Bool" []

def tuple (elems : List Ty) : Ty := concrete (.tuple elems.length) elems [] 0

def funcWith (obligations : List Obligation) (params : List Ty) (ret : Ty) : Ty :=
  concrete (.func params.length) (ret :: params) obligations 0

def func (params : List Ty) (ret : Ty) : Ty := funcWith [] params ret

def array (elem : Ty) (size : Nat) : Ty := concrete .array [elem] [] size

def tracer (id : Nat) (name : String) : Ty := concrete (.tracer id name) [] [] 0

def asVar? : Ty → Option TyVar
  | .var v => some v
  | .app _ _ => none

def isVar : Ty → Bool
  | .var _ => true
  | .app _ _ => false

def con? : Ty → Option Con
  | .var _ => none
  | .app head _ => some head.con

def size : Ty → Nat
  | .var _ => 0
  | .app head _ => head.size

def params : Ty → List Ty
  | .var _ => []
  | .app head args => args.take (args.length - head.bounds.length)

def obligations : Ty → List Obligation
  | .var _ => []
  | .app head args =>
    List.zipWith Obligation.mk (args.drop (args.length - head.bounds.length)) head.bounds

def isNamed (ty : Ty) (name : String) : Bool := ty.con? = some (.named name)

def isVoid (ty : Ty) : Bool := ty.isNamed "Void"

def asFunc? (ty : Ty) : Option FuncShape :=
  match ty.con?, ty.params with
  | some (.func _), ret :: params => some ⟨ty.obligations, params, ret⟩
  | _, _ => none

mutual

/-- Whether any variable is left in the type. -/
def hasVars : Ty → Bool
  | .var _ => true
  | .app _ args => anyHasVars args

def anyHasVars : List Ty → Bool
  | [] => false
  | t :: rest => t.hasVars || anyHasVars rest

end

mutual

/-- Whether the variable `id` occurs in the type. -/
def mentions (id : VarId) : Ty → Bool
  | .var v => v.id = id
  | .app _ args => anyMentions id args

def anyMentions (id : VarId) : List Ty → Bool
  | [] => false
  | t :: rest => t.mentions id || anyMentions id rest

end

mutual

/-- The number of heads and variables in the type. -/
def nodes : Ty → Nat
  | .var _ => 1
  | .app _ args => 1 + allNodes args

def allNodes : List Ty → Nat
  | [] => 0
  | t :: rest => t.nodes + allNodes rest

end

mutual

/-- Puts `map` in place of the variables it knows, all at once. -/
def replace (map : VarId → Option Ty) : Ty → Ty
  | .var v => (map v.id).getD (.var v)
  | .app head args => .app head (replaceAll map args)

def replaceAll (map : VarId → Option Ty) : List Ty → List Ty
  | [] => []
  | t :: rest => t.replace map :: replaceAll map rest

end

mutual

/-- Puts `map` in place of the tracers it knows. -/
def untrace (map : Nat → Option Ty) : Ty → Ty
  | .var v => .var v
  | .app head args =>
    match head.con with
    | .tracer id _ => (map id).getD (.app head (untraceAll map args))
    | _ => .app head (untraceAll map args)

def untraceAll (map : Nat → Option Ty) : List Ty → List Ty
  | [] => []
  | t :: rest => t.untrace map :: untraceAll map rest

end

mutual

def decEq : (a b : Ty) → Decidable (a = b)
  | .var v, .var w =>
    if h : v = w then isTrue (h ▸ rfl) else isFalse fun e => h (Ty.var.inj e)
  | .app h as, .app k bs =>
    if hk : h = k then
      match decEqAll as bs with
      | isFalse hs => isFalse fun e => hs (Ty.app.inj e).2
      | isTrue hs => isTrue (hk ▸ hs ▸ rfl)
    else isFalse fun e => hk (Ty.app.inj e).1
  | .var _, .app _ _ => isFalse nofun
  | .app _ _, .var _ => isFalse nofun

def decEqAll : (as bs : List Ty) → Decidable (as = bs)
  | [], [] => isTrue rfl
  | a :: as, b :: bs =>
    match a.decEq b with
    | isFalse h => isFalse fun e => h (List.cons.inj e).1
    | isTrue h =>
      match decEqAll as bs with
      | isFalse hs => isFalse fun e => hs (List.cons.inj e).2
      | isTrue hs => isTrue (h ▸ hs ▸ rfl)
  | [], _ :: _ => isFalse nofun
  | _ :: _, [] => isFalse nofun

end

instance : DecidableEq Ty := decEq

theorem params_concrete (con : Con) (ps : List Ty) (os : List Obligation) (n : Nat) :
    (concrete con ps os n).params = ps := by
  simp [concrete, params]

theorem obligations_concrete (con : Con) (ps : List Ty) (os : List Obligation) (n : Nat) :
    (concrete con ps os n).obligations = os := by
  simp only [concrete, obligations, List.length_append, List.length_map, Nat.add_sub_cancel,
    List.drop_left]
  induction os with
  | nil => rfl
  | cons o rest ih => simp [ih]

theorem asFunc?_funcWith (os : List Obligation) (ps : List Ty) (ret : Ty) :
    (funcWith os ps ret).asFunc? = some ⟨os, ps, ret⟩ := by
  simp only [asFunc?, funcWith, params_concrete, obligations_concrete]
  simp [concrete, con?]

theorem anyMentions_eq_any (id : VarId) (args : List Ty) :
    anyMentions id args = args.any (·.mentions id) := by
  induction args with
  | nil => rfl
  | cons t rest ih => simp [anyMentions, ih]

theorem replaceAll_eq_map (map : VarId → Option Ty) (args : List Ty) :
    replaceAll map args = args.map (·.replace map) := by
  induction args with
  | nil => rfl
  | cons t rest ih => simp [replaceAll, ih]

theorem untraceAll_eq_map (map : Nat → Option Ty) (args : List Ty) :
    untraceAll map args = args.map (·.untrace map) := by
  induction args with
  | nil => rfl
  | cons t rest ih => simp [untraceAll, ih]

end Ty

end TraitCheck
