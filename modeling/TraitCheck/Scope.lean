import TraitCheck.Registry

/-!
Lexical scopes: a stack of frames that bind values and types by name. A frame
opened for a function body also keeps its upvalues, the values found below it
while it is open. A lookup reports an upvalue to the innermost function; when
that function is closed it passes on to the next one what lies below that too.
-/

namespace TraitCheck

/-- What a value name stands for. -/
inductive ValueKind where
  | binding (id : BindingId)
  | builtin (op : Op)
  /-- A slot in the dictionaries of a trait. -/
  | method (bound : Trait) (index : Nat)
deriving DecidableEq

structure Value where
  kind : ValueKind
  ty : Ty
  /-- The variables that every reference replaces by fresh ones. -/
  generics : List TyVar := []
deriving DecidableEq

/-- A captured value, its type when it was first met, and the index of the
frame that binds it. -/
structure Upvalue where
  binding : BindingId
  ty : Ty
  depth : Nat
deriving DecidableEq

structure Frame where
  values : Assoc String Value := ∅
  types : Assoc String Ty := ∅
  /-- Present in the frame of a function. -/
  upvalues : Option (Assoc BindingId Upvalue) := none

/-- The innermost frame, the frames below it from the inside out, and the next
unused binding id. The outermost frame has index 0. -/
structure Scope where
  top : Frame := {}
  below : List Frame := []
  nextBinding : Nat := 0

namespace Frame

/-- The innermost frame that binds the name, by its value and its index. -/
def lookup (name : String) : List Frame → Option (Value × Nat)
  | [] => none
  | frame :: below =>
    match frame.values.find? name with
    | some value => some (value, below.length)
    | none => lookup name below

def lookupType (name : String) : List Frame → Option Ty
  | [] => none
  | frame :: below => (frame.types.find? name).or (lookupType name below)

/-- Reports an upvalue to the innermost function, which keeps the first report
of each binding, and none of its own bindings. -/
def capture (up : Upvalue) : List Frame → List Frame
  | [] => []
  | frame :: below =>
    match frame.upvalues with
    | none => frame :: capture up below
    | some ups =>
      if up.depth < below.length then
        { frame with upvalues := some (ups.insertNew up.binding up) } :: below
      else
        frame :: below

/-- What the innermost function has captured so far. -/
def captured : List Frame → List Upvalue
  | [] => []
  | frame :: below =>
    match frame.upvalues with
    | none => captured below
    | some ups => ups.values

end Frame

namespace Scope

def frames (s : Scope) : List Frame := s.top :: s.below

/-- The index of the innermost frame. -/
def depth (s : Scope) : Nat := s.below.length

def isRoot (s : Scope) : Bool := s.below.isEmpty

def enter (s : Scope) (frame : Frame) : Scope := { s with top := frame, below := s.frames }

def push (s : Scope) : Scope := s.enter {}

def pushFunction (s : Scope) : Scope := s.enter { upvalues := some ∅ }

/-- Closes the innermost frame. The outermost stays. -/
def pop (s : Scope) : Scope :=
  match s.below with
  | [] => s
  | frame :: below => { s with top := frame, below }

def upvalues (s : Scope) : List Upvalue := Frame.captured s.frames

def capture (s : Scope) (up : Upvalue) : Scope :=
  match Frame.capture up s.frames with
  | [] => s
  | top :: below => { s with top, below }

/-- Closes the frame of a function and returns its upvalues in the order of
their first use. -/
def popFunction (s : Scope) : List Upvalue × Scope :=
  match s.below with
  | [] => ([], s)
  | _ :: _ =>
    let ups := (s.top.upvalues.getD ∅).values
    (ups, ups.foldl capture s.pop)

def freshBinding (s : Scope) : BindingId × Scope :=
  (s.nextBinding, { s with nextBinding := s.nextBinding + 1 })

/-- Binds a value in the innermost frame, in place of any of that name there. -/
def bindValue (s : Scope) (name : String) (value : Value) : Scope :=
  { s with top := { s.top with values := s.top.values.insert name value } }

def bindLocal (s : Scope) (name : String) (ty : Ty) : BindingId × Scope :=
  let (id, s) := s.freshBinding
  (id, s.bindValue name { kind := .binding id, ty })

/-- Binds a parameter, whose name must be new to the innermost frame. -/
def bindParam (s : Scope) (name : String) (ty : Ty) : Except Failure (BindingId × Scope) :=
  if s.top.values.contains name then .error (.duplicateDeclaration name)
  else .ok (s.bindLocal name ty)

/-- Changes the type of a value that the innermost frame binds. -/
def setValueType (s : Scope) (name : String) (ty : Ty) : Scope :=
  { s with top := { s.top with values := s.top.values.modify name ({ · with ty }) } }

/-- Looks a value up and leaves no trace of it. -/
def peek? (s : Scope) (name : String) : Option Value :=
  (Frame.lookup name s.frames).map Prod.fst

/-- Looks a value up. A binding found below the innermost function is reported
to it. -/
def getValue (s : Scope) (name : String) : Option Value × Scope :=
  match Frame.lookup name s.frames with
  | none => (none, s)
  | some (value, depth) =>
    match value.kind with
    | .binding id => (some value, s.capture ⟨id, value.ty, depth⟩)
    | _ => (some value, s)

def bindType (s : Scope) (name : String) (ty : Ty) : Scope :=
  { s with top := { s.top with types := s.top.types.insert name ty } }

def type? (s : Scope) (name : String) : Option Ty := Frame.lookupType name s.frames

/-- Whether the innermost frame binds the type name. -/
def declaresType (s : Scope) (name : String) : Bool := s.top.types.contains name

end Scope

end TraitCheck
