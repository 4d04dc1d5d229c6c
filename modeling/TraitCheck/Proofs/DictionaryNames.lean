import TraitCheck.Checker.Prelude
import TraitCheck.Surface.Program
import TraitCheck.Ty.Display

/-!
Names of dictionaries. A dictionary is looked up by a name that is made from
its trait and from the type that it is for. Where the names of a program are
ordinary, these names are different from all of them and from each other. The
names that matter are those that a program declares (`Surface.declared`).
-/

namespace TraitCheck

variable {name : String} {con con' : Con}

/-- The characters that set apart the parts of a dictionary name. -/
def separators : List Char := ['$', '<', '#', '(']

/-- A name without such a character. -/
def Ordinary (name : String) : Prop := ∀ c ∈ name.toList, c ∉ separators

instance (name : String) : Decidable (Ordinary name) :=
  List.decidableBAll (· ∉ separators) name.toList

/-- The first character of a dictionary name is a dollar. -/
def Reserved (name : String) : Prop := name.toList.head? = some '$'

instance (name : String) : Decidable (Reserved name) :=
  inferInstanceAs (Decidable (name.toList.head? = some '$'))

theorem Ordinary.not_reserved (h : Ordinary name) : ¬Reserved name := by
  intro hreserved
  exact h '$' (List.mem_of_mem_head? hreserved) (by decide)

/-- The name of the dictionary of a trait for a type constructor. -/
def dictionaryName (bound : Trait) : Con → String
  | .tracer id name => s!"${bound}<{name}#{id}>"
  | con => s!"${bound}<{con.display}>"

/-- The type constructors that dictionaries are bound for: named types, the
empty tuple, and type parameters. -/
def Con.Named : Con → Prop
  | .named name => Ordinary name
  | .tuple arity => arity = 0
  | .tracer _ name => Ordinary name
  | .func _ => False
  | .array => False

/-- What stands for the type in the name of its dictionary. -/
def Con.label : Con → String
  | .tracer id name => s!"{name}#{id}"
  | con => con.display

theorem toList_dictionaryName (bound : Trait) (con : Con) : (dictionaryName bound con).toList =
      '$' :: (bound.toList ++ '<' :: (con.label.toList ++ ['>'])) := by
  cases con <;> simp [dictionaryName, Con.label, toString]

theorem reserved_dictionaryName (bound : Trait) (con : Con) :
    Reserved (dictionaryName bound con) := by
  rw [Reserved, toList_dictionaryName, List.head?_cons]

theorem reserved_bracketed (first second : String) : Reserved s!"${first}<{second}>" := by
  simp [Reserved, toString]

/-- A separator that is in neither of the first parts ends both. -/
theorem append_cons_inj {as bs as' bs' : List Char} {c : Char} (has : c ∉ as) (has' : c ∉ as')
    (h : as ++ c :: bs = as' ++ c :: bs') : as = as' ∧ bs = bs' := by
  induction as generalizing as' with
  | nil =>
    cases as' with
    | nil => exact ⟨rfl, (List.cons.inj h).2⟩
    | cons x rest =>
      have hx := (List.cons.inj h).1
      exact absurd (hx ▸ List.mem_cons_self) has'
  | cons x rest ih =>
    cases as' with
    | nil =>
      have hx := (List.cons.inj h).1
      exact absurd (hx ▸ List.mem_cons_self) has
    | cons y rest' =>
      obtain ⟨rfl, htail⟩ := List.cons.inj h
      obtain ⟨rfl, hbs⟩ := ih (fun hc => has (List.mem_cons_of_mem _ hc))
        (fun hc => has' (List.mem_cons_of_mem _ hc)) htail
      exact ⟨rfl, hbs⟩

theorem toList_repr_inj {m n : Nat} (h : m.repr.toList = n.repr.toList) : m = n := by
  have hdigits : Nat.toDigits 10 m = Nat.toDigits 10 n := by simpa [Nat.repr] using h
  rw [← Nat.ofDigitChars_ten_toDigits (n := m), hdigits, Nat.ofDigitChars_ten_toDigits]

theorem toList_label_tracer (id : Nat) (name : String) :
    (Con.tracer id name).label.toList = name.toList ++ '#' :: id.repr.toList := by
  simp [Con.label, toString]

theorem Con.Named.label_inj (h : con.Named) (h' : con'.Named) (heq : con.label = con'.label) :
    con = con' := by
  have hsharp : ∀ {name id name'}, Ordinary name → (Con.tracer id name').label ≠ name := by
    intro name id name' hname hlabel
    refine hname '#' ?_ (by decide)
    rw [← hlabel, toList_label_tracer]
    simp
  have hparen : ∀ {name}, Ordinary name → (Con.tuple 0).label ≠ name := by
    intro name hname hlabel
    exact hname '(' (by rw [← hlabel]; decide) (by decide)
  have hmixed : ∀ {id name}, (Con.tracer id name).label ≠ (Con.tuple 0).label := by
    intro id name hlabel
    have hmem : '#' ∈ (Con.tracer id name).label.toList := by
      rw [toList_label_tracer]
      simp
    rw [hlabel] at hmem
    exact absurd hmem (by decide)
  cases con with
  | named name =>
    cases con' with
    | named name' => exact congrArg Con.named heq
    | tuple arity => exact absurd (show (Con.tuple 0).label = name from h' ▸ heq.symm) (hparen h)
    | tracer id name' => exact absurd heq.symm (hsharp h)
    | func arity => cases h'
    | array => cases h'
  | tuple arity =>
    cases h
    cases con' with
    | named name' => exact absurd heq (hparen h')
    | tuple arity => exact congrArg Con.tuple h'.symm
    | tracer id name' => exact absurd heq.symm hmixed
    | func arity => cases h'
    | array => cases h'
  | tracer id name =>
    cases con' with
    | named name' => exact absurd heq (hsharp h')
    | tuple arity => exact absurd (h' ▸ heq) hmixed
    | tracer id' name' =>
      have hlist := congrArg String.toList heq
      rw [toList_label_tracer, toList_label_tracer] at hlist
      have hname : ∀ {name}, Ordinary name → '#' ∉ name.toList :=
        fun hname hc => hname '#' hc (by decide)
      obtain ⟨hnames, hids⟩ := append_cons_inj (hname h) (hname h') hlist
      rw [String.toList_inj.mp hnames, toList_repr_inj hids]
    | func arity => cases h'
    | array => cases h'
  | func arity => cases h
  | array => cases h

/-- A dictionary name tells the trait and the type constructor. -/
theorem dictionaryName_inj {bound bound' : Trait} (hbound : Ordinary bound)
    (hbound' : Ordinary bound') (hcon : con.Named) (hcon' : con'.Named)
    (h : dictionaryName bound con = dictionaryName bound' con') : bound = bound' ∧ con = con' := by
  have hlist := congrArg String.toList h
  rw [toList_dictionaryName, toList_dictionaryName] at hlist
  have hname : ∀ {name}, Ordinary name → '<' ∉ name.toList :=
    fun hname hc => hname '<' hc (by decide)
  obtain ⟨hbounds, hrest⟩ := append_cons_inj (hname hbound) (hname hbound') (List.cons.inj hlist).2
  have hlabel := String.toList_inj.mp (List.append_cancel_right hrest)
  exact ⟨String.toList_inj.mp hbounds, hcon.label_inj hcon' hlabel⟩

/-! The names that a program declares. -/

namespace Surface

def Pattern.declared : Pattern → List String
  | .name n => [n.text]
  | .tuple names => names.map (·.text)

def genericNames (generics : List GenericParam) : List String := generics.map (·.name.text)

mutual

def Expr.declared (e : Expr) : List String :=
  match e with
  | .int _ _ | .float _ _ | .string _ _ | .bool _ _ | .ident _ _ => []
  | .tuple elems _ | .array elems _ => declaredExprs elems
  | .construct _ _ inits _ => declaredInits inits
  | .field target _ _ => target.declared
  | .call callee args _ => callee.declared ++ declaredExprs args
  | .binary _ lhs rhs _ => lhs.declared ++ rhs.declared
  | .unary _ operand _ => operand.declared
  | .closure params body _ => params.map (·.name.text) ++ body.declared
  | .cond branches otherwise _ => declaredBranches branches ++ declaredElse otherwise
  | .cases target cases _ => target.declared ++ declaredCases cases
  | .block body _ => body.declared

def Block.declared (block : Block) : List String :=
  match block with
  | ⟨stmts, _⟩ => declaredStmts stmts

def Stmt.declared (stmt : Stmt) : List String :=
  match stmt with
  | .bind pattern _ value _ => pattern.declared ++ value.declared
  | .func decl => decl.declared
  | .struct name generics _ _ | .enum name generics _ _ => name.text :: genericNames generics
  | .trait name methods _ => name.text :: methods.map (·.name.text)
  | .impl _ _ methods _ => declaredFuncs methods
  | .ret none _ => []
  | .ret (some value) _ => value.declared
  | .whileDo cond body _ => cond.declared ++ body.declared
  | .forEach name iterable body _ => name.text :: iterable.declared ++ body.declared
  | .eval value _ => value.declared

def FuncDecl.declared (decl : FuncDecl) : List String :=
  match decl with
  | ⟨name, generics, params, _, body, _⟩ =>
    name.text :: genericNames generics ++ params.map (·.name.text) ++ body.declared

def declaredElse (otherwise : Option Block) : List String :=
  match otherwise with
  | none => []
  | some block => block.declared

def declaredExprs (es : List Expr) : List String :=
  match es with
  | [] => []
  | e :: rest => e.declared ++ declaredExprs rest

def declaredInits (inits : List FieldInit) : List String :=
  match inits with
  | [] => []
  | ⟨_, e⟩ :: rest => e.declared ++ declaredInits rest

def declaredBranches (branches : List Branch) : List String :=
  match branches with
  | [] => []
  | ⟨cond, body⟩ :: rest => cond.declared ++ body.declared ++ declaredBranches rest

def declaredCases (cases : List Case) : List String :=
  match cases with
  | [] => []
  | ⟨_, bindings, body, _⟩ :: rest =>
    bindings.map (·.binding.text) ++ body.declared ++ declaredCases rest

def declaredStmts (stmts : List Stmt) : List String :=
  match stmts with
  | [] => []
  | s :: rest => s.declared ++ declaredStmts rest

def declaredFuncs (decls : List FuncDecl) : List String :=
  match decls with
  | [] => []
  | d :: rest => d.declared ++ declaredFuncs rest

end

/-- The names of values, types, type parameters, traits and methods that the
program declares. Other names only refer to these. -/
def declared (program : Program) : List String := declaredStmts program

end Surface

/-- All the names are ordinary. -/
def OrdinaryAll (names : List String) : Prop := ∀ name ∈ names, Ordinary name

instance (names : List String) : Decidable (OrdinaryAll names) :=
  List.decidableBAll Ordinary names

theorem ordinaryAll_append {as bs : List String} :
    OrdinaryAll (as ++ bs) ↔ OrdinaryAll as ∧ OrdinaryAll bs := by
  simp only [OrdinaryAll, List.mem_append]
  constructor
  · intro h
    exact ⟨fun n hn => h n (.inl hn), fun n hn => h n (.inr hn)⟩
  · rintro ⟨has, hbs⟩ n (hn | hn)
    · exact has n hn
    · exact hbs n hn

theorem ordinaryAll_cons {names : List String} :
    OrdinaryAll (name :: names) ↔ Ordinary name ∧ OrdinaryAll names :=
  List.forall_mem_cons

end TraitCheck
