import TraitCheck.Proofs.CaptureSteps
import TraitCheck.Proofs.Nesting
import TraitCheck.Proofs.TypeNames

/-!
What becomes of the expressions in a statement. `Surface.Stmt.parts` lists them,
each with the names that are bound around it inside of the statement. If the
statement is accepted, each of them was checked in a state in which all other
names still stood for the same as where the statement began (`Rebinds`), and what
it was checked to is in the result (`Renders`). The walk is put together from
steps of which this is said once (`Shows`), by induction over the syntax.
-/

namespace TraitCheck

namespace Surface

/-- An expression in a statement, and the names bound around it there. -/
structure Part where
  bound : List String
  expr : Expr

/-- The expression itself. A name is none, since one that is called is not checked
as an expression. -/
def Expr.self (bound : List String) : Expr → List Part
  | .ident _ _ => []
  | e => [⟨bound, e⟩]

mutual

/-- The expression itself and all expressions in it. -/
def Expr.parts (bound : List String) (e : Expr) : List Part :=
  e.self bound ++
    match e with
    | .int _ _ | .float _ _ | .string _ _ | .bool _ _ | .ident _ _ => []
    | .tuple elems _ => partsOfExprs bound elems
    | .array elems _ => partsOfExprs bound elems
    | .construct _ _ inits _ => partsOfInits bound inits
    | .field target _ _ => target.parts bound
    | .call callee args _ => callee.parts bound ++ partsOfExprs bound args
    | .binary _ lhs rhs _ => lhs.parts bound ++ rhs.parts bound
    | .unary _ operand _ => operand.parts bound
    | .closure params body _ => body.parts (params.map (·.name.text) ++ bound)
    | .cond branches otherwise _ => partsOfBranches bound branches ++ partsOfElse bound otherwise
    | .cases target cases _ => target.parts bound ++ partsOfCases bound cases
    | .block body _ => body.parts bound
termination_by structural e

def partsOfExprs (bound : List String) (es : List Expr) : List Part :=
  match es with
  | [] => []
  | e :: rest => e.parts bound ++ partsOfExprs bound rest
termination_by structural es

def partsOfInits (bound : List String) (inits : List FieldInit) : List Part :=
  match inits with
  | [] => []
  | ⟨_, e⟩ :: rest => e.parts bound ++ partsOfInits bound rest
termination_by structural inits

def partsOfBranches (bound : List String) (branches : List Branch) : List Part :=
  match branches with
  | [] => []
  | ⟨cond, body⟩ :: rest => cond.parts bound ++ body.parts bound ++ partsOfBranches bound rest
termination_by structural branches

def partsOfElse (bound : List String) (otherwise : Option Block) : List Part :=
  match otherwise with
  | none => []
  | some block => block.parts bound
termination_by structural otherwise

def partsOfCases (bound : List String) (cases : List Case) : List Part :=
  match cases with
  | [] => []
  | ⟨_, bindings, ⟨stmts, _⟩, _⟩ :: rest =>
    partsOfStmts (bindings.map (·.binding.text) ++ bound) stmts ++ partsOfCases bound rest
termination_by structural cases

def Block.parts (bound : List String) (block : Block) : List Part :=
  match block with
  | ⟨stmts, _⟩ => partsOfStmts bound stmts
termination_by structural block

def partsOfStmts (bound : List String) (stmts : List Stmt) : List Part :=
  match stmts with
  | [] => []
  | stmt :: rest => stmt.parts bound ++ partsOfStmts (stmt.binds ++ bound) rest
termination_by structural stmts

/-- All expressions in the statement. A function is bound in its own body. -/
def Stmt.parts (bound : List String) (stmt : Stmt) : List Part :=
  match stmt with
  | .bind _ _ value _ => value.parts bound
  | .func decl => decl.parts (decl.name.text :: bound)
  | .struct _ _ _ _ => []
  | .enum _ _ _ _ => []
  | .trait _ _ _ => []
  | .impl _ _ methods _ => partsOfDecls bound methods
  | .ret none _ => []
  | .ret (some value) _ => value.parts bound
  | .whileDo cond body _ => cond.parts bound ++ body.parts bound
  | .forEach name iterable body _ => iterable.parts bound ++ body.parts (name.text :: bound)
  | .eval value _ => value.parts bound
termination_by structural stmt

def FuncDecl.parts (bound : List String) (decl : FuncDecl) : List Part :=
  match decl with
  | ⟨_, _, params, _, body, _⟩ => body.parts (params.map (·.name.text) ++ bound)
termination_by structural decl

def partsOfDecls (bound : List String) (decls : List FuncDecl) : List Part :=
  match decls with
  | [] => []
  | decl :: rest => decl.parts bound ++ partsOfDecls bound rest
termination_by structural decls

end

end Surface

/-! What names stand for. -/

theorem Frame.lookup_bare (name : String) (frames : List Frame) :
    lookup name (frames.map bare) = lookup name frames := by
  induction frames with
  | nil => rfl
  | cons frame below ih =>
    rw [List.map_cons, lookup, lookup, ih, List.length_map]
    rfl

theorem Scope.peek?_congr {scope scope' : Scope}
    (h : scope'.frames.map Frame.bare = scope.frames.map Frame.bare) (name : String) :
    scope'.peek? name = scope.peek? name := by
  rw [peek?, peek?, ← Frame.lookup_bare, h, Frame.lookup_bare]

theorem Scope.peek?_enter (scope : Scope) {frame : Frame} (h : frame.values = ∅) (name : String) :
    (scope.enter frame).peek? name = scope.peek? name := by
  rw [peek?, peek?, enter, frames, Frame.lookup, h]
  rfl

theorem Scope.peek?_bindValue (scope : Scope) (name : String) (value : Value) (other : String) :
    (scope.bindValue name value).peek? other =
      if other = name then some value else scope.peek? other := by
  rw [peek?, peek?, bindValue, frames, frames, Frame.lookup, Frame.lookup, Assoc.find?_insert]
  by_cases hother : other = name
  · rw [if_pos hother, if_pos hother]
    rfl
  · rw [if_neg hother, if_neg hother]

theorem Subst.hom_apply (σ : Subst) : Ty.Hom σ.apply := by
  have hwithin : ∀ n, Ty.Hom (σ.applyWithin n) := by
    intro n
    cases n with
    | zero => exact Ty.hom_id
    | succ n => exact Ty.hom_replace _
  exact hwithin σ.size

/-- Types are read part by part, whatever is bound. -/
theorem Unifier.hom_resolved (u : Unifier) : Ty.Hom u.resolve := u.subst.hom_apply

namespace Checker

open Surface (Expr FieldInit Branch Case Block Stmt FuncDecl Part partsOfExprs partsOfInits
  partsOfBranches partsOfElse partsOfCases partsOfStmts partsOfDecls nestingExprs nestingInits
  nestingBranches nestingElse nestingCases nestingStmts nestingFuncs)

open TraitCheck.Core (walkExprs walkBranches walkBlocks walkStmts)

variable {α β : Type} {s s' s'' : Checker} {names bound : List String}

/-- From one state to the other at most the given names and names of dictionaries
are bound anew, and none of them to a method. The traits are the same. -/
structure Rebinds (names : List String) (s s' : Checker) : Prop where
  same : ∀ name, name ∉ names → ¬TraitCheck.Reserved name →
    s'.scope.peek? name = s.scope.peek? name
  method : ∀ name value trait index, s'.scope.peek? name = some value →
    value.kind = .method trait index → s.scope.peek? name = some value
  traits : s'.registry.traits = s.registry.traits
  inside : s.scope.below ≠ [] → s'.scope.below ≠ []

namespace Rebinds

theorem of_peek (hpeek : ∀ name, s'.scope.peek? name = s.scope.peek? name)
    (htraits : s'.registry.traits = s.registry.traits)
    (hinside : s.scope.below ≠ [] → s'.scope.below ≠ []) : Rebinds names s s' where
  same := fun name _ _ => hpeek name
  method := fun name _ _ _ hvalue _ => (hpeek name).symm.trans hvalue
  traits := htraits
  inside := hinside

theorem refl (names : List String) (s : Checker) : Rebinds names s s :=
  of_peek (fun _ => rfl) rfl id

theorem trans {names' : List String} (h : Rebinds names s s') (h' : Rebinds names' s' s'') :
    Rebinds (names' ++ names) s s'' where
  same := by
    intro name hname hreserved
    rw [List.mem_append, not_or] at hname
    rw [h'.same name hname.1 hreserved, h.same name hname.2 hreserved]
  method := fun name value trait index hvalue hkind =>
    h.method name value trait index (h'.method name value trait index hvalue hkind) hkind
  traits := h'.traits.trans h.traits
  inside := h'.inside ∘ h.inside

theorem mono {names' : List String} (h : Rebinds names s s') (hsub : names ⊆ names') :
    Rebinds names' s s' :=
  { h with same := fun name hname => h.same name fun hmem => hname (hsub hmem) }

theorem alike (h : Rebinds names s s') (halike : Alike s' s'') : Rebinds names s s'' := by
  have hsame : Rebinds [] s' s'' := by
    refine .of_peek (fun _ => ?_) ?_ ?_
    · rw [halike.scope]
    · rw [halike.registry]
    · rw [halike.scope]
      exact id
  exact h.trans hsame

/-- One name is bound, and not to a method. -/
theorem bind {name : String} {value : Value} {scope : Scope}
    (hname : name ∈ names ∨ TraitCheck.Reserved name)
    (hvalue : ∀ trait index, value.kind ≠ .method trait index)
    (hpeek : ∀ other, scope.peek? other =
      if other = name then some value else s.scope.peek? other)
    (hbelow : scope.below = s.scope.below) : Rebinds names s { s with scope } where
  same := by
    intro other hother hreserved
    refine (hpeek other).trans (if_neg ?_)
    rintro rfl
    exact hname.elim hother hreserved
  method := by
    intro other found trait index hfound hkind
    change scope.peek? other = some found at hfound
    rw [hpeek] at hfound
    split at hfound
    · cases hfound
      exact absurd hkind (hvalue trait index)
    · exact hfound
  traits := rfl
  inside := fun h => hbelow ▸ h

end Rebinds

instance : StaysClosed (Rebinds names) where
  refl := Rebinds.refl names
  trans := fun _ _ _ h h' => (h.trans h').mono (List.append_subset.mpr ⟨.refl _, .refl _⟩)
  stays := fun h => .of_peek (Scope.peek?_congr h.frames) h.traits h.below_ne

/-! Steps that bind names. -/

variable {name : String}
variable {ty : Ty} {span : Span} {types : List Ty}

theorem rebinds_allows (hname : name ∈ names ∨ TraitCheck.Reserved name) :
    Allows (Rebinds names) name := by
  intro s value id hvalue
  refine .bind hname (fun _ _ hkind => ?_) (s.scope.peek?_bindValue name value) rfl
  cases hvalue.symm.trans hkind

theorem rebinds_listed {γ : Type} {list : List γ} {f : γ → String} :
    ∀ c ∈ list, Allows (Rebinds (list.map f)) (f c) :=
  fun _ hc => rebinds_allows (.inl (List.mem_map_of_mem hc))

theorem rebinds_provide {trait : Trait} {evidence : Evidence} :
    Ends (Rebinds names) (provide span ty trait evidence) := by
  refine ends_provide fun _ _ hprovide => ?_
  obtain ⟨_, _, _, htraits, _⟩ := Registry.lookup_provide hprovide
  exact .of_peek (fun _ => rfl) htraits id

theorem rebinds_bindTracers {generics : List Generic} :
    Ends (Rebinds []) (bindTracers span generics) :=
  ends_bindTracers (fun _ _ => .modify fun _ => .of_peek (fun _ => rfl) rfl id)
    (fun _ hname => rebinds_allows (.inr hname)) fun _ _ _ => rebinds_provide

theorem rebinds_openImpl {trait : Name} {written : Surface.TypeExpr} :
    Ends (Rebinds []) (openImpl trait written span) :=
  ends_openImpl (fun _ hname => rebinds_allows (.inr hname)) fun _ _ _ => rebinds_provide

/-! Statements. -/

variable {stmt : Stmt} {room : Nat} {out : List Core.Stmt}

/-- The type of a value that is no method. -/
theorem rebinds_setValueType (hname : name ∈ names)
    (hvalue : ∀ value trait index, s.scope.top.values.find? name = some value →
      value.kind ≠ .method trait index) :
    Rebinds names s { s with scope := s.scope.setValueType name ty } := by
  cases hfind : s.scope.top.values.find? name with
  | none =>
    have hscope : s.scope.setValueType name ty = s.scope := by
      rw [Scope.setValueType, Assoc.modify, hfind]
    rw [hscope]
    exact .refl names s
  | some value =>
    have hscope : s.scope.setValueType name ty =
        s.scope.bindValue name { value with ty } := by
      rw [Scope.setValueType, Assoc.modify, hfind]
      rfl
    have hkind : ∀ trait index, ({ value with ty } : Value).kind ≠ .method trait index :=
      fun trait index => hvalue value trait index hfind
    rw [hscope]
    exact .bind (.inl hname) hkind (s.scope.peek?_bindValue name _) rfl

theorem rebinds_checkFuncStmt {decl : FuncDecl} :
    Ends (Rebinds [decl.name.text]) (checkStmt room (.func decl)) := by
  have hname : decl.name.text ∈ [decl.name.text] := List.mem_cons_self
  rw [checkStmt]
  refine .bind ends_declareSignature fun sig =>
    .bind ends_freshBinding fun _ => .of_rel fun s => ?_
  refine Ends.rel_bind ((ends_bindValue (rebinds_allows (.inl hname)) rfl).rel s) fun _ s1 h1 => ?_
  have hfunc := (stays_checkFunc room sig decl).rel s1
  refine Ends.rel_bind hfunc.lift fun _ s2 h2 => ?_
  rw [h2] at hfunc
  -- the name is still bound to the function, so its type is that of no method
  refine rebinds_setValueType hname fun value _ _ hvalue hkind => ?_
  have hvalues : s2.scope.top.bare.values = s1.scope.top.bare.values :=
    congrArg Frame.values hfunc.top
  change s2.scope.top.bare.values.find? decl.name.text = some value at hvalue
  obtain rfl := h1.modify
  rw [hvalues, Frame.bare, Scope.bindValue, Assoc.find?_insert_self] at hvalue
  cases hvalue
  cases hkind

/-- A statement that declares no trait binds the names that it says. -/
theorem rebinds_checkStmt (htrait : stmt.trait? = none) :
    Ends (Rebinds stmt.binds) (checkStmt room stmt) := by
  refine ends_checkStmt (fun _ => rebinds_allows) (fun _ _ _ _ => rebinds_provide)
    (fun _ _ _ => .modify fun _ => .of_peek (fun _ => rfl) rfl id) (fun h => absurd htrait h) ?_
  rintro decl rfl
  exact rebinds_checkFuncStmt

/-- Inside of a frame no trait is declared. -/
theorem trait?_of_nested (hbelow : s.scope.below ≠ []) (h : Yields (checkStmt room stmt) s out s') :
    stmt.trait? = none := by
  cases stmt with
  | trait name methods span =>
    rw [checkStmt] at h
    obtain ⟨_, _, h1, _⟩ := h.bind
    exact absurd h1.requireTopLevel.1 hbelow
  | _ => rfl

theorem rebinds_nested (hbelow : s.scope.below ≠ []) (h : Yields (checkStmt room stmt) s out s') :
    Rebinds stmt.binds s s' :=
  (rebinds_checkStmt (trait?_of_nested hbelow h)).yields h

theorem rebinds_nestedUnit (hbelow : s.scope.below ≠ [])
    (h : Yields (inUnit (checkStmt room stmt)) s out s') : Rebinds stmt.binds s s' := by
  obtain ⟨s1, hbody, _⟩ := h.isolated
  obtain ⟨stmts, s2, hstmt, _⟩ := hbody.bind
  have htrait : stmt.trait? = none := trait?_of_nested (by exact hbelow) hstmt
  exact (EndsIn.inUnit (rebinds_checkStmt htrait)).yields h

/-! What expressions are checked to. -/

/-- The core expression is what the expression is checked to in the state, with
types that may be read further. -/
def Lowers (s : Checker) (e : Expr) (node : Core.Expr) : Prop :=
  ∃ room hint checked s' f, Yields (checkExpr room hint e) s checked s' ∧ Ty.Hom f ∧
    node = checked.mapTy f

theorem Lowers.mapTy {e : Expr} {node : Core.Expr} (h : Lowers s e node) {f : Ty → Ty}
    (hf : Ty.Hom f) : Lowers s e (node.mapTy f) := by
  obtain ⟨room, hint, checked, s', g, hrun, hg, rfl⟩ := h
  refine ⟨room, hint, checked, s', f ∘ g, hrun, hf.comp hg, ?_⟩
  rw [Core.Expr.mapTy_mapTy]

/-- What an expression has just been checked to. -/
theorem Yields.lowers {room : Nat} {hint : Option Ty} {e : Expr} {v : Core.Expr}
    (h : Yields (checkExpr room hint e) s v s') : Lowers s e v :=
  ⟨room, hint, v, s', id, h, Ty.hom_id, v.mapTy_id.symm⟩

/-- Each of the parts is checked in a state that differs from the first at most in
the names bound around the part, and what it is checked to is among the nodes. -/
def Renders (s : Checker) (parts : List Part) (nodes : List Core.Expr) : Prop :=
  ∀ part ∈ parts, ∃ s₀, Rebinds part.bound s s₀ ∧ ∃ node ∈ nodes, Lowers s₀ part.expr node

/-- The parts are rendered, and there is room for as many of them inside each other. -/
structure Fits (s : Checker) (room depth : Nat) (parts : List Part) (nodes : List Core.Expr) :
    Prop where
  room : depth ≤ room
  renders : Renders s parts nodes

namespace Fits

variable {room m n : Nat} {parts parts' : List Part} {nodes nodes' : List Core.Expr}

theorem nil : Fits s room 0 [] nodes := ⟨Nat.zero_le room, by nofun⟩

theorem mono (h : Fits s room n parts nodes) (hsub : nodes ⊆ nodes' := by
      simp [Core.Expr.walk, Core.ExprKind.walk, Core.FuncExpr.walk, Core.Block.walk, walkStmts,
        Core.Stmt.walk]) :
    Fits s room n parts nodes' := by
  refine ⟨h.room, fun part hpart => ?_⟩
  obtain ⟨s0, hrebinds, node, hnode, hlowers⟩ := h.renders part hpart
  exact ⟨s0, hrebinds, node, hsub hnode, hlowers⟩

theorem append (h : Fits s room m parts nodes) (h' : Fits s room n parts' nodes') :
    Fits s room (max m n) (parts ++ parts') (nodes ++ nodes') := by
  refine ⟨Nat.max_le.mpr ⟨h.room, h'.room⟩, fun part hpart => ?_⟩
  rcases List.mem_append.mp hpart with hpart | hpart
  · exact (h.mono (List.subset_append_left _ _)).renders part hpart
  · exact (h'.mono (List.subset_append_right _ _)).renders part hpart

theorem of_zero_max (h : Fits s room (max 0 n) parts nodes) : Fits s room n parts nodes :=
  ⟨Nat.zero_max n ▸ h.room, h.renders⟩

theorem mapTy {f : Ty → Ty} (hf : Ty.Hom f) (h : Fits s room n parts nodes) :
    Fits s room n parts (nodes.map (Core.Expr.mapTy f)) := by
  refine ⟨h.room, fun part hpart => ?_⟩
  obtain ⟨s0, hrebinds, node, hnode, hlowers⟩ := h.renders part hpart
  exact ⟨s0, hrebinds, _, List.mem_map_of_mem hnode, hlowers.mapTy hf⟩

end Fits

/-- Wherever the step is made, its result has the property: in a state that differs
from the first at most in the names, and inside of a frame where so asked. -/
structure Shows (nested : Prop) (bound : List String) (s : Checker) (x : CheckM α)
    (P : α → Prop) : Prop where
  holds : ∀ {s₀ a s₁}, Rebinds bound s s₀ → (nested → s₀.scope.below ≠ []) →
    Yields x s₀ a s₁ → P a

namespace Shows

variable {nested : Prop} {x body : CheckM α} {f : α → CheckM β} {P Q : α → Prop} {R : β → Prop}

theorem of_yields (h : ∀ {s0 a s1}, Yields x s0 a s1 → P a) : Shows nested bound s x P :=
  ⟨fun _ _ hrun => h hrun⟩

theorem always (h : ∀ a, P a) : Shows nested bound s x P := ⟨fun _ _ _ => h _⟩

/-- With what is known of the result anyway. -/
theorem and_of (h : Shows nested bound s x P) (hQ : ∀ {s0 a s1}, Yields x s0 a s1 → Q a) :
    Shows nested bound s x fun a => P a ∧ Q a :=
  ⟨fun hrebinds hnested hrun => ⟨h.holds hrebinds hnested hrun, hQ hrun⟩⟩

/-- After the step that matters it is enough to look at results. -/
theorem finish (hx : Shows nested bound s x Q)
    (hf : ∀ a, Q a → ∀ {s1 b s2}, Yields (f a) s1 b s2 → R b) :
    Shows nested bound s (x >>= f) R := by
  constructor
  intro s0 b s2 hrebinds hnested hrun
  obtain ⟨a, s1, h1, h2⟩ := hrun.bind
  exact hf a (hx.holds hrebinds hnested h1) h2

theorem returns {g : α → β} (hx : Shows nested bound s x Q) (hg : ∀ a, Q a → R (g a)) :
    Shows nested bound s (x >>= fun a => Pure.pure (g a)) R :=
  hx.finish fun a ha _ _ _ hrun => hrun.pure.1 ▸ hg a ha

theorem pure {a : α} (h : P a) : Shows nested bound s (Pure.pure a) P :=
  of_yields fun hrun => hrun.pure.1 ▸ h

theorem fail {failure : Failure} {span : Span} :
    Shows nested bound s (fail failure span : CheckM α) P :=
  of_yields fun hrun => hrun.fail.elim

/-- The second step is made where the first has bound its names. -/
theorem seq (hx : Shows nested bound s x Q)
    (heffect : ∀ {s0 a s1}, (nested → s0.scope.below ≠ []) → Yields x s0 a s1 → Rebinds names s0 s1)
    (hf : ∀ a, Q a → Shows nested (names ++ bound) s (f a) R) :
    Shows nested bound s (x >>= f) R := by
  constructor
  intro s0 b s2 hrebinds hnested hrun
  obtain ⟨a, s1, h1, h2⟩ := hrun.bind
  have hstep := heffect hnested h1
  exact (hf a (hx.holds hrebinds hnested h1)).holds (hrebinds.trans hstep)
    (fun h => hstep.inside (hnested h)) h2

theorem bind (hstays : Ends Stays x) (hx : Shows nested bound s x Q)
    (hf : ∀ a, Q a → Shows nested bound s (f a) R) : Shows nested bound s (x >>= f) R :=
  hx.seq (fun _ hrun => (hstays.lift : Ends (Rebinds []) x).yields hrun) hf

theorem step (hstays : Ends Stays x) (hf : ∀ a, Shows nested bound s (f a) R) :
    Shows nested bound s (x >>= f) R :=
  .bind (Q := fun _ => True) hstays (.always fun _ => trivial) fun a _ => hf a

theorem ensure {condition : Prop} [Decidable condition] {failure : Failure} {span : Span}
    {f : Unit → CheckM β} (hf : condition → Shows nested bound s (f ()) R) :
    Shows nested bound s (ensure condition failure span >>= f) R := by
  constructor
  intro s0 b s1 hrebinds hnested hrun
  obtain ⟨hcondition, hrun⟩ := hrun.ensure_bind
  exact (hf hcondition).holds hrebinds hnested hrun

theorem naming (hx : Ends (Rebinds names) x)
    (hf : ∀ a, Shows nested (names ++ bound) s (f a) R) : Shows nested bound s (x >>= f) R :=
  .seq (Q := fun _ => True) (.always fun _ => trivial) (fun _ hrun => hx.yields hrun)
    fun a _ => hf a

theorem inScope (h : Shows True bound s body P) : Shows nested bound s (inScope body) P := by
  constructor
  intro s0 a s' hrebinds _ hrun
  obtain ⟨s1, hbody, _⟩ := hrun.inScope
  have hpush : Rebinds [] s0 { s0 with scope := s0.scope.push } :=
    .of_peek (s0.scope.peek?_enter rfl) rfl fun _ => List.cons_ne_nil _ _
  exact h.holds (hrebinds.trans hpush) (fun _ => List.cons_ne_nil _ _) hbody

theorem inFunctionFrame (h : Shows True bound s body P) :
    Shows nested bound s (inFunctionFrame body) fun r => P r.1 := by
  constructor
  rintro s0 ⟨a, upvalues⟩ s' hrebinds _ hrun
  obtain ⟨s1, hbody, _⟩ := hrun.inFunctionFrame
  have hpush : Rebinds [] s0 { s0 with scope := s0.scope.pushFunction } :=
    .of_peek (s0.scope.peek?_enter rfl) rfl fun _ => List.cons_ne_nil _ _
  exact h.holds (hrebinds.trans hpush) (fun _ => List.cons_ne_nil _ _) hbody

theorem inFunction {declared : Option Ty} (h : Shows nested bound s body P) :
    Shows nested bound s (inFunction declared body) P := by
  constructor
  intro s0 a s' hrebinds hnested hrun
  obtain ⟨s1, hbody, _⟩ := hrun.inFunction
  have hstart : Rebinds bound s { s0 with functions := { ret := declared } :: s0.functions } :=
    hrebinds.alike ⟨rfl, rfl⟩
  exact h.holds hstart hnested hbody

theorem expecting {expected : Ty} {span : Span} {check : Option Ty → CheckM Core.Expr}
    {P : Core.Expr → Prop} (h : ∀ hint, Shows nested bound s (check hint) P)
    (hstays : ∀ hint, Ends Stays (check hint)) :
    Shows nested bound s (expecting expected span check) P :=
  .step ends_resolve fun ty => .bind (hstays ty) (h ty) fun _ hvalue =>
    .step ends_unify fun _ => .pure hvalue

theorem bind_expecting {expected : Ty} {span : Span} {check : Option Ty → CheckM Core.Expr}
    {f : Core.Expr → CheckM β} {P : Core.Expr → Prop}
    (hstays : ∀ hint, Ends Stays (check hint)) (h : ∀ hint, Shows nested bound s (check hint) P)
    (hf : ∀ value, P value → Shows nested bound s (f value) R) :
    Shows nested bound s (Checker.expecting expected span check >>= f) R :=
  .bind (ends_expecting hstays) (.expecting h hstays) hf

/-- The types in the result of a unit are read by what is bound when it ends. -/
theorem inUnit {n : Nat} {parts : List Part} {body : CheckM (List Core.Stmt)}
    (h : Shows nested bound s body fun out => Fits s room n parts (walkStmts out)) :
    Shows nested bound s (inUnit body) fun out => Fits s room n parts (walkStmts out) := by
  constructor
  intro s0 out s' hrebinds hnested hrun
  obtain ⟨s1, hbody, _⟩ := hrun.isolated
  obtain ⟨stmts, s2, hstmts, hbody⟩ := hbody.bind
  replace hbody := hbody.get_bind
  obtain ⟨rfl, _⟩ := hbody.pure
  rw [Core.walk_mapTyStmts]
  have hstart : Rebinds bound s { s0 with unifier := { s0.unifier with subst := {} } } :=
    hrebinds.alike ⟨rfl, rfl⟩
  exact .mapTy (Unifier.hom_resolved s2.unifier) (h.holds hstart hnested hstmts)

/-- What an expression is checked to, with what is known of the expressions in it. -/
theorem whole {hint : Option Ty} {e : Expr} {n : Nat} {inner : List Part}
    (h : Shows nested bound s (checkExpr (room + 1) hint e) fun v => Fits s room n inner v.walk) :
    Shows nested bound s (checkExpr (room + 1) hint e) fun v =>
      Fits s (room + 1) (n + 1) (e.self bound ++ inner) v.walk := by
  constructor
  intro s0 v s' hrebinds hnested hrun
  have hinside := h.holds hrebinds hnested hrun
  refine ⟨Nat.succ_le_succ hinside.room, fun part hpart => ?_⟩
  rcases List.mem_append.mp hpart with hself | hinner
  · obtain rfl : part = ⟨bound, e⟩ := by
      cases e with
      | ident => cases hself
      | _ => exact List.mem_singleton.mp hself
    have hwalk : v ∈ v.walk := by
      obtain ⟨kind, ty⟩ := v
      rw [Core.Expr.walk]
      exact List.mem_cons_self
    exact ⟨s0, hrebinds, v, hwalk, hrun.lowers⟩
  · exact hinside.renders part hinner

end Shows

/-! Results that contain those of their parts. -/

variable {span : Span} {value : Core.Expr} {keys : List String}

theorem walk_block (block : Core.Block) : block.walk = walkStmts block.stmts := by
  obtain ⟨stmts, ty⟩ := block
  rw [Core.Block.walk]

theorem walk_closeCall {callee : Callee} {shape : FuncShape} {args : List Core.Expr} :
    Results (callee.walk ++ walkExprs args ⊆ ·.walk) (closeCall callee shape args span) := by
  refine .after fun dicts => .after fun ret => .after fun _ => .after fun _ => ?_
  unfold applied
  split
  · exact .pure (by simp [Callee.walk, Core.Expr.walk, Core.ExprKind.walk, Core.walkExprs_append])
  · refine .pure fun e he => ?_
    simp only [Callee.walk, List.mem_append] at he
    simp only [Core.Expr.walk, Core.ExprKind.walk, Core.walkExprs_append, List.mem_cons,
      List.mem_append]
    tauto
  · refine .pure fun e he => ?_
    simp only [Callee.walk, List.nil_append] at he
    simp only [Core.Expr.walk, Core.ExprKind.walk, List.mem_cons, List.mem_append]
    exact .inr (.inr he)
  · exact .fail

theorem walk_closeBody {stmts : List Core.Stmt} {trailing : Bool} :
    Results (walkStmts stmts ⊆ ·.walk) (closeBody span stmts trailing) := by
  unfold closeBody
  split
  · refine .after fun _ => .pure ?_
    rw [Core.Block.walk]
    exact List.Subset.refl _
  · refine .after fun _ => .after fun _ => .pure ?_
    rw [Core.Block.walk, endWithReturn]
    split
    · exact List.Subset.refl _
    · rw [Core.walkStmts_append]
      exact List.subset_append_left _ _

theorem walk_constructed (tag : Option Nat) (values : List Core.Expr) :
    (constructed tag values).walk = walkExprs values := by
  unfold constructed
  split
  · rw [Core.ExprKind.walk, walkExprs]
  · rw [Core.ExprKind.walk]

theorem walk_returning : Results (walkStmts · = value.walk) (returning value) := by
  refine .after fun _ => ?_
  split <;> exact .pure (by simp [walkStmts, Core.Stmt.walk])

theorem walk_bindPattern : Results (value.walk ⊆ walkStmts ·) (bindPattern pattern ty value span) := by
  unfold bindPattern
  split
  · exact .after fun _ => .pure (by simp [walkStmts, Core.Stmt.walk])
  · split
    · refine .after fun _ => .after fun _ => .after fun _ => .pure ?_
      rw [walkStmts, Core.Stmt.walk]
      exact List.subset_append_left _ _
    · exact .after fun _ => .fail

/-- Values that are read from a table in order contain those that came into it. -/
theorem walkExprs_inOrder {table : Assoc String Core.Expr} {values : List Core.Expr}
    (h : table.Within keys) (hvalues : table.inOrder keys = .ok values) :
    walkExprs table.values ⊆ walkExprs values := by
  intro e he
  obtain ⟨value, hvalue, he⟩ := Core.mem_walkExprs.mp he
  exact Core.mem_walkExprs.mpr ⟨value, (h.mem_inOrder hvalues).mpr hvalue, he⟩

theorem walkBlocks_inOrder {table : Assoc String Core.Block} {values : List Core.Block}
    (h : table.Within keys) (hvalues : table.inOrder keys = .ok values) :
    walkBlocks table.values ⊆ walkBlocks values := by
  intro e he
  obtain ⟨block, hblock, he⟩ := Core.mem_walkBlocks.mp he
  exact Core.mem_walkBlocks.mpr ⟨block, (h.mem_inOrder hvalues).mpr hblock, he⟩

theorem Fits.insert_expr {m n : Nat} {before parts : List Part} {table : Assoc String Core.Expr}
    {key : String} (h : Fits s room m before (walkExprs table.values)) (hnew : ¬table.contains key)
    (hvalue : Fits s room n parts value.walk) :
    Fits s room (max m n) (before ++ parts) (walkExprs (table.insert key value).values) := by
  rw [Assoc.values_insert value hnew, Core.walkExprs_append, walkExprs, walkExprs, List.append_nil]
  exact h.append hvalue

theorem Fits.insert_block {m n : Nat} {before parts : List Part} {table : Assoc String Core.Block}
    {key : String} {block : Core.Block} (h : Fits s room m before (walkBlocks table.values))
    (hnew : ¬table.contains key) (hblock : Fits s room n parts block.walk) :
    Fits s room (max m n) (before ++ parts) (walkBlocks (table.insert key block).values) := by
  refine (h.append hblock).mono fun _ he => Core.mem_walkBlocks.mpr ?_
  rw [Assoc.values_insert block hnew]
  rcases List.mem_append.mp he with he | he
  · obtain ⟨b, hb, he⟩ := Core.mem_walkBlocks.mp he
    exact ⟨b, List.mem_append_left _ hb, he⟩
  · exact ⟨block, List.mem_append_right _ List.mem_cons_self, he⟩

/-- A callee that is a name is not entered. -/
theorem renders_calleeOf {nested : Prop} {callee : Expr} {check : CheckM Core.Expr}
    (h : Shows nested bound s check fun v =>
      Fits s room (callee.inner + 1) (callee.parts bound) v.walk) :
    Shows nested bound s (calleeOf callee check) fun r =>
      Fits s room (if callee.isIdent then 0 else callee.inner + 1) (callee.parts bound)
        r.1.walk := by
  cases callee with
  | ident name span => exact .always fun _ => .nil
  | _ => exact .returns h fun _ hvalue => hvalue

/-! The walk. -/

mutual

theorem renders_checkExpr {room : Nat} {hint : Option Ty} {e : Expr} {nested : Prop}
    {bound : List String} {s : Checker} : Shows nested bound s (checkExpr room hint e) fun v =>
      Fits s room (e.inner + 1) (e.parts bound) v.walk := by
  cases room with
  | zero =>
    rw [checkExpr]
    exact .step .get fun _ => .fail
  | succ room =>
    unfold Expr.parts
    refine .whole ?_
    match e with
    | .int .. | .float .. | .bool .. | .string .. | .ident .. => exact .always fun _ => .nil
    | .tuple elems _ =>
      rw [checkExpr, Expr.inner]
      exact .step ends_tupleHints fun _ => .bind stays_checkElems
        renders_checkElems fun _ hfields => .pure hfields.mono
    | .array elems _ =>
      rw [checkExpr, Expr.inner]
      exact .step ends_arrayHint fun _ => .step ends_fresh fun _ =>
        .bind stays_checkItems renders_checkItems fun r hfields => .step ends_resolve fun _ =>
        .pure hfields.mono
    | .construct ty tag inits span =>
      rw [checkExpr, Expr.inner]
      refine .step ends_lookupAdt fun _ => .step ends_instantiateAdt fun _ =>
        .step ends_constructedFields fun _ => .bind stays_checkInits
          ((renders_checkInits .nil).and_of fun h => within_checkInits (.empty _) h)
          fun _ hsupplied => ?_
      split
      · exact .fail
      · rename_i values hvalues
        refine .step ends_resolve fun _ => .pure ?_
        have hall := hsupplied.1.of_zero_max.mono (walkExprs_inOrder hsupplied.2 hvalues)
        exact hall.mono (by simp [Core.Expr.walk, walk_constructed])
    | .field target field span =>
      rw [checkExpr, Expr.inner]
      exact .bind stays_checkExpr renders_checkExpr fun value hvalue => .step ends_resolve fun _ =>
        .step ends_selected fun _ => .pure hvalue.mono
    | .call callee args span =>
      rw [checkExpr, Expr.inner]
      exact .bind (stays_calleeOf stays_checkExpr) (renders_calleeOf renders_checkExpr)
        fun _ hcallee => .step ends_openCall fun _ => .ensure fun hlength =>
          .finish (renders_checkArgs hlength)
            fun _ hvalues _ _ _ hrun => (hcallee.append hvalues).mono (walk_closeCall hrun)
    | .binary op lhs rhs span =>
      rw [checkExpr, Expr.inner]
      refine .step stays_namedCallee fun r => .step ends_openCall fun shape => ?_
      split
      · refine .bind_expecting (fun _ => stays_checkExpr) (fun _ => renders_checkExpr) fun _ hl =>
          .finish (.expecting (fun _ => renders_checkExpr) fun _ => stays_checkExpr)
            fun _ hr _ _ _ hrun => Fits.mono (Fits.mono (hl.append hr) ?_) (walk_closeCall hrun)
        simp [walkExprs]
      · exact .fail
    | .unary op operand span =>
      rw [checkExpr, Expr.inner]
      refine .step stays_namedCallee fun r => .step ends_openCall fun shape => ?_
      split
      · exact .finish (.expecting (fun _ => renders_checkExpr) fun _ => stays_checkExpr)
          fun _ hvalue _ _ _ hrun =>
            Fits.mono (Fits.mono hvalue (by simp [walkExprs])) (walk_closeCall hrun)
      · exact .fail
    | .closure params body span =>
      rw [checkExpr, Expr.inner]
      refine .step ends_openClosure fun _ => .step ends_closureParams
        fun _ => .step ends_resolve fun _ => .finish (.inFunctionFrame
          (P := fun r =>
            Fits s room body.nesting (body.parts (params.map (·.name.text) ++ bound)) r.2.walk)
          (.naming (ends_bindClosureParams rebinds_listed) fun ids =>
            .returns renders_checkBody fun _ hblock => hblock)) ?_
      rintro ⟨⟨ids, block⟩, upvalues⟩ hblock _ _ _ hrun
      obtain ⟨_, _, _, hrun⟩ := hrun.bind
      obtain ⟨_, _, _, hrun⟩ := hrun.bind
      obtain ⟨rfl, _⟩ := hrun.pure
      exact hblock.mono
    | .cond branches otherwise span =>
      rw [checkExpr, Expr.inner]
      exact .bind stays_checkBranches renders_checkBranches fun r hbranches =>
        .bind stays_checkElse renders_checkElse fun r' hlast => .step ends_join fun _ =>
        .step ends_resolve fun _ => .pure (hbranches.append hlast).mono
    | .cases target cases span =>
      rw [checkExpr, Expr.inner]
      refine .bind stays_checkExpr renders_checkExpr fun _ hvalue => .step ends_resolve fun _ =>
        .step ends_enumOf fun _ => .step ends_freshBinding fun _ =>
        .bind stays_checkCases ((renders_checkCases .nil).and_of fun h =>
        within_checkCases (.empty _) h) fun _ hcases => ?_
      dsimp only
      split
      · exact .fail
      · rename_i blocks hblocks
        refine .step ends_resolve fun _ => .pure ?_
        have hall := hcases.1.of_zero_max.mono (walkBlocks_inOrder hcases.2 hblocks)
        exact (hvalue.append hall).mono
    | .block body _ =>
      rw [checkExpr, Expr.inner]
      exact .bind stays_checkBlock
        renders_checkBlock fun _ hblock => .pure hblock.mono

theorem renders_checkElems {room : Nat} {hints : List Ty} {es : List Expr} {nested : Prop}
    {bound : List String} {s : Checker} :
    Shows nested bound s (checkElems room hints es) fun values =>
      Fits s room (nestingExprs es) (partsOfExprs bound es) (walkExprs values) := by
  match es with
  | [] => exact .always fun _ => .nil
  | e :: rest =>
    rw [checkElems, partsOfExprs, nestingExprs]
    refine .bind stays_checkExpr renders_checkExpr
      fun _ hvalue => .returns renders_checkElems
        fun _ hvalues => ?_
    rw [walkExprs]
    exact hvalue.append hvalues

theorem renders_checkItems {room : Nat} {hint : Option Ty} {ty : Ty} {es : List Expr}
    {nested : Prop} {bound : List String} {s : Checker} :
    Shows nested bound s (checkItems room hint ty es) fun r =>
      Fits s room (nestingExprs es) (partsOfExprs bound es) (walkExprs r.1) := by
  match es with
  | [] => exact .always fun _ => .nil
  | e :: rest =>
    rw [checkItems, partsOfExprs, nestingExprs]
    refine .step ends_resolve fun _ => .bind stays_checkExpr renders_checkExpr fun _ hvalue =>
      .step ends_unify fun _ => .bind stays_checkItems renders_checkItems fun _ hvalues => .pure ?_
    rw [walkExprs]
    exact hvalue.append hvalues

theorem renders_checkArgs {room : Nat} {params : List Ty} {es : List Expr}
    (hlength : params.length = es.length) {nested : Prop} {bound : List String} {s : Checker} :
    Shows nested bound s (checkArgs room params es) fun values =>
      Fits s room (nestingExprs es) (partsOfExprs bound es) (walkExprs values) := by
  match es with
  | [] => exact .always fun _ => .nil
  | e :: rest =>
    cases params with
    | nil => cases hlength
    | cons param params =>
      rw [checkArgs, partsOfExprs, nestingExprs]
      refine .bind_expecting (fun _ => stays_checkExpr) (fun _ => renders_checkExpr) fun _ hvalue =>
        .returns (renders_checkArgs (Nat.succ.inj hlength)) fun _ hvalues => ?_
      rw [walkExprs]
      exact hvalue.append hvalues

theorem renders_checkInits {room m : Nat} {inst : Instance} {fields : Fields}
    {supplied : Assoc String Core.Expr} {inits : List FieldInit} {nested : Prop}
    {bound : List String} {s : Checker} {before : List Part}
    (hsupplied : Fits s room m before (walkExprs supplied.values)) :
    Shows nested bound s (checkInits room inst fields supplied inits) fun out =>
      Fits s room (max m (nestingInits inits)) (before ++ partsOfInits bound inits)
        (walkExprs out.values) := by
  match inits with
  | [] =>
    rw [checkInits, partsOfInits, List.append_nil, nestingInits, Nat.max_zero]
    exact .pure hsupplied
  | ⟨name, e⟩ :: rest =>
    rw [checkInits, partsOfInits, ← List.append_assoc, nestingInits, ← max_assoc]
    split
    · exact .step ends_resolve fun _ => .fail
    · exact .ensure fun hfresh => .bind_expecting (fun _ => stays_checkExpr)
        (fun _ => renders_checkExpr) fun _ hvalue =>
          renders_checkInits (hsupplied.insert_expr hfresh hvalue)

theorem renders_checkBranches {room : Nat} {hint before : Option Ty} {branches : List Branch}
    {nested : Prop} {bound : List String} {s : Checker} :
    Shows nested bound s (checkBranches room hint before branches) fun r =>
      Fits s room (nestingBranches branches) (partsOfBranches bound branches)
        (walkBranches r.1) := by
  match branches with
  | [] => exact .always fun _ => .nil
  | ⟨cond, body⟩ :: rest =>
    rw [checkBranches, partsOfBranches, nestingBranches]
    refine .bind_expecting (fun _ => stays_checkExpr) (fun _ => renders_checkExpr) fun _ htest =>
      .bind stays_checkBlock renders_checkBlock fun _ hblock => .step ends_join fun _ =>
      .bind stays_checkBranches renders_checkBranches fun _ hrest => .pure ?_
    rw [walkBranches]
    exact (htest.append hblock).append hrest

theorem renders_checkElse {room : Nat} {hint : Option Ty} {span : Span}
    {otherwise : Option Block} {nested : Prop} {bound : List String} {s : Checker} :
    Shows nested bound s (checkElse room hint span otherwise) fun r =>
      Fits s room (nestingElse otherwise) (partsOfElse bound otherwise) r.1.walk := by
  match otherwise with
  | none => exact .always fun _ => .nil
  | some block =>
    rw [checkElse, partsOfElse, nestingElse]
    exact .returns renders_checkBlock fun _ hblock => hblock

theorem renders_checkCases {room n : Nat} {hint : Option Ty} {m : Match} {before : Option Ty}
    {done : Assoc String Core.Block} {cases : List Case} {nested : Prop} {bound : List String}
    {s : Checker} {parts : List Part} (hdone : Fits s room n parts (walkBlocks done.values)) :
    Shows nested bound s (checkCases room hint m before done cases) fun r =>
      Fits s room (max n (nestingCases cases)) (parts ++ partsOfCases bound cases)
        (walkBlocks r.1.values) := by
  match cases with
  | [] =>
    rw [checkCases, partsOfCases, List.append_nil, nestingCases, Nat.max_zero]
    exact .pure hdone
  | ⟨tag, bindings, ⟨stmts, bodySpan⟩, span⟩ :: rest =>
    rw [checkCases, partsOfCases, ← List.append_assoc, nestingCases, ← max_assoc, Block.nesting]
    split
    · exact .fail
    · refine .ensure fun hfresh => .bind
        (.inScope (.bind passes_bindCaseFields fun _ => .bind passes_checkStmts fun _ => .pure))
        (.inScope (P := fun block => Fits s room (nestingStmts stmts)
            (partsOfStmts (bindings.map (·.binding.text) ++ bound) stmts) block.walk)
          (.naming (ends_bindCaseFields rebinds_listed) fun _ => .returns renders_checkStmts fun _ hbody => ?_))
        fun _ hblock => .step ends_join fun _ =>
          renders_checkCases (hdone.insert_block hfresh hblock)
      rw [walk_block] at hbody ⊢
      rw [Core.walkStmts_append]
      exact hbody.mono (List.subset_append_right _ _)

theorem renders_checkBlock {room : Nat} {hint : Option Ty} {block : Block} {nested : Prop}
    {bound : List String} {s : Checker} :
    Shows nested bound s (checkBlock room hint block) fun out =>
      Fits s room block.nesting (block.parts bound) out.walk := by
  match block with
  | ⟨stmts, _⟩ =>
    rw [checkBlock, Block.parts, Block.nesting]
    exact .inScope renders_checkStmts

theorem renders_checkStmts {room : Nat} {hint : Option Ty} {stmts : List Stmt}
    {bound : List String} {s : Checker} :
    Shows True bound s (checkStmts room hint stmts) fun block =>
      Fits s room (nestingStmts stmts) (partsOfStmts bound stmts) block.walk := by
  match stmts with
  | [] => exact .always fun _ => .nil
  | stmt :: rest =>
    rw [partsOfStmts, nestingStmts]
    refine checkStmts_cons_rooms (P := fun x => Shows True bound s (x room hint) fun block =>
      Fits s room (max stmt.nesting (nestingStmts rest))
        (stmt.parts bound ++ partsOfStmts (stmt.binds ++ bound) rest) block.walk) ?_ ?_
    · intro e span hstmt hrest
      match stmt, hstmt with
      | .eval e _, rfl =>
        rw [hrest, partsOfStmts, Stmt.parts, List.append_nil, nestingStmts, Nat.max_zero,
          Stmt.nesting]
        exact .returns renders_checkExpr fun _ hvalue => hvalue.mono
    · refine .seq renders_checkStmt (fun hnested hrun => rebinds_nested (hnested trivial) hrun)
        fun _ hout => .returns renders_checkStmts fun _ hblock => ?_
      rw [walk_block] at hblock ⊢
      rw [Core.walkStmts_append]
      exact hout.append hblock

theorem renders_checkStmt {room : Nat} {stmt : Stmt} {nested : Prop} {bound : List String}
    {s : Checker} : Shows nested bound s (checkStmt room stmt) fun out =>
      Fits s room stmt.nesting (stmt.parts bound) (walkStmts out) := by
  match stmt with
  | .bind pattern written value _ =>
    rw [checkStmt, Stmt.parts, Stmt.nesting]
    exact .step ends_typeFor? fun _ => .bind stays_checkExpr renders_checkExpr fun _ hchecked =>
      .step ends_join fun _ => .step ends_resolve fun _ => .of_yields fun hrun =>
      hchecked.mono (walk_bindPattern hrun)
  | .func decl =>
    rw [checkStmt, Stmt.parts, Stmt.nesting]
    refine .step ends_declareSignature fun _ => .step ends_freshBinding fun id =>
      .naming (ends_bindValue (rebinds_allows (.inl (List.mem_singleton_self _))) rfl) fun _ =>
        .finish renders_checkFunc ?_
    rintro ⟨func, ty⟩ hfunc _ _ _ hrun
    obtain ⟨_, _, _, hrun⟩ := hrun.bind
    obtain ⟨rfl, _⟩ := hrun.pure
    exact hfunc.mono
  | .struct name generics fields span => exact .always fun _ => .nil
  | .enum name generics tags span => exact .always fun _ => .nil
  | .trait name methods span => exact .always fun _ => .nil
  | .impl trait ty methods span =>
    rw [checkStmt, Stmt.parts, Stmt.nesting]
    refine .step ends_requireTopLevel fun _ => .naming rebinds_openImpl fun _ =>
      .bind stays_checkMethods ((renders_checkMethods .nil).and_of
        fun h => within_checkMethods (.empty _) h) fun _ hdone => ?_
    split
    · exact .fail
    · rename_i fields hfields
      exact .pure (hdone.1.of_zero_max.mono (walkExprs_inOrder hdone.2 hfields)).mono
  | .ret none span => exact .always fun _ => .nil
  | .ret (some e) span =>
    rw [checkStmt, Stmt.parts, Stmt.nesting]
    exact .step ends_requireFunction fun _ => .step ends_currentReturn fun hint =>
      .bind stays_checkExpr renders_checkExpr
        fun value hvalue => .step stays_recordReturn fun _ => .pure hvalue.mono
  | .whileDo cond body _ =>
    rw [checkStmt, Stmt.parts, Stmt.nesting]
    refine .bind_expecting (fun _ => stays_checkExpr) (fun _ => renders_checkExpr) fun _ htest =>
      .returns renders_checkBlock fun _ hblock => ?_
    exact (htest.append hblock).mono
  | .forEach name iterable body span =>
    rw [checkStmt, Stmt.parts, Stmt.nesting]
    refine .bind stays_checkExpr renders_checkExpr fun value hvalue => .step ends_resolve fun _ =>
      .step ends_elementOf fun _ => .finish (.inScope
        (P := fun r => Fits s room body.nesting (body.parts ([name.text] ++ bound)) r.2.walk)
        (.naming (ends_bindLocal (rebinds_allows (.inl (List.mem_singleton_self name.text))))
          fun _ => .returns renders_checkBlock fun _ hblock => hblock)) ?_
    rintro ⟨id, block⟩ hblock _ _ _ hrun
    obtain ⟨rfl, _⟩ := hrun.pure
    exact (hvalue.append hblock).mono
  | .eval e _ =>
    rw [checkStmt, Stmt.parts, Stmt.nesting]
    exact .returns renders_checkExpr fun _ hvalue => hvalue.mono

theorem renders_checkFunc {room : Nat} {sig : Signature} {decl : FuncDecl} {nested : Prop}
    {bound : List String} {s : Checker} : Shows nested bound s (checkFunc room sig decl) fun r =>
      Fits s room decl.nesting (decl.parts bound) r.1.walk := by
  match decl with
  | ⟨name, _, params, ret, body, span⟩ =>
    rw [checkFunc, FuncDecl.parts, FuncDecl.nesting]
    refine .finish (.inFunctionFrame
      (P := fun r : List BindingId × Core.Block × List (Nat × Ty) =>
        Fits s room body.nesting (body.parts (params.map (·.name.text) ++ bound)) r.2.1.walk)
      (.naming rebinds_bindTracers fun _ =>
        .naming (ends_bindParams rebinds_listed) fun ids => .step ends_typeFor? fun _ =>
          .returns renders_checkBody fun _ hblock => hblock)) ?_
    rintro ⟨⟨ids, block, tracers⟩, upvalues⟩ hblock _ _ _ hrun
    obtain ⟨rfl, _⟩ := hrun.pure
    exact hblock.mono

theorem renders_checkMethods {room m : Nat} {impl : Impl} {done : Assoc String Core.Expr}
    {methods : List FuncDecl} {nested : Prop} {bound : List String} {s : Checker}
    {before : List Part} (hdone : Fits s room m before (walkExprs done.values)) :
    Shows nested bound s (checkMethods room impl done methods) fun out =>
      Fits s room (max m (nestingFuncs methods)) (before ++ partsOfDecls bound methods)
        (walkExprs out.values) := by
  match methods with
  | [] =>
    rw [checkMethods, partsOfDecls, List.append_nil, nestingFuncs, Nat.max_zero]
    exact .pure hdone
  | method :: rest =>
    rw [checkMethods, partsOfDecls, ← List.append_assoc, nestingFuncs, ← max_assoc]
    split
    · exact .fail
    · refine .ensure fun hfresh => .step ends_methodType fun _ =>
        .step ends_declareSignature fun sig => .bind (stays_checkFunc room sig method)
        renders_checkFunc fun _ hfunc => .step (.isolated (.bind ends_unify fun _ =>
        ends_resolve)) fun _ => renders_checkMethods (hdone.insert_expr hfresh ?_)
      exact hfunc.mono

theorem renders_checkBody {room : Nat} {declared : Option Ty} {body : Block}
    {bound : List String} {s : Checker} :
    Shows True bound s (checkBody room declared body) fun block =>
      Fits s room body.nesting (body.parts bound) block.walk := by
  match body with
  | ⟨stmts, span⟩ =>
    rw [checkBody, Block.parts, Block.nesting]
    exact .inFunction (.finish renders_checkBodyStmts
      fun _ hstmts _ _ _ hrun => hstmts.mono (walk_closeBody hrun))

theorem renders_checkBodyStmts {room : Nat} {stmts : List Stmt} {bound : List String}
    {s : Checker} : Shows True bound s (checkBodyStmts room stmts) fun r =>
      Fits s room (nestingStmts stmts) (partsOfStmts bound stmts) (walkStmts r.1) := by
  match stmts with
  | [] => exact .always fun _ => .nil
  | stmt :: rest =>
    rw [partsOfStmts, nestingStmts]
    refine checkBodyStmts_cons_rooms (P := fun x => Shows True bound s (x room) fun r =>
      Fits s room (max stmt.nesting (nestingStmts rest))
        (stmt.parts bound ++ partsOfStmts (stmt.binds ++ bound) rest) (walkStmts r.1)) ?_ ?_
    · intro e span hstmt hrest
      match stmt, hstmt with
      | .eval e _, rfl =>
        rw [hrest, partsOfStmts, Stmt.parts, List.append_nil, nestingStmts, Nat.max_zero,
          Stmt.nesting]
        refine .returns (.inUnit (.step ends_currentReturn fun _ =>
          .bind stays_checkExpr renders_checkExpr fun _ hvalue => .step stays_recordReturn fun _ =>
          .of_yields fun hrun => ?_)) fun out hout => hout
        rw [walk_returning hrun]
        exact hvalue
    · refine .seq (.inUnit renders_checkStmt)
        (fun hnested hrun => rebinds_nestedUnit (hnested trivial) hrun) fun _ hout =>
          .returns renders_checkBodyStmts fun _ hrest => ?_
      rw [Core.walkStmts_append]
      exact hout.append hrest

end

end Checker

end TraitCheck
