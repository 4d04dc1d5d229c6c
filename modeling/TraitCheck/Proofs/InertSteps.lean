import TraitCheck.Proofs.Endings

/-!
Steps that bind no type variable. A declared function does not, however long its
body is: each statement of a body is a unit of its own, and its bindings of type
variables end with it.
-/

namespace TraitCheck.Checker

variable {α : Type} {body : CheckM α}

/-- The bindings of type variables are the same. -/
def SameSubst (s s' : Checker) : Prop := s'.unifier.subst = s.unifier.subst

instance : BindingClosed SameSubst where
  refl := fun _ => rfl
  trans := fun _ _ _ h h' => h'.trans h
  draw := fun _ _ _ => rfl
  binding := fun _ => rfl

theorem EndsIn.subst {s s' : Checker} {x : CheckM α} {a : α} (h : Ends SameSubst x)
    (hx : Yields x s a s') : s'.unifier.subst = s.unifier.subst :=
  h.yields hx

theorem inert_inFunction (declared : Option Ty) (h : Ends SameSubst body) :
    Ends SameSubst (inFunction declared body) :=
  .of_rel fun s => h.rel { s with functions := { ret := declared } :: s.functions }

theorem inert_inFunctionFrame (h : Ends SameSubst body) : Ends SameSubst (inFunctionFrame body) :=
  .of_rel fun s => h.rel { s with scope := s.scope.pushFunction }

/-- A unit goes back to the bindings from before, whatever it is. -/
theorem inert_isolated (body : CheckM α) : Ends SameSubst (isolated body) := .of_rel fun _ => rfl

/-! Functions. -/

variable {name : String} {span : Span} {decl : Surface.FuncDecl} {room : Nat}

theorem inert_bindType {ty : Ty} : Ends SameSubst (bindType name ty) := .modify fun _ => rfl

theorem inert_allows : Allows SameSubst name := fun _ _ _ _ => rfl

theorem inert_provide {ty : Ty} {bound : Trait} {evidence : Evidence} :
    Ends SameSubst (provide span ty bound evidence) :=
  ends_provide fun _ _ _ => rfl

theorem inert_closeBody {stmts : List Core.Stmt} {trailing : Bool} :
    Ends SameSubst (closeBody span stmts trailing) := by
  rw [closeBody.eq_def]
  split
  · exact .bind ends_currentReturn fun _ => .pure
  · refine .bind (.bind .get fun _ => ?_) fun _ => .bind ends_currentReturn fun _ => .pure
    split
    · exact .pure
    · exact inert_isolated _

theorem inert_checkBodyStmts {stmts : List Surface.Stmt} : Ends SameSubst (checkBodyStmts room stmts) := by
  induction stmts with
  | nil =>
    rw [checkBodyStmts]
    exact .pure
  | cons stmt rest ih =>
    rw [checkBodyStmts.eq_def]
    split
    · exact .pure
    · exact .bind (inert_isolated _) fun _ => .pure
    · rename_i heq
      cases heq
      exact .bind (inert_isolated _) fun _ => .bind ih fun _ => .pure

theorem inert_checkBody {declared : Option Ty} {body : Surface.Block} :
    Ends SameSubst (checkBody room declared body) := by
  obtain ⟨stmts, span⟩ := body
  rw [checkBody]
  exact inert_inFunction _ (.bind inert_checkBodyStmts fun _ => inert_closeBody)

theorem inert_checkFunc {sig : Signature} : Ends SameSubst (checkFunc room sig decl) := by
  obtain ⟨name, generics, params, ret, body, span⟩ := decl
  rw [checkFunc]
  refine .bind (inert_inFunctionFrame ?_) fun _ => .pure
  exact .bind (ends_bindTracers (fun _ _ => inert_bindType) (fun _ _ => inert_allows)
    fun _ _ _ => inert_provide) fun _ => .bind (ends_bindParams fun _ _ => inert_allows) fun _ =>
      .bind ends_typeFor? fun _ => .bind inert_checkBody fun _ => .pure

theorem inert_func : Ends SameSubst (checkStmt room (.func decl)) := by
  rw [checkStmt]
  exact .bind ends_declareSignature fun _ => .bind ends_freshBinding fun _ =>
    .bind (ends_bindValue inert_allows rfl) fun _ => .bind inert_checkFunc fun _ =>
      .bind (.modify fun _ => rfl) fun _ => .pure

/-! Implementations. -/

variable {bound : Name} {methods : List Surface.FuncDecl}

theorem inert_checkMethods {impl : Impl} {done : Assoc String Core.Expr} :
    Ends SameSubst (checkMethods room impl done methods) := by
  induction methods generalizing done with
  | nil =>
    rw [checkMethods]
    exact .pure
  | cons method rest ih =>
    rw [checkMethods]
    split
    · exact .fail rfl
    · exact .bind (.ensure rfl) fun _ => .bind ends_methodType fun _ =>
        .bind ends_declareSignature fun _ => .bind inert_checkFunc fun _ =>
          .bind (inert_isolated _) fun _ => ih

theorem inert_impl {ty : Surface.TypeExpr} :
    Ends SameSubst (checkStmt room (.impl bound ty methods span)) := by
  rw [checkStmt]
  refine .bind ends_requireTopLevel fun _ => .bind (ends_openImpl (fun _ _ => inert_allows)
    fun _ _ _ => inert_provide) fun _ => .bind inert_checkMethods fun _ => ?_
  split
  · exact .fail rfl
  · exact .pure

end TraitCheck.Checker
