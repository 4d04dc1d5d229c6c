import Mathlib.Data.Set.Finite.Basic
import TraitCheck.Proofs.Announcements
import TraitCheck.Proofs.DeclaredTypes
import TraitCheck.Proofs.RenamedPrograms

/-!
What a check that fails leaves behind. Nothing is rolled back: the structs and enums
stay declared by name, as far as they were entered, and so does all that the statements
before the failing one declare. Of that statement itself, at most a function name or
the evidence of an implementation stays (`Remains`). But only declarations matter: if
there are no new ones, then all later programs get the answers that they would have got
without the check, up to the ids that it has drawn.
-/

namespace TraitCheck

open Surface (Stmt GenericParam TypeExpr Program)

/-- Statements that declare something before their last step that may fail. -/
def Surface.Stmt.declaresFirst : Stmt → Bool
  | .func .. | .impl .. => true
  | _ => false

namespace Checker

variable {α β : Type} {s s' : Checker}

/-! Steps that declare nothing if they fail. -/

variable {stmt : Stmt}

/-- The step fails and leaves the second state. -/
def Stops (x : CheckM α) (s : Checker) (e : TypeError) (s' : Checker) : Prop :=
  x.run.run s = (.error e, s')

theorem Stops.bind_cases {x : CheckM α} {f : α → CheckM β} {e : TypeError}
    (h : Stops (x >>= f) s e s') :
    Stops x s e s' ∨ ∃ a s1, Yields x s a s1 ∧ Stops (f a) s1 e s' := by
  rw [Stops, Runs.run_bind] at h
  cases hrun : x.run.run s with
  | mk r s1 =>
    rw [hrun] at h
    cases r with
    | error e' =>
      cases h
      exact .inl hrun
    | ok a => exact .inr ⟨a, s1, hrun, h⟩

/-- The step does not fail. -/
def Total (x : CheckM α) : Prop := ∀ s, ∃ a s', Yields x s a s'

theorem Total.not_stops {x : CheckM α} {e : TypeError} (h : Total x) : ¬Stops x s e s' := by
  obtain ⟨a, s1, hrun⟩ := h s
  rw [Stops, hrun]
  rintro ⟨⟩

theorem Total.bind {x : CheckM α} {f : α → CheckM β} (hx : Total x) (hf : ∀ a, Total (f a)) :
    Total (x >>= f) := by
  intro s
  obtain ⟨a, s1, h1⟩ := hx s
  obtain ⟨b, s2, h2⟩ := hf a s1
  exact ⟨b, s2, h1.andThen h2⟩

theorem total_pure (a : α) : Total (pure a) := fun s => ⟨a, s, rfl⟩

theorem total_bindElements (source : Core.Expr) (index : Nat) (names : List Name)
    (types : List Ty) : Total (bindElements source index names types) := by
  induction names generalizing index types with
  | nil => exact total_pure _
  | cons name rest ih =>
    cases types with
    | nil => exact total_pure _
    | cons ty types =>
      have hlocal : Total (bindLocal name.text ty) := fun _ => ⟨_, _, rfl⟩
      exact hlocal.bind fun _ => (ih _ types).bind fun _ => total_pure _

theorem total_bindMethods (bound : Trait) (selfVar : TyVar) (index : Nat)
    (methods : List (String × Ty)) : Total (bindMethods bound selfVar index methods) := by
  induction methods generalizing index with
  | nil => exact total_pure _
  | cons method rest ih =>
    have hvalue : ∀ value, Total (bindValue method.1 value) := fun _ _ => ⟨_, _, rfl⟩
    exact (hvalue _).bind fun _ => ih _

/-- Where the step fails, it has changed no more than an expression does. -/
structure Backs (x : CheckM α) : Prop where
  stays : ∀ {s e s'}, Stops x s e s' → Stays s s'

namespace Backs

theorem of_stays {x : CheckM α} (h : Ends Stays x) : Backs x := by
  constructor
  intro s e s' hstop
  have hrel := h.rel s
  rwa [hstop] at hrel

theorem of_total {x : CheckM α} (h : Total x) : Backs x :=
  ⟨fun hstop => (h.not_stops hstop).elim⟩

theorem bind {x : CheckM α} {f : α → CheckM β} (hx : Ends Stays x) (hf : ∀ a, Backs (f a)) :
    Backs (x >>= f) := by
  constructor
  intro s e s' hstop
  rcases hstop.bind_cases with hstop | ⟨a, s1, h1, hstop⟩
  · exact (of_stays hx).stays hstop
  · exact trans_of Stays (hx.yields h1) ((hf a).stays hstop)

theorem andThen {x : CheckM α} {f : α → CheckM β} (hx : Backs x) (hf : ∀ a, Total (f a)) :
    Backs (x >>= f) := by
  constructor
  intro s e s' hstop
  rcases hstop.bind_cases with hstop | ⟨a, s1, _, hstop⟩
  · exact hx.stays hstop
  · exact ((hf a).not_stops hstop).elim

end Backs

theorem backs_bindPattern (pattern : Surface.Pattern) (ty : Ty) (value : Core.Expr) (span : Span) :
    Backs (bindPattern pattern ty value span) := by
  unfold bindPattern
  split
  · exact .of_total fun _ => ⟨_, _, rfl⟩
  · split
    · exact .bind (.ensure rfl) fun _ => .bind ends_freshBinding fun _ =>
        .of_total ((total_bindElements _ _ _ _).bind fun _ => total_pure _)
    · exact .of_stays (.bind ends_freshAll fun _ => .fail rfl)

theorem backs_declareTrait (name : Name) (methods : List Surface.MethodSig) :
    Backs (declareTrait name methods) :=
  .bind .get fun _ => .bind (.ensure rfl) fun _ => .bind ends_fresh fun _ =>
    .bind (ends_traitMethods _ _ _) fun _ => .bind .get fun _ => .bind ends_declare fun _ =>
      .of_total (Total.bind (fun _ => ⟨_, _, rfl⟩) fun _ => total_bindMethods _ _ _ _)

theorem backs_declareAdt (name : Name) (params : List GenericParam) :
    Backs (declareAdt name params) :=
  .bind .get fun _ => .bind (.ensure rfl) fun _ => .bind ends_declareGenerics fun _ =>
    .of_total (Total.bind (fun _ => ⟨_, _, rfl⟩) fun _ _ => ⟨_, _, rfl⟩)

theorem backs_checkStmt (room : Nat) (h : stmt.declaresFirst = false) :
    Backs (checkStmt room stmt) := by
  cases stmt with
  | bind pattern written value span =>
    rw [checkStmt]
    exact .bind ends_typeFor? fun _ =>
      .bind stays_checkExpr fun _ => .bind ends_join fun _ =>
        .bind ends_resolve fun _ => backs_bindPattern _ _ _ _
  | func => cases h
  | struct name params fields span =>
    rw [checkStmt]
    refine .bind ends_requireTopLevel fun _ => Backs.andThen ?_ fun _ => total_pure _
    exact .bind ends_pendingAdt fun _ => .bind ends_resolveFields fun _ =>
      .of_total fun _ => ⟨_, _, rfl⟩
  | enum name params tags span =>
    rw [checkStmt]
    refine .bind ends_requireTopLevel fun _ => Backs.andThen ?_ fun _ => total_pure _
    exact .bind ends_pendingAdt fun _ => .bind ends_addTags fun _ =>
      .of_total fun _ => ⟨_, _, rfl⟩
  | trait name methods span =>
    rw [checkStmt]
    exact .bind ends_requireTopLevel fun _ =>
      (backs_declareTrait _ _).andThen fun _ => total_pure _
  | impl => cases h
  | ret | whileDo | forEach | eval => exact .of_stays (stays_checkStmt rfl)

/-! States with the same declarations. -/

variable {room : Nat}

/-- The outermost frames have the same names, and there are the same types, traits and
evidence, apart from evidence for tracers that the first state has not drawn. -/
structure SameDeclarations (s s' : Checker) : Prop extends Undeclared s.unifier.next s s' where
  values : s'.scope.top.values = s.scope.top.values
  types : s'.scope.top.types = s.scope.top.types

theorem Stays.sameDeclarations (h : Stays s s') : SameDeclarations s s' where
  toUndeclared := h.toUndeclared
  values := by
    have hbare := congrArg Frame.values h.top
    exact hbare
  types := h.types

theorem SameDeclarations.trans {u : Checker} (h : SameDeclarations s u)
    (hnext : s.unifier.next ≤ u.unifier.next) (h' : SameDeclarations u s') :
    SameDeclarations s s' where
  adts := h'.adts.trans h.adts
  traits := h'.traits.trans h.traits
  evidence con bound hbelow :=
    (h'.evidence con bound (hbelow.mono hnext)).trans (h.evidence con bound hbelow)
  values := h'.values.trans h.values
  types := h'.types.trans h.types

/-- Bindings of type variables are no declarations. -/
theorem SameDeclarations.setSubst (subst : Subst) {subst' : Subst}
    (h : SameDeclarations { s with unifier := { s.unifier with subst } } s') :
    SameDeclarations s { s' with unifier := { s'.unifier with subst := subst' } } :=
  ⟨⟨h.adts, h.traits, h.evidence⟩, h.values, h.types⟩

def withValue (s : Checker) (name : String) (value : Value) : Checker :=
  { s with scope := s.scope.bindValue name value }

def withEvidence (s : Checker) (con : Con) (bound : Trait) (evidence : Evidence) : Checker :=
  { s with
    registry := { s.registry with
      evidence := s.registry.evidence.insert (con, bound) evidence } }

theorem SameDeclarations.withValue (h : SameDeclarations s s') (name : String) (value : Value) :
    SameDeclarations (s.withValue name value) (s'.withValue name value) where
  toUndeclared := ⟨h.adts, h.traits, h.evidence⟩
  values := congrArg (Assoc.insert · name value) h.values
  types := h.types

/-- The state in which an implementation of the trait for the type has evidence. -/
def withImpl (s : Checker) (bound : Trait) (target : Ty) (con : Con) (id : BindingId) : Checker :=
  let name := s!"${bound}<{con.display}>"
  (s.withEvidence con bound (.binding name id)).withValue name
    { kind := .binding id, ty := dictionaryType bound target }

/-- What a statement that fails may have declared by then. -/
inductive Remains (s : Checker) : Stmt → Checker → Prop
  | nothing {stmt : Stmt} {t : Checker} (h : SameDeclarations s t) : Remains s stmt t
  | func {decl : Surface.FuncDecl} {id : BindingId} {ty : Ty} {generics : List TyVar} {t : Checker}
    (h : SameDeclarations (s.withValue decl.name.text ⟨.binding id, ty, generics⟩) t) :
    Remains s (.func decl) t
  | impl {bound : Name} {written : TypeExpr} {methods : List Surface.FuncDecl} {span : Span}
    {decl : TraitDecl} {target : Ty} {con : Con} {id : BindingId} {t : Checker}
    (hdecl : s.registry.trait? bound.text = some decl) (hcon : target.con? = some con)
    (h : SameDeclarations (s.withImpl decl.name target con id) t) :
    Remains s (.impl bound written methods span) t

/-- The declarations of an implementation are made last. -/
theorem backs_openImpl (bound : Name) (written : TypeExpr) (span : Span) :
    Backs (openImpl bound written span) := by
  have hprovide : ∀ ty bound evidence, Backs (provide span ty bound evidence) := fun _ _ _ =>
    .bind .get fun _ => .bind (.ofExcept False.elim) fun _ => .of_total fun _ => ⟨_, _, rfl⟩
  refine .bind .get fun _ => ?_
  split
  · exact .of_stays (.fail rfl)
  · refine .bind ends_typeFor fun _ => ?_
    split
    · exact .of_stays (.fail rfl)
    · exact .bind (.ensure rfl) fun _ => .bind ends_freshBinding fun _ =>
        (hprovide _ _ _).andThen fun _ => Total.bind (fun _ => ⟨_, _, rfl⟩) fun _ => total_pure _

theorem Yields.openImpl_declares {bound : Name} {written : TypeExpr} {span : Span} {impl : Impl}
    (h : Yields (Checker.openImpl bound written span) s impl s') :
    ∃ decl target con id, s.registry.trait? bound.text = some decl ∧ target.con? = some con ∧
      SameDeclarations (s.withImpl decl.name target con id) s' := by
  obtain ⟨hdecl, _, _, _, con, registry, hcon, hprovide, rfl⟩ := h.openImpl
  obtain ⟨con', hcon', _, htraits, hlookup⟩ := Registry.lookup_provide hprovide
  obtain rfl : con = con' := Option.some.inj (hcon.symm.trans hcon')
  exact ⟨impl.decl, impl.target, con, impl.binding, hdecl, hcon,
    ⟨rfl, htraits, fun con' bound' _ =>
      (hlookup con' bound').trans (Assoc.find?_insert _ _ _ _).symm⟩, rfl, rfl⟩

theorem Stops.bind_stays {x : CheckM α} {f : α → CheckM β} {e : TypeError}
    (h : Stops (x >>= f) s e s') (hx : Ends Stays x) :
    Stays s s' ∨ ∃ a s1, Stays s s1 ∧ Stops (f a) s1 e s' := by
  rcases h.bind_cases with h | ⟨a, s1, h1, h⟩
  · exact .inl ((Backs.of_stays hx).stays h)
  · exact .inr ⟨a, s1, hx.yields h1, h⟩

theorem Stops.checkStmt {room : Nat} {stmt : Stmt} {e : TypeError}
    (h : Stops (Checker.checkStmt room stmt) s e s') : Remains s stmt s' := by
  by_cases hfirst : stmt.declaresFirst = false
  · exact .nothing ((backs_checkStmt room hfirst).stays h).sameDeclarations
  cases stmt with
  | func decl =>
    rw [Checker.checkStmt] at h
    rcases h.bind_stays ends_declareSignature with hstays | ⟨sig, s1, hstays, h⟩
    · exact .nothing hstays.sameDeclarations
    rcases h.bind_stays ends_freshBinding with hstays' | ⟨id, s2, hstays', h⟩
    · exact .nothing (trans_of Stays hstays hstays').sameDeclarations
    -- From here on the name is bound, and stays bound if the body fails.
    rcases h.bind_cases with h | ⟨_, s3, h3, h⟩
    · cases h
    obtain rfl := h3.modify
    have hsame := (trans_of Stays hstays hstays').sameDeclarations.withValue decl.name.text
      { kind := .binding id, ty := sig.ty, generics := sig.generics.map (·.var) }
    rcases h.bind_stays (stays_checkFunc room sig decl) with hbody | ⟨_, s4, _, h⟩
    · exact .func (hsame.trans (hstays.next.trans hstays'.next) hbody.sameDeclarations)
    · cases h
  | impl bound written methods span =>
    rw [Checker.checkStmt] at h
    rcases h.bind_cases with h | ⟨_, s1, h1, h⟩
    · exact .nothing ((Backs.of_stays ends_requireTopLevel).stays h).sameDeclarations
    obtain ⟨_, rfl⟩ := h1.requireTopLevel
    rcases h.bind_cases with h | ⟨impl, s2, h2, h⟩
    · exact .nothing ((backs_openImpl _ _ _).stays h).sameDeclarations
    -- The methods are checked with the evidence in place, and all of them have to be there.
    obtain ⟨decl, target, con, id, hdecl, hcon, hsame⟩ := h2.openImpl_declares
    have hnext := kept_openImpl.yields h2
    refine .impl hdecl hcon (hsame.trans hnext.next ?_)
    rcases h.bind_stays stays_checkMethods with hbody | ⟨done, s3, hbody, h⟩
    · exact hbody.sameDeclarations
    · split at h
      · cases h
        exact hbody.sameDeclarations
      · cases h
  | _ => exact absurd rfl hfirst

theorem Remains.setSubst {stmt : Stmt} {subst subst' : Subst}
    (h : Remains { s with unifier := { s.unifier with subst } } stmt s') :
    Remains s stmt { s' with unifier := { s'.unifier with subst := subst' } } := by
  cases h with
  | nothing h => exact .nothing (.setSubst subst h)
  | func h => exact .func (.setSubst subst h)
  | impl hdecl hcon h => exact .impl hdecl hcon (.setSubst subst h)

theorem Remains.same (h : Remains s stmt s') (hfirst : stmt.declaresFirst = false) :
    SameDeclarations s s' := by
  cases h with
  | nothing h => exact h
  | func => cases hfirst
  | impl => cases hfirst

theorem Stops.inUnit {e : TypeError}
    (h : Stops (Checker.inUnit (Checker.checkStmt room stmt)) s e s') : Remains s stmt s' := by
  obtain ⟨hresult, rfl⟩ := Prod.mk.inj h
  have hbody : Stops (do
      let stmts ← Checker.checkStmt room stmt
      return Core.mapTyStmts (← get).unifier.resolve stmts)
      { s with unifier := { s.unifier with subst := {} } } e _ := Prod.ext hresult rfl
  rcases hbody.bind_cases with hstop | ⟨_, _, _, hstop⟩
  · exact hstop.checkStmt.setSubst
  · cases hstop

/-- Statements that are checked fail at one of them. -/
theorem Stops.checkUnits {room : Nat} {units : Program} {e : TypeError}
    (h : Stops (Checker.checkUnits room units) s e s') :
    ∃ before stmt after out u, units = before ++ stmt :: after ∧
      Yields (Checker.checkUnits room before) s out u ∧
        Stops (Checker.inUnit (Checker.checkStmt room stmt)) u e s' := by
  induction units generalizing s with
  | nil => cases h
  | cons stmt rest ih =>
    rcases h.bind_cases with h | ⟨first, s1, h1, h⟩
    · exact ⟨[], stmt, rest, [], s, rfl, rfl, h⟩
    rcases h.bind_cases with h | ⟨_, _, _, h⟩
    · obtain ⟨before, failing, after, out, u, heq, hbefore, hstop⟩ := ih h
      exact ⟨stmt :: before, failing, after, first ++ out, u, congrArg (stmt :: ·) heq,
        h1.andThen (hbefore.andThen rfl), hstop⟩
    · cases h

/-- Names that are entered are entered up to the failing one. -/
theorem Stops.declareAdts {program : Program} {e : TypeError}
    (h : Stops (Checker.declareAdts program) s e s') :
    ∃ entered rest, Surface.headers program = entered ++ rest ∧
      SameDeclarations (s.announceAll entered) s' := by
  rw [declareAdts_eq] at h
  generalize Surface.headers program = headers at h
  induction headers generalizing s with
  | nil => cases h
  | cons header rest ih =>
    rw [List.forM] at h
    rcases h.bind_cases with h | ⟨_, s1, h1, h⟩
    · exact ⟨[], header :: rest, rfl, ((backs_declareAdt _ _).stays h).sameDeclarations⟩
    · obtain ⟨rfl, _⟩ := h1.declareAdt
      obtain ⟨entered, more, heq, hsame⟩ := ih h
      exact ⟨header :: entered, more, congrArg (header :: ·) heq, hsame⟩

theorem stays_checkUnits {units : Program} (h : ∀ stmt ∈ units, stmt.declaresNothing = true) :
    Ends Stays (checkUnits room units) := by
  induction units with
  | nil => exact .pure
  | cons stmt rest ih =>
    obtain ⟨hstmt, hrest⟩ := List.forall_mem_cons.mp h
    have hunit : Ends Stays (inUnit (checkStmt room stmt)) :=
      EndsIn.isolated (.bind (stays_checkStmt hstmt) fun _ => .bind .get fun _ => .pure)
    exact .bind hunit fun _ => .bind (ih hrest) fun _ => .pure

/-! What no check leaves. -/

variable {a : Nat}

/-- The same type variables are bound, and nothing built in comes in. -/
structure Encloses (s s' : Checker) : Prop where
  subst : s'.unifier.subst = s.unifier.subst
  installed : s'.preludeInstalled = s.preludeInstalled

instance : IsPreorder Checker Encloses where
  refl := fun _ => ⟨rfl, rfl⟩
  trans := fun _ _ _ h h' => ⟨h'.subst.trans h.subst, h'.installed.trans h.installed⟩

theorem encloses_declareGenerics (seen : List String) (params : List GenericParam) :
    Ends Encloses (declareGenerics seen params) := by
  induction params generalizing seen with
  | nil => exact .pure
  | cons g rest ih =>
    have hbounds : Ends Encloses (requireDeclared g.bounds) := by
      refine .bind .get fun _ => ?_
      dsimp only
      split
      · exact .fail rfl
      · exact .pure
    have hfresh : ∀ bounds, Ends Encloses (fresh g.name.text bounds) :=
      fun _ => .modifyGet fun _ => ⟨rfl, rfl⟩
    exact .bind (.ensure rfl) fun _ => .bind hbounds fun _ => .bind (hfresh _) fun _ =>
      .bind (ih _) fun _ => .pure

theorem encloses_declareAdts (program : Program) : Ends Encloses (declareAdts program) := by
  rw [declareAdts_eq]
  refine .forM _ fun _ => ?_
  exact .bind .get fun _ => .bind (.ensure rfl) fun _ =>
    .bind (encloses_declareGenerics _ _) fun _ => .bind (.modify fun _ => ⟨rfl, rfl⟩) fun _ =>
      .modify fun _ => ⟨rfl, rfl⟩

theorem encloses_checkUnits (room : Nat) (program : Program) :
    Ends Encloses (checkUnits room program) := by
  induction program with
  | nil => exact .pure
  | cons stmt rest ih =>
    have hunit : Ends Encloses (inUnit (checkStmt room stmt)) := by
      have hkept := (EndsIn.inUnit (passes_checkStmt room stmt)).kept
      exact .of_rel fun s => ⟨rfl, (hkept.rel s).installed⟩
    exact .bind hunit fun _ => .bind ih fun _ => .pure

theorem encloses_check (s : Checker) (program : Program) :
    Encloses s.prepared (s.check program).2 := by
  have hends : Ends Encloses (do declareAdts program; checkUnits s.options.maxDepth program) :=
    .bind (encloses_declareAdts program) fun _ => encloses_checkUnits _ program
  rw [check_prepared]
  exact hends.rel s.prepared

/-- Ids from `a` on are put off by `k`. -/
def putOff (a k id : Nat) : Nat := if id < a then id else id + k

theorem putOff_of_lt {k id : Nat} (h : id < a) : putOff a k id = id := if_pos h

theorem putOff_of_le {k id : Nat} (h : a ≤ id) : putOff a k id = id + k :=
  if_neg (Nat.not_lt.mpr h)

theorem putOff_injective (a k : Nat) : Function.Injective (putOff a k) := by
  intro i j h
  simp only [putOff] at h
  split_ifs at h <;> omega

/-- The renaming that puts off the ids that are still to be drawn. -/
def delay (s : Checker) (vars bindings : Nat) : Renaming where
  var := putOff s.unifier.next vars
  binding := putOff s.scope.nextBinding bindings
  limit := id
  var_injective := putOff_injective _ _
  binding_injective := putOff_injective _ _

/-- The ids that are drawn so far. -/
def limits (s : Checker) : Leeway := { vars := s.unifier.next, bindings := s.scope.nextBinding }

/-- The state in which programs leave a new checker. No name in them holds an id. -/
structure Reached (options : Options) (s : Checker) : Prop where
  session : ∃ programs : List Program, (∀ p ∈ programs, Surface.Plain p) ∧
    ((new options).session programs).2 = s

namespace Reached

variable {options : Options}

theorem check (h : Reached options s) {p : Program} (hp : Surface.Plain p) :
    Reached options (s.check p).2 := by
  obtain ⟨programs, hplain, rfl⟩ := h.session
  refine ⟨programs ++ [p], ?_, session_append _ _ _⟩
  rw [List.forall_mem_append, List.forall_mem_singleton]
  exact ⟨hplain, hp⟩

theorem prepared (h : Reached options s) : Reached options s.prepared := by
  have hempty : (s.check []).2 = s.prepared := by
    rw [check_prepared]
    rfl
  exact hempty ▸ h.check (fun _ hname => absurd hname List.not_mem_nil)

theorem tabled (h : Reached options s) : ∃ stmts, Tabled stmts s.prepared := by
  obtain ⟨programs, _, rfl⟩ := h.session
  exact ⟨_, ((tabled_new options).session programs).1⟩

theorem functions (h : Reached options s) : s.functions = [] := by
  obtain ⟨programs, _, rfl⟩ := h.session
  exact List.length_eq_zero_iff.mp (balanced_session (new options) programs).functions

/-- The ids that are still to be drawn do not occur in the state. -/
theorem related_delay (h : Reached options s) (vars bindings : Nat) :
    Plain (s.delay vars bindings) s.limits s ∧ Related (s.delay vars bindings) s.limits s s := by
  obtain ⟨programs, hplain, hs⟩ := h.session
  have hstrict : s.limits.Strict := fun _ => rfl
  have hnew : Related (s.delay vars bindings) s.limits (new options) (new options) :=
    related_new hstrict rfl (fun _ => rfl) (fun _ => putOff_of_lt) fun _ => putOff_of_lt
  have hrun := hnew.session (plain_new options) hstrict trivial (fun _ => rfl) programs
    (fun p hp name hname => .inl (hplain p hp name hname)) (le_of_eq (by rw [hs]; rfl))
    (le_of_eq (by rw [hs]; rfl))
  rw [hs] at hrun
  exact hrun.2

/-- There is no evidence for a tracer that is still to be drawn: then there were some
for each later one, too. -/
theorem lookup_undrawn (h : Reached options s) {id : Nat} (hid : s.unifier.next ≤ id)
    (name : String) (bound : Trait) : s.registry.lookup (.tracer id name) bound = none := by
  by_contra hsome
  have hkeys : ∀ k, (Con.tracer (id + k) name, bound) ∈ s.registry.evidence.keys := by
    intro k
    have hlookup := (h.related_delay k 0).2.registry.evidence (.tracer id name) bound
    have hvar : Con.rename (s.delay k 0) (.tracer id name) = .tracer (id + k) name :=
      congrArg (Con.tracer · name) (putOff_of_le hid)
    rw [← Assoc.find?_isSome, ← Registry.lookup, ← hvar, hlookup, Option.isSome_map]
    exact Option.isSome_iff_ne_none.mpr hsome
  -- A table has finitely many keys.
  refine Set.infinite_of_injective_forall_mem (fun _ _ hij => ?_) hkeys (List.finite_toSet _)
  exact Nat.add_left_cancel (Con.tracer.inj (Prod.mk.inj hij).1).1

end Reached

/-! Later programs. -/

variable {p : Program}

/-- A state, and one that a check has left in its place without a declaration. -/
structure Replaces (given : Options) (s t : Checker) : Prop extends
    Balanced s t, Encloses s t where
  reached : Reached given s
  reached' : Reached given t
  rooted : Rooted s
  rooted' : Rooted t
  same : SameDeclarations s t

/-- The renaming from the ids that one state draws to those that the other one draws. -/
def surplus (s t : Checker) : Renaming :=
  s.delay (t.unifier.next - s.unifier.next) (t.scope.nextBinding - s.scope.nextBinding)

theorem putOff_surplus {b i : Nat} (hle : a ≤ b) (hi : a ≤ i) :
    putOff a (b - a) i = b + (i - a) := by
  rw [putOff_of_le hi]
  omega

namespace Replaces

variable {options : Options} {t : Checker}

/-- A constructor that occurs is left as it is. For one that does not, neither state
has evidence. -/
theorem registry (h : Replaces options s t) : s.registry.Mirrors (s.surplus t) t.registry := by
  obtain ⟨_, hself⟩ := h.reached.related_delay (t.unifier.next - s.unifier.next)
    (t.scope.nextBinding - s.scope.nextBinding)
  refine ⟨h.same.traits.trans hself.registry.traits, fun con bound => ?_⟩
  have hold : con.Below s.unifier.next →
      t.registry.lookup (con.rename (s.surplus t)) bound =
        (s.registry.lookup con bound).map (Evidence.rename (s.surplus t)) := by
    intro hbelow
    have hcon : con.rename (s.surplus t) = con := by
      cases con with
      | tracer id name => exact congrArg (Con.tracer · name) (putOff_of_lt (hbelow id name rfl))
      | _ => rfl
    rw [hcon, h.same.evidence con bound hbelow]
    exact (congrArg (s.registry.lookup · bound) hcon).symm.trans (hself.registry.evidence con bound)
  -- Only a tracer may be one that is still to be drawn.
  cases con with
  | tracer id name =>
    by_cases hid : id < s.unifier.next
    · refine hold fun _ _ heq => ?_
      cases heq
      exact hid
    · have hid' : t.unifier.next ≤ (s.surplus t).var id :=
        le_of_le_of_eq (Nat.le_add_right _ _) (putOff_surplus h.next (Nat.not_lt.mp hid)).symm
      rw [Con.rename, h.reached'.lookup_undrawn hid',
        h.reached.lookup_undrawn (Nat.not_lt.mp hid)]
      rfl
  | _ => exact hold (by rintro _ _ ⟨⟩)

/-- The later state is the earlier one with the ids in between put aside. -/
theorem related (h : Replaces options s t) (vars bindings : Nat) :
    Plain (s.surplus t) { vars, bindings } s ∧ Related (s.surplus t) { vars, bindings } s t := by
  obtain ⟨hplain, hself⟩ := h.reached.related_delay (t.unifier.next - s.unifier.next)
    (t.scope.nextBinding - s.scope.nextBinding)
  have hscope : s.scope.Mirrors (s.surplus t) s.limits.types t.scope := by
    have htop := (Scope.mirrors_root h.rooted.root h.rooted.root).mp hself.scope
    refine (Scope.mirrors_root h.rooted.root h.rooted'.root).mpr
      ⟨h.same.values.trans htop.values, fun name => ?_, ?_⟩
    · rw [h.same.types]
      exact htop.types name
    · rw [h.rooted.upvalues, h.rooted'.upvalues]
      rfl
  refine ⟨⟨hplain.types, hplain.traits⟩,
    ⟨congrArg (·.prelude) h.options, fun _ => congrArg (·.maxDepth) h.options, h.installed,
      h.subst.trans hself.subst, h.registry, ?_, hscope, ?_⟩,
    fun i hi _ => putOff_surplus h.next hi, fun _ hi _ => putOff_surplus h.binding hi⟩
  · rw [h.same.adts]
    exact hself.adts
  · rw [h.reached'.functions, h.reached.functions]
    rfl

/-- All later answers are the same up to the ids that are put aside. -/
theorem session (h : Replaces options s t) {qs : List Program} (hqs : ∀ q ∈ qs, Surface.Plain q) :
    (t.session qs).1 = (s.session qs).1.map
      (outcome (TypeError.rename (s.surplus t)) (List.map (Core.Stmt.rename (s.surplus t)))) := by
  obtain ⟨hplain, hrel⟩ := h.related (s.session qs).2.unifier.next
    (s.session qs).2.scope.nextBinding
  exact (hrel.session hplain (fun _ => rfl) trivial (fun _ => rfl) qs
    (fun q hq name hname => .inl (hqs q hq name hname)) (Nat.le_refl _) (Nat.le_refl _)).1

end Replaces

variable {options : Options}

theorem Reached.prepared_session (h : Reached options s) (qs : List Program) :
    (s.prepared.session qs).1 = (s.session qs).1 := by
  obtain ⟨stmts, htabled⟩ := h.tabled
  cases qs with
  | nil => rfl
  | cons q rest =>
    have hcheck : s.prepared.check q = s.check q := by
      have hoptions : s.prepared.options = s.options := (balanced_preparePrelude.rel s).options
      rw [check_prepared, check_prepared, htabled.prepared_eq, hoptions]
    rw [Checker.session, Checker.session, hcheck]

/-- A check that declares nothing. -/
theorem Reached.replaces (h : Reached options s) (hp : Surface.Plain p)
    (hsame : SameDeclarations s.prepared (s.check p).2) :
    Replaces options s.prepared (s.check p).2 := by
  obtain ⟨stmts, htabled⟩ := h.tabled
  have hbalanced : Balanced s.prepared (s.check p).2 := by
    have hends : Ends Balanced (do declareAdts p; checkUnits s.options.maxDepth p) :=
      .bind (balanced_declareAdts p) fun _ => (passes_checkUnits _ p).kept.balanced
    rw [check_prepared]
    exact hends.rel s.prepared
  exact ⟨hbalanced, encloses_check s p, h.prepared, h.check hp, htabled.toRooted,
    (htabled.check p).1.toRooted, hsame⟩

/-- A check fails at the name of a struct or an enum, or at a statement. If nothing is
declared by then, and the statement does not declare anything first, then nothing is. -/
theorem check_error_leaves {e : TypeError} (h : (s.check p).1 = .error e) :
    (Stops (declareAdts p) s.prepared e (s.check p).2 ∧
      ∃ entered rest, Surface.headers p = entered ++ rest ∧
        SameDeclarations (s.prepared.announceAll entered) (s.check p).2) ∨
    ∃ before stmt after out u, p = before ++ stmt :: after ∧
      Yields (do declareAdts p; checkUnits s.options.maxDepth before) s.prepared out u ∧
      Stops (inUnit (checkStmt s.options.maxDepth stmt)) u e (s.check p).2 ∧
      Remains u stmt (s.check p).2 ∧
      (Surface.headers p = [] → (∀ r ∈ before, r.declaresNothing = true) →
        stmt.declaresFirst = false → SameDeclarations s.prepared (s.check p).2) := by
  have hstop : Stops (do declareAdts p; checkUnits s.options.maxDepth p) s.prepared e
      (s.check p).2 := by
    rw [check_prepared] at h ⊢
    exact Prod.ext h rfl
  rcases hstop.bind_cases with hstop | ⟨_, s1, hnames, hstop⟩
  · exact .inl ⟨hstop, hstop.declareAdts⟩
  · obtain ⟨before, stmt, after, out, u, heq, hbefore, hstop⟩ := hstop.checkUnits
    have hremains := hstop.inUnit
    refine .inr ⟨before, stmt, after, out, u, heq, hnames.andThen hbefore, hstop, hremains, ?_⟩
    intro hheaders hnothing hfirst
    obtain ⟨_, rfl, _⟩ := hnames.announceable
    rw [hheaders] at hbefore
    have hstays : Stays s.prepared u := (stays_checkUnits hnothing).yields hbefore
    exact hstays.sameDeclarations.trans hstays.next (hremains.same hfirst)

/-- A name that was entered cannot be declared again. -/
theorem Reached.check_again (h : Reached options s)
    (hentered : ((declareAdts p).run.run s.prepared).1 = .ok ()) {q : Program} {name : String}
    (hname : name ∈ (Surface.headers p).map (·.1.text))
    (hname' : name ∈ (Surface.headers q).map (·.1.text)) :
    ∃ e, ((s.check p).2.check q).1 = .error e := by
  obtain ⟨stmts, htabled⟩ := h.tabled
  have hnames : Yields (declareAdts p) s.prepared () _ := Prod.ext hentered rfl
  obtain ⟨_, hstate, _⟩ := hnames.announceable
  rw [hstate] at hnames
  have htypes : (s.check p).2.scope.top.types =
      (s.prepared.announceAll (Surface.headers p)).scope.top.types := by
    rw [check_prepared, Runs.run_bind, hnames]
    exact (sameNames_checkUnits.rel _).types
  cases hcheck : ((s.check p).2.check q).1 with
  | error e => exact ⟨e, rfl⟩
  | ok out =>
    obtain ⟨s1, hagain, _⟩ := Yields.of_check hcheck
    rw [(htabled.check p).1.prepared_eq] at hagain
    obtain ⟨header, hheader, rfl⟩ := List.mem_map.mp hname'
    have hnew := hagain.announceable.1.types header hheader
    have hdeclared := declaresType_announceAll (s := s.prepared) (.inl hname)
    rw [Scope.declaresType, htypes] at hnew
    exact absurd (hdeclared.symm.trans hnew) (by decide)

/-- A check in a session that fails leaves declared what is declared by then: some names
of structs and enums, or all of them and what the statements before the failing one
declare, with at most a function name or the evidence of an implementation from that
one. If that is nothing, then all later programs get the answers that they get without
the check: the same statements up to ids that are new, none of which the check has
drawn, or the same kind of failure at the same place. But a name that was entered stays,
so a program with a struct or an enum cannot be mended and checked again. -/
theorem failed_check_leaves_declarations (options : Options) (ps : List Program) (p : Program)
    (hps : ∀ r ∈ ps, Surface.Plain r) (hp : Surface.Plain p) (e : TypeError)
    (he : (((new options).session ps).2.check p).1 = .error e) :
    let s := ((new options).session ps).2
    let t := (s.check p).2
    (Stops (declareAdts p) s.prepared e t ∧
        (∃ entered rest, Surface.headers p = entered ++ rest ∧
          SameDeclarations (s.prepared.announceAll entered) t) ∨
      ∃ before stmt after out u, p = before ++ stmt :: after ∧
        Yields (do declareAdts p; checkUnits s.options.maxDepth before) s.prepared out u ∧
        Stops (inUnit (checkStmt s.options.maxDepth stmt)) u e t ∧
        Remains u stmt t ∧
        (Surface.headers p = [] → (∀ r ∈ before, r.declaresNothing = true) →
          stmt.declaresFirst = false → SameDeclarations s.prepared t)) ∧
    (SameDeclarations s.prepared t → ∃ ρ : Renaming,
      (∀ id < s.prepared.scope.nextBinding, ρ.binding id = id) ∧
      (∀ id, s.prepared.scope.nextBinding ≤ id → t.scope.nextBinding ≤ ρ.binding id) ∧
      (∀ e : TypeError, (e.rename ρ).failure.code = e.failure.code ∧ (e.rename ρ).span = e.span) ∧
      ∀ qs, (∀ q ∈ qs, Surface.Plain q) → (t.session qs).1 = (s.session qs).1.map
        (outcome (TypeError.rename ρ) (List.map (Core.Stmt.rename ρ)))) ∧
    (((declareAdts p).run.run s.prepared).1 = .ok () →
      ∀ q, ∀ name ∈ (Surface.headers p).map (·.1.text),
        name ∈ (Surface.headers q).map (·.1.text) → ∃ e, (t.check q).1 = .error e) := by
  intro s t
  have hs : Reached options s := ⟨ps, hps, rfl⟩
  refine ⟨check_error_leaves he, fun hsame => ?_, fun hentered _ _ hname hname' => ?_⟩
  · have hreplaces := hs.replaces hp hsame
    refine ⟨s.prepared.surplus t, fun _ => putOff_of_lt, fun _ hid => ?_, fun e => ?_,
      fun qs hqs => ?_⟩
    · exact le_of_le_of_eq (Nat.le_add_right _ _) (putOff_surplus hreplaces.binding hid).symm
    · exact ⟨Failure.code_rename _ e.failure, rfl⟩
    · rw [← hs.prepared_session qs]
      exact hreplaces.session hqs
  · exact hs.check_again hentered hname hname'

/-- A loop with a variable of its own, and then a name that is not there. -/
def unbound : Program :=
  [.whileDo (.bool true .dummy)
    ⟨[.bind (.name ⟨"x", .dummy⟩) none (.int 1 .dummy) .dummy], .dummy⟩ .dummy,
   .eval (.ident "x" .dummy) .dummy]

/-- A struct whose field has the type of the given name. -/
def boxOf (ty : String) : Program :=
  [.struct ⟨"Box", .dummy⟩ [] [⟨⟨"inside", .dummy⟩, .ident ty [] .dummy⟩] .dummy]

theorem exists_error {r : Except TypeError (List Core.Stmt)} (h : r.isOk = false) :
    ∃ e, r = .error e := by
  cases r with
  | error e => exact ⟨e, rfl⟩
  | ok out => cases h

/-- After a loop and a name that is not there, another struct is declared as if
nothing had been. After a struct that lacks the type of its field, it is not. -/
theorem failed_check_leaves_declarations_box : (∃ e, ((new {}).check unbound).1 = .error e) ∧
    (∃ ρ : Renaming, (((new {}).check unbound).2.session [boxOf "Int"]).1 =
      ((new {}).session [boxOf "Int"]).1.map
        (outcome (TypeError.rename ρ) (List.map (Core.Stmt.rename ρ)))) ∧
    (∃ e, ((new {}).check (boxOf "Missing")).1 = .error e) ∧
    ∃ e, (((new {}).check (boxOf "Missing")).2.check (boxOf "Int")).1 = .error e := by
  have hplain : ∀ r ∈ [unbound, boxOf "Int", boxOf "Missing"], Surface.Plain r := by decide +kernel
  obtain ⟨e, he⟩ : ∃ e, ((new {}).check unbound).1 = .error e := exists_error (by decide +kernel)
  obtain ⟨e', he'⟩ : ∃ e, ((new {}).check (boxOf "Missing")).1 = .error e :=
    exists_error (by decide +kernel)
  obtain ⟨hleft, hlater, _⟩ := failed_check_leaves_declarations {} [] unbound (by simp)
    (hplain _ (by simp)) e he
  obtain ⟨_, _, hagain⟩ := failed_check_leaves_declarations {} [] (boxOf "Missing") (by simp)
    (hplain _ (by simp)) e' he'
  have hsame : SameDeclarations (new {}).prepared ((new {}).check unbound).2 := by
    rcases hleft with ⟨_, entered, rest, heq, hsame⟩ |
      ⟨before, stmt, after, _, _, heq, _, _, _, hsame⟩
    · obtain ⟨rfl, _⟩ := List.append_eq_nil_iff.mp heq.symm
      exact hsame
    · have hnothing : ∀ r ∈ unbound, r.declaresNothing = true ∧ r.declaresFirst = false := by
        decide
      rw [heq] at hnothing
      exact hsame rfl (fun r hr => (hnothing r (List.mem_append_left _ hr)).1)
        (hnothing stmt (List.mem_append_right _ List.mem_cons_self)).2
  obtain ⟨ρ, _, _, _, hlater⟩ := hlater hsame
  refine ⟨⟨e, he⟩, ⟨ρ, hlater [boxOf "Int"] ?_⟩, ⟨e', he'⟩, ?_⟩
  · exact fun q _ => hplain q (by simp_all)
  · exact hagain (by decide +kernel) (boxOf "Int") "Box" (by decide) (by decide)

end Checker

end TraitCheck
