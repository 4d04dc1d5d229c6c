import TraitCheck.Proofs.CaptureSteps

/-!
The binders of a program: parameters with their dictionaries, patterns, and
declared functions, traits and implementations. A name that a program declares
is ordinary, so it never hides a dictionary, and a dictionary comes with the
evidence for it.
-/

namespace TraitCheck.Checker

variable {α β : Type} {marks : Marks} {V : Set BindingId} {s s' s'' : Checker} {p : Piece}

/-! Parameters. -/

variable {con : Con} {bounds : List Trait} {bound : Trait} {span : Span} {ids : List BindingId}
  {name : String} {generics : List Generic} {types : List Ty}

/-- A dictionary and its name, at once. -/
theorem Coherent.bindDictionary (h : Coherent marks V s) {registry : Registry} {size : Nat}
    {args : List Ty} (hcon : con.Named) (hbound : Ordinary bound) (ty : Ty)
    (hprovide : s.registry.provide (.app ⟨con, size, bounds⟩ args) bound
      (.binding (dictionaryName bound con) s.scope.nextBinding) = .ok registry)
    (hscope : s'.scope = { s.scope.bindValue (dictionaryName bound con)
      { kind := .binding s.scope.nextBinding, ty } with nextBinding := s.scope.nextBinding + 1 })
    (hregistry : s'.registry = registry) : Opens [s.scope.nextBinding] marks V s s' := by
  obtain ⟨hgrows, hlawful, hlookup⟩ := h.lawful.provide hcon hbound hprovide
  subst hregistry
  exact h.bindNew rfl hscope hgrows hlawful fun _ => ⟨con, bound, hlookup⟩

theorem Coherent.bindDictionaries (h : Coherent marks V s) (hname : Ordinary name) {id : Nat}
    (hbounds : ∀ bound ∈ bounds, Ordinary bound)
    (hrun : Yields (bindDictionaries span name id bounds) s ids s') : Opens ids marks V s s' := by
  induction bounds generalizing s V ids with
  | nil =>
    obtain ⟨rfl, rfl⟩ := hrun.pure
    exact .nil h
  | cons bound rest ih =>
    obtain ⟨binding, s1, h1, hrest⟩ := hrun.bind
    obtain ⟨_, s2, h2, hrest⟩ := hrest.bind
    obtain ⟨bindings, s3, h3, hrest⟩ := hrest.bind
    obtain ⟨rfl, rfl⟩ := hrest.pure
    obtain ⟨rfl, rfl⟩ := h1.bindParam
    obtain ⟨registry, hprovide, hs2⟩ := h2.provide
    have hcon : (Con.tracer id name).Named := hname
    have hfirst : Opens [s.scope.nextBinding] marks V s s2 := by
      refine h.bindDictionary hcon (hbounds bound List.mem_cons_self)
        (dictionaryType bound (.tracer id name)) hprovide ?_ ?_
      · rw [hs2]
        rfl
      · rw [hs2]
    exact hfirst.append (ih hfirst.made.coherent
      (fun b hb => hbounds b (List.mem_cons_of_mem bound hb)) h3)

/-- In the frame of a function its parameters were bound. -/
structure Params (ids : List BindingId) (marks : Marks) (V : Set BindingId) (s s' : Checker) : Prop
    extends Opens ids marks V s s' where
  inner : s.scope.below ≠ []

theorem Params.inside (h : Params ids marks V s s') : s'.scope.below ≠ [] := by
  intro hnil
  have hbelow := h.made.below
  rw [hnil] at hbelow
  exact h.inner (List.map_eq_nil_iff.mp hbelow.symm)

instance : Endures (Params ids) :=
  ⟨fun h => ⟨_, h.made.coherent⟩, fun h hs => ⟨⟨h.made.quietly hs, h.new⟩, h.inner⟩⟩

/-- Whenever the step succeeds in such a frame, it binds the ids. -/
abbrev BindsIds (x : CheckM α) (ids : α → List BindingId) : Prop :=
  ComesTo x (fun a => Params (ids a)) (Params [])

variable {x : CheckM α} {f : α → List BindingId} {k : α → CheckM β} {Q : β → Trace}

theorem BindsIds.next (hx : BindsIds x f)
    (hk : ∀ a, ComesTo (k a) Q (Params (ids ++ f a))) : ComesTo (x >>= k) Q (Params ids) := by
  refine .bind ⟨fun h hrun => ?_⟩ hk
  have hx := hx.run ⟨.nil h.made.coherent, h.inside⟩ hrun
  exact ⟨h.toOpens.append hx.toOpens, h.inner⟩

theorem BindsIds.of
    (h : ∀ {marks V s a s'}, Coherent marks V s → Yields x s a s' → Opens (f a) marks V s s') :
    BindsIds x f :=
  ⟨fun hparams hrun => ⟨hparams.toOpens.append (h hparams.made.coherent hrun), hparams.inner⟩⟩

theorem comes_bindType {ty : Ty} :
    ComesTo (bindType name ty) (fun _ => Params ids) (Params ids) := by
  refine ⟨fun h hrun => ⟨⟨?_, h.new⟩, h.inner⟩⟩
  exact h.made.silent (h.made.coherent.names (names_bindType.yields hrun) h.inside)

/-- The type parameters and the traits that bound them have ordinary names. -/
def OrdinaryGenerics (generics : List Generic) : Prop :=
  ∀ g ∈ generics, Ordinary g.name ∧ ∀ bound ∈ g.bounds, Ordinary bound

/-- Each type parameter is a new type with a dictionary for each of its bounds. -/
theorem bindsIds_bindTracers (hgenerics : OrdinaryGenerics generics) :
    BindsIds (bindTracers span generics) Prod.fst := by
  induction generics with
  | nil => exact .pure
  | cons g rest ih =>
    obtain ⟨⟨hname, hbounds⟩, hrest⟩ := List.forall_mem_cons.mp hgenerics
    refine .after ends_freshId fun _ => .bind comes_bindType fun _ => ?_
    refine (BindsIds.of fun h hrun => h.bindDictionaries hname hbounds hrun).next fun _ => ?_
    exact (ih hrest).next fun _ => .pure

theorem bindsIds_bindParam {ty : Ty} (hname : Ordinary name) :
    BindsIds (bindParam span name ty) fun id => [id] :=
  .of fun h hrun => h.bindParam hname hrun

theorem bindsIds_bindParams {params : List Surface.Param}
    (hnames : OrdinaryAll (params.map (·.name.text))) : BindsIds (bindParams params) id := by
  induction params with
  | nil => exact .pure
  | cons param rest ih =>
    obtain ⟨hname, hrest⟩ := ordinaryAll_cons.mp hnames
    refine .after ends_typeFor fun _ => (bindsIds_bindParam hname).next fun _ => ?_
    exact (ih hrest).next fun _ => .pure

theorem bindsIds_bindClosureParams {params : List Surface.ClosureParam}
    (hnames : OrdinaryAll (params.map (·.name.text))) :
    BindsIds (bindClosureParams params types) id := by
  induction params generalizing types with
  | nil => exact .pure
  | cons param rest ih =>
    obtain ⟨hname, hrest⟩ := ordinaryAll_cons.mp hnames
    cases types with
    | nil => exact .pure
    | cons ty types => exact (bindsIds_bindParam hname).next fun _ => (ih hrest).next fun _ => .pure

/-! Functions. -/

theorem comes_returning {value : Core.Expr} :
    ComesTo (returning value) MadeStmts (MadeExpr (.expr value)) := by
  refine .after ends_resolve fun _ => ?_
  split
  · refine .imp .pure fun h => ?_
    have heval : MadeStmts [.eval value] _ _ _ _ := .single h rfl
    exact heval.append (.single heval.made.coherent.stay rfl)
  · exact .stmt

theorem MadeStmts.endWithReturn {stmts : List Core.Stmt} (h : MadeStmts stmts marks V s s') :
    MadeStmts (endWithReturn stmts) marks V s s' := by
  rw [Checker.endWithReturn]
  split
  · exact h
  · exact h.append (.single h.made.coherent.stay rfl)

/-- The body of a function always ends with a return. -/
theorem comes_closeBody {stmts : List Core.Stmt} {trailing : Bool} :
    ComesTo (closeBody span stmts trailing) (fun b => MadeStmts b.stmts) (MadeStmts stmts) := by
  rw [closeBody]
  split
  · exact .after ends_currentReturn fun _ => .pure
  · refine .after alike_returnVoid fun _ => .after ends_currentReturn fun _ => ?_
    exact .imp .pure fun h => h.endWithReturn

/-- Parameters were bound, and then the body was made. -/
def Body (params : List BindingId) (body : Core.Block) : Trace := fun marks V s s' =>
  ∃ s₁, Params params marks V s s₁ ∧
    MadeStmts body.stmts marks (V ∪ {id | id ∈ params}) s₁ s'

theorem Writes.body {x : CheckM Core.Block} (h : Writes x Core.Block.stmts) :
    ComesTo x (Body ids) (Params ids) :=
  ⟨fun hparams hrun => ⟨_, hparams, h.run hparams.made.coherent.stay hrun⟩⟩

/-- What is made in the frame of a function is a function. -/
theorem ComesTo.inFunctionFrame (params : α → List BindingId) (block : α → Core.Block)
    (h : ComesTo x (fun a => Body (params a) (block a)) (Params [])) :
    Makes (inFunctionFrame x) fun r =>
      .expr ⟨.func ⟨none, captures r.2, params r.1, block r.1⟩, .void⟩ := by
  constructor
  rintro marks V s0 s ⟨a, upvalues⟩ s' hs hrun
  obtain ⟨s1, hbody, rfl, rfl⟩ := hrun.inFunctionFrame
  obtain ⟨s2, hparams, hmade⟩ :=
    h.run ⟨.nil hs.coherent.pushFunction, List.cons_ne_nil _ _⟩ hbody
  exact hs.seq (hs.coherent.closeFunction hparams.toOpens hmade.block none .void)

/-! Type parameters. -/

/-- Bounds are declared traits, so their names are ordinary. -/
theorem Yields.declareSignature {decl : Surface.FuncDecl} {sig : Signature}
    (h : Yields (declareSignature decl) s sig s') (hlawful : s.registry.Lawful)
    (hnames : OrdinaryAll (Surface.genericNames decl.generics)) :
    OrdinaryGenerics sig.generics := by
  obtain ⟨s1, h1⟩ := h.signatureGenerics
  intro g hg
  obtain ⟨⟨p, hp, hname⟩, hbounds⟩ := h1.genericNames g hg
  refine ⟨hname ▸ hnames _ (List.mem_map_of_mem hp), fun bound hbound => ?_⟩
  obtain ⟨decl, hdecl⟩ := hbounds bound hbound
  exact (hlawful.trait hdecl).2

/-! Patterns. -/

variable {x id : BindingId} {stmts : List Core.Stmt} {index : Nat} {seen : List String}

/-- A part of what a binder of the innermost function holds. -/
theorem Opens.bindField (hopen : Opens [id] marks V s s') (hx : x ∈ V) (hbase : marks.base ≤ x)
    (wholeTy ty : Ty) (index : Nat) :
    MadeStmts [.bind id ⟨.field ⟨.ident x, wholeTy⟩ index, ty⟩] marks V s s' := by
  have hs := hopen.made.before
  refine .bind (hs.narrow hs.stay ?_ ?_ ?_) hopen
  · intro y hy
    have hyx : y = x := by simpa [Piece.expr, Core.Expr.free, Core.ExprKind.free] using hy
    rw [hyx]
    exact hx
  · intro y hy
    have hne : y ≠ x := Nat.ne_of_lt (lt_of_lt_of_le hy hbase)
    simp [Piece.expr, Core.Expr.free, Core.ExprKind.free, hne, show (∅ : Piece).free = [] from rfl]
  · intro hexact
    exact ((becomes_ident x wholeTy).exact hexact).cons (by simp)

/-- Each payload field is read from the scrutinee. -/
theorem Coherent.bindCaseFields (h : Coherent marks V s) {m : Match} (hx : m.scrutinee ∈ V)
    (hbase : marks.base ≤ m.scrutinee) {fields : Fields} {bindings : List Surface.CaseBinding}
    (hnames : OrdinaryAll (bindings.map (·.binding.text)))
    (hrun : Yields (bindCaseFields m fields seen bindings) s stmts s') :
    MadeStmts stmts marks V s s' := by
  induction bindings generalizing s V seen stmts with
  | nil =>
    obtain ⟨rfl, rfl⟩ := hrun.pure
    exact .nil h.stay.toMade
  | cons b rest ih =>
    obtain ⟨hname, hrestnames⟩ := ordinaryAll_cons.mp hnames
    obtain ⟨_, hrest⟩ := hrun.ensure_bind
    obtain ⟨⟨index, ty⟩, s2, h2, hrest⟩ := hrest.bind
    obtain ⟨id, s3, h3, hrest⟩ := hrest.bind
    obtain ⟨stmts', s4, h4, hrest⟩ := hrest.bind
    obtain ⟨rfl, rfl⟩ := hrest.pure
    have hfield := h.quiet (ends_fieldOf.alike h2)
    have hopen := hfield.coherent.bindLocal hname h3
    have hfirst := hopen.bindField hx hbase m.ty ty index
    exact .after hfield (hfirst.append (ih hopen.made.coherent (.inl hx) hrestnames h4))

theorem Coherent.bindElements (h : Coherent marks V s) {tupleTy : Ty} (hx : x ∈ V)
    (hbase : marks.base ≤ x) {names : List Name} (hnames : OrdinaryAll (names.map (·.text)))
    (hrun : Yields (bindElements ⟨.ident x, tupleTy⟩ index names types) s stmts s') :
    MadeStmts stmts marks V s s' := by
  induction names generalizing s V index types stmts with
  | nil =>
    obtain ⟨rfl, rfl⟩ := hrun.pure
    exact .nil h.stay.toMade
  | cons name rest ih =>
    cases types with
    | nil =>
      obtain ⟨rfl, rfl⟩ := hrun.pure
      exact .nil h.stay.toMade
    | cons ty types =>
      obtain ⟨hname, hrestnames⟩ := ordinaryAll_cons.mp hnames
      obtain ⟨id, s1, h1, hrest⟩ := hrun.bind
      obtain ⟨stmts', s2, h2, hrest⟩ := hrest.bind
      obtain ⟨rfl, rfl⟩ := hrest.pure
      have hopen := h.bindLocal hname h1
      have hfirst := hopen.bindField hx hbase tupleTy ty index
      exact hfirst.append (ih hopen.made.coherent (.inl hx) hrestnames h2)

/-- A tuple is held by a binder without a name, which its elements are read
from. -/
theorem comes_bindPattern {value : Core.Expr} {pattern : Surface.Pattern}
    (hnames : OrdinaryAll pattern.declared) {ty : Ty} {span : Span} :
    ComesTo (bindPattern pattern ty value span) MadeStmts (MadeExpr (.expr value)) := by
  constructor
  intro marks V s0 s stmts s' hvalue hrun
  cases pattern with
  | name name =>
    obtain ⟨id, s1, h1, hrest⟩ := hrun.bind
    obtain ⟨rfl, rfl⟩ := hrest.pure
    have hname : Ordinary name.text := hnames _ List.mem_cons_self
    exact .bind hvalue (hvalue.coherent.bindLocal hname h1)
  | tuple names =>
    rw [bindPattern.eq_def] at hrun
    dsimp only at hrun
    split at hrun
    · obtain ⟨_, s1, h1, hrest⟩ := hrun.bind
      obtain ⟨_, rfl⟩ := h1.ensure
      obtain ⟨source, s2, h2, hrest⟩ := hrest.bind
      obtain ⟨stmts', s3, h3, hrest⟩ := hrest.bind
      obtain ⟨rfl, rfl⟩ := hrest.pure
      obtain ⟨hsource, _, hopen⟩ := hvalue.coherent.freshBinding h2
      have hbase : marks.base ≤ source := hsource ▸ hvalue.coherent.base_le_next
      refine (MadeStmts.bind hvalue hopen).append ?_
      exact hopen.made.coherent.bindElements (.inr List.mem_cons_self) hbase hnames h3
    · obtain ⟨types, s1, h1, hrest⟩ := hrun.bind
      exact hrest.fail.elim

/-- The binder of a loop is visible in its body only. -/
theorem makes_loop (hname : Ordinary name) {ty : Ty} {x : CheckM Core.Block}
    (hx : Makes x .block) :
    Makes (inScope do
      let id ← bindLocal name ty
      let block ← x
      pure (id, block)) fun r => (Piece.block r.2).without r.1 := by
  constructor
  intro marks V s0 s r s' h hrun
  obtain ⟨s1, hscope, rfl⟩ := hrun.inScope
  obtain ⟨id, s2, h2, hscope⟩ := hscope.bind
  obtain ⟨block, s3, h3, hscope⟩ := hscope.bind
  obtain ⟨rfl, rfl⟩ := hscope.pure
  have hopen := h.coherent.push.bindLocal hname h2
  have hbody := hx.run hopen.made.coherent.stay h3
  exact h.seq (h.coherent.pop (hopen.seq hbody.toMade))

/-! Matches. -/

/-- The binder is visible, as one of the innermost function. -/
def Holding (x : BindingId) (P : Trace) : Trace := fun marks V s s' =>
  (x ∈ V ∧ marks.base ≤ x) ∧ P marks V s s'

instance {P : Trace} [Endures P] : Endures (Holding x P) :=
  ⟨fun h => Endures.coherent h.2, fun h hs => ⟨h.1, Endures.quietly h.2 hs⟩⟩

/-- The payload of a case is read from the scrutinee. -/
theorem comes_case {m : Match} {fields : Fields} {bindings : List Surface.CaseBinding}
    (hnames : OrdinaryAll (bindings.map (·.binding.text))) {body : CheckM Core.Block}
    (hbody : Writes body Core.Block.stmts) :
    ComesTo (inScope do
      let lets ← bindCaseFields m fields [] bindings
      let body ← body
      pure (⟨lets ++ body.stmts, body.ty⟩ : Core.Block))
      (fun b => Holding m.scrutinee (MadeExpr (p ++ .block b)))
      (Holding m.scrutinee (MadeExpr p)) := by
  constructor
  intro marks V s0 s block s' h hrun
  obtain ⟨⟨hx, hbase⟩, h⟩ := h
  obtain ⟨s1, hscope, rfl⟩ := hrun.inScope
  obtain ⟨lets, s2, h2, hscope⟩ := hscope.bind
  obtain ⟨inner, s3, h3, hscope⟩ := hscope.bind
  obtain ⟨rfl, rfl⟩ := hscope.pure
  have hlets := h.coherent.push.bindCaseFields hx hbase hnames h2
  have hstmts := hlets.append (hbody.run hlets.made.coherent.stay h3)
  exact ⟨⟨hx, hbase⟩, h.seq (h.coherent.pop hstmts.made)⟩

/-- The scrutinee is free in no part of the match. -/
theorem ComesTo.hidden {x : BindingId → CheckM α} {piece : α → Piece} {F : α → Prop}
    {k : BindingId → α → CheckM β}
    (hx : ∀ id, ComesTo (x id) (fun a => Holding id (MadeExpr (piece a))) (Holding id (MadeExpr ∅)))
    (hF : ∀ {id s a s'}, Yields (x id) s a s' → F a)
    (hk : ∀ id a, F a → ComesTo (k id a) Q (MadeExpr (p ++ (piece a).without id))) :
    ComesTo (freshBinding >>= fun id => x id >>= k id) Q (MadeExpr p) := by
  constructor
  intro marks V s0 s b s' h hrun
  obtain ⟨id, s1, h1, hrun⟩ := hrun.bind
  obtain ⟨a, s2, h2, hrun⟩ := hrun.bind
  obtain ⟨hid, hfresh, hopen⟩ := h.coherent.freshBinding h1
  have hbase : marks.base ≤ id := hid ▸ h.coherent.base_le_next
  obtain ⟨_, hmade⟩ :=
    (hx id).run ⟨⟨.inr List.mem_cons_self, hbase⟩, hopen.made.coherent.stay⟩ h2
  have hcases : MadeExpr ((piece a).without id) marks V s1 s2 := by
    refine hfresh.coherent.narrow hmade ?_ ?_ fun hexact => hexact
    · intro x hx
      obtain ⟨hx, hne⟩ := Piece.mem_free_without.mp hx
      exact (hmade.visible x hx).resolve_right fun h => hne (List.mem_singleton.mp h)
    · intro x hx
      exact Piece.mem_free_without.trans (and_iff_left (hopen.ne_of_lt_base hx))
  exact (hk id a (hF h2)).run (h.seq (hfresh.seq hcases)) hrun

/-! Declared functions. -/

variable {ty : Ty} {a : Unit}

/-- A function is bound to its name before its body is checked. -/
theorem Coherent.bindFunction (h : Coherent marks V s) (hname : Ordinary name)
    {generics : List TyVar} (hid : Yields Checker.freshBinding s id s')
    (hbind : Yields (bindValue name { kind := .binding id, ty, generics }) s' a s'') :
    Opens [id] marks V s s'' ∧
      s''.scope.top.values.find? name = some { kind := .binding id, ty, generics } := by
  obtain ⟨rfl, rfl⟩ := hid.freshBinding
  obtain rfl := hbind.modify
  refine ⟨?_, Assoc.find?_insert_self _ _ _⟩
  exact h.bindNew rfl rfl (.refl _) h.lawful
    fun hreserved => absurd hreserved hname.not_reserved

/-- The type of a binding changes, and what it is bound to stays. -/
theorem Coherent.setValueType (h : Coherent marks V s) {value : Value}
    (hvalue : s.scope.top.values.find? name = some value) (hkind : value.kind = .binding id)
    (hrun : Yields (setValueType name ty) s a s') : Made ∅ marks V V s s' := by
  obtain rfl := hrun.modify
  refine h.changeTop rfl rfl (fun _ => rfl) ?_ (le_refl _) (fun _ hid => hid)
    (fun _ hid => .inl hid) (.refl _) h.lawful
  refine Assoc.forall_modify (P := fun name value => Sound marks V s.registry name value _)
    (fun found hfound => ?_) (fun _ _ hfind => h.values (.inl ⟨rfl, hfind⟩)) _ _
  obtain rfl : value = found := Option.some.inj (hvalue.symm.trans hfound)
  have hsound := h.values (.inl ⟨rfl, hvalue⟩)
  refine ⟨hsound.binding, fun _ _ hmethod => ?_, hsound.dictionary⟩
  cases hkind.symm.trans hmethod

/-! Traits. -/

variable {selfVar : TyVar} {sigs : List Surface.MethodSig}

/-- The methods of a trait by name and type, as they may be bound. -/
def Bindable (methods : List (String × Ty)) : Prop :=
  ∀ method ∈ methods, Ordinary method.1 ∧ OneBound method.2

theorem bindable_addMethods {methods : Assoc String Ty} (hmethods : Bindable methods.entries)
    (hnames : OrdinaryAll (sigs.map (·.name.text))) :
    Results (fun out => Bindable out.entries) (addMethods bound selfVar methods sigs) := by
  induction sigs generalizing methods with
  | nil => exact .pure hmethods
  | cons sig rest ih =>
    obtain ⟨hname, hrestnames⟩ := ordinaryAll_cons.mp hnames
    refine .ensured fun hnew => .after fun params => .after fun ret => ih ?_ hrestnames
    rw [Assoc.entries_insert methods _ hnew]
    refine List.forall_mem_append.mpr ⟨hmethods, List.forall_mem_singleton.mpr ?_⟩
    exact ⟨hname, _, _, rfl, le_refl 1⟩

theorem Coherent.bindMethods (h : Coherent marks V s) {methods : List (String × Ty)}
    (hmethods : Bindable methods) (hrun : Yields (bindMethods bound selfVar index methods) s a s') :
    Made ∅ marks V V s s' := by
  induction methods generalizing s index with
  | nil =>
    rw [← hrun.pure.2]
    exact h.stay.toMade
  | cons method rest ih =>
    obtain ⟨name, ty⟩ := method
    obtain ⟨⟨hname, hty⟩, hrestmethods⟩ := List.forall_mem_cons.mp hmethods
    obtain ⟨_, s1, h1, hrest⟩ := hrun.bind
    have hs1 := h1.modify
    have hsound : Sound marks V s.registry name
        { kind := .method bound index, ty, generics := [selfVar] } s.scope.depth :=
      ⟨(fun _ hid => nomatch hid), fun _ _ _ => hty,
        fun hreserved => absurd hreserved hname.not_reserved⟩
    have hfirst : Made ∅ marks V V s s1 := by
      rw [hs1]
      exact h.bind rfl (le_refl _) (fun _ hid => hid) (fun _ hid => .inl hid) (.refl _)
        h.lawful hsound
    exact hfirst.silent (ih hfirst.coherent hrestmethods hrest)

/-- A trait binds its methods, and no dictionary. -/
theorem Coherent.declareTrait (h : Coherent marks V s) {name : Name} (hname : Ordinary name.text)
    (hnames : OrdinaryAll (sigs.map (·.name.text)))
    (hrun : Yields (declareTrait name sigs) s a s') : Made ∅ marks V V s s' := by
  have hrest := hrun.get_bind
  obtain ⟨_, hrest⟩ := hrest.ensure_bind
  obtain ⟨selfVar, s3, h3, hrest⟩ := hrest.bind
  obtain ⟨methods, s4, h4, hrest⟩ := hrest.bind
  replace hrest := hrest.get_bind
  obtain ⟨registry, s6, h6, hrest⟩ := hrest.bind
  obtain ⟨hdeclare, rfl⟩ := h6.ofExcept
  obtain ⟨_, s7, h7, hrest⟩ := hrest.bind
  have hmethods : Bindable methods.entries := by
    obtain ⟨_, hbody, _⟩ := h4.inScope
    obtain ⟨_, _, _, hbody⟩ := hbody.bind
    exact bindable_addMethods (by rintro _ ⟨⟩) hnames hbody
  have hquiet := h.quiet ((ends_fresh.alike h3).trans ((ends_traitMethods _ _ _).alike h4))
  obtain ⟨hgrows, hlawful⟩ := hquiet.coherent.lawful.declare hname hdeclare
  have hs7 := h7.modify
  have hregister : Made ∅ marks V V s4 s7 := by
    rw [hs7]
    refine hquiet.coherent.changeTop rfl rfl (fun _ => rfl) ?_ (le_refl _) (fun _ hid => hid)
      (fun _ hid => .inl hid) hgrows hlawful
    intro name value hfind
    exact (hquiet.coherent.values (.inl ⟨rfl, hfind⟩)).mono (fun _ hid => hid) hgrows
  have hbind := hregister.coherent.bindMethods hmethods hrest
  exact hquiet.toMade.silent (hregister.silent hbind)

/-! Implementations. -/

variable {written : Surface.TypeExpr}

/-- In the outermost frame a type without type arguments is a declared one or
the empty tuple. -/
theorem named_or_unit_of_toTy {scope : Scope} {adts : AdtTable} (hroot : scope.below = [])
    (htypes : scope.top.NamesTypes) (h : written.toTy scope adts = .ok ty)
    (hcon : ty.con? = some con) (hparams : ty.params.isEmpty = true) :
    (∃ n, con = .named n ∧ Ordinary n) ∨ con = .tuple 0 := by
  rcases stored_or_unit_of_toTy h (List.isEmpty_iff.mp hparams) with ⟨name, hfound⟩ | rfl
  · rw [Scope.type?, Scope.frames, hroot, Frame.lookupType, Frame.lookupType,
      Option.or_none] at hfound
    obtain ⟨n, hn, hordinary⟩ := htypes name _ hfound
    rw [hcon] at hn
    exact .inl ⟨n, Option.some.inj hn, hordinary⟩
  · exact .inr (Option.some.inj hcon).symm

/-- An implementation opens the binder of its dictionary. -/
theorem Coherent.openImpl (h : Coherent marks V s) (hroot : s.scope.below = []) {bound : Name}
    {impl : Impl} (hrun : Yields (openImpl bound written span) s impl s') :
    Opens [impl.binding] marks V s s' := by
  obtain ⟨hdecl, htarget, hparams, hbinding, con, registry, hcon, hprovide, hs'⟩ := hrun.openImpl
  have htypes := h.rootTypes s.scope.top (by rw [Scope.frames, hroot]; rfl)
  have hnamed := named_or_unit_of_toTy hroot htypes htarget hcon hparams
  obtain ⟨hname, hbound⟩ := h.lawful.trait hdecl
  obtain ⟨decl, target, id⟩ := impl
  dsimp only at *
  subst hbinding
  cases target with
  | var v => cases hcon
  | app head args =>
    obtain ⟨c, size, bounds⟩ := head
    obtain rfl := Option.some.inj hcon
    -- no tracer is in scope here, so the type is written as in the name of the dictionary
    have hdictionary : c.Named ∧ dictionaryName decl.name c = s!"${decl.name}<{c.display}>" := by
      rcases hnamed with ⟨n, rfl, hn⟩ | rfl
      · exact ⟨hn, rfl⟩
      · exact ⟨rfl, rfl⟩
    rw [← hdictionary.2] at hprovide hs'
    refine h.bindDictionary hdictionary.1 (hname ▸ hbound)
      (dictionaryType decl.name (.app ⟨c, size, bounds⟩ args)) hprovide ?_ ?_
    · rw [hs']
      rfl
    · rw [hs']

end TraitCheck.Checker
