import TraitCheck.Proofs.TypedFrames

/-!
What the walk says of its results. `View.rules` are the rules for the nodes of a
core program as a view reads it; an expression is in order (`Gives`) if it obeys
them in every view from now on. What is known of the parts of a node is put
together here, and carried from state to state.
-/

namespace TraitCheck

open Surface (FuncDecl)

namespace Core

variable {kind : ExprKind} {f : Ty → Ty} {os : List Obligation} {ps : List Ty}

/-- A reference has an instance of the type that its binding is settled at. -/
def Expr.IdentTyped (settled : BindingId → Option Ty) (e : Expr) : Prop :=
  ∀ id ty, e.kind = .ident id → settled id = some ty → e.ty.InstanceOf ty

/-- A field of the value that a match is on. -/
def Expr.IsPayload (place : Place) (e : Expr) : Prop :=
  ∃ target index, e.kind = .field target index ∧ (target.scrutinee? place).isSome = true

/-- Every tracer of the type was made by a function around. -/
def Traced (created : Nat → Option FuncExpr) (place : Place) (ty : Ty) : Prop :=
  ∀ id, ty.Traces id → ∃ func ∈ place.around, created id = some func

theorem Traced.inside {created : Nat → Option FuncExpr} {place : Place} {ty : Ty}
    (h : Traced created place ty) (func : FuncExpr) : Traced created (place.inside func) ty := by
  intro id hid
  obtain ⟨f, hf, hcreated⟩ := h id hid
  exact ⟨f, List.mem_cons_of_mem _ hf, hcreated⟩

/-- The type of the node is traced, and so are the types of what a function
captures, and its result type inside of it. -/
def Expr.Traced (created : Nat → Option FuncExpr) (place : Place) (e : Expr) : Prop :=
  Core.Traced created place e.ty ∧ ∀ func, e.kind = .func func →
    (∀ c ∈ func.captures, Core.Traced created place c.ty) ∧
      Core.Traced created (place.inside func) func.body.ty

theorem Expr.mapTy_ty (f : Ty → Ty) (e : Expr) : (e.mapTy f).ty = f e.ty := by
  obtain ⟨kind, ty⟩ := e
  rw [Expr.mapTy]

theorem Expr.mapTy_kind (f : Ty → Ty) (e : Expr) : (e.mapTy f).kind = e.kind.mapTy f := by
  obtain ⟨kind, ty⟩ := e
  rw [Expr.mapTy]

theorem Block.mapTy_ty (f : Ty → Ty) (block : Block) : (block.mapTy f).ty = f block.ty := by
  obtain ⟨stmts, ty⟩ := block
  rw [Block.mapTy]

def ExprKind.isConstant : ExprKind → Bool
  | .int _ | .float _ | .bool _ | .void | .string _ => true
  | _ => false

theorem ExprKind.mapTy_eq_ident {id : BindingId} (h : kind.mapTy f = .ident id) :
    kind = .ident id := by
  cases kind <;> simp only [ExprKind.mapTy, reduceCtorEq] at h
  exact h

theorem ExprKind.mapTy_eq_func {func : FuncExpr} (h : kind.mapTy f = .func func) :
    ∃ func', kind = .func func' := by
  cases kind with
  | func func' => exact ⟨func', rfl⟩
  | _ => simp only [ExprKind.mapTy, reduceCtorEq] at h

theorem tys_mapTyExprs (f : Ty → Ty) (exprs : List Expr) :
    (mapTyExprs f exprs).map (·.ty) = (exprs.map (·.ty)).map f := by
  rw [mapTyExprs_eq_map, List.map_map, List.map_map]
  exact List.map_congr_left fun e _ => e.mapTy_ty f

/-- An expression that is not a scrutinee. -/
theorem Expr.scrutinee?_eq_none {place : Place} {hidden : Set BindingId} {e : Expr}
    (hplace : ∀ id, (place.cases id).isSome = true → id ∈ hidden)
    (he : ∀ id, e.kind = .ident id → id ∉ hidden) : e.scrutinee? place = none := by
  rw [Expr.scrutinee?]
  split
  · rename_i id hkind
    by_contra hne
    exact he id hkind (hplace id (Option.ne_none_iff_isSome.mp hne))
  · rfl

/-- No built-in function is a dictionary. -/
theorem not_offers_dictionary {bound : Trait} {primitive : String} {ret : Ty} :
    ¬Prelude.Offers (.dictionary bound primitive) os ps ret := by
  intro h
  cases h with
  | generic ty hf hop =>
    simp only [Prelude.genericFuncs, List.mem_cons, List.not_mem_nil, or_false] at hf
    rcases hf with rfl | rfl | rfl | rfl | rfl | rfl | rfl | rfl | rfl | rfl | rfl | rfl | rfl | rfl
    all_goals cases hop
  | plain hf => simp [Prelude.plainFuncs] at hf

/-- A built-in function takes one dictionary or none, whatever its types are. -/
theorem length_offers {op : Op} {os' : List Obligation} {ps' : List Ty} {ret ret' : Ty}
    (h : Prelude.Offers op os ps ret) (h' : Prelude.Offers op os' ps' ret') :
    os.length = os'.length := by
  have hplain : ∀ f ∈ Prelude.genericFuncs, ∀ p ∈ Prelude.plainFuncs, f.op ≠ p.2.1 := by decide
  cases h with
  | generic _ hf hop =>
    cases h' with
    | generic => rfl
    | plain hp => exact absurd hop (hplain _ hf _ hp)
  | plain hp =>
    cases h' with
    | generic _ hf hop => exact absurd hop (hplain _ hf _ hp)
    | plain => rfl

theorem callTyped_builtin {op : Op} {args : List Expr} {ty : Ty}
    (hoffers : Prelude.Offers op os ps ty) (hpasses : Passes os ps args) :
    Expr.CallTyped ⟨.builtin op args, ty⟩ := by
  cases op with
  | dictionary => exact absurd hoffers not_offers_dictionary
  | _ => exact ⟨os, ps, hoffers, hpasses⟩

end Core

namespace Checker

/-- The function is what checking the body of the declaration gave, with the
result type as it reads inside of the function. -/
def Compiled (decl : FuncDecl) (declared : Option Ty) (func : Core.FuncExpr) : Prop :=
  ∃ room s s' block captures params f, Yields (typeFor? decl.ret) s declared s ∧
    Yields (checkBody room declared decl.body) s block s' ∧
      func = Core.FuncExpr.mapTy f ⟨some decl.name.text, captures, params, block⟩

/-- The statements end in an expression or a return, or there is no return among
them. -/
def EndsWell (body : Surface.Block) : Prop :=
  (∃ stmt, body.stmts.getLast? = some stmt ∧ (stmt.isEval || stmt.isReturn) = true) ∨
    ∀ o ∈ body.occurrences, o.inner = false → o.stmt.isReturn = false

/-- A function with a name is one that the program declares, and its returns
deliver the result type where that was written. -/
def FuncTyped (source : Set FuncDecl) (e : Core.Expr) : Prop :=
  ∀ func name, e.kind = .func func → func.name = some name → ∃ decl ∈ source, ∃ declared,
    Compiled decl declared func ∧
      ∀ ty, declared = some ty → func.body.Returns ty (EndsWell decl.body)

/-- The binding is a dictionary parameter of the function, for one of the tracers
that it made, and this is its type. -/
def DictionaryParam (source : Set FuncDecl) (created : Nat → Option Core.FuncExpr)
    (func : Core.FuncExpr) (id : BindingId) (ty : Ty) : Prop :=
  ∃ decl ∈ source, ∃ tracers, Introduces decl tracers func ∧
    (∀ tracer ∈ tracers, created tracer = some func) ∧
      (id, ty) ∈ func.params.zip (dictionaryTypes (paramBounds decl.generics) tracers)

/-- The expression is the dictionary that its type says: built in, that of an
implementation, or a dictionary parameter of a function around. -/
def View.Proper (view : View) (source : Set FuncDecl) (place : Core.Place) (d : Core.Expr) : Prop :=
  (∃ bound, ∃ primitive ∈ Prelude.types, d = ⟨.builtin (.dictionary bound primitive) [],
    dictionaryType bound (.named primitive [])⟩) ∨
    ∃ id, d.kind = .ident id ∧ ((id, d.ty) ∈ view.impls ∨
      ∃ func ∈ place.around, DictionaryParam source view.created func id d.ty)

/-- The node of a program with these functions is in order at the place. -/
structure View.Node (view : View) (source : Set FuncDecl) (place : Core.Place) (e : Core.Expr) :
    Prop where
  call : e.CallTyped
  data : e.DataTyped view.adts view.registry place
  ident : e.IdentTyped view.settled
  func : FuncTyped source e
  traced : e.Traced view.created place
  evidence : ∀ d, e.TakesEvidence view.registry d → view.Proper source place d

/-- The rules for what the checker writes at the site, as the view reads it. -/
def View.rules (view : View) (site : Site) : Core.Rules where
  expr := view.Node site.source
  block place b := b.ValueTyped ∧ Core.Traced view.created place b.ty
  bind place id value := site.start ≤ id ∧ id < view.next ∧ (site.tidy →
    value.IsPayload place ∨ ∃ ty, view.settled id = some ty ∧ value.ty = view.map ty)
  ret value := ∀ ty, site.result = some ty → Core.Delivers ty value

/-- What the checker writes at the site may stand at the place, as the view reads
it: the tracers in use were made by functions around, and the dictionary
parameters are those of functions around. -/
structure View.Admits (view : View) (site : Site) (ledger : Ledger) (place : Core.Place) :
    Prop where
  cases : ∀ id, (place.cases id).isSome = true → id ∈ site.hidden
  tracers : ∀ id ∈ ledger.tracers, ∃ func ∈ place.around, view.created id = some func
  vars : ∀ v, Core.Traced view.created place (view.map (.var v))
  dicts : ∀ p ∈ ledger.dicts, ∃ func ∈ place.around,
    DictionaryParam site.source view.created func p.1 p.2

variable {site : Site} {ledger ledger' : Ledger} {s s' : Checker} {e : Core.Expr}
  {exprs dicts args : List Core.Expr} {stmts : List Core.Stmt} {body : Core.Block} {view : View}
  {place : Core.Place}

namespace View.Admits

theorem carry (h : view.Admits site ledger' place) (hcarries : Carries ledger s ledger' s') :
    view.Admits site ledger place :=
  ⟨h.cases, fun id hid => h.tracers id (hcarries.tracers hid), h.vars,
    fun p hp => h.dicts p (hcarries.dicts hp)⟩

/-- A type in use is traced however it is read. -/
theorem traced (h : view.Admits site ledger place) (hmap : Ty.Hom view.map) {L : Lexicon}
    {D : Set TyVar} {t : Ty} (ht : t.Formed L D) (hL : L.tracers ⊆ ledger.tracers) :
    Core.Traced view.created place (view.map t) := by
  intro id hid
  rcases hmap.traces hid with hid | ⟨v, _, hid⟩
  · exact h.tracers id (hL (ht.traces hid))
  · exact h.vars v id hid

/-- The functions of the program and the matches around are all that counts of a
site. -/
theorem change {site' : Site} (h : view.Admits site ledger place)
    (hsource : site'.source = site.source := by rfl)
    (hhidden : site'.hidden = site.hidden := by rfl) : view.Admits site' ledger place :=
  ⟨hhidden ▸ h.cases, h.tracers, h.vars, hsource ▸ h.dicts⟩

/-- Inside of another function. -/
theorem inside (h : view.Admits site ledger place) (func : Core.FuncExpr) :
    view.Admits site ledger (place.inside func) where
  cases := h.cases
  tracers := fun id hid => by
    obtain ⟨f, hf, hcreated⟩ := h.tracers id hid
    exact ⟨f, List.mem_cons_of_mem _ hf, hcreated⟩
  vars := fun v => (h.vars v).inside func
  dicts := fun p hp => by
    obtain ⟨f, hf, hparam⟩ := h.dicts p hp
    exact ⟨f, List.mem_cons_of_mem _ hf, hparam⟩

theorem hide (h : view.Admits site ledger place) {id : BindingId} :
    view.Admits (site.hide id) ledger place :=
  ⟨fun id hid => .inr (h.cases id hid), h.tracers, h.vars, h.dicts⟩

/-- Inside of a match. -/
theorem enter (h : view.Admits site ledger place) (scrutinee : BindingId) (ty : Ty) (tag : Nat) :
    view.Admits (site.hide scrutinee) ledger (place.enter scrutinee ty tag) where
  cases := fun id hid => by
    rw [Core.Place.enter] at hid
    dsimp only at hid
    split at hid
    · rename_i heq
      exact .inl heq
    · exact .inr (h.cases id hid)
  tracers := h.tracers
  vars := h.vars
  dicts := h.dicts

end View.Admits

/-- The expression obeys the rules in every view from now on. -/
def Obeys (site : Site) (ledger : Ledger) (s : Checker) (e : Core.Expr) : Prop :=
  ∀ view : View, view.Sees ledger s → ∀ place : Core.Place, view.Admits site ledger place →
    (e.mapTy view.map).Every (view.rules site) place

/-- The expression is in order. -/
structure Gives (site : Site) (ledger : Ledger) (s : Checker) (e : Core.Expr) : Prop where
  known : Known ledger s e.ty
  seen : ∀ id, e.kind = .ident id → id ∉ site.hidden
  every : Obeys site ledger s e

/-- The expression is in order and a dictionary. -/
structure GivesDict (site : Site) (ledger : Ledger) (s : Checker) (d : Core.Expr) : Prop
    extends Gives site ledger s d where
  proper : ∀ view : View, view.Sees ledger s → ∀ place : Core.Place,
    view.Admits site ledger place → view.Proper site.source place (d.mapTy view.map)

/-- The statements are in order. -/
def GivesStmts (site : Site) (ledger : Ledger) (s : Checker) (stmts : List Core.Stmt) : Prop :=
  ∀ view : View, view.Sees ledger s → ∀ place : Core.Place, view.Admits site ledger place →
    Core.EveryStmts (view.rules site) place (Core.mapTyStmts view.map stmts)

/-- The block is in order. -/
structure GivesBlock (site : Site) (ledger : Ledger) (s : Checker) (block : Core.Block) :
    Prop where
  known : Known ledger s block.ty
  every : ∀ view : View, view.Sees ledger s → ∀ place : Core.Place, view.Admits site ledger place →
    (block.mapTy view.map).Every (view.rules site) place

theorem Obeys.lasting : Lasting (Obeys site) :=
  fun hcarries h view hview place hplace =>
    h view (hcarries.sees hview) place (hplace.carry hcarries)

theorem Gives.lasting : Lasting (Gives site) :=
  fun hcarries h => ⟨hcarries.known h.known, h.seen, Obeys.lasting hcarries h.every⟩

theorem GivesDict.lasting : Lasting (GivesDict site) :=
  fun hcarries h => ⟨Gives.lasting hcarries h.toGives, fun view hview place hplace =>
    h.proper view (hcarries.sees hview) place (hplace.carry hcarries)⟩

theorem GivesStmts.lasting : Lasting (GivesStmts site) :=
  fun hcarries h view hview place hplace =>
    h view (hcarries.sees hview) place (hplace.carry hcarries)

theorem GivesBlock.lasting : Lasting (GivesBlock site) :=
  fun hcarries h => ⟨hcarries.known h.known, fun view hview place hplace =>
    h.every view (hcarries.sees hview) place (hplace.carry hcarries)⟩

/-! Nodes from their parts. -/

theorem everyExprs_of_gives (h : ∀ e ∈ exprs, Gives site ledger s e)
    (hview : view.Sees ledger s) (hplace : view.Admits site ledger place) :
    Core.EveryExprs (view.rules site) place (Core.mapTyExprs view.map exprs) := by
  rw [Core.mapTyExprs_eq_map, Core.everyExprs_iff]
  intro e he
  obtain ⟨e', he', rfl⟩ := List.mem_map.mp he
  exact (h e' he').every view hview place hplace

namespace Gives

variable {kind : Core.ExprKind} {ty : Ty}

/-- A node that is neither a reference nor a function. -/
theorem node (hty : Known ledger s ty) (hident : ∀ id, kind ≠ .ident id)
    (hfunc : ∀ func, kind ≠ .func func)
    (h : ∀ view : View, view.Sees ledger s → ∀ place : Core.Place, view.Admits site ledger place →
      Core.Expr.CallTyped ⟨kind.mapTy view.map, view.map ty⟩ ∧
        Core.Expr.DataTyped view.adts view.registry place ⟨kind.mapTy view.map, view.map ty⟩ ∧
          (∀ d, Core.Expr.TakesEvidence view.registry ⟨kind.mapTy view.map, view.map ty⟩ d →
            view.Proper site.source place d) ∧ (kind.mapTy view.map).Every (view.rules site) place) :
    Gives site ledger s ⟨kind, ty⟩ := by
  refine ⟨hty, fun id hid => absurd hid (hident id), ?_⟩
  intro view hview place hplace
  obtain ⟨hcall, hdata, hevidence, hevery⟩ := h view hview place hplace
  rw [Core.Expr.mapTy, Core.Expr.Every]
  refine ⟨⟨hcall, hdata, ?_, ?_, ⟨?_, ?_⟩, hevidence⟩, hevery⟩
  · exact fun id _ hid => absurd (Core.ExprKind.mapTy_eq_ident hid) (hident id)
  · intro func _ hkind
    obtain ⟨func', heq⟩ := Core.ExprKind.mapTy_eq_func hkind
    exact absurd heq (hfunc func')
  · exact hplace.traced hview.reads.toHom hty (subset_refl _)
  · intro func hkind
    obtain ⟨func', heq⟩ := Core.ExprKind.mapTy_eq_func hkind
    exact absurd heq (hfunc func')

theorem constant (hkind : kind.isConstant = true) (hty : Known ledger s ty) :
    Gives site ledger s ⟨kind, ty⟩ := by
  cases kind with
  | int | float | bool | void | string =>
    refine node hty (by rintro _ ⟨⟩) (by rintro _ ⟨⟩) fun _ _ _ _ => ?_
    rw [Core.ExprKind.mapTy, Core.ExprKind.Every]
    exact ⟨trivial, trivial, by rintro _ ⟨⟩, trivial⟩
  | _ => cases hkind

theorem ident {id : BindingId} (hty : Known ledger s ty) (hid : id ∉ site.hidden)
    (hinst : ∀ view : View, view.Sees ledger s → ∀ t, view.settled id = some t →
      (view.map ty).InstanceOf t) : Gives site ledger s ⟨.ident id, ty⟩ := by
  refine ⟨hty, ?_, ?_⟩
  · rintro other ⟨⟩
    exact hid
  · intro view hview place hplace
    rw [Core.Expr.mapTy, Core.ExprKind.mapTy, Core.Expr.Every, Core.ExprKind.Every]
    refine ⟨⟨trivial, trivial, ?_, by rintro _ _ ⟨⟩, ⟨?_, by simp⟩, by rintro _ ⟨⟩⟩, trivial⟩
    · rintro other t ⟨⟩ ht
      exact hinst view hview t ht
    · exact hplace.traced hview.reads.toHom hty (subset_refl _)

theorem object {tag : Option Nat} (hty : Known ledger s ty)
    (hfields : ∀ e ∈ exprs, Gives site ledger s e) (hlayout : ∀ view : View, view.Sees ledger s →
      Core.Layout view.adts view.registry (view.map ty) tag ((exprs.map (·.ty)).map view.map)) :
    Gives site ledger s ⟨.object tag exprs, ty⟩ := by
  refine node hty (by simp) (by simp) fun view hview _ hplace => ?_
  rw [Core.ExprKind.mapTy, Core.ExprKind.Every]
  refine ⟨trivial, ?_, by rintro _ ⟨⟩, everyExprs_of_gives hfields hview hplace⟩
  dsimp only [Core.Expr.DataTyped]
  rw [Core.tys_mapTyExprs]
  exact hlayout view hview

/-- A field of a value. Only the methods of a dictionary are read from one. -/
theorem field {target : Core.Expr} {index : Nat} (htarget : Gives site ledger s target)
    (hty : Known ledger s ty) (hcomponent : ∀ view : View, view.Sees ledger s →
      Core.HasComponent view.adts view.registry (view.map target.ty) none index (view.map ty))
    (hproper : GivesDict site ledger s target ∨ ∀ view : View, view.Sees ledger s →
      ∀ bound self, view.map target.ty = dictionaryType bound self →
        view.registry.isDeclared bound = false) :
    Gives site ledger s ⟨.field target index, ty⟩ := by
  refine node hty (by nofun) (by nofun) fun view hview place hplace => ?_
  rw [Core.ExprKind.mapTy, Core.ExprKind.Every]
  refine ⟨trivial, ?_, ?_, htarget.every view hview place hplace⟩
  · have hnone : (target.mapTy view.map).scrutinee? place = none := by
      refine Core.Expr.scrutinee?_eq_none hplace.cases ?_
      intro id hid
      rw [Core.Expr.mapTy_kind] at hid
      exact htarget.seen id (Core.ExprKind.mapTy_eq_ident hid)
    dsimp only [Core.Expr.DataTyped]
    rw [hnone, Core.Expr.mapTy_ty]
    exact hcomponent view hview
  · rintro d (_ | _ | ⟨heq, hdeclared⟩)
    rcases hproper with hdict | hplain
    · exact hdict.proper view hview place hplace
    · rw [Core.Expr.mapTy_ty] at heq
      rw [hplain view hview _ _ heq] at hdeclared
      cases hdeclared

/-- The dictionaries that are passed, whatever comes after them. -/
theorem proper_take (hdicts : ∀ d ∈ dicts, GivesDict site ledger s d) (hview : view.Sees ledger s)
    (hplace : view.Admits site ledger place) {n : Nat} (hn : n = dicts.length) {d : Core.Expr}
    (hd : d ∈ (Core.mapTyExprs view.map (dicts ++ args)).take n) :
    view.Proper site.source place d := by
  rw [Core.mapTyExprs_eq_map, ← List.map_take, hn, List.take_left] at hd
  obtain ⟨d', hd', rfl⟩ := List.mem_map.mp hd
  exact (hdicts d' hd').proper view hview place hplace

theorem call {callee : Core.Expr} {hasValue : Bool} (hcallee : Gives site ledger s callee)
    (hdicts : ∀ d ∈ dicts, GivesDict site ledger s d) (hargs : ∀ e ∈ args, Gives site ledger s e)
    (hty : Known ledger s ty) (hcall : ∀ view : View, view.Sees ledger s → ∃ os ps,
      view.map callee.ty = .funcWith os ps (view.map ty) ∧
        (dicts.map (·.ty)).map view.map = os.map (fun o => dictionaryType o.bound o.ty) ∧
          (args.map (·.ty)).map view.map = ps)
    (hvalue : ∀ view : View, view.Sees ledger s → (hasValue = true ↔ view.map ty ≠ .void)) :
    Gives site ledger s ⟨.call callee (dicts ++ args) hasValue, ty⟩ := by
  refine node hty (by nofun) (by nofun) fun view hview place hplace => ?_
  rw [Core.ExprKind.mapTy, Core.ExprKind.Every]
  obtain ⟨os, ps, hfunc, hos, hps⟩ := hcall view hview
  have hall : ∀ e ∈ dicts ++ args, Gives site ledger s e :=
    List.forall_mem_append.mpr ⟨fun d hd => (hdicts d hd).toGives, hargs⟩
  refine ⟨?_, trivial, ?_, hcallee.every view hview place hplace,
    everyExprs_of_gives hall hview hplace⟩
  · refine ⟨os, ps, (callee.mapTy_ty view.map).trans hfunc, ?_, hvalue view hview⟩
    rw [Core.Passes, Core.tys_mapTyExprs, List.map_append, List.map_append, hos, hps]
  · rintro d (⟨heq, hd⟩ | _ | _)
    rw [Core.Expr.mapTy_ty, hfunc] at heq
    obtain ⟨rfl, _⟩ := Ty.funcWith_inj heq
    refine proper_take hdicts hview hplace ?_ hd
    simpa using (congrArg List.length hos).symm

theorem builtin {op : Op} (hdicts : ∀ d ∈ dicts, GivesDict site ledger s d)
    (hargs : ∀ e ∈ args, Gives site ledger s e) (hty : Known ledger s ty)
    (hcall : ∀ view : View, view.Sees ledger s → ∃ os ps, Prelude.Offers op os ps (view.map ty) ∧
      (dicts.map (·.ty)).map view.map = os.map (fun o => dictionaryType o.bound o.ty) ∧
        (args.map (·.ty)).map view.map = ps) :
    Gives site ledger s ⟨.builtin op (dicts ++ args), ty⟩ := by
  refine node hty (by nofun) (by nofun) fun view hview _ hplace => ?_
  rw [Core.ExprKind.mapTy, Core.ExprKind.Every]
  obtain ⟨os, ps, hoffers, hos, hps⟩ := hcall view hview
  have hall : ∀ e ∈ dicts ++ args, Gives site ledger s e :=
    List.forall_mem_append.mpr ⟨fun d hd => (hdicts d hd).toGives, hargs⟩
  refine ⟨Core.callTyped_builtin hoffers ?_, trivial, ?_, everyExprs_of_gives hall hview hplace⟩
  · rw [Core.Passes, Core.tys_mapTyExprs, List.map_append, List.map_append, hos, hps]
  · rintro d (_ | ⟨hoffers', hd⟩ | _)
    refine proper_take hdicts hview hplace ?_ hd
    rw [Core.length_offers hoffers' hoffers]
    simpa using (congrArg List.length hos).symm

theorem dictionary (bound : Trait) (primitive : String) (hty : Known ledger s ty) :
    Gives site ledger s ⟨.builtin (.dictionary bound primitive) [], ty⟩ := by
  refine node hty (by nofun) (by nofun) fun _ _ _ _ => ?_
  rw [Core.ExprKind.mapTy, Core.mapTyExprs, Core.ExprKind.Every, Core.EveryExprs]
  refine ⟨rfl, trivial, ?_, trivial⟩
  rintro d (_ | ⟨hoffers, _⟩ | _)
  exact absurd hoffers Core.not_offers_dictionary

theorem block (hbody : GivesBlock site ledger s body) :
    Gives site ledger s ⟨.block body, body.ty⟩ := by
  refine node hbody.known (by rintro _ ⟨⟩) (by rintro _ ⟨⟩) fun view hview place hplace => ?_
  rw [Core.ExprKind.mapTy, Core.ExprKind.Every]
  exact ⟨trivial, body.mapTy_ty view.map, by rintro _ ⟨⟩, hbody.every view hview place hplace⟩

theorem cond {branches : List Core.Branch} (hty : Known ledger s ty)
    (hbranches : ∀ b ∈ branches, Gives site ledger s b.cond ∧ Same ledger s b.cond.ty .bool ∧
      GivesBlock site ledger s b.body ∧ Same ledger s b.body.ty ty)
    (hlast : GivesBlock site ledger s body) (hbody : Same ledger s body.ty ty) :
    Gives site ledger s ⟨.cond branches body, ty⟩ := by
  refine node hty (by simp) (by simp) fun view hview place hplace => ?_
  rw [Core.ExprKind.mapTy, Core.ExprKind.Every, Core.mapTyBranches_eq_map, Core.everyBranches_iff]
  refine ⟨trivial, ⟨?_, (body.mapTy_ty view.map).trans (hbody view hview)⟩, by rintro _ ⟨⟩, ?_,
    hlast.every view hview place hplace⟩
  · intro b hb
    obtain ⟨b, hb', rfl⟩ := List.mem_map.mp hb
    obtain ⟨_, hcond, _, hty⟩ := hbranches b hb'
    refine ⟨?_, (b.body.mapTy_ty view.map).trans (hty view hview)⟩
    rw [b.cond.mapTy_ty, hcond view hview, hview.reads.bool]
  · intro b hb
    obtain ⟨b, hb', rfl⟩ := List.mem_map.mp hb
    obtain ⟨hcond, _, hbody, _⟩ := hbranches b hb'
    exact ⟨hcond.every view hview place hplace, hbody.every view hview place hplace⟩

end Gives

/-- The block is in order as the case with the given index of a match. -/
structure GivesCase (site : Site) (scrutinee : BindingId) (target : Ty) (tag : Nat)
    (ledger : Ledger) (s : Checker) (body : Core.Block) : Prop where
  known : Known ledger s body.ty
  every : ∀ view : View, view.Sees ledger s → ∀ place : Core.Place, view.Admits site ledger place →
    (body.mapTy view.map).Every (view.rules site) (place.enter scrutinee (view.map target) tag)

theorem GivesCase.lasting {scrutinee : BindingId} {target : Ty} {tag : Nat} :
    Lasting (GivesCase site scrutinee target tag) :=
  fun hcarries h => ⟨hcarries.known h.known, fun view hview place hplace =>
    h.every view (hcarries.sees hview) place (hplace.carry hcarries)⟩

theorem Gives.cases {scrutinee : BindingId} {target : Core.Expr} {blocks : List Core.Block}
    {ty : Ty} (htarget : Gives site ledger s target) (hty : Known ledger s ty)
    (hblocks : ∀ (k : Nat) (b : Core.Block), blocks[k]? = some b →
      GivesCase site scrutinee target.ty k ledger s b ∧ Same ledger s b.ty ty) :
    Gives site ledger s ⟨.cases scrutinee target blocks, ty⟩ := by
  refine node hty (by simp) (by simp) fun view hview place hplace => ?_
  rw [Core.ExprKind.mapTy, Core.ExprKind.Every, Core.mapTyBlocks_eq_map, Core.everyCases_iff,
    target.mapTy_ty]
  refine ⟨trivial, ?_, by rintro _ ⟨⟩, htarget.every view hview place hplace, ?_⟩
  · intro b hb
    obtain ⟨b, hb', rfl⟩ := List.mem_map.mp hb
    obtain ⟨k, hk⟩ := List.mem_iff_getElem?.mp hb'
    exact (b.mapTy_ty view.map).trans ((hblocks k b hk).2 view hview)
  · intro k b hb
    rw [List.getElem?_map, Option.map_eq_some_iff] at hb
    obtain ⟨b, hb', rfl⟩ := hb
    rw [Nat.zero_add]
    exact (hblocks k b hb').1.every view hview place hplace

/-- The block is in order as the body of a function. -/
structure GivesBody (site : Site) (ledger : Ledger) (s : Checker) (body : Core.Block) : Prop where
  known : Known ledger s body.ty
  every : ∀ view : View, view.Sees ledger s → ∀ place : Core.Place, view.Admits site ledger place →
    (body.mapTy view.map).Inside (view.rules site).within place

theorem GivesBody.lasting : Lasting (GivesBody site) :=
  fun hcarries h => ⟨hcarries.known h.known, fun view hview place hplace =>
    h.every view (hcarries.sees hview) place (hplace.carry hcarries)⟩

/-- A function, with what it captures. The tracers of its body may be others than
those in use where it stands. -/
theorem obeys_func {name : Option String} {upvalues : List Upvalue} {params : List BindingId}
    {os : List Obligation} {ps : List Ty} {ret : Ty} {D : Set TyVar}
    (hcount : params.length = os.length + ps.length)
    (hty : (Ty.funcWith os ps ret).Formed (s.lexicon ledger.tracers) D)
    (hups : ∀ up ∈ upvalues, (entryRules ledger (site.visible s) s).upvalue up)
    (hsettled : ∀ id ty, ledger.settled id = some ty → ty.Apart)
    (hbody : ∀ view : View, view.Sees ledger s → ∀ place : Core.Place,
      view.Admits site ledger place → Core.Traced view.created
          (place.inside (Core.FuncExpr.mapTy view.map ⟨name, captures upvalues, params, body⟩))
          (view.map body.ty) ∧ (body.mapTy view.map).Inside (view.rules site).within
          (place.inside (Core.FuncExpr.mapTy view.map ⟨name, captures upvalues, params, body⟩)))
    (hname : ∀ view : View, view.Sees ledger s → ∀ place : Core.Place,
      view.Admits site ledger place → FuncTyped site.source ⟨.func (Core.FuncExpr.mapTy view.map
        ⟨name, captures upvalues, params, body⟩), view.map (.funcWith os ps ret)⟩) :
    Obeys site ledger s ⟨.func ⟨name, captures upvalues, params, body⟩, .funcWith os ps ret⟩ := by
  intro view hview place hplace
  have hfunc := hname view hview place hplace
  obtain ⟨htraced, hinside⟩ := hbody view hview place hplace
  rw [Core.FuncExpr.mapTy] at hfunc htraced hinside
  rw [Core.Expr.mapTy, Core.ExprKind.mapTy, Core.FuncExpr.mapTy, Core.Expr.Every,
    Core.ExprKind.Every, Core.FuncExpr.Every]
  -- what is captured is known outside of the function
  have hcaptured : ∀ c ∈ (captures upvalues).map (·.mapTy view.map),
      ∃ up ∈ upvalues, c = ⟨up.binding, view.map up.ty⟩ ∧
        Core.Traced view.created place (view.map up.ty) := by
    intro c hc
    simp only [captures, List.map_map, List.mem_map, Function.comp_apply] at hc
    obtain ⟨up, hup, rfl⟩ := hc
    obtain ⟨_, _, hformed⟩ := hups up hup
    exact ⟨up, hup, rfl, hplace.traced hview.reads.toHom hformed (ledger.level_subset _)⟩
  refine ⟨⟨?_, trivial, by rintro _ _ ⟨⟩, hfunc, ⟨?_, ?_⟩, by rintro _ ⟨⟩⟩, ?_, hinside⟩
  · refine ⟨_, _, _, hview.reads.funcWith os ps ret, ?_⟩
    rw [List.length_map, List.length_map]
    exact hcount
  · exact hplace.traced hview.reads.toHom hty (subset_refl _)
  · rintro func ⟨⟩
    rw [body.mapTy_ty]
    refine ⟨fun c hc => ?_, htraced⟩
    obtain ⟨up, _, rfl, hup⟩ := hcaptured c hc
    exact hup
  · intro c hc
    obtain ⟨up, hup, rfl, htraced⟩ := hcaptured c hc
    obtain ⟨⟨hlt, _⟩, hty, _⟩ := hups up hup
    refine ⟨trivial, trivial, ?_, by rintro _ _ ⟨⟩, ⟨htraced, by rintro _ ⟨⟩⟩, by rintro _ ⟨⟩⟩
    rintro id ty ⟨⟩ hid
    have hid' : ledger.settled up.binding = some ty := (hview.settled _ hlt).symm.trans hid
    obtain rfl := hty ty hid'
    exact hview.reads.instanceOf (hsettled _ _ hid')

/-! Statements. -/

namespace GivesStmts

theorem nil : GivesStmts site ledger s [] := by
  intro view hview place hplace
  rw [Core.mapTyStmts, Core.EveryStmts]
  trivial

theorem append {stmts' : List Core.Stmt} (h : GivesStmts site ledger s stmts)
    (h' : GivesStmts site ledger s stmts') : GivesStmts site ledger s (stmts ++ stmts') := by
  intro view hview place hplace
  have hfirst := h view hview place hplace
  have hsecond := h' view hview place hplace
  rw [Core.mapTyStmts_eq_map] at hfirst hsecond ⊢
  rw [List.map_append, Core.everyStmts_append]
  exact ⟨hfirst, hsecond⟩

theorem single {stmt : Core.Stmt} (h : ∀ view : View, view.Sees ledger s →
    ∀ place : Core.Place, view.Admits site ledger place →
      (stmt.mapTy view.map).Every (view.rules site) place) : GivesStmts site ledger s [stmt] := by
  intro view hview place hplace
  rw [Core.mapTyStmts, Core.mapTyStmts, Core.EveryStmts, Core.EveryStmts]
  exact ⟨h view hview place hplace, trivial⟩

theorem bind {id : BindingId} {ty? : Option Ty} (hid : Bound site ledger s id ty?)
    (he : Obeys site ledger s e) (hty : site.tidy → ∃ ty, ty? = some ty ∧ Same ledger s e.ty ty) :
    GivesStmts site ledger s [.bind id e] := by
  refine single fun view hview place hplace => ?_
  rw [Core.Stmt.mapTy, Core.Stmt.Every]
  refine ⟨⟨hid.start, lt_of_lt_of_le hid.lt hview.next, fun htidy => .inr ?_⟩,
    he view hview place hplace⟩
  obtain ⟨ty, rfl, hsame⟩ := hty htidy
  refine ⟨ty, (hview.settled id hid.lt).trans hid.settled, ?_⟩
  rw [e.mapTy_ty, hsame view hview]

theorem ret (he : Gives site ledger s e) (hty : ∀ ty, site.result = some ty → Same ledger s e.ty ty)
    (hclosed : ∀ ty, site.result = some ty → Closed ledger s ty) :
    GivesStmts site ledger s [.ret (some e)] := by
  refine single fun view hview place hplace => ?_
  rw [Core.Stmt.mapTy, Core.Stmt.Every]
  refine ⟨fun ty hresult => ?_, he.every view hview place hplace⟩
  rw [Core.Delivers, e.mapTy_ty, hty ty hresult view hview]
  exact hview.reads.closed (hclosed ty hresult)

theorem retNone (hty : ∀ ty, site.result = some ty → ty = .void) :
    GivesStmts site ledger s [.ret none] := by
  refine single fun _ _ _ _ => ?_
  rw [Core.Stmt.mapTy, Core.Stmt.Every]
  exact hty

theorem whileDo (he : Gives site ledger s e) (hbody : GivesBlock site ledger s body) :
    GivesStmts site ledger s [.whileDo e body] := by
  refine single fun view hview place hplace => ?_
  rw [Core.Stmt.mapTy, Core.Stmt.Every]
  exact ⟨he.every view hview place hplace, hbody.every view hview place hplace⟩

theorem forEach {id : BindingId} (he : Gives site ledger s e)
    (hbody : GivesBlock site ledger s body) : GivesStmts site ledger s [.forEach id e body] := by
  refine single fun view hview place hplace => ?_
  rw [Core.Stmt.mapTy, Core.Stmt.Every]
  exact ⟨he.every view hview place hplace, hbody.every view hview place hplace⟩

theorem eval (he : Gives site ledger s e) : GivesStmts site ledger s [.eval e] := by
  refine single fun view hview place hplace => ?_
  rw [Core.Stmt.mapTy, Core.Stmt.Every]
  exact he.every view hview place hplace

end GivesStmts

/-! Units. -/

/-- Reading by the bindings of a unit, and then by a view from outside. -/
def View.through (view : View) (s : Checker) : View :=
  { view with map := view.map ∘ s.unifier.resolve, next := s.scope.nextBinding }

theorem View.Sees.through {unit : Ledger} (hs : Wellformed site unit s) {subst : Subst}
    (hview : view.Sees (ledger.merge unit s.unifier.resolve)
      { s with unifier := { s.unifier with subst } }) : (view.through s).Sees unit s where
  reads := Unifier.reads_comp_resolve hs.unifier.valid hview.reads.toHom
  adts := hview.adts
  traits := hview.traits
  disjoint := hview.disjoint
  next := le_refl _
  settled := hview.settled
  impls := hview.impls
  created := fun id func hid => by
    have hmerge : (ledger.merge unit s.unifier.resolve).created id =
        some (func.mapTy s.unifier.resolve) := by
      change ((unit.created id).map _).or (ledger.created id) = _
      rw [hid]
      rfl
    have hseen := hview.created id _ hmerge
    rwa [Core.FuncExpr.mapTy_mapTy] at hseen

/-- What a variable is bound to has only tracers in use. -/
theorem Wellformed.traces_resolve (hs : Wellformed site ledger s) {v : TyVar} {id : Nat}
    (h : (s.unifier.resolve (.var v)).Traces id) : id ∈ ledger.tracers := by
  have hacyclic := hs.unifier.valid.acyclic
  cases hfind : s.unifier.subst.find? v.id with
  | none =>
    rw [Unifier.resolve, Subst.apply_unbound hacyclic hfind] at h
    cases h
  | some t =>
    rw [Unifier.resolve, Subst.apply_bound hacyclic hfind] at h
    exact (hs.unifier.resolve rfl (hs.unifier.formed v.id t hfind)).traces h

theorem View.Admits.through {unit : Ledger} (hs : Wellformed site unit s) (hmap : Ty.Hom view.map)
    (h : view.Admits site (ledger.merge unit s.unifier.resolve) place) :
    (view.through s).Admits site unit place where
  cases := h.cases
  tracers := h.tracers
  vars := fun _ id hid => by
    rcases hmap.traces hid with hid | ⟨w, _, hid⟩
    · exact h.tracers id (hs.traces_resolve hid)
    · exact h.vars w id hid
  dicts := h.dicts

/-- What the types are that bindings are settled at, from the given binding on,
does not depend on the bindings of type variables. -/
def Fixed (start : BindingId) (ledger : Ledger) (s : Checker) : Prop :=
  ∀ id ty, start ≤ id → ledger.settled id = some ty → s.unifier.resolve ty = ty

theorem Wellformed.fixed (hs : Wellformed site ledger s) (hloose : ¬site.loose) :
    Fixed site.start ledger s := by
  intro id ty hid hty
  refine (Unifier.hom_resolve hs.unifier.valid).eq_self ?_
  intro v hv
  refine Subst.apply_unbound hs.unifier.valid.acyclic ?_
  by_contra hne
  obtain ⟨t, ht⟩ := Option.ne_none_iff_exists'.mp hne
  obtain ⟨w, hw, hid'⟩ := hs.unifier.keys v.id t ht
  exact (hs.rigid hloose id ty hid hty v hv).2 w hw hid'

theorem View.implies_through {unit : Ledger} {subst : Subst} (hfixed : Fixed site.start unit s)
    (hview : view.Sees (ledger.merge unit s.unifier.resolve)
      { s with unifier := { s.unifier with subst } }) :
    ((view.through s).rules site).Implies (view.rules site) := by
  refine ⟨?_, fun _ _ h => h, ?_, fun _ h => h⟩
  · exact fun _ _ h => ⟨h.call, h.data, h.ident, h.func, h.traced, h.evidence⟩
  · rintro place id value ⟨hstart, hlt, hsettled⟩
    refine ⟨hstart, lt_of_lt_of_le hlt hview.next, fun htidy => ?_⟩
    rcases hsettled htidy with hpayload | ⟨ty, hty, heq⟩
    · exact .inl hpayload
    · have hfix := hfixed id ty hstart ((hview.settled id hlt).symm.trans hty)
      exact .inr ⟨ty, hty, heq.trans (congrArg view.map hfix)⟩

/-- The result of a unit, with its types resolved. -/
theorem GivesStmts.unit {unit : Ledger} (h : GivesStmts site unit s stmts)
    (hs : Wellformed site unit s) (hfixed : Fixed site.start unit s) (ledger : Ledger)
    (subst : Subst) : GivesStmts site (ledger.merge unit s.unifier.resolve)
      { s with unifier := { s.unifier with subst } } (Core.mapTyStmts s.unifier.resolve stmts) := by
  intro view hview place hplace
  rw [Core.mapTy_mapTyStmts]
  exact Core.everyStmts_imp
    (h _ (hview.through hs) place (hplace.through hs hview.reads.toHom))
    (View.implies_through hfixed hview)

/-! What is in order from a later start is in order. -/

section Restart

variable {loose : Prop} {start : BindingId}

theorem View.implies_resume (view : View) (hstart : site.start ≤ start) :
    (view.rules (site.restart loose start)).Implies (view.rules site) :=
  ⟨fun _ _ h => h, fun _ _ h => h, fun _ _ _ h => ⟨le_trans hstart h.1, h.2⟩, fun _ h => h⟩

theorem Gives.resume (h : Gives (site.restart loose start) ledger s e) (hstart : site.start ≤ start) :
    Gives site ledger s e :=
  ⟨h.known, h.seen, fun view hview place hplace =>
    (h.every view hview place hplace.change).imp (view.implies_resume hstart)⟩

theorem GivesStmts.resume (h : GivesStmts (site.restart loose start) ledger s stmts)
    (hstart : site.start ≤ start) : GivesStmts site ledger s stmts :=
  fun view hview place hplace =>
    Core.everyStmts_imp (h view hview place hplace.change) (view.implies_resume hstart)

end Restart

/-- Every dictionary of an implementation that is new is bound by one of the
statements, at its type. -/
def BindsImpls (before : Set (BindingId × Ty)) (ledger : Ledger) (stmts : List Core.Stmt) : Prop :=
  ∀ p ∈ ledger.impls, p ∈ before ∨ ∃ fields, .bind p.1 ⟨.object none fields, p.2⟩ ∈ stmts

theorem BindsImpls.mapTy {before : Set (BindingId × Ty)} (h : BindsImpls before ledger stmts)
    (hs : Wellformed site ledger s) {f : Ty → Ty} (hf : Ty.Hom f) :
    BindsImpls before ledger (Core.mapTyStmts f stmts) := by
  intro p hp
  rcases h p hp with hold | ⟨fields, hmem⟩
  · exact .inl hold
  · refine .inr ⟨Core.mapTyExprs f fields, ?_⟩
    rw [Core.mapTyStmts_eq_map]
    refine List.mem_map.mpr ⟨_, hmem, ?_⟩
    rw [Core.Stmt.mapTy, Core.Expr.mapTy, Core.ExprKind.mapTy, hf.closed (hs.impls p hp)]

/-- The statements of a unit are in order, and do not depend on its bindings of
type variables any more. -/
structure GivesUnit (site : Site) (start : BindingId) (before : Set (BindingId × Ty))
    (ledger : Ledger) (s : Checker) (out : List Core.Stmt) : Prop where
  stmts : GivesStmts site ledger s out
  fixed : Fixed start ledger s
  made : BindsImpls before ledger out

theorem Leads.inUnit {body : CheckM (List Core.Stmt)} (hs : Wellformed site ledger s)
    (hbody : Wellformed (site.restart site.loose s.scope.nextBinding) ledger.cleared s.cleared →
      Leads (site.restart site.loose s.scope.nextBinding) ledger.cleared s.cleared body
        (GivesUnit (site.restart site.loose s.scope.nextBinding) s.scope.nextBinding
          ledger.impls)) : Leads site ledger s (inUnit body) fun ledger' s' out =>
      GivesStmts site ledger' s' out ∧ BindsImpls ledger.impls ledger' out := by
  refine .resume hs id (.isolated (P := fun ledger1 s1 out =>
    ∃ stmts, out = Core.mapTyStmts s1.unifier.resolve stmts ∧ GivesUnit (site.restart site.loose
    s.scope.nextBinding) s.scope.nextBinding ledger.impls ledger1 s1 stmts) (hs.restart site.loose)
    (fun hs0 => .bind (hbody hs0) ?_) ?_)
  · intro ledger1 s1 stmts hadv hstmts
    exact .get (.pure hadv.after ⟨stmts, rfl, hstmts⟩)
  · rintro ledger1 s1 _ hs1 ⟨stmts, rfl, hstmts⟩
    exact ⟨(hstmts.stmts.unit hs1 hstmts.fixed ledger _).resume hs.start,
      hstmts.made.mapTy hs1 (Unifier.hom_resolve hs1.unifier.valid)⟩

end Checker

end TraitCheck
