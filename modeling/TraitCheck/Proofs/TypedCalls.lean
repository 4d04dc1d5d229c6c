import TraitCheck.Proofs.TypedResults

/-!
References and calls. What is called is known by its type in every view: a
built-in operation has its signature, and a method has the type of its slot. The
dictionaries and the arguments that a call passes then have the types that this
type asks for.
-/

namespace TraitCheck

variable {bound : Trait} {f : Ty → Ty}

/-- The result type of a built-in function has no variables but its own. -/
theorem Prelude.ret_genericFunc {g : Prelude.GenericFunc} (hg : g ∈ Prelude.genericFuncs)
    (hf : Ty.Hom f) (t : Ty) : f (g.ret.getD t) = g.ret.getD (f t) := by
  simp only [Prelude.genericFuncs, List.mem_cons, List.not_mem_nil, or_false] at hg
  rcases hg with rfl | rfl | rfl | rfl | rfl | rfl | rfl | rfl | rfl | rfl | rfl | rfl | rfl | rfl
  all_goals first | rfl | exact hf.named _ _

theorem Prelude.ty_plainFunc {p : String × Op × Ty} (hp : p ∈ Prelude.plainFuncs) (hf : Ty.Hom f) :
    f p.2.2 = p.2.2 := by
  simp only [Prelude.plainFuncs, List.mem_cons, List.not_mem_nil, or_false] at hp
  rcases hp with rfl | rfl | rfl | rfl | rfl | rfl | rfl
  all_goals
    simp only [hf.func, List.map_cons, List.map_nil, Ty.bool, Ty.int, Ty.float, Ty.string, Ty.void,
      hf.named]

/-- An instance of a built-in signature. -/
theorem Prelude.Provides.offers {op : Op} {value : Value} (h : Prelude.Provides op value)
    {next : Nat} (hf : Ty.Hom f) : ∃ os ps ret,
      f (value.ty.substitute (Subst.relabelling next value.generics)) = .funcWith os ps ret ∧
        Prelude.Offers op os ps ret := by
  have hcomp := hf.comp (Ty.hom_substitute (Subst.relabelling next value.generics))
  change ∃ os ps ret, (f ∘ _) value.ty = _ ∧ _
  rcases h with ⟨g, hg, var, hop, _, _, hty⟩ | ⟨name, params, ret, hmem, _, hty⟩
  · rw [hty, Prelude.GenericFunc.ty, hcomp.funcWith, Prelude.ret_genericFunc hg hcomp,
      List.map_replicate]
    exact ⟨_, _, _, rfl, .generic _ hg hop⟩
  · rw [hty, Prelude.ty_plainFunc hmem hcomp]
    exact ⟨_, _, _, rfl, .plain hmem⟩

/-- The type of a method, at some type. -/
theorem TraitDecl.Typed.slot {L : Lexicon} {decl : TraitDecl} {sig : Ty} (h : decl.Typed L bound)
    (hsig : sig ∈ decl.methods.values) (hf : Ty.Hom f) (t : Ty) :
    ∃ ps ret, sig.substitute [(decl.selfVar.id, f t)] = .funcWith [⟨f t, bound⟩] ps ret ∧
      f (sig.substitute [(decl.selfVar.id, t)]) = .funcWith [⟨f t, bound⟩] ps ret := by
  obtain ⟨params, ret, heq, hparams, hret⟩ := h.sigs sig hsig
  have hself : ∀ t : Ty, (Assoc.mk [(decl.selfVar.id, t)]).find? decl.selfVar.id = some t :=
    fun t => if_pos rfl
  have hvars : ∀ v ∈ sig.vars, ((Assoc.mk [(decl.selfVar.id, t)]).find? v.id).isSome = true := by
    intro v hv
    have hL : L.Extends { L with meets := fun _ => True } :=
      ⟨⟨fun _ _ h => h, subset_refl _⟩, fun _ _ => trivial⟩
    have hformed : sig.Formed { L with meets := fun _ => True } {decl.selfVar} := by
      rw [heq]
      refine Ty.formed_funcWith ?_ (fun p hp => (hparams p hp).extend hL) (hret.extend hL)
      intro o ho
      rw [List.mem_singleton.mp ho]
      exact ⟨.var rfl, trivial⟩
    obtain rfl := hformed.isOver v hv
    rw [hself]
    rfl
  have hsubst : ∀ t : Ty, sig.substitute [(decl.selfVar.id, t)] = .funcWith [⟨t, bound⟩]
      (params.map (·.substitute [(decl.selfVar.id, t)]))
      (ret.substitute [(decl.selfVar.id, t)]) := by
    intro t
    rw [heq, Ty.substitute, (Ty.hom_replace _).funcWith, List.map_singleton, Obligation.map,
      Ty.replace_var, hself]
    rfl
  exact ⟨_, _, hsubst (f t), (hf.substitute hvars).trans (hsubst (f t))⟩

namespace Checker

variable {site : Site} {ledger ledger' : Ledger} {s s' : Checker} {e : Core.Expr} {ty : Ty}

/-! References. -/

variable {value : Value} {id : BindingId} {next depth : Nat}

/-- A reference to a binding that is settled has an instance of its type. -/
theorem ValueTyped.instance {view : View}
    (hvalue : ValueTyped ledger (site.visible s) s depth value) (hkind : value.kind = .binding id)
    (hs : Wellformed site ledger s) (hview : view.Sees ledger s) {t : Ty}
    (ht : view.settled id = some t) :
    (view.map (value.ty.substitute (Subst.relabelling next value.generics))).InstanceOf t := by
  rw [hview.settled id (hvalue.visible id hkind).1] at ht
  obtain rfl := hvalue.settled id t hkind ht
  exact Ty.Hom.instanceOf (hview.reads.toHom.comp (Ty.hom_substitute _)) (hs.apart id _ ht)

theorem Wellformed.givesIdent (hs : Wellformed site ledger s)
    (hvalue : ValueTyped ledger (site.visible s) s depth value) (hkind : value.kind = .binding id)
    (hadv : Advance site ledger s ledger' s')
    (hty : Known ledger' s' (value.ty.substitute (Subst.relabelling next value.generics))) :
    Gives site ledger' s'
      ⟨.ident id, value.ty.substitute (Subst.relabelling next value.generics)⟩ :=
  .ident hty (hvalue.visible id hkind).2
    fun _ hview _ ht => hvalue.instance hkind hs (hadv.carries.sees hview) ht

theorem Wellformed.reference (hs : Wellformed site ledger s) (name : String) (span : Span) :
    Leads site ledger s (reference name span) (Gives site) := by
  refine .bind (hs.lookupValue name span) ?_
  rintro ledger1 s1 value hadv ⟨depth, hvalue⟩
  split
  · rename_i id hkind
    refine .bind (hadv.after.instantiate hvalue) ?_
    rintro ledger2 s2 ty hadv2 ⟨rfl, hty⟩
    exact .pure hadv2.after (hadv.after.givesIdent hvalue hkind hadv2 hty)
  · exact .fail

/-! What is called. -/

variable {callee : Callee} {shape : FuncShape}

/-- The type of what is called: that of the expression, an instance of the
signature of the operation, or the type of a slot for some type. -/
def CalleeFits (site : Site) (ledger : Ledger) (s : Checker) (callee : Callee) (ty : Ty) : Prop :=
  match callee with
  | .expr e => Gives site ledger s e ∧ e.ty = ty
  | .builtin op => ∀ view : View, view.Sees ledger s → ∃ os ps ret,
      view.map ty = .funcWith os ps ret ∧ Prelude.Offers op os ps ret
  | .method index => ∀ view : View, view.Sees ledger s → ∃ bound decl sig self ps ret,
      view.registry.trait? bound = some decl ∧ decl.methods.values[index]? = some sig ∧
        sig.substitute [(decl.selfVar.id, self)] = .funcWith [⟨self, bound⟩] ps ret ∧
          view.map ty = .funcWith [⟨self, bound⟩] ps ret

theorem CalleeFits.carry (h : CalleeFits site ledger s callee ty)
    (hcarries : Carries ledger s ledger' s') : CalleeFits site ledger' s' callee ty := by
  cases callee with
  | expr e => exact ⟨Gives.lasting hcarries h.1, h.2⟩
  | builtin op => exact fun view hview => h view (hcarries.sees hview)
  | method index => exact fun view hview => h view (hcarries.sees hview)

theorem Wellformed.calleeFits (hs : Wellformed site ledger s)
    (hvalue : ValueTyped ledger (site.visible s) s depth value)
    (hadv : Advance site ledger s ledger' s')
    (hty : Known ledger' s' (value.ty.substitute (Subst.relabelling next value.generics)))
    (hcallee : match value.kind with
      | .binding id => callee =
        .expr ⟨.ident id, value.ty.substitute (Subst.relabelling next value.generics)⟩
      | .builtin op => callee = .builtin op
      | .method _ index => callee = .method index) :
    CalleeFits site ledger' s' callee
      (value.ty.substitute (Subst.relabelling next value.generics)) := by
  cases hkind : value.kind with
  | binding id =>
    rw [hkind] at hcallee
    subst hcallee
    exact ⟨hs.givesIdent hvalue hkind hadv hty, rfl⟩
  | builtin op =>
    rw [hkind] at hcallee
    subst hcallee
    exact fun view hview => (hvalue.builtin op hkind).offers hview.reads.toHom
  | method bound index =>
    rw [hkind] at hcallee
    subst hcallee
    intro view hview
    obtain ⟨decl, htrait, hgenerics, hslot⟩ := hvalue.method bound index hkind
    obtain ⟨ps, ret, hsig, heq⟩ := (hs.traits bound decl htrait).slot
      (List.mem_of_getElem? hslot) hview.reads.toHom (.var { decl.selfVar with id := next })
    rw [hgenerics]
    exact ⟨bound, decl, value.ty, _, ps, ret, (hadv.carries.sees hview).traits bound decl htrait,
      hslot, hsig, heq⟩

theorem Wellformed.namedCallee (hs : Wellformed site ledger s) (name : String) (span : Span) :
    Leads site ledger s (namedCallee name span) fun ledger' s' r =>
      Known ledger' s' r.2 ∧ CalleeFits site ledger' s' r.1 r.2 := by
  refine .bind (hs.lookupValue name span) ?_
  rintro ledger1 s1 value hadv ⟨depth, hvalue⟩
  refine .bind (hadv.after.instantiate hvalue) ?_
  rintro ledger2 s2 ty hadv2 ⟨rfl, hty⟩
  split
  · rename_i id hkind
    exact .pure hadv2.after ⟨hty, hadv.after.calleeFits hvalue hadv2 hty (by rw [hkind])⟩
  · rename_i op hkind
    exact .pure hadv2.after ⟨hty, hadv.after.calleeFits hvalue hadv2 hty (by rw [hkind])⟩
  · rename_i bound index hkind
    exact .pure hadv2.after ⟨hty, hadv.after.calleeFits hvalue hadv2 hty (by rw [hkind])⟩

theorem Wellformed.calleeOf (hs : Wellformed site ledger s) (callee : Surface.Expr)
    {check : CheckM Core.Expr} (hcheck : Leads site ledger s check (Gives site)) :
    Leads site ledger s (calleeOf callee check) fun ledger' s' r =>
      Known ledger' s' r.2 ∧ CalleeFits site ledger' s' r.1 r.2 := by
  rw [Checker.calleeOf.eq_def]
  split
  · exact hs.namedCallee _ _
  · refine .bind hcheck ?_
    intro ledger1 s1 e hadv he
    exact .pure hadv.after ⟨he.known, he, rfl⟩

/-- The type is a function type with these parts. -/
structure ShapeOf (ledger : Ledger) (s : Checker) (ty : Ty) (shape : FuncShape) : Prop where
  obligations : ∀ o ∈ shape.obligations, Known ledger s o.ty ∧ s.registry.Meets o
  params : ∀ p ∈ shape.params, Known ledger s p
  ret : Known ledger s shape.ret
  same : Same ledger s ty (.funcWith shape.obligations shape.params shape.ret)

theorem ShapeOf.lasting : Lasting (fun ledger s ty => ShapeOf ledger s ty shape) :=
  fun hcarries h => ⟨fun o ho => ⟨hcarries.known (h.obligations o ho).1,
    hcarries.declares.registry.meets o (h.obligations o ho).2⟩, fun p hp => hcarries.known (h.params p hp), hcarries.known h.ret, hcarries.same h.same⟩

/-- How a view reads the type. -/
theorem ShapeOf.view {shape : FuncShape} (h : ShapeOf ledger s ty shape) {view : View}
    (hview : view.Sees ledger s) : view.map ty =
      .funcWith (shape.obligations.map (Obligation.map view.map)) (shape.params.map view.map)
        (view.map shape.ret) :=
  (h.same view hview).trans (hview.reads.funcWith _ _ _)

theorem shapeOf_of_asFunc? (hty : Known ledger s ty) (hshape : ty.asFunc? = some shape) :
    ShapeOf ledger s ty shape := by
  obtain ⟨hos, hps, hret⟩ := hty.shape_param hshape
  refine ⟨hos, hps, hret, ?_⟩
  rw [← hty.eq_funcWith hshape]
  exact .refl _ _ _

theorem Wellformed.openCall (hs : Wellformed site ledger s) (hty : Known ledger s ty)
    (span : Span) : Leads site ledger s (openCall ty span) fun ledger' s' shape =>
      ShapeOf ledger' s' ty shape := by
  refine .resolve ?_
  have hresolve := hs.known_resolve hty
  split
  · rename_i shape hshape
    have h := shapeOf_of_asFunc? hresolve hshape
    exact .pure hs ⟨h.obligations, h.params, h.ret,
      (Wellformed.same_resolve ledger s ty).symm.trans h.same⟩
  · exact .fail

/-! Arguments. -/

variable {con : Con} {bound : Trait}

/-- The expression is in order and has the type. -/
def GivesAt (site : Site) (ty : Ty) (ledger : Ledger) (s : Checker) (e : Core.Expr) : Prop :=
  Gives site ledger s e ∧ Same ledger s e.ty ty

theorem GivesAt.lasting : Lasting (GivesAt site ty) :=
  fun hcarries h => ⟨Gives.lasting hcarries h.1, hcarries.same h.2⟩

/-- The expressions are in order and have the types. -/
def GivesAll (site : Site) (tys : List Ty) (ledger : Ledger) (s : Checker)
    (es : List Core.Expr) : Prop :=
  List.Forall₂ (fun ty e => GivesAt site ty ledger s e) tys es

namespace GivesAll

variable {tys tys' : List Ty} {es es' : List Core.Expr}

theorem lasting : Lasting (GivesAll site tys) :=
  fun hcarries h => h.imp fun _ _ h => GivesAt.lasting hcarries h

theorem gives (h : GivesAll site tys ledger s es) : ∀ e ∈ es, Gives site ledger s e := by
  induction h with
  | nil => simp
  | cons h _ ih => exact List.forall_mem_cons.mpr ⟨h.1, ih⟩

theorem tys_eq (h : GivesAll site tys ledger s es) {view : View} (hview : view.Sees ledger s) :
    (es.map (·.ty)).map view.map = tys.map view.map := by
  induction h with
  | nil => rfl
  | cons h _ ih =>
    simp only [List.map_cons]
    rw [ih, h.2 view hview]

end GivesAll

/-- A hint, if there is one, is over the variables that may be bound. -/
def Hinted (hint : Option Ty) (ledger : Ledger) (s : Checker) : Prop :=
  ∀ t, hint = some t → Known ledger s t

theorem Hinted.none : Hinted none ledger s := by nofun

theorem Hinted.some (h : Known ledger s ty) : Hinted (some ty) ledger s := by
  rintro t ⟨⟩
  exact h

theorem Hinted.carry {hint : Option Ty} (h : Hinted hint ledger s)
    (hcarries : Carries ledger s ledger' s') : Hinted hint ledger' s' :=
  fun t ht => hcarries.known (h t ht)

theorem Wellformed.expecting (hs : Wellformed site ledger s) {expected : Ty}
    (hexpected : Known ledger s expected) (span : Span) {check : Option Ty → CheckM Core.Expr}
    (hcheck : ∀ hint, Hinted hint ledger s → Leads site ledger s (check hint) (Gives site)) :
    Leads site ledger s (expecting expected span check) (GivesAt site expected) := by
  refine .resolve (.bind (hcheck _ (.some (hs.known_resolve hexpected))) ?_)
  intro ledger1 s1 e hadv he
  refine .bind (hadv.after.unify span (hadv.known hexpected) he.known) ?_
  rintro ledger2 s2 c hadv2 ⟨_, hleft, hright⟩
  exact .pure hadv2.after ⟨Gives.lasting hadv2.carries he, hright.trans hleft.symm⟩

/-- The dictionary type that an obligation asks for. -/
def dictionaryFor (o : Obligation) : Ty := dictionaryType o.bound o.ty

/-- The expressions are dictionaries for the obligations. -/
def GivesDicts (site : Site) (os : List Obligation) (ledger : Ledger) (s : Checker)
    (ds : List Core.Expr) : Prop :=
  List.Forall₂ (fun o d => GivesDict site ledger s d ∧ Same ledger s d.ty (dictionaryFor o)) os ds

namespace GivesDicts

variable {os : List Obligation} {ds : List Core.Expr}

theorem dicts (h : GivesDicts site os ledger s ds) : ∀ d ∈ ds, GivesDict site ledger s d := by
  induction h with
  | nil => simp
  | cons h _ ih => exact List.forall_mem_cons.mpr ⟨h.1, ih⟩

theorem tys_eq (h : GivesDicts site os ledger s ds) {view : View} (hview : view.Sees ledger s) :
    (ds.map (·.ty)).map view.map =
      (os.map (Obligation.map view.map)).map fun o => dictionaryType o.bound o.ty := by
  induction h with
  | nil => rfl
  | cons h _ ih =>
    simp only [List.map_cons]
    rw [ih, h.2 view hview, dictionaryFor, hview.reads.dictionaryType]
    rfl

end GivesDicts

/-- The evidence for a type in use. The type cannot be an unbound variable. -/
theorem Wellformed.lookup_meets (hs : Wellformed site ledger s) {o : Obligation}
    (ho : Known ledger s o.ty) (hmeets : s.registry.Meets o) {failure : Failure}
    (h : s.registry.require (s.unifier.resolve o.ty) o.bound = .error failure) :
    failure.isDefect = false := by
  have hresolve : s.registry.Meets ⟨s.unifier.resolve o.ty, o.bound⟩ :=
    hs.unifier.meets_resolve rfl ho hmeets
  cases hty : s.unifier.resolve o.ty with
  | var v =>
    rw [hty] at h
    cases h
    rfl
  | app head args =>
    rw [hty] at h hresolve
    obtain ⟨e, he⟩ := Option.isSome_iff_exists.mp hresolve
    rw [Registry.require] at h
    dsimp only at he
    rw [he] at h
    cases h

/-- The constructor of a type in use is used in the innermost frame. -/
theorem Wellformed.conWithin (hs : Wellformed site ledger s) (hty : Known ledger s ty)
    (hcon : ty.con? = some con) :
    ConWithin ledger.tracers con ∧ ConWithin (ledger.level s.scope.depth) con := by
  have hwithin : ConWithin ledger.tracers con := by
    rintro id name rfl
    cases ty with
    | var v => cases hcon
    | app head args =>
      obtain ⟨con, size, bounds⟩ := head
      cases hcon
      exact hty.traces .here
  exact ⟨hwithin, fun id name heq => hs.levels _ (le_refl _) (hwithin id name heq)⟩

/-- A dictionary that is built in. -/
theorem Wellformed.givesIntrinsic (hs : Wellformed site ledger s) {primitive : String}
    (hdict : Known ledger s (dictionaryType bound ty)) (hty : Known ledger s ty)
    (hcon : ty.con? = some (.named primitive)) (hprimitive : primitive ∈ Prelude.types) :
    GivesDict site ledger s ⟨.builtin (.dictionary bound primitive) [], dictionaryType bound ty⟩ := by
  refine ⟨.dictionary bound primitive hdict, ?_⟩
  intro view hview place hplace
  obtain ⟨heq, hcount⟩ := hty.eq_named hcon
  have hparams : ty.params = [] := by
    have hzero : some ty.params.length = some 0 := hcount.symm.trans (hs.arity_builtin hprimitive)
    exact List.length_eq_zero_iff.mp (Option.some.inj hzero)
  refine .inl ⟨bound, primitive, hprimitive, ?_⟩
  rw [Core.Expr.mapTy, Core.ExprKind.mapTy, Core.mapTyExprs, heq, hparams,
    hview.reads.dictionaryType, hview.reads.named]
  rfl

/-- A dictionary that is held in a binding. -/
theorem Wellformed.givesHeld (hs : Wellformed site ledger s)
    (hdict : Known ledger s (dictionaryType bound ty)) (hty : Known ledger s ty)
    (hcon : ty.con? = some con) (hid : id ∈ site.visible s) (hheld : Holds ledger s con bound id) :
    GivesDict site ledger s ⟨.ident id, dictionaryType bound ty⟩ := by
  obtain ⟨target, hcon', hparams, hclosed, hsettled, hmem⟩ := hheld
  -- The dictionary is for a type without parameters, and that is the only type of its constructor.
  obtain rfl : ty = target := hty.eq_of_con hclosed.known hcon hcon' hparams
  refine ⟨.ident hdict hid.2 ?_, ?_⟩
  · intro view hview t ht
    rw [hview.settled id hid.1] at ht
    obtain rfl := hsettled t ht
    exact hview.reads.instanceOf (hs.apart id _ ht)
  · intro view hview place hplace
    have hfix : view.map (dictionaryType bound ty) = dictionaryType bound ty := by
      rw [hview.reads.dictionaryType, hview.reads.closed hclosed]
    rw [Core.Expr.mapTy, Core.ExprKind.mapTy, hfix]
    refine .inr ⟨id, rfl, ?_⟩
    rcases hmem with himpl | hparam
    · exact .inl (hview.impls himpl)
    · exact .inr (hplace.dicts _ hparam)

theorem Wellformed.dictionary (hs : Wellformed site ledger s) (span : Span) {o : Obligation}
    (ho : Known ledger s o.ty) (hmeets : s.registry.Meets o) :
    Leads site ledger s (dictionary span o) fun ledger' s' d => GivesDict site ledger' s' d ∧
      Same ledger' s' d.ty (dictionaryFor o) := by
  refine .resolve (.get (.ofExcept (fun _ => hs.lookup_meets ho hmeets) ?_))
  intro evidence hrequire
  obtain ⟨con, hcon, hlookup⟩ := Registry.lookup_of_require hrequire
  have hevidence := hs.evidence con o.bound evidence hlookup
  have hresolve := hs.known_resolve ho
  have hdict : Known ledger s (dictionaryType o.bound (s.unifier.resolve o.ty)) :=
    Ty.formed_dictionaryType (hs.arity_trait hevidence.declared) hresolve
  have hsame : Same ledger s (dictionaryType o.bound (s.unifier.resolve o.ty))
      (dictionaryFor o) := by
    intro view hview
    rw [dictionaryFor, hview.reads.dictionaryType, hview.reads.dictionaryType, hview.reads.resolve]
  obtain ⟨hwithin, hlevel⟩ := hs.conWithin hresolve hcon
  cases evidence with
  | intrinsic bound primitive =>
    obtain ⟨rfl, rfl, hprimitive⟩ := hevidence.intrinsic bound primitive rfl
    exact .pure hs ⟨hs.givesIntrinsic hdict hresolve hcon hprimitive, hsame⟩
  | binding name id =>
    have hfound := (hevidence.named name id rfl _ (le_refl _) hlevel).getValue
    have hgives : GivesDict site ledger s
        ⟨.ident id, dictionaryType o.bound (s.unifier.resolve o.ty)⟩ :=
      hs.givesHeld hdict hresolve hcon (hevidence.visible name id rfl)
        (hevidence.held name id rfl hwithin)
    refine .bind (hs.lookup? name) ?_
    rintro ledger1 s1 value hadv ⟨rfl, _⟩
    exact .ensured hfound (.pure hadv.after
      ⟨GivesDict.lasting hadv.carries hgives, hadv.same hsame⟩)

theorem Wellformed.dictionaries (span : Span) {os : List Obligation} (hs : Wellformed site ledger s)
    (hos : ∀ o ∈ os, Known ledger s o.ty ∧ s.registry.Meets o) :
    Leads site ledger s (dictionaries span os) (GivesDicts site os) := by
  induction os generalizing ledger s with
  | nil => exact .pure hs .nil
  | cons o rest ih =>
    obtain ⟨⟨hty, hmeets⟩, hrest⟩ := List.forall_mem_cons.mp hos
    refine .bind (hs.dictionary span hty hmeets) ?_
    rintro ledger1 s1 d hadv ⟨hd, hsame⟩
    refine .bind (ih hadv.after fun o ho => ?_) ?_
    · exact ⟨hadv.known (hrest o ho).1, hadv.later.registry.meets o (hrest o ho).2⟩
    · intro ledger2 s2 ds hadv2 hds
      exact .pure hadv2.after
        (.cons ⟨GivesDict.lasting hadv2.carries hd, hadv2.same hsame⟩ hds)

/-! Calls. -/

variable {index : Nat}

/-- Whether the type is `Void` is known once it is not a variable. -/
theorem Wellformed.isVoid_iff (hs : Wellformed site ledger s) {ret : Ty} (hret : Known ledger s ret)
    (hvar : ret.isVar = false) {view : View} (hview : view.Sees ledger s) :
    (!ret.isVoid) = true ↔ view.map ret ≠ .void := by
  rw [Bool.not_eq_true', ← Bool.not_eq_true]
  refine not_congr ⟨fun h => ?_, fun h => ?_⟩
  · rw [hret.eq_void (hs.arity_builtin (by decide)) h]
    exact hview.reads.void
  · have hcon := hview.reads.con? hvar
    rw [h] at hcon
    rw [Ty.isVoid, Ty.isNamed, ← hcon]
    rfl

theorem View.Sees.func_resolve {view : View} (hview : view.Sees ledger s) (ps : List Ty) (ret : Ty) :
    view.map (.func (ps.map s.unifier.resolve) (s.unifier.resolve ret)) =
      .func (ps.map view.map) (view.map ret) := by
  rw [hview.reads.func, List.map_map, hview.reads.resolve]
  congr 1
  exact List.map_congr_left fun p _ => hview.reads.resolve p

/-- The slot of a dictionary that a method call goes through. -/
theorem CalleeFits.component (hcallee : CalleeFits site ledger s (.method index) ty)
    (hshape : ShapeOf ledger s ty shape) {dict : Core.Expr} {dicts : List Core.Expr}
    (hdicts : GivesDicts site shape.obligations ledger s (dict :: dicts)) {view : View}
    (hview : view.Sees ledger s) :
    Core.HasComponent view.adts view.registry (view.map dict.ty) none index
      (.func (shape.params.map view.map) (view.map shape.ret)) := by
  obtain ⟨bound, decl, sig, self, ps, ret, htrait, hslot, hsubst, heq⟩ := hcallee view hview
  obtain ⟨hos, rfl, rfl⟩ := Ty.funcWith_inj (heq.symm.trans (hshape.view hview))
  have hdict : view.map dict.ty = dictionaryType bound self := by
    have htys := hdicts.tys_eq hview
    rw [← hos] at htys
    exact (List.cons.inj htys).1
  rw [hdict]
  refine ⟨_, .dictionary self (hview.find_trait htrait) htrait, ?_⟩
  rw [List.getElem?_map, hslot, Option.map_some, TraitDecl.slotType, hsubst, Ty.asFunc?_funcWith]

/-- A method asks for a dictionary. -/
theorem CalleeFits.dicts_ne_nil (hcallee : CalleeFits site ledger s (.method index) ty)
    (hshape : ShapeOf ledger s ty shape) (hs : Wellformed site ledger s) {dicts : List Core.Expr}
    (hdicts : GivesDicts site shape.obligations ledger s dicts) : dicts ≠ [] := by
  rintro rfl
  obtain ⟨bound, _, _, self, ps, ret, _, _, _, heq⟩ := hcallee _ hs.sees
  obtain ⟨hos, _⟩ := Ty.funcWith_inj (heq.symm.trans (hshape.view hs.sees))
  have hnil : shape.obligations = [] := List.forall₂_nil_right_iff.mp hdicts
  rw [hnil] at hos
  cases hos

theorem Wellformed.applied (hs : Wellformed site ledger s) {callee : Callee} {shape : FuncShape}
    (hcallee : CalleeFits site ledger s callee ty) (hshape : ShapeOf ledger s ty shape)
    {dicts args : List Core.Expr} (hdicts : GivesDicts site shape.obligations ledger s dicts)
    (hargs : GivesAll site shape.params ledger s args)
    (hvar : (s.unifier.resolve shape.ret).isVar = false) (span : Span) :
    Leads site ledger s (applied callee dicts args (shape.params.map s.unifier.resolve)
      (s.unifier.resolve shape.ret) span) (Gives site) := by
  have hret := hs.known_resolve hshape.ret
  have hvalue : ∀ view : View, view.Sees ledger s → _ := fun view hview =>
    hs.isVoid_iff hret hvar hview
  cases callee with
  | builtin op =>
    refine .pure hs (.builtin hdicts.dicts hargs.gives hret fun view hview => ?_)
    obtain ⟨os, ps, ret, heq, hoffers⟩ := hcallee view hview
    obtain ⟨rfl, rfl, rfl⟩ := Ty.funcWith_inj (heq.symm.trans (hshape.view hview))
    refine ⟨_, _, ?_, hdicts.tys_eq hview, hargs.tys_eq hview⟩
    rw [hview.reads.resolve]
    exact hoffers
  | expr e =>
    obtain ⟨he, rfl⟩ := hcallee
    refine .pure hs (.call he hdicts.dicts hargs.gives hret (fun view hview => ?_) hvalue)
    refine ⟨_, _, ?_, hdicts.tys_eq hview, hargs.tys_eq hview⟩
    rw [hview.reads.resolve]
    exact hshape.view hview
  | method index =>
    cases dicts with
    | nil => exact absurd rfl (hcallee.dicts_ne_nil hshape hs hdicts)
    | cons dict rest =>
      have hdict := hdicts.dicts dict List.mem_cons_self
      have hfield : Gives site ledger s ⟨.field dict index,
          .func (shape.params.map s.unifier.resolve) (s.unifier.resolve shape.ret)⟩ := by
        refine .field hdict.toGives (Ty.formed_func ?_ hret) (fun view hview => ?_) (.inl hdict)
        · intro p hp
          obtain ⟨p, hp', rfl⟩ := List.mem_map.mp hp
          exact hs.known_resolve (hshape.params p hp')
        · rw [hview.func_resolve]
          exact hcallee.component hshape hdicts hview
      have hnone : ∀ d ∈ ([] : List Core.Expr), GivesDict site ledger s d := by simp
      refine .pure hs (.call hfield hnone hargs.gives hret (fun view hview => ?_) hvalue)
      refine ⟨[], shape.params.map view.map, ?_, rfl, hargs.tys_eq hview⟩
      rw [hview.func_resolve, hview.reads.resolve]
      rfl

theorem Wellformed.closeCall (hs : Wellformed site ledger s) {callee : Callee} {shape : FuncShape}
    (hcallee : CalleeFits site ledger s callee ty) (hshape : ShapeOf ledger s ty shape)
    {args : List Core.Expr} (hargs : GivesAll site shape.params ledger s args) (span : Span) :
    Leads site ledger s (closeCall callee shape args span) (Gives site) := by
  refine .bind (hs.dictionaries span hshape.obligations) ?_
  intro ledger1 s1 dicts hadv hdicts
  refine .resolve (.ensure fun hvar => .get ?_)
  exact hadv.after.applied (hcallee.carry hadv.carries) (ShapeOf.lasting hadv.carries hshape) hdicts
    (GivesAll.lasting hadv.carries hargs) (by simpa using hvar) span

end Checker

end TraitCheck
