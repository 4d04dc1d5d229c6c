import TraitCheck.Proofs.TypedFunctions

/-!
Implementations. What an implementation puts into its dictionary has the types
of the slots of the trait, for the implementing type. That type has no
parameters, so neither do the slots have variables.
-/

namespace TraitCheck

theorem TraitDecl.Typed.closed_slotType {L : Lexicon} {decl : TraitDecl} {bound : Trait}
    {sig target : Ty} (h : decl.Typed L bound) (hL : ∀ o, ¬L.meets o)
    (hsig : sig ∈ decl.methods.values) (htarget : target.Formed L ∅) :
    (decl.slotType target sig).Formed L ∅ := by
  obtain ⟨params, ret, heq, hparams, hret⟩ := h.sigs sig hsig
  have hself : ∀ {t : Ty}, t.Formed L {decl.selfVar} →
      (t.substitute [(decl.selfVar.id, target)]).Formed L ∅ := by
    intro t ht
    refine ht.read (Ty.hom_replace _) (Lexicon.Extends.refl L).toIncludes ?_
      fun _ _ _ ho => absurd ho (hL _)
    rintro v rfl
    have hfind : (Assoc.mk [(decl.selfVar.id, target)]).find? decl.selfVar.id = some target :=
      if_pos rfl
    rw [Ty.substitute, Ty.replace_var, hfind]
    exact htarget
  rw [TraitDecl.slotType, heq, Ty.substitute, (Ty.hom_replace _).funcWith, Ty.asFunc?_funcWith]
  refine Ty.formed_func ?_ (hself hret)
  intro p hp
  obtain ⟨p, hp', rfl⟩ := List.mem_map.mp hp
  exact hself (hparams p hp')

namespace Checker

open Surface (FuncDecl)

variable {α : Type} {site : Site} {ledger ledger' : Ledger} {s s' : Checker}

/-! The methods of an implementation. -/

variable {impl : Impl} {room : Nat}

/-- The site inside of an implementation, where none may be made. -/
def Site.sealed (site : Site) : Site := { site with impls := False }

theorem Wellformed.seal (hs : Wellformed site ledger s) : Wellformed site.sealed ledger s :=
  { hs with }

/-- A step in which no implementation is made. -/
theorem Leads.unseal {x : CheckM α} {P : Ledger → Checker → α → Prop}
    (h : Leads site.sealed ledger s x P) :
    Leads site ledger s x fun ledger' s' r => P ledger' s' r ∧ ledger'.impls = ledger.impls := by
  refine ⟨?_, h.safe⟩
  intro r s' hrun
  obtain ⟨ledger', hadv, hr⟩ := h.ok r s' hrun
  have himpls := hadv.impls_eq id
  exact ⟨ledger', ⟨⟨hadv.draws, hadv.settled, hadv.level, hadv.dicts, hadv.impls, fun _ => himpls,
    hadv.created, hadv.created_new⟩, { hadv.before with }, { hadv.after with }, hadv.later⟩, hr,
    himpls⟩

theorem Gives.unseal {e : Core.Expr} (h : Gives site.sealed ledger s e) : Gives site ledger s e :=
  ⟨h.known, h.seen, fun view hview place hplace => h.every view hview place hplace.change⟩

/-- The implementation is of a declared trait and for a type without
parameters, and its dictionary is bound. -/
structure Implements (site : Site) (ledger : Ledger) (s : Checker) (impl : Impl) : Prop where
  decl : s.registry.trait? impl.decl.name = some impl.decl
  target : impl.target.Formed (s.written ∅) ∅
  bound : Bound site ledger s impl.binding (some impl.dictionaryType)

theorem Implements.advance (h : Implements site ledger s impl)
    (hadv : Advance site ledger s ledger' s') : Implements site ledger' s' impl :=
  ⟨hadv.later.registry.traits _ _ h.decl,
    h.target.extend (hadv.later.toDeclares.written (subset_refl _)), h.bound.carry hadv.carries⟩

/-- In the outermost frame no tracer is in use. -/
theorem Wellformed.tracers_root (hs : Wellformed site ledger s) (hroot : s.scope.below = []) :
    ledger.tracers = ∅ := by
  have hlevel := hs.levels 0 (by rw [Scope.depth, hroot]; exact le_refl _)
  rw [hs.root] at hlevel
  exact Set.subset_empty_iff.mp hlevel

/-- An implementation is put on record. -/
theorem Wellformed.recordImpl (hs : Wellformed site ledger s) (himpls : site.impls)
    {p : BindingId × Ty} (hp : p.2.Formed (s.written ∅) ∅) :
    Advance site ledger s { ledger with impls := insert p ledger.impls } s := by
  have hsub : ledger.impls ∪ ledger.dicts ⊆ insert p ledger.impls ∪ ledger.dicts :=
    Set.union_subset_union_left _ (Set.subset_insert p _)
  have hafter : Wellformed site { ledger with impls := insert p ledger.impls } s := { hs with
    scope := entries_mono hs.scope (.refl s) (.refl _ _) (le_refl _) (fun _ _ => subset_refl _)
      (fun _ _ => rfl) (subset_refl _)
    impls := by
      rintro q (rfl | hq)
      · exact hp
      · exact hs.impls q hq
    evidence := fun con bound e he => (hs.evidence con bound e he).mono (.refl s) (le_refl _) rfl
      hsub (fun _ _ => rfl) (subset_refl _) rfl fun _ _ h => h }
  exact ⟨{ Grows.refl site s ledger with
    impls := Set.subset_insert p _, impls_eq := fun h => absurd himpls h }, hs, hafter, .refl s⟩

/-- The dictionary of an implementation is evidence once it has a name. The
evidence is registered before that, in one go with the name. -/
theorem Wellformed.provideImpl {decl : TraitDecl} {target : Ty} {binding : BindingId}
    {name : String} (hs : Wellformed site ledger s) (himpls : site.impls)
    (hroot : s.scope.below = []) (hdecl : s.registry.trait? decl.name = some decl)
    (htarget : target.Formed (s.written ∅) ∅) (hparams : target.params = [])
    (hbinding : Bound site ledger s binding (some (dictionaryType decl.name target)))
    (span : Span) :
    Leads site ledger s (do
      Checker.provide span target decl.name (.binding name binding)
      let impl : Impl := ⟨decl, target, binding⟩
      Checker.bindValue name { kind := .binding binding, ty := impl.dictionaryType }
      return impl) fun ledger' s' impl => Implements site ledger' s' impl ∧
        ledger'.impls = insert (impl.binding, impl.dictionaryType) ledger.impls := by
  have hdeclared : s.registry.isDeclared decl.name = true :=
    Option.isSome_iff_exists.mpr ⟨decl, hdecl⟩
  have hclosed : (dictionaryType decl.name target).Formed (s.written ∅) ∅ :=
    Ty.formed_dictionaryType (hs.arity_trait hdeclared) htarget
  refine ⟨?_, ?_⟩
  · intro impl s' hrun
    obtain ⟨_, s1, h1, hrun⟩ := hrun.bind
    obtain ⟨con, hcon, hfree, rfl⟩ := h1.register
    obtain ⟨_, s2, h2, hrun⟩ := hrun.bind
    obtain rfl := h2.modify
    obtain ⟨rfl, rfl⟩ := hrun.pure
    have hrecord := hs.recordImpl himpls (p := (binding, dictionaryType decl.name target)) hclosed
    have hbinding1 := hbinding.carry hrecord.carries
    have hextends : (s.written ∅).Extends (s.lexicon (ledger.level s.scope.depth)) :=
      ((Declares.refl s).written (Set.empty_subset _)).trans (written_extends_lexicon s _)
    have hreserved : ∀ ledger, Reserved ledger s [] := by nofun
    have hvalue := hbinding1.valueTyped (hclosed.extend hextends).of_closed (hreserved _)
      fun t ht => Option.some.inj ht
    obtain ⟨_, hbind, rfl, _⟩ := (hrecord.after.bindValue name hvalue).ok () _ rfl
    have hregister := hbind.after.register hfree (e := .binding name binding) {
      declared := hdeclared
      intrinsic := by nofun
      drawn := by
        rintro id n rfl
        exact (htarget.tracer_mem hcon).elim
      visible := by
        rintro _ _ ⟨⟩
        exact ⟨hbinding.lt, hbinding.hidden⟩
      named := by
        rintro _ _ ⟨⟩ depth _ _
        refine (Scope.Names.bindValue _ _).mono ?_
        rw [Scope.depth, hroot]
        exact Nat.zero_le depth
      held := by
        rintro _ _ ⟨⟩ _
        refine ⟨target, hcon, hparams, htarget.extend ((Declares.of_eq rfl rfl).written
          (Set.empty_subset _)), fun _ ht => ?_, .inl (Set.mem_insert _ _)⟩
        exact Option.some.inj (ht.symm.trans hbinding.settled) }
    have hadv := (hrecord.trans hbind).trans hregister
    exact ⟨_, hadv, Implements.advance ⟨hdecl, htarget, hbinding⟩ hadv, rfl⟩
  · exact safe_of (.bind (ends_provide fun _ _ _ => trivial) fun _ =>
      .bind (.modify fun _ => trivial) fun _ => .pure)

theorem Wellformed.openImpl (hs : Wellformed site ledger s) (himpls : site.impls)
    (hroot : s.scope.below = []) (bound : Name) (written : Surface.TypeExpr) (span : Span) :
    Leads site ledger s (openImpl bound written span) fun ledger' s' impl =>
      Implements site ledger' s' impl ∧
        ledger'.impls = insert (impl.binding, impl.dictionaryType) ledger.impls := by
  refine .get ?_
  split
  · exact .fail
  · rename_i decl hdecl
    have hname := (hs.traits _ decl hdecl).name_eq
    refine .bind (hs.typeFor written) ?_
    rintro ledger1 s1 target hadv ⟨htarget, rfl, rfl⟩
    rw [Closed, hs.tracers_root hroot] at htarget
    split
    · exact .fail
    · refine .ensure fun hparams => ?_
      have hdeclared : s1.registry.isDeclared decl.name = true :=
        hname ▸ Option.isSome_iff_exists.mpr ⟨decl, hdecl⟩
      have hclosed : Closed ledger1 s1 (dictionaryType decl.name target) := by
        rw [Closed, hs.tracers_root hroot]
        exact Ty.formed_dictionaryType (hs.arity_trait hdeclared) htarget
      refine .bind (Leads.unseal (hs.seal.freshBinding (some (dictionaryType decl.name target)) ?_)) ?_
      · rintro _ ⟨⟩
        exact hclosed.settles
      rintro ledger2 s2 binding hadv2 ⟨⟨hbinding, _⟩, heq⟩
      rw [← heq]
      exact hadv2.after.provideImpl himpls (hadv2.root hroot)
        (hadv2.later.registry.traits _ _ (hname.symm ▸ hdecl))
        (htarget.extend (hadv2.later.toDeclares.written (subset_refl _)))
        (List.isEmpty_iff.mp hparams)
        ⟨hbinding.start, hbinding.lt, hbinding.hidden, hbinding.settled⟩ span

theorem Implements.plain_slot (h : Implements site ledger s impl) (hs : Wellformed site ledger s)
    {sig : Ty} (hsig : sig ∈ impl.decl.methods.values) :
    (impl.decl.slotType impl.target sig).Formed (s.written ∅) ∅ :=
  (hs.traits _ _ h.decl).closed_slotType (fun _ h => h) hsig h.target

theorem Wellformed.methodType {impl : Impl} (hs : Wellformed site ledger s) (sig : Ty)
    (span : Span) : Leads site ledger s (impl.methodType sig span) fun _ _ ty =>
      ty = impl.decl.slotType impl.target sig := by
  rw [Impl.methodType]
  split
  · rename_i shape hshape
    refine .pure hs ?_
    rw [TraitDecl.slotType, hshape]
  · exact .fail

/-- The type of a method is that of its slot. -/
theorem Wellformed.fitMethod {expected : Ty} {os : List Obligation} {ps : List Ty} {ret : Ty}
    (hs : Wellformed site ledger s) (hexpected : Closed ledger s expected)
    (hty : Known ledger s (.funcWith os ps ret)) (span : Span) :
    Leads site ledger s (Checker.isolated do
      let _ ← Checker.unify span expected (Ty.funcWith os ps ret)
      Checker.resolve (Ty.funcWith os ps ret)) fun _ _ r => r = expected ∧
        ∃ os' ps' ret', r = .funcWith os' ps' ret' ∧ os'.length = os.length ∧
          ps'.length = ps.length := by
  refine .isolated (P := fun ledger1 s1 r => r = s1.unifier.resolve (.funcWith os ps ret) ∧
    Closed ledger1 s1 expected ∧ Same ledger1 s1 (.funcWith os ps ret) expected) hs
    (fun hs0 => ?_) ?_
  · refine .bind (hs0.unify span (Closed.known hexpected) hty) ?_
    rintro ledger1 s1 c hadv ⟨_, hleft, hright⟩
    refine ⟨?_, safe_of ends_resolve⟩
    intro r s' hrun
    replace hrun := hrun.get_bind
    obtain ⟨rfl, rfl⟩ := hrun.pure
    exact ⟨ledger1, hadv.after.stay, rfl, hadv.closed hexpected, hright.trans hleft.symm⟩
  · rintro ledger1 s1 _ hs1 ⟨rfl, hclosed, hsame⟩
    refine ⟨(hsame.resolve_eq hs1).trans (hs1.resolve_closed hclosed), _, _, _,
      (Unifier.hom_resolve hs1.unifier.valid).funcWith os ps ret, List.length_map _,
      List.length_map _⟩

/-- The methods that were checked have the types of their slots. -/
def GivesMethods (site : Site) (impl : Impl) (ledger : Ledger) (s : Checker)
    (done : Assoc String Core.Expr) : Prop :=
  Implements site ledger s impl ∧
    Supplies site (impl.decl.slotType impl.target) impl.decl.methods ledger s done

theorem GivesMethods.advance {impl : Impl} {done : Assoc String Core.Expr}
    (h : GivesMethods site impl ledger s done) (hadv : Advance site ledger s ledger' s') :
    GivesMethods site impl ledger' s' done :=
  ⟨h.1.advance hadv, Supplies.lasting hadv.carries h.2⟩

/-- One method, before the others. -/
theorem Wellformed.checkMethod {method : FuncDecl} {rest : List FuncDecl}
    {done : Assoc String Core.Expr} (hs : Wellformed site ledger s) (hopening : ¬site.opening)
    (hdone : GivesMethods site impl ledger s done) (hsource : method ∈ site.source)
    (hbody : LeadsBody site method.body (checkBody room · method.body))
    (hrest : ∀ {ledger' s' done'}, Wellformed site ledger' s' →
      GivesMethods site impl ledger' s' done' →
        Leads site ledger' s' (checkMethods room impl done' rest) (GivesMethods site impl)) :
    Leads site ledger s (checkMethods room impl done (method :: rest)) (GivesMethods site impl) := by
  rw [checkMethods]
  split
  · exact .fail
  · rename_i declared hfind
    have hsig : declared ∈ impl.decl.methods.values :=
      List.mem_map_of_mem (Assoc.mem_of_find? hfind)
    refine .ensure fun _ => .bind (hs.methodType declared method.span) ?_
    rintro ledger1 s1 expected hadv1 rfl
    refine .bind (hadv1.after.declareSignature method
      (fun sig => genericVars sig.generics ∪ sig.resultVars) fun _ => subset_rfl) ?_
    rintro ledger2 s2 sig hadv2 ⟨hsigned, rfl⟩
    have hformed := hsigned.formed.extend (hadv2.later.toDeclares.lexicon (subset_refl _))
    have hknown : sig.ty.Formed (s2.lexicon ledger1.tracers)
        (ledger1.drawn ∪ (genericVars sig.generics ∪ sig.resultVars)) :=
      hformed.mono Set.subset_union_right
    obtain ⟨_, _, hret⟩ := hknown.shape_param (Ty.asFunc?_funcWith _ _ _)
    have hbounds : ∀ g ∈ sig.generics, ∀ bound ∈ g.bounds,
        s2.registry.isDeclared bound = true ∧ bound ∈ g.var.traits :=
      fun g hg b hb => ⟨hadv2.declared (hsigned.bounds g hg b hb).1, (hsigned.bounds g hg b hb).2⟩
    refine .bind (hadv2.after.checkFunc hopening hsource hbounds hsigned.names hsigned.count
      (hret.mono Set.subset_union_left) hbody) ?_
    rintro ledger3 s3 ⟨func, ty⟩ hadv3 ⟨hfunc, _⟩
    obtain ⟨ret, rfl, hret3, _⟩ := hfunc.ty
    have hadv := (hadv1.trans hadv2).trans hadv3
    have hknown3 : Known ledger3 s3 (.funcWith sig.obligations sig.params ret) := by
      obtain ⟨hos, hps, _⟩ := (hadv3.known hknown).shape_param (Ty.asFunc?_funcWith _ _ _)
      refine Ty.formed_funcWith hos hps (hret3.mono (Set.union_subset subset_rfl ?_))
      exact fun _ hv => hadv3.draws.subset (.inr (.inl hv))
    have hexpected : Closed ledger3 s3 (impl.decl.slotType impl.target declared) :=
      ((hdone.1.advance hadv).plain_slot hadv.after hsig).extend
        ((Declares.refl s3).written (Set.empty_subset _))
    refine .bind (hadv3.after.fitMethod hexpected hknown3 method.span) ?_
    rintro ledger4 s4 _ hadv4 ⟨rfl, os, ps, ret', heq, hos', hps'⟩
    have hdone4 := hdone.advance (hadv.trans hadv4)
    refine hrest hadv4.after ⟨hdone4.1, hdone4.2.insert hfind
      ⟨⟨?_, by rintro _ ⟨⟩, ?_⟩, .refl _ _ _⟩⟩
    · exact (hadv4.closed hexpected).known
    · refine Obeys.lasting hadv4.carries ?_
      rw [heq]
      exact hfunc.obeys os ps ret' _ hos' hps' (heq ▸ hexpected.known)

theorem Wellformed.checkImpl {bound : Name} {written : Surface.TypeExpr} {methods : List FuncDecl}
    {span : Span} (hs : Wellformed site ledger s) (himpls : s.scope.below = [] → site.impls)
    (hmethods : ∀ {impl ledger' s'}, Wellformed site.sealed ledger' s' →
      GivesMethods site.sealed impl ledger' s' ∅ →
        Leads site.sealed ledger' s' (checkMethods room impl ∅ methods)
          (GivesMethods site.sealed impl)) :
    Leads site ledger s (checkStmt room (.impl bound written methods span)) fun ledger' s' out =>
      GivesStmts site ledger' s' out ∧ BindsImpls ledger.impls ledger' out := by
  rw [checkStmt]
  refine .requireTopLevel fun hroot => .bind (hs.openImpl (himpls hroot) hroot bound written span) ?_
  rintro ledger1 s1 impl hadv1 ⟨himpl, hmade⟩
  have himpl1 : Implements site.sealed ledger1 s1 impl :=
    ⟨himpl.decl, himpl.target, himpl.bound.start, himpl.bound.lt, himpl.bound.hidden,
      himpl.bound.settled⟩
  refine .bind (Leads.unseal (hmethods hadv1.after.seal ⟨himpl1, .empty⟩)) ?_
  rintro ledger2 s2 done hadv2 ⟨⟨_, hdone⟩, hsame⟩
  have himpl2 := himpl.advance hadv2
  split
  · exact .fail
  · rename_i fields hfields
    have htrait := hadv2.after.traits _ _ himpl2.decl
    have hclosed : impl.dictionaryType.Formed (s2.written ∅) ∅ :=
      Ty.formed_dictionaryType (hadv2.after.arity_trait
        (Option.isSome_iff_exists.mpr ⟨_, himpl2.decl⟩)) himpl2.target
    have hknown : Closed ledger2 s2 impl.dictionaryType :=
      hclosed.extend ((Declares.refl s2).written (Set.empty_subset _))
    have hall := hdone.inOrder htrait.nodup hfields
    have hobject : Gives site ledger2 s2 ⟨.object none fields, impl.dictionaryType⟩ := by
      refine .object hknown.known (fun e he => (hall.gives e he).unseal) fun view hview => ?_
      have hslots : (impl.decl.methods.values.map (impl.decl.slotType impl.target)).map view.map =
          impl.decl.methods.values.map (impl.decl.slotType impl.target) := by
        rw [List.map_map]
        exact List.map_congr_left fun _ hsig =>
          hview.reads.closed (himpl2.plain_slot hadv2.after hsig)
      have htrait' := hview.traits _ _ himpl2.decl
      rw [hall.tys_eq hview, hslots, hview.reads.closed hclosed]
      exact .dictionary impl.target (hview.find_trait htrait') htrait'
    refine .pure hadv2.after ⟨.bind himpl2.bound hobject.every fun _ => ⟨_, rfl, .refl _ _ _⟩, ?_⟩
    intro p hp
    rw [hsame, hmade] at hp
    rcases hp with rfl | hp
    · exact .inr ⟨_, List.mem_singleton_self _⟩
    · exact .inl hp

end Checker

end TraitCheck
