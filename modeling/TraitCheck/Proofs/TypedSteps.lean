import TraitCheck.Proofs.TypedState

/-!
The steps that every part of the walk is made of lead from a state in order to
the next. A step changes one component of the state, so the invariant is kept
by one lemma for each component.
-/

namespace TraitCheck

variable {scope : Scope} {registry : Registry} {e : Evidence} {con : Con} {bound : Trait}

theorem AdtTable.Grows.arity {adts adts' : AdtTable} (h : adts.Grows adts') {name : String}
    {ty : Ty} (hne : adts.arity name ty ≠ 0) : adts'.arity name ty ≠ 0 := by
  rw [AdtTable.arity] at hne ⊢
  split at hne
  · rename_i adt hfind
    obtain ⟨adt', hfind', hgenerics, _⟩ := h name adt hfind
    rw [hfind']
    dsimp only
    rw [hgenerics]
    exact hne
  · exact absurd rfl hne

/-- A change of the innermost frame that takes no type name away takes none from
the outermost. -/
theorem Scope.contains_root_setTop (frame : Frame) {next : Nat}
    (h : ∀ name, scope.top.types.contains name = true → frame.types.contains name = true)
    {name : String} (hname : scope.root.types.contains name = true) :
    (Scope.mk frame scope.below next).root.types.contains name = true := by
  rw [Scope.root] at hname ⊢
  cases hlast : scope.below.getLast? with
  | none =>
    rw [hlast] at hname
    exact h name hname
  | some last =>
    rw [hlast] at hname
    exact hname

/-- Two scopes that differ in the innermost frame only. -/
theorem Scope.depth_eq {scope' : Scope}
    (h : scope'.below.map Frame.bare = scope.below.map Frame.bare) :
    scope'.depth = scope.depth := by
  have hlength := congrArg List.length h
  rwa [List.length_map, List.length_map] at hlength

/-- The registry with one more piece of evidence. -/
def Registry.register (registry : Registry) (con : Con) (bound : Trait) (e : Evidence) : Registry :=
  { registry with evidence := registry.evidence.insert (con, bound) e }

theorem Registry.lookup_register {con' : Con} {bound' : Trait} {e' : Evidence}
    (h : (registry.register con bound e).lookup con' bound' = some e') :
    (con' = con ∧ bound' = bound ∧ e' = e) ∨ registry.lookup con' bound' = some e' := by
  rw [lookup, register, Assoc.find?_insert] at h
  split at h
  · rename_i heq
    cases heq
    cases h
    exact .inl ⟨rfl, rfl, rfl⟩
  · exact .inr h

theorem Registry.keeps_register (hfree : registry.lookup con bound = none) :
    registry.Keeps (registry.register con bound e) := by
  refine ⟨fun _ _ h => h, ?_⟩
  intro con' bound' e' he
  rw [lookup, register, Assoc.find?_insert, if_neg]
  · exact he
  · rintro ⟨⟩
    rw [hfree] at he
    cases he

namespace Checker

variable {α β : Type} {site : Site} {ledger ledger' : Ledger} {s s' : Checker} {a b c t ty : Ty}
  {visible visible' : Set BindingId}

/-! What is in order stays in order. -/

variable {con : Con} {id : BindingId} {bound : Trait} {e : Evidence} {generics : List TyVar}
  {scope : Scope}

theorem Ledger.level_subset (ledger : Ledger) (depth : Nat) : ledger.level depth ⊆ ledger.tracers :=
  fun _ h => ⟨depth, h⟩

theorem Holds.mono (h : Holds ledger s con bound id) (hs : Declares s s')
    (htracers : ledger.tracers ⊆ ledger'.tracers)
    (hsettled : ledger'.settled id = ledger.settled id)
    (hmem : ledger.impls ∪ ledger.dicts ⊆ ledger'.impls ∪ ledger'.dicts) :
    Holds ledger' s' con bound id := by
  obtain ⟨target, hcon, hparams, hclosed, hty, hdict⟩ := h
  exact ⟨target, hcon, hparams, hclosed.extend (hs.written htracers),
    fun ty h => hty ty (hsettled ▸ h), hmem hdict⟩

/-- Evidence in another state, where its names are bound as they have to be. -/
theorem Registered.rename (h : Registered visible ledger s con bound e) (hs : Declares s s')
    (hnext : s.unifier.next ≤ s'.unifier.next) (hlevel : ledger'.level = ledger.level)
    (hmem : ledger.impls ∪ ledger.dicts ⊆ ledger'.impls ∪ ledger'.dicts)
    (hsettled : ∀ id ∈ visible, ledger'.settled id = ledger.settled id)
    (hvisible : visible ⊆ visible')
    (hnamed : ∀ name id, e = .binding name id → ∀ depth ≤ s'.scope.depth,
      ConWithin (ledger.level depth) con → s'.scope.Names name depth) :
    Registered visible' ledger' s' con bound e := by
  have htracers : ledger'.tracers = ledger.tracers := by
    rw [Ledger.tracers, Ledger.tracers, hlevel]
  exact {
    declared := hs.registry.isDeclared h.declared
    intrinsic := h.intrinsic
    drawn := fun id name hcon => lt_of_lt_of_le (h.drawn id name hcon) hnext
    visible := fun name id he => hvisible (h.visible name id he)
    named := fun name id he depth hle hcon => hnamed name id he depth hle (hlevel ▸ hcon)
    held := fun name id he hcon => (h.held name id he (htracers ▸ hcon)).mono hs
      (subset_of_eq htracers.symm) (hsettled id (h.visible name id he)) hmem }

theorem Registered.mono (h : Registered visible ledger s con bound e) (hs : Declares s s')
    (hnext : s.unifier.next ≤ s'.unifier.next) (hlevel : ledger'.level = ledger.level)
    (hmem : ledger.impls ∪ ledger.dicts ⊆ ledger'.impls ∪ ledger'.dicts)
    (hsettled : ∀ id ∈ visible, ledger'.settled id = ledger.settled id)
    (hvisible : visible ⊆ visible') (hdepth : s'.scope.depth = s.scope.depth)
    (hnames : ∀ name depth, s.scope.Names name depth → s'.scope.Names name depth) :
    Registered visible' ledger' s' con bound e :=
  h.rename hs hnext hlevel hmem hsettled hvisible fun name id he depth hle hcon =>
    hnames name depth (h.named name id he depth (hdepth ▸ hle) hcon)

theorem Reserved.mono (h : Reserved ledger s generics)
    (hdraws : Unifier.Draws s.unifier.next ledger.drawn ledger'.drawn)
    (hnext : s.unifier.next ≤ s'.unifier.next) : Reserved ledger' s' generics := by
  intro v hv
  obtain ⟨hlt, hunique⟩ := h v hv
  refine ⟨lt_of_lt_of_le hlt hnext, ?_⟩
  rintro w (hw | hw) hid
  · rcases hdraws.new w hw with hw | hle
    · exact hunique w (.inl hw) hid
    · exact absurd (hid ▸ hlt) (Nat.not_lt.mpr hle)
  · exact hunique w (.inr hw) hid

theorem ValueTyped.mono {value : Value} {depth : Nat} (h : ValueTyped ledger visible s depth value)
    (hs : Declares s s') (hdraws : Unifier.Draws s.unifier.next ledger.drawn ledger'.drawn)
    (hnext : s.unifier.next ≤ s'.unifier.next) (hlevel : ledger.level depth ⊆ ledger'.level depth)
    (hsettled : ∀ id ∈ visible, ledger'.settled id = ledger.settled id)
    (hvisible : visible ⊆ visible') : ValueTyped ledger' visible' s' depth value where
  formed := (h.formed.mono (Set.union_subset_union_left _ hdraws.subset)).extend (hs.lexicon hlevel)
  generics := h.generics.mono hdraws hnext
  visible := fun id hkind => hvisible (h.visible id hkind)
  settled := fun id ty hkind hty =>
    h.settled id ty hkind (hsettled id (h.visible id hkind) ▸ hty)
  builtin := h.builtin
  method := fun bound index hkind => by
    obtain ⟨decl, htrait, hgenerics, hslot⟩ := h.method bound index hkind
    exact ⟨decl, hs.registry.traits bound decl htrait, hgenerics, hslot⟩

theorem entries_mono (h : scope.Every (entryRules ledger visible s)) (hs : Declares s s')
    (hdraws : Unifier.Draws s.unifier.next ledger.drawn ledger'.drawn)
    (hnext : s.unifier.next ≤ s'.unifier.next)
    (hlevel : ∀ depth ≤ scope.depth, ledger.level depth ⊆ ledger'.level depth)
    (hsettled : ∀ id ∈ visible, ledger'.settled id = ledger.settled id)
    (hvisible : visible ⊆ visible') : scope.Every (entryRules ledger' visible' s') := by
  refine h.imp ?_ ?_ ?_
  · exact fun depth hle _ hvalue =>
      hvalue.mono hs hdraws hnext (hlevel depth hle) hsettled hvisible
  · exact fun depth hle _ ty hty =>
      (hty.extend (hs.written (hlevel depth hle))).mono fun _ hv => hs.adts.arity hv
  · rintro up hle ⟨hmem, hty, hformed⟩
    exact ⟨hvisible hmem, fun ty hsettle => hty ty (hsettled _ hmem ▸ hsettle),
      hformed.extend (hs.lexicon (hlevel up.depth hle))⟩

/-- What is declared has changed, and nothing else. -/
theorem entries_declare (h : scope.Every (entryRules ledger visible s)) (hs : Declares s s')
    (hnext : s.unifier.next ≤ s'.unifier.next) : scope.Every (entryRules ledger visible s') :=
  entries_mono h hs (.refl _ _) hnext (fun _ _ => subset_refl _) (fun _ _ => rfl) (subset_refl _)

theorem Yields.unify {span : Span} (h : Yields (unify span a b) s c s') :
    ∃ u, (Unifier.unify s.registry a b).run.run s.unifier = (.ok c, u) ∧
      s' = { s with unifier := u } := by
  replace h := h.get_bind
  obtain ⟨_, s2, h2, h⟩ := h.bind
  cases h2
  obtain ⟨hresult, rfl⟩ := h.ofExcept
  exact ⟨_, Prod.ext hresult rfl, rfl⟩

namespace Wellformed

/-! The known type names. -/

variable {name : String}

theorem arity_builtin (hs : Wellformed site ledger s) (hname : name ∈ Prelude.types) :
    s.arities name = some 0 := by
  rw [arities]
  split
  · rename_i adt hfind
    exact absurd hname (hs.adts name adt hfind).not_builtin
  · rw [if_pos hname]

theorem arity_trait (hs : Wellformed site ledger s) (hbound : s.registry.isDeclared bound = true) :
    s.arities bound = some 1 := by
  obtain ⟨decl, htrait⟩ := Option.isSome_iff_exists.mp hbound
  rw [arities]
  split
  · rename_i adt hfind
    rw [hs.disjoint bound adt hfind] at htrait
    cases htrait
  · rw [if_neg (hs.traits bound decl htrait).not_builtin, if_pos hbound]

theorem arity_adt {adt : Adt} (hfind : Assoc.find? s.adts name = some adt) :
    s.arities name = some adt.generics.length := by
  rw [arities, hfind]

theorem closed_builtin (hs : Wellformed site ledger s) (hname : name ∈ Prelude.types) :
    Closed ledger s (.named name []) :=
  Ty.formed_named (hs.arity_builtin hname) (by simp)

theorem closed_void (hs : Wellformed site ledger s) : Closed ledger s .void :=
  hs.closed_builtin (by decide)

theorem closed_bool (hs : Wellformed site ledger s) : Closed ledger s .bool :=
  hs.closed_builtin (by decide)

theorem known_void (hs : Wellformed site ledger s) : Known ledger s .void :=
  hs.closed_void.known

theorem known_bool (hs : Wellformed site ledger s) : Known ledger s .bool :=
  hs.closed_bool.known

/-! Types in the innermost frame. -/

variable {D : Set TyVar}

theorem formed_level (hs : Wellformed site ledger s) (ht : t.Formed (s.lexicon ledger.tracers) D) :
    t.Formed (s.lexicon (ledger.level s.scope.depth)) D :=
  ht.extend ((Declares.refl s).lexicon (hs.levels _ (le_refl _)))

/-! Resolving. -/

theorem known_resolve (hs : Wellformed site ledger s) (ht : Known ledger s t) :
    Known ledger s (s.unifier.resolve t) :=
  hs.unifier.resolve rfl ht

theorem same_resolve (ledger : Ledger) (s : Checker) (t : Ty) :
    Same ledger s (s.unifier.resolve t) t :=
  fun _ hview => hview.reads.resolve t

/-! A change of the unifier. -/

variable {u : Unifier}

theorem setUnifier (hs : Wellformed site ledger s)
    (hdraws : Unifier.Draws s.unifier.next ledger.drawn D)
    (hu : u.Supplied (s.lexicon ledger.tracers) D) (hnext : s.unifier.next ≤ u.next) :
    Wellformed site { ledger with drawn := D } { s with unifier := u } := by
  have hscope : s.scope.Every (entryRules { ledger with drawn := D } (site.visible s)
      { s with unifier := u }) :=
    entries_mono hs.scope (.of_eq rfl rfl) hdraws hnext (fun _ _ => subset_refl _)
      (fun _ _ => rfl) (subset_refl _)
  have hrigid : ¬site.loose → ∀ id ty, site.start ≤ id → ledger.settled id = some ty →
      ∀ v ∈ ty.vars, v.id < u.next ∧ ∀ w ∈ D, w.id ≠ v.id := by
    intro hloose id ty hid hty v hv
    obtain ⟨hlt, hne⟩ := hs.rigid hloose id ty hid hty v hv
    refine ⟨lt_of_lt_of_le hlt hnext, ?_⟩
    intro w hw
    rcases hdraws.new w hw with hw | hw
    · exact hne w hw
    · exact (Nat.ne_of_lt (lt_of_lt_of_le hlt hw)).symm
  exact { hs with
    unifier := hu
    scope := hscope
    rigid := hrigid
    tracers_lt := fun hopen id hid => lt_of_lt_of_le (hs.tracers_lt hopen id hid) hnext
    created := fun id func hid =>
      ⟨lt_of_lt_of_le (hs.created id func hid).1 hnext, (hs.created id func hid).2⟩
    evidence := fun con bound e he => (hs.evidence con bound e he).mono (.of_eq rfl rfl) hnext rfl
      (subset_refl _) (fun _ _ => rfl) (subset_refl _) rfl fun _ _ h => h
    functions := fun r hr ty hty => (hs.functions r hr ty hty).mono hdraws.subset }

theorem changeUnifier (hs : Wellformed site ledger s)
    (hdraws : Unifier.Draws s.unifier.next ledger.drawn D)
    (hu : u.Supplied (s.lexicon ledger.tracers) D) (hnext : s.unifier.next ≤ u.next)
    (hext : s.unifier.subst.Extends u.subst) :
    Advance site ledger s { ledger with drawn := D } { s with unifier := u } :=
  ⟨{ Grows.refl site s ledger with draws := hdraws }, hs, hs.setUnifier hdraws hu hnext,
    ⟨.of_eq rfl rfl, hnext, hext, le_refl _, rfl, rfl⟩⟩

/-- A variable that is drawn may be bound from now on. -/
theorem fresh (hs : Wellformed site ledger s) (name : String) (traits : TraitSet) :
    Leads site ledger s (fresh name traits) fun ledger' s' v => Known ledger' s' (.var v) := by
  obtain ⟨hdraws, hu⟩ := hs.unifier.draw rfl (Nat.le_succ s.unifier.next)
    {⟨s.unifier.next, name, traits⟩}
    (by
      rintro v rfl
      exact ⟨le_refl _, Nat.lt_succ_self _⟩)
    (by
      rintro v rfl w rfl _
      rfl)
  exact .change (hs.changeUnifier hdraws hu (Nat.le_succ _) (.refl _)) (.var (.inr rfl))

/-- A step of the counter that draws no variable. -/
theorem skip (hs : Wellformed site ledger s) {next : Nat} (hle : s.unifier.next ≤ next) :
    Advance site ledger s ledger { s with unifier := { s.unifier with next } } := by
  obtain ⟨hdraws, hu⟩ := hs.unifier.draw rfl hle ∅ (by simp) (by simp)
  rw [Set.union_empty] at hdraws hu
  exact hs.changeUnifier hdraws hu hle (.refl _)

theorem freshId (hs : Wellformed site ledger s) :
    Leads site ledger s freshId fun ledger' s' id => id = s.unifier.next ∧ ledger' = ledger ∧
      s' = { s with unifier := { s.unifier with next := s.unifier.next + 1 } } :=
  .change (hs.skip (Nat.le_succ _)) ⟨rfl, rfl, rfl⟩

/-- Copies of variables may be bound from now on. -/
theorem drawCopies (hs : Wellformed site ledger s) (vars : List TyVar) : Advance site ledger s
      { ledger with drawn := ledger.drawn ∪ {v | v ∈ Subst.renumber s.unifier.next vars} }
      { s with unifier := { s.unifier with next := s.unifier.next + vars.length } } := by
  obtain ⟨hdraws, hu⟩ := hs.unifier.draw rfl (Nat.le_add_right s.unifier.next vars.length)
    {v | v ∈ Subst.renumber s.unifier.next vars}
    (fun v hv => Subst.mem_renumber hv) (fun _ hv _ hw => Subst.renumber_unique hv hw)
  exact hs.changeUnifier hdraws hu (Nat.le_add_right _ _) (.refl _)

theorem instantiate (hs : Wellformed site ledger s) {value : Value} {depth : Nat}
    (hvalue : ValueTyped ledger (site.visible s) s depth value) :
    Leads site ledger s (instantiate value) fun ledger' s' ty =>
      ty = value.ty.substitute (Subst.relabelling s.unifier.next value.generics) ∧
        Known ledger' s' ty := by
  have hformed := hvalue.formed.extend ((Declares.refl s).lexicon (ledger.level_subset depth))
  exact .change (hs.drawCopies value.generics)
    ⟨rfl, hformed.relabel rfl fun v hv => (hvalue.generics v hv).2⟩

theorem unify (hs : Wellformed site ledger s) (span : Span) (ha : Known ledger s a)
    (hb : Known ledger s b) : Leads site ledger s (unify span a b) fun ledger' s' c =>
      Known ledger' s' c ∧ Same ledger' s' a c ∧ Same ledger' s' b c := by
  refine ⟨?_, safe_of ends_unify⟩
  intro c s' hrun
  obtain ⟨u, hunify, rfl⟩ := Yields.unify hrun
  obtain ⟨D, hdraws, hu, hc, hnext, hext, hagree⟩ := hs.unifier.unify rfl ha hb hunify
  refine ⟨_, hs.changeUnifier hdraws hu hnext hext, hc, ?_, ?_⟩
  · exact fun view hview => hview.reads.eq_of_resolve hagree.left
  · exact fun _ hview => hview.reads.eq_of_resolve hagree.right

end Wellformed

/-! A change of the scope. -/

variable {ty? : Option Ty}

/-- The ledger with the type of a new binding, if it is settled. -/
def Ledger.settle (ledger : Ledger) (id : BindingId) (ty? : Option Ty) : Ledger :=
  { ledger with settled := fun other => if other = id then ty? else ledger.settled other }

theorem Ledger.settled_settle (ledger : Ledger) (id : BindingId) (ty? : Option Ty) :
    (ledger.settle id ty?).settled id = ty? :=
  if_pos rfl

theorem Ledger.settled_settle_of_ne (ledger : Ledger) {other : BindingId} (ty? : Option Ty)
    (h : other ≠ id) : (ledger.settle id ty?).settled other = ledger.settled other :=
  if_neg h

/-- A binding may be settled at the type. -/
structure Settles (site : Site) (ledger : Ledger) (s : Checker) (ty : Ty) : Prop where
  apart : ty.Apart
  rigid : ¬site.loose → ∀ v ∈ ty.vars, v.id < s.unifier.next ∧ ∀ w ∈ ledger.drawn, w.id ≠ v.id

theorem Closed.settles (h : Closed ledger s ty) : Settles site ledger s ty where
  apart := fun v hv => absurd (h.isOver v hv) (Set.notMem_empty v)
  rigid := fun _ v hv => absurd (h.isOver v hv) (Set.notMem_empty v)

theorem Settles.advance (h : Settles site ledger s ty) (hadv : Advance site ledger s ledger' s') :
    Settles site ledger' s' ty := by
  refine ⟨h.apart, fun hloose v hv => ?_⟩
  obtain ⟨hlt, hne⟩ := h.rigid hloose v hv
  refine ⟨lt_of_lt_of_le hlt hadv.later.next, fun w hw => ?_⟩
  rcases hadv.draws.new w hw with hw | hw
  · exact hne w hw
  · exact (Nat.ne_of_lt (lt_of_lt_of_le hlt hw)).symm

theorem captures_entryRules : (entryRules ledger visible s).Captures :=
  fun hvalue hkind => ⟨hvalue.visible _ hkind, fun ty hty => hvalue.settled _ ty hkind hty,
    hvalue.formed.mono (Set.subset_univ _)⟩

namespace Wellformed

variable {scope : Scope}

theorem changeScope (hs : Wellformed site ledger s) (settled : BindingId → Option Ty)
    (hscope : scope.Every (entryRules { ledger with settled }
      {id | id < scope.nextBinding ∧ id ∉ site.hidden} s))
    (hnext : s.scope.nextBinding ≤ scope.nextBinding)
    (hbelow : scope.below.map Frame.bare = s.scope.below.map Frame.bare)
    (hvalues : ∀ name, s.scope.top.values.contains name = true →
      scope.top.values.contains name = true)
    (hroot : ∀ name, s.scope.root.types.contains name = true →
      scope.root.types.contains name = true)
    (hold : ∀ id < s.scope.nextBinding, settled id = ledger.settled id)
    (hnew : ∀ id ty, s.scope.nextBinding ≤ id → settled id = some ty →
      id < scope.nextBinding ∧ Settles site ledger s ty) :
    Advance site ledger s { ledger with settled } { s with scope } := by
  have hall : ∀ id ty, settled id = some ty → id < scope.nextBinding ∧
      (ledger.settled id = some ty ∨ Settles site ledger s ty) := by
    intro id ty hty
    rcases Nat.lt_or_ge id s.scope.nextBinding with hlt | hge
    · exact ⟨lt_of_lt_of_le hlt hnext, .inl (hold id hlt ▸ hty)⟩
    · exact ⟨(hnew id ty hge hty).1, .inr (hnew id ty hge hty).2⟩
  have hdepth : scope.depth = s.scope.depth := Scope.depth_eq hbelow
  have hafter : Wellformed site { ledger with settled } { s with scope } := { hs with
    scope := entries_declare hscope (.of_eq rfl rfl) (le_refl _)
    start := le_trans hs.start hnext
    hidden := fun id hid => lt_of_lt_of_le (hs.hidden id hid) hnext
    settled_lt := fun id ty hty => (hall id ty hty).1
    apart := fun id ty hty => by
      rcases (hall id ty hty).2 with hty | hty
      · exact hs.apart id ty hty
      · exact hty.apart
    rigid := fun hloose id ty hid hty => by
      rcases (hall id ty hty).2 with hty | hty
      · exact hs.rigid hloose id ty hid hty
      · exact hty.rigid hloose
    levels := fun depth hle => hs.levels depth (hdepth ▸ hle)
    evidence := fun con bound e he => by
      refine (hs.evidence con bound e he).mono (.of_eq rfl rfl) (le_refl _) rfl (subset_refl _)
        (fun id hid => hold id hid.1) ?_ hdepth fun _ _ h => h.changeTop hbelow hvalues
      exact fun _ hid => ⟨lt_of_lt_of_le hid.1 hnext, hid.2⟩
    names := fun name hname => hroot name (hs.names name hname) }
  exact ⟨{ Grows.refl site s ledger with settled := hold }, hs, hafter,
    ⟨.of_eq rfl rfl, le_refl _, .refl _, hnext, hbelow, rfl⟩⟩

/-- A change that makes no binding. -/
theorem rearrange (hs : Wellformed site ledger s)
    (hscope : scope.Every (entryRules ledger (site.visible s) s))
    (hnext : scope.nextBinding = s.scope.nextBinding)
    (hbelow : scope.below.map Frame.bare = s.scope.below.map Frame.bare)
    (hvalues : ∀ name, s.scope.top.values.contains name = true →
      scope.top.values.contains name = true)
    (hroot : ∀ name, s.scope.root.types.contains name = true →
      scope.root.types.contains name = true) : Advance site ledger s ledger { s with scope } := by
  refine hs.changeScope ledger.settled ?_ (le_of_eq hnext.symm) hbelow hvalues hroot
    (fun _ _ => rfl) ?_
  · rw [hnext]
    exact hscope
  · intro id ty hge hty
    exact absurd (hs.settled_lt id ty hty) (Nat.not_lt.mpr hge)

/-- A lookup. -/
theorem lookup? (hs : Wellformed site ledger s) (name : String) :
    Leads site ledger s (lookup? name) fun ledger' s' value? =>
      value? = (s.scope.getValue name).1 ∧ s'.registry = s.registry ∧ s'.unifier = s.unifier ∧
        ∀ value, value? = some value →
          ∃ depth, ValueTyped ledger' (site.visible s') s' depth value := by
  obtain ⟨hvalue, hscope⟩ := hs.scope.getValue captures_entryRules name
  have hsteady := Scope.steady_getValue s.scope name
  have hadv := hs.rearrange hscope hsteady.next hsteady.below
    (fun name hname => by rw [hsteady.values]; exact hname)
    fun _ hname => by rw [hsteady.types_root]; exact hname
  refine .change hadv ⟨rfl, rfl, rfl, ?_⟩
  intro value heq
  obtain ⟨depth, hvalue⟩ := hvalue value heq
  refine ⟨depth, hvalue.mono (.of_eq rfl rfl) (.refl _ _) (le_refl _) (subset_refl _)
    (fun _ _ => rfl) ?_⟩
  rintro id ⟨hlt, hid⟩
  exact ⟨hsteady.next.symm ▸ hlt, hid⟩

theorem lookupValue (hs : Wellformed site ledger s) (name : String) (span : Span) :
    Leads site ledger s (lookupValue name span) fun ledger' s' value =>
      ∃ depth, ValueTyped ledger' (site.visible s') s' depth value := by
  refine .bind (hs.lookup? name) ?_
  rintro ledger1 s1 value? hadv ⟨_, _, _, hvalue⟩
  cases value? with
  | none => exact .fail
  | some value => exact .pure hadv.after (hvalue value rfl)

end Wellformed

/-- All bindings made since the first state that are settled are so at one of the
types. -/
structure SettlesOnly (s : Checker) (ledger' : Ledger) (s' : Checker) (tys : List Ty) : Prop where
  unifier : s'.unifier = s.unifier
  new : ∀ id t, s.scope.nextBinding ≤ id → ledger'.settled id = some t → t ∈ tys

theorem SettlesOnly.mono {tys tys' : List Ty} (h : SettlesOnly s ledger' s' tys)
    (hsub : tys ⊆ tys') : SettlesOnly s ledger' s' tys' :=
  ⟨h.unifier, fun id t hid ht => hsub (h.new id t hid ht)⟩

theorem Wellformed.settlesOnly (hs : Wellformed site ledger s) (tys : List Ty) :
    SettlesOnly s ledger s tys :=
  ⟨rfl, fun id t hid ht => absurd (hs.settled_lt id t ht) (Nat.not_lt.mpr hid)⟩

theorem SettlesOnly.trans {ledger1 ledger2 : Ledger} {s1 s2 : Checker} {tys tys' : List Ty}
    (h : SettlesOnly s ledger1 s1 tys) (hadv : Advance site ledger1 s1 ledger2 s2)
    (h' : SettlesOnly s1 ledger2 s2 tys') : SettlesOnly s ledger2 s2 (tys ++ tys') := by
  refine ⟨h'.unifier.trans h.unifier, ?_⟩
  intro id t hid ht
  rcases Nat.lt_or_ge id s1.scope.nextBinding with hlt | hge
  · exact List.mem_append_left _ (h.new id t hid (hadv.settled id hlt ▸ ht))
  · exact List.mem_append_right _ (h'.new id t hge ht)

/-- A binding that was made here, and the type that it is settled at, if any. -/
structure Bound (site : Site) (ledger : Ledger) (s : Checker) (id : BindingId)
    (ty? : Option Ty) : Prop where
  start : site.start ≤ id
  lt : id < s.scope.nextBinding
  hidden : id ∉ site.hidden
  settled : ledger.settled id = ty?

theorem Bound.carry (h : Bound site ledger s id ty?) (hcarries : Carries ledger s ledger' s') :
    Bound site ledger' s' id ty? :=
  ⟨h.start, lt_of_lt_of_le h.lt hcarries.binding, h.hidden,
    (hcarries.settled id h.lt).trans h.settled⟩

/-- A value for a binding that was made here. -/
theorem Bound.valueTyped (h : Bound site ledger s id ty?) {depth : Nat}
    (hformed : ty.Formed (s.lexicon (ledger.level depth)) (ledger.drawn ∪ {v | v ∈ generics}))
    (hgenerics : Reserved ledger s generics) (hty : ∀ t, ty? = some t → ty = t) :
    ValueTyped ledger (site.visible s) s depth { kind := .binding id, ty, generics } := by
  refine ⟨hformed, hgenerics, ?_, ?_, by nofun, by nofun⟩
  · rintro _ ⟨⟩
    exact ⟨h.lt, h.hidden⟩
  · rintro _ t ⟨⟩ ht
    exact hty t (h.settled.symm.trans ht)

namespace Wellformed

variable {ty? : Option Ty}

/-- The entries are in order after a new binding is made. -/
theorem entries_settle (hs : Wellformed site ledger s) (ty? : Option Ty) :
    s.scope.Every (entryRules (ledger.settle s.scope.nextBinding ty?)
      {id | id < s.scope.nextBinding + 1 ∧ id ∉ site.hidden} s) := by
  refine entries_mono hs.scope (.refl s) (.refl _ _) (le_refl _) (fun _ _ => subset_refl _) ?_ ?_
  · rintro id ⟨hlt, _⟩
    exact ledger.settled_settle_of_ne ty? (Nat.ne_of_lt hlt)
  · rintro id ⟨hlt, hid⟩
    exact ⟨Nat.lt_succ_of_lt hlt, hid⟩

/-- A new binding, and what the innermost frame becomes. -/
theorem openBinding (hs : Wellformed site ledger s)
    (hty : ∀ ty, ty? = some ty → Settles site ledger s ty) {frame : Frame}
    (hframe : frame.Every (entryRules (ledger.settle s.scope.nextBinding ty?)
      {id | id < s.scope.nextBinding + 1 ∧ id ∉ site.hidden} s) s.scope.depth)
    (htypes : frame.types = s.scope.top.types)
    (hvalues : ∀ name, s.scope.top.values.contains name = true →
      frame.values.contains name = true) :
    Advance site ledger s (ledger.settle s.scope.nextBinding ty?)
      { s with scope := ⟨frame, s.scope.below, s.scope.nextBinding + 1⟩ } := by
  refine hs.changeScope (ledger.settle s.scope.nextBinding ty?).settled
    ((hs.entries_settle ty?).changeTop hframe) (Nat.le_succ _) rfl hvalues ?_ ?_ ?_
  · intro name hname
    exact Scope.contains_root_setTop frame (fun _ hname => by rw [htypes]; exact hname) hname
  · intro id hid
    exact ledger.settled_settle_of_ne ty? (Nat.ne_of_lt hid)
  · intro id ty hge hsome
    rcases Nat.eq_or_lt_of_le hge with rfl | hlt
    · rw [ledger.settled_settle] at hsome
      exact ⟨Nat.lt_succ_self _, hty ty hsome⟩
    · rw [ledger.settled_settle_of_ne ty? (Nat.ne_of_gt hlt)] at hsome
      exact absurd (hs.settled_lt id ty hsome) (Nat.not_lt.mpr hge)

theorem bound_next (hs : Wellformed site ledger s) (ty? : Option Ty) (frame : Frame)
    (below : List Frame) : Bound site (ledger.settle s.scope.nextBinding ty?)
      { s with scope := ⟨frame, below, s.scope.nextBinding + 1⟩ } s.scope.nextBinding ty? :=
  ⟨hs.start, Nat.lt_succ_self _, fun hid => absurd (hs.hidden _ hid) (Nat.lt_irrefl _),
    ledger.settled_settle _ ty?⟩

/-- Only the new binding may have become settled. -/
theorem new_settle (hs : Wellformed site ledger s) (hid : s.scope.nextBinding ≤ id)
    (ht : (ledger.settle s.scope.nextBinding ty?).settled id = some t) : ty? = some t := by
  rcases Nat.eq_or_lt_of_le hid with rfl | hlt
  · rwa [ledger.settled_settle] at ht
  · rw [ledger.settled_settle_of_ne ty? (Nat.ne_of_gt hlt)] at ht
    exact absurd (hs.settled_lt id t ht) (Nat.not_lt.mpr hid)

theorem freshBinding (hs : Wellformed site ledger s) (ty? : Option Ty)
    (hty : ∀ ty, ty? = some ty → Settles site ledger s ty) :
    Leads site ledger s freshBinding fun ledger' s' id => Bound site ledger' s' id ty? ∧
      SettlesOnly s ledger' s' ty?.toList :=
  .change (hs.openBinding hty (hs.entries_settle ty?).top rfl fun _ h => h)
    ⟨hs.bound_next ty? _ _, rfl, fun _ _ hid ht => Option.mem_toList.mpr (hs.new_settle hid ht)⟩

/-- A new value of the given type. -/
theorem openLocal (hs : Wellformed site ledger s) (name : String) (hty : Known ledger s ty)
    (hsettles : ∀ t, ty? = some t → t = ty ∧ Settles site ledger s t) :
    Advance site ledger s (ledger.settle s.scope.nextBinding ty?)
      { s with scope := (s.scope.bindLocal name ty).2 } := by
  have hvalue : ValueTyped (ledger.settle s.scope.nextBinding ty?)
      {id | id < s.scope.nextBinding + 1 ∧ id ∉ site.hidden} s s.scope.depth
      { kind := .binding s.scope.nextBinding, ty } := by
    refine ⟨(hs.formed_level hty).mono Set.subset_union_left, by nofun, ?_, ?_, by nofun, by nofun⟩
    · rintro id ⟨⟩
      exact ⟨Nat.lt_succ_self _, fun hid => absurd (hs.hidden _ hid) (Nat.lt_irrefl _)⟩
    · rintro id t ⟨⟩ hsome
      rw [ledger.settled_settle] at hsome
      exact (hsettles t hsome).1.symm
  exact hs.openBinding (fun t ht => (hsettles t ht).2)
    ((hs.entries_settle ty?).bindValue hvalue).top rfl fun _ h => Assoc.contains_insert h

theorem bindLocal (hs : Wellformed site ledger s) (ty? : Option Ty) (name : String)
    (hty : Known ledger s ty) (hsettles : ∀ t, ty? = some t → t = ty ∧ Settles site ledger s t) :
    Leads site ledger s (bindLocal name ty) fun ledger' s' id =>
      Bound site ledger' s' id ty? ∧ SettlesOnly s ledger' s' ty?.toList :=
  .change (hs.openLocal name hty hsettles)
    ⟨hs.bound_next ty? _ _, rfl, fun _ _ hid ht => Option.mem_toList.mpr (hs.new_settle hid ht)⟩

theorem bindParam (hs : Wellformed site ledger s) (span : Span) (name : String)
    (hty : Known ledger s ty) : Leads site ledger s (bindParam span name ty) fun ledger' s' id =>
      Bound site ledger' s' id none ∧ id = s.scope.nextBinding ∧
        s' = { s with scope := (s.scope.bindLocal name ty).2 } := by
  refine ⟨?_, safe_of (ends_bindParam fun _ _ _ _ => trivial)⟩
  intro id s' hrun
  obtain ⟨rfl, rfl⟩ := hrun.bindParam
  exact ⟨_, hs.openLocal name hty (by nofun), hs.bound_next none _ _, rfl, rfl⟩

theorem bindType (hs : Wellformed site ledger s) (name : String) (hty : Closed ledger s ty) :
    Leads site ledger s (bindType name ty) fun ledger' s' _ =>
      ledger' = ledger ∧ s' = { s with scope := s.scope.bindType name ty } := by
  refine .update (hs.rearrange (hs.scope.bindType (hty.extend ((Declares.refl s).written (hs.levels _ (le_refl _)))).of_closed) rfl rfl
    (fun _ h => h) ?_) ⟨rfl, rfl⟩
  intro other hother
  exact Scope.contains_root_setTop { s.scope.top with types := s.scope.top.types.insert name ty }
    (fun _ hname => Assoc.contains_insert hname) hother

/-- A value for a binding that was made before. -/
theorem bindValue (hs : Wellformed site ledger s) (name : String) {value : Value}
    (hvalue : ValueTyped ledger (site.visible s) s s.scope.depth value) :
    Leads site ledger s (bindValue name value) fun ledger' s' _ =>
      ledger' = ledger ∧ s' = { s with scope := s.scope.bindValue name value } := by
  refine .update (hs.rearrange (hs.scope.bindValue hvalue) rfl rfl
    (fun _ h => Assoc.contains_insert h) ?_) ⟨rfl, rfl⟩
  intro other hother
  exact Scope.contains_root_setTop
    { s.scope.top with values := s.scope.top.values.insert name value } (fun _ h => h) hother

/-- A new type for a value of the innermost frame. -/
theorem setValueType (hs : Wellformed site ledger s) {name : String} {value : Value}
    (hfind : s.scope.top.values.find? name = some value)
    (hvalue : ValueTyped ledger (site.visible s) s s.scope.depth { value with ty }) :
    Leads site ledger s (setValueType name ty) fun _ _ _ => True := by
  refine .update (hs.rearrange (hs.scope.setValueType ?_) rfl rfl ?_ ?_) trivial
  · intro found hfound _
    rw [hfind] at hfound
    cases hfound
    exact hvalue
  · intro other hother
    change (s.scope.top.values.modify name ({ · with ty })).contains other = true
    rw [Assoc.modify, hfind]
    exact Assoc.contains_insert hother
  · intro other hother
    exact Scope.contains_root_setTop
      { s.scope.top with values := s.scope.top.values.modify name ({ · with ty }) }
      (fun _ h => h) hother

end Wellformed

/-! Declarations and evidence. -/

variable {adts : AdtTable} {registry : Registry}

/-- Another table of declarations, other evidence, and type names for it. -/
theorem Wellformed.declare (hs : Wellformed site ledger s)
    (hdeclares : Declares s { s with adts, registry, scope })
    (hevidence : ∀ con bound e, registry.lookup con bound = some e →
      Registered (site.visible { s with adts, registry, scope }) ledger
        { s with adts, registry, scope } con bound e)
    (hscope : scope.Every (entryRules ledger (site.visible s) { s with adts, registry, scope }))
    (hnext : scope.nextBinding = s.scope.nextBinding)
    (hbelow : scope.below.map Frame.bare = s.scope.below.map Frame.bare)
    (htraits : ∀ name decl, registry.trait? name = some decl →
      decl.Typed (written { s with adts, registry, scope } ∅) name)
    (hadts : ∀ name adt, Assoc.find? adts name = some adt →
      adt.Typed (written { s with adts, registry, scope } ∅) name)
    (hdisjoint : ∀ name adt, Assoc.find? adts name = some adt → registry.trait? name = none)
    (hnames : ∀ name, (¬site.plain ∧ name ∈ Prelude.types) ∨ (Assoc.find? adts name).isSome = true →
      scope.root.types.contains name = true) :
    Advance site ledger s ledger { s with adts, registry, scope } := by
  have hvisible : site.visible { s with adts, registry, scope } = site.visible s := by
    rw [Site.visible, Site.visible, hnext]
  have hafter : Wellformed site ledger { s with adts, registry, scope } := { hs with
    unifier := hs.unifier.extend (hdeclares.lexicon (subset_refl _))
    scope := by
      rw [hvisible]
      exact hscope
    start := hnext ▸ hs.start
    hidden := hnext ▸ hs.hidden
    settled_lt := hnext ▸ hs.settled_lt
    levels := fun depth hle => hs.levels depth (Scope.depth_eq hbelow ▸ hle)
    impls := fun p hp => (hs.impls p hp).extend (hdeclares.written (subset_refl _))
    evidence := hevidence
    traits := htraits
    adts := hadts
    disjoint := hdisjoint
    names := hnames
    functions := fun r hr ty hty =>
      (hs.functions r hr ty hty).extend (hdeclares.lexicon (subset_refl _))
    result := fun ty hty => ⟨(hs.result ty hty).1.extend (hdeclares.written (subset_refl _)),
      (hs.result ty hty).2⟩ }
  exact ⟨.refl site s ledger, hs, hafter,
    ⟨hdeclares, le_refl _, .refl _, le_of_eq hnext.symm, hbelow, rfl⟩⟩

/-- The evidence from before, after a change of what is declared. -/
theorem Wellformed.evidence_declare (hs : Wellformed site ledger s)
    (hdeclares : Declares s { s with adts, registry }) (he : s.registry.lookup con bound = some e) :
    Registered (site.visible s) ledger { s with adts, registry } con bound e :=
  (hs.evidence con bound e he).mono hdeclares (le_refl _) rfl (subset_refl _) (fun _ _ => rfl)
    (subset_refl _) rfl fun _ _ h => h

theorem Wellformed.register (hs : Wellformed site ledger s) {con : Con} {bound : Trait}
    {e : Evidence} (hfree : s.registry.lookup con bound = none)
    (hnew : Registered (site.visible s) ledger s con bound e) :
    Advance site ledger s ledger { s with registry := s.registry.register con bound e } := by
  have hdeclares : Declares s { s with registry := s.registry.register con bound e } :=
    ⟨fun _ _ h => h, .refl _, Registry.keeps_register hfree⟩
  refine hs.declare hdeclares ?_ (entries_declare hs.scope hdeclares (le_refl _)) rfl rfl ?_ ?_
    hs.disjoint hs.names
  · intro con' bound' e' he
    rcases Registry.lookup_register he with ⟨rfl, rfl, rfl⟩ | he
    · exact hnew.mono hdeclares (le_refl _) rfl (subset_refl _) (fun _ _ => rfl) (subset_refl _) rfl
        fun _ _ h => h
    · exact hs.evidence_declare hdeclares he
  · exact fun name decl hdecl => (hs.traits name decl hdecl).extend
      (hdeclares.written (subset_refl _))
  · exact fun name adt hadt => (hs.adts name adt hadt).extend (hdeclares.written (subset_refl _))

theorem Yields.register {span : Span} {bound : Trait} {e : Evidence} {a : Unit}
    (h : Yields (Checker.provide span ty bound e) s a s') : ∃ con, ty.con? = some con ∧
      s.registry.lookup con bound = none ∧
        s' = { s with registry := s.registry.register con bound e } := by
  obtain ⟨registry, hprovide, rfl⟩ := h.provide
  cases ty with
  | var v => cases hprovide
  | app head args =>
    rw [Registry.provide] at hprovide
    split at hprovide
    · cases hprovide
    · rename_i hnone
      cases hprovide
      exact ⟨head.con, rfl, Option.not_isSome_iff_eq_none.mp hnone, rfl⟩

theorem Wellformed.provide (hs : Wellformed site ledger s) (span : Span) {bound : Trait}
    {e : Evidence} (hnew : ∀ con, ty.con? = some con → Registered (site.visible s) ledger s con bound e) :
    Leads site ledger s (provide span ty bound e) fun ledger' s' _ => ledger' = ledger ∧
      ∃ registry, s' = { s with registry } := by
  refine ⟨?_, safe_of (ends_provide fun _ _ _ => trivial)⟩
  intro r s' hrun
  obtain ⟨con, hcon, hfree, rfl⟩ := hrun.register
  exact ⟨ledger, hs.register hfree (hnew con hcon), rfl, _, rfl⟩

/-! Returns. -/

/-- The bindings made so far are one way to read types. -/
def View.of (ledger : Ledger) (s : Checker) : View :=
  ⟨s.unifier.resolve, s.adts, s.registry, s.scope.nextBinding, ledger.settled, ledger.impls,
    fun id => (ledger.created id).map (·.mapTy s.unifier.resolve)⟩

theorem Wellformed.sees (hs : Wellformed site ledger s) : (View.of ledger s).Sees ledger s :=
  ⟨Unifier.reads_comp_resolve hs.unifier.valid Ty.hom_id, .refl _, fun _ _ h => h, hs.disjoint,
    le_refl _, fun _ _ => rfl, subset_refl _, fun _ _ h => congrArg (Option.map _) h⟩

theorem Same.resolve_eq (h : Same ledger s a b) (hs : Wellformed site ledger s) :
    s.unifier.resolve a = s.unifier.resolve b :=
  h _ hs.sees

theorem Wellformed.resolve_closed (hs : Wellformed site ledger s) (ht : Closed ledger s t) :
    s.unifier.resolve t = t :=
  (Unifier.hom_resolve hs.unifier.valid).closed ht

/-- Unifying with what was there before, if anything. -/
theorem Wellformed.join (hs : Wellformed site ledger s) (span : Span) {before : Option Ty}
    (hbefore : ∀ b, before = some b → Known ledger s b) (ht : Known ledger s t) :
    Leads site ledger s (join span before t) fun ledger' s' c => Known ledger' s' c ∧
      Same ledger' s' t c ∧ ∀ b, before = some b → Same ledger' s' b c := by
  cases before with
  | none => exact .pure hs ⟨ht, .refl _ _ _, by nofun⟩
  | some b =>
    refine (hs.unify span (hbefore b rfl) ht).imp ?_
    rintro ledger1 s1 c _ ⟨hc, hb, ht⟩
    exact ⟨hc, ht, by rintro b ⟨⟩; exact hb⟩

/-- The result type so far. -/
theorem Wellformed.known_return (hs : Wellformed site ledger s)
    (hty : s.functions.head?.bind (·.ret) = some ty) : Known ledger s ty := by
  cases hfunctions : s.functions with
  | nil =>
    rw [hfunctions] at hty
    cases hty
  | cons r rest =>
    rw [hfunctions] at hty
    exact hs.functions r (hfunctions ▸ List.mem_cons_self) ty hty

theorem Leads.currentReturn {f : Option Ty → CheckM β} {R : Ledger → Checker → β → Prop}
    (h : Leads site ledger s (f (s.functions.head?.bind (·.ret))) R) :
    Leads site ledger s (currentReturn >>= f) R := by
  rw [Checker.currentReturn, bind_assoc]
  exact .get h

theorem Leads.requireFunction {span : Span} {f : Unit → CheckM β} {R : Ledger → Checker → β → Prop}
    (h : s.functions ≠ [] → Leads site ledger s (f ()) R) :
    Leads site ledger s (requireFunction span >>= f) R := by
  rw [Checker.requireFunction, bind_assoc]
  exact .get (.ensure h)

theorem Leads.requireTopLevel {what : String} {span : Span} {f : Unit → CheckM β}
    {R : Ledger → Checker → β → Prop} (h : s.scope.below = [] → Leads site ledger s (f ()) R) :
    Leads site ledger s (requireTopLevel what span >>= f) R := by
  refine .still (safe_of ends_requireTopLevel) ?_
  intro r s' hrun
  obtain ⟨hroot, rfl⟩ := hrun.requireTopLevel
  exact ⟨rfl, h hroot⟩

/-- A return of a value delivers the result type of the function, where that
was written. -/
theorem Wellformed.recordReturn (hs : Wellformed site ledger s) (hreturns : site.returns)
    (ht : Known ledger s t) (span : Span) :
    Leads site ledger s (recordReturn t span) fun ledger' s' _ =>
      ∀ ty, site.result = some ty → Same ledger' s' t ty := by
  refine .requireFunction fun _ => .currentReturn ?_
  refine .bind (hs.join span (fun _ hb => hs.known_return hb) ht) ?_
  rintro ledger1 s1 c hadv ⟨hc, htc, hbefore⟩
  refine .resolve ?_
  have hs1 := hadv.after
  have hresult : ∀ ty, site.result = some ty → Closed ledger1 s1 ty ∧ Same ledger1 s1 t ty ∧
      s1.unifier.resolve c = ty := by
    intro ty hty
    obtain ⟨hclosed, r, rest, hfunctions, hret⟩ := hs.result ty hty
    have hsame := hbefore ty (by rw [hfunctions]; exact hret)
    have hclosed1 := hadv.closed hclosed
    refine ⟨hclosed1, htc.trans hsame.symm, ?_⟩
    rw [← hsame.resolve_eq hs1, hs1.resolve_closed hclosed1]
  refine .update ⟨.refl site s1 ledger1, hs1, { hs1 with
    scope := entries_declare hs1.scope (.of_eq rfl rfl) (le_refl _)
    evidence := fun con bound e he => (hs1.evidence con bound e he).mono (.of_eq rfl rfl)
      (le_refl _) rfl (subset_refl _) (fun _ _ => rfl) (subset_refl _) rfl fun _ _ h => h
    functions := ?_
    result := fun ty hty => ⟨(hresult ty hty).1, _, _, rfl, congrArg some (hresult ty hty).2.2⟩
    returned := fun _ _ _ => hreturns },
    ⟨.of_eq rfl rfl, le_refl _, .refl _, le_refl _, rfl, rfl⟩⟩ ?_
  · intro r hr ty hty
    rcases List.mem_cons.mp hr with rfl | hr
    · cases hty
      exact hs1.known_resolve hc
    · exact hs1.functions r (List.mem_of_mem_tail hr) ty hty
  · intro ty hty
    refine Carries.same ?_ (hresult ty hty).2.1
    exact .of_eq rfl rfl rfl rfl

/-! Written types. -/

section Written

open Surface (TypeExpr)

variable {tracers : Set Nat} {D : Set TyVar} {scope : Scope}

/-- The type names stand for types over the given variables and tracers, unless
they take type arguments. -/
def TypesOver (s : Checker) (tracers : Set Nat) (D : Set TyVar) (scope : Scope) : Prop :=
  ∀ name ty, scope.type? name = some ty → s.adts.arity name ty = 0 →
    ty.Formed (s.written tracers) D

theorem TypesOver.mono {D' : Set TyVar} (h : TypesOver s tracers D scope) (hD : D ⊆ D') :
    TypesOver s tracers D' scope :=
  fun name ty hty harity => (h name ty hty harity).mono hD

theorem arity_eq {name : String} (h : s.adts.arity name ty ≠ 0) :
    s.arities name = some (s.adts.arity name ty) := by
  cases hfind : Assoc.find? s.adts name with
  | none =>
    rw [AdtTable.arity, hfind] at h
    exact absurd rfl h
  | some adt =>
    by_cases hnamed : ty.isNamed name = true
    · simp only [arities, AdtTable.arity, hfind, hnamed, if_true]
    · simp [AdtTable.arity, hfind, hnamed] at h

mutual

theorem formed_toTy (hscope : TypesOver s tracers D scope) : ∀ {written : TypeExpr} {ty : Ty},
    written.toTy scope s.adts = .ok ty → ty.Formed (s.written tracers) D
  | .ident name args _, ty, h => by
    rw [TypeExpr.toTy] at h
    split at h
    · cases h
    · rename_i found hfound
      dsimp only at h
      split at h
      · cases h
      · rename_i hlength
        split at h
        · rename_i hzero
          cases h
          exact hscope name ty hfound hzero
        · rename_i hne
          obtain ⟨tys, htys, rfl⟩ := Except.map_eq_ok h
          refine Ty.formed_named ?_ (formed_toTys hscope htys)
          exact (arity_eq hne).trans
            (by rw [← (forall₂_of_toTys htys).length_eq, not_not.mp hlength])
  | .tuple elems _, ty, h => by
    rw [TypeExpr.toTy] at h
    obtain ⟨tys, htys, rfl⟩ := Except.map_eq_ok h
    exact Ty.formed_tuple (formed_toTys hscope htys)
  | .func params ret _, ty, h => by
    rw [TypeExpr.toTy] at h
    obtain ⟨tys, hparams, h⟩ := Except.bind_eq_ok h
    obtain ⟨ty', hret, h⟩ := Except.bind_eq_ok h
    cases h
    exact Ty.formed_func (formed_toTys hscope hparams) (formed_toTy hscope hret)
  | .array elem size _, ty, h => by
    rw [TypeExpr.toTy] at h
    obtain ⟨ty', hty, rfl⟩ := Except.map_eq_ok h
    exact Ty.formed_array (formed_toTy hscope hty) size

theorem formed_toTys (hscope : TypesOver s tracers D scope) : ∀ {written : List TypeExpr} {tys : List Ty},
    TypeExpr.toTys scope s.adts written = .ok tys → ∀ ty ∈ tys, ty.Formed (s.written tracers) D
  | [], _, h => by
    cases h
    simp
  | t :: rest, tys, h => by
    rw [TypeExpr.toTys] at h
    obtain ⟨ty, hty, h⟩ := Except.bind_eq_ok h
    obtain ⟨tys', htys, h⟩ := Except.bind_eq_ok h
    cases h
    exact List.forall_mem_cons.mpr ⟨formed_toTy hscope hty, formed_toTys hscope htys⟩

end

theorem Wellformed.typesOver (hs : Wellformed site ledger s) :
    TypesOver s ledger.tracers ∅ s.scope := by
  intro name ty hty harity
  obtain ⟨depth, _, hformed⟩ := hs.scope.type? hty
  refine (hformed.extend ((Declares.refl s).written (ledger.level_subset depth))).mono ?_
  exact fun _ hne => absurd harity hne

/-- The types of the outermost frame have no tracers. -/
theorem Wellformed.typesOver_root (hs : Wellformed site ledger s) (hroot : s.scope.below = []) :
    TypesOver s ∅ ∅ s.scope := by
  intro name ty hty harity
  obtain ⟨depth, hle, hformed⟩ := hs.scope.type? hty
  have hzero : depth = 0 := by
    rw [Scope.depth, hroot] at hle
    exact Nat.le_zero.mp hle
  rw [hzero] at hformed
  dsimp only [entryRules] at hformed
  rw [hs.root] at hformed
  exact hformed.mono fun _ hne => absurd harity hne

theorem Wellformed.typeFor (hs : Wellformed site ledger s) (written : TypeExpr) :
    Leads site ledger s (typeFor written) fun ledger' s' ty => Closed ledger' s' ty ∧
      ledger' = ledger ∧ s' = s := by
  refine ⟨?_, safe_of ends_typeFor⟩
  intro ty s' hrun
  obtain ⟨hty, rfl⟩ := hrun.typeFor
  exact ⟨ledger, hs.stay, formed_toTy hs.typesOver hty, rfl, rfl⟩

theorem Wellformed.typeFor? (hs : Wellformed site ledger s) (written : Option TypeExpr) :
    Leads site ledger s (typeFor? written) fun ledger' s' ty? =>
      (∀ ty, ty? = some ty → Closed ledger' s' ty) ∧ (ty?.isSome = written.isSome) ∧
        ledger' = ledger ∧ s' = s := by
  cases written with
  | none => exact .pure hs ⟨by nofun, rfl, rfl, rfl⟩
  | some written =>
    refine .bind (hs.typeFor written) ?_
    rintro ledger1 s1 ty hadv ⟨hty, rfl, rfl⟩
    exact .pure hadv.after ⟨by rintro ty ⟨⟩; exact hty, rfl, rfl, rfl⟩

end Written

end Checker

end TraitCheck
