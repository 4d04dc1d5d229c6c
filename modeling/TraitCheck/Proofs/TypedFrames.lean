import TraitCheck.Proofs.TypedSteps

/-!
Frames, functions, matches and units of inference. Each is entered from a state
in order and left again for one; what was said inside carries over.
-/

namespace TraitCheck.Checker

variable {α β : Type} {site : Site} {ledger ledger' : Ledger} {s s' : Checker} {a b c t ty : Ty}

/-! Frames. -/

variable {frame : Frame} {scope : Scope}

/-- What is used in a new frame is used in the one below. -/
theorem Registered.enter {visible : Set BindingId} {con : Con} {bound : Trait} {e : Evidence}
    (h : Registered visible ledger s con bound e) (frame : Frame)
    (hlevel : ledger.tracers ⊆ ledger.level s.scope.depth) :
    Registered visible ledger { s with scope := s.scope.enter frame } con bound e := by
  refine h.rename (.of_eq rfl rfl) (le_refl _) rfl (subset_refl _) (fun _ _ => rfl)
    (subset_refl _) ?_
  intro name id he depth hle hcon
  rcases Nat.lt_or_ge s.scope.depth depth with hlt | hge
  · have hwithin : ConWithin (ledger.level s.scope.depth) con :=
      fun tracer n heq => hlevel (ledger.level_subset depth (hcon tracer n heq))
    exact ((h.named name id he _ (le_refl _) hwithin).enter frame).mono (le_of_lt hlt)
  · exact (h.named name id he depth hge hcon).enter frame

theorem Wellformed.enter (hs : Wellformed site ledger s) {frame : Frame}
    (hframe : frame.Every (entryRules ledger (site.visible s) s) (s.scope.depth + 1)) :
    Wellformed site ledger { s with scope := s.scope.enter frame } := { hs with
  scope := entries_declare (hs.scope.enter hframe) (.of_eq rfl rfl) (le_refl _)
  levels := fun depth hle => hs.levels depth (le_trans (Nat.le_succ _) hle)
  evidence := fun con bound e he =>
    (hs.evidence con bound e he).enter frame (hs.levels _ (le_refl _))
  names := fun name hname => by
    rw [Scope.root_enter]
    exact hs.names name hname }

/-- The frames below are those from before. -/
theorem Advance.frames_pop {frame : Frame} {scope : Scope}
    (h : Advance site ledger { s with scope := s.scope.enter frame } ledger' s')
    (hsteady : Scope.Steady s'.scope.pop scope) :
    scope.frames.map Frame.bare = s.scope.frames.map Frame.bare := by
  have hbelow : s'.scope.below.map Frame.bare = s.scope.frames.map Frame.bare := h.later.below
  have hne : s'.scope.below ≠ [] := by
    intro hnil
    rw [hnil] at hbelow
    cases hbelow
  rw [hsteady.frames, Scope.frames_pop hne, hbelow]

/-- A name that is bound below the innermost frame is still bound after this is
closed. -/
theorem Advance.names_pop
    (h : Advance site ledger { s with scope := s.scope.enter frame } ledger' s')
    (hsteady : Scope.Steady s'.scope.pop scope) {name : String} {depth : Nat}
    (hdepth : depth ≤ s.scope.depth) (hname : s'.scope.Names name depth) :
    scope.Names name depth := by
  have hinner : s'.scope.depth = s.scope.depth + 1 := Scope.depth_eq h.later.below
  refine (hname.pop ?_).congr hsteady.frames
  rw [hinner]
  exact Nat.lt_succ_of_le hdepth

/-- Back to the frames from before, but for what was captured. -/
theorem Advance.leave (hs : Wellformed site ledger s)
    (h : Advance site ledger { s with scope := s.scope.enter frame } ledger' s')
    (hscope : scope.Every (entryRules ledger' (site.visible s') s'))
    (hsteady : Scope.Steady s'.scope.pop scope) :
    Advance site ledger s ledger' { s' with scope } := by
  have hframes := h.frames_pop hsteady
  have hbelow := (List.cons.inj hframes).2
  have hdepth : scope.depth = s.scope.depth := Scope.depth_eq hbelow
  have hinner : s'.scope.depth = s.scope.depth + 1 := Scope.depth_eq h.later.below
  have hnext : scope.nextBinding = s'.scope.nextBinding :=
    hsteady.next.trans (Scope.nextBinding_pop _)
  have htypes : scope.root.types = s'.scope.root.types :=
    hsteady.types_root.trans (congrArg Frame.types (Scope.root_pop _))
  have hvisible : site.visible { s' with scope } = site.visible s' := by
    rw [Site.visible, Site.visible, hnext]
  have hafter : Wellformed site ledger' { s' with scope } := { h.after with
    scope := by
      rw [hvisible]
      exact entries_declare hscope (.of_eq rfl rfl) (le_refl _)
    start := hnext ▸ h.after.start
    hidden := hnext ▸ h.after.hidden
    settled_lt := hnext ▸ h.after.settled_lt
    levels := fun depth hle => by
      rw [h.tracers, h.level]
      exact hs.levels depth (hdepth ▸ hle)
    evidence := fun con bound e he => by
      rw [hvisible]
      have hold := h.after.evidence con bound e he
      refine hold.rename (.of_eq rfl rfl) (le_refl _) rfl (subset_refl _) (fun _ _ => rfl)
        (subset_refl _) ?_
      intro name id heq depth hle hcon
      have hle' : depth ≤ s.scope.depth := hdepth ▸ hle
      exact h.names_pop hsteady hle' (hold.named name id heq depth (by omega) hcon)
    names := fun name hname => htypes ▸ h.after.names name hname }
  refine ⟨⟨h.draws, h.settled, h.level, h.dicts, h.impls, h.impls_eq, h.created, h.created_new⟩,
    hs, hafter, ?_⟩
  exact {
    toDeclares := ⟨h.later.arities, h.later.adts, h.later.registry⟩
    next := h.later.next
    subst := h.later.subst
    binding := le_trans h.later.binding (le_of_eq hnext.symm)
    below := hbelow
    functions := h.later.functions }

namespace Leads

variable {body : CheckM α} {P Q : Ledger → Checker → α → Prop}

theorem inScope (hs : Wellformed site ledger s)
    (hbody : Wellformed site ledger { s with scope := s.scope.push } →
      Leads site ledger { s with scope := s.scope.push } body P) (hP : Lasting P) :
    Leads site ledger s (inScope body) P := by
  have hbody := hbody (hs.enter Frame.every_empty)
  refine ⟨?_, .inScope hbody.safe⟩
  intro r s' hrun
  obtain ⟨s1, hinner, rfl⟩ := hrun.inScope
  obtain ⟨ledger1, hadv, hr⟩ := hbody.ok r s1 hinner
  refine ⟨ledger1, hadv.leave hs hadv.after.scope.pop (.refl _), hP ?_ hr⟩
  exact .of_eq rfl rfl rfl (Scope.nextBinding_pop _)

/-- The frames are the same afterwards, and what was captured is in order. -/
theorem inFunctionFrame (hs : Wellformed site ledger s)
    (hbody : Wellformed site ledger { s with scope := s.scope.pushFunction } →
      Leads site ledger { s with scope := s.scope.pushFunction } body P) (hP : Lasting P) :
    Leads site ledger s (inFunctionFrame body) fun ledger' s' r => P ledger' s' r.1 ∧
      (∀ up ∈ r.2, (entryRules ledger' (site.visible s') s').upvalue up) ∧
        s'.scope.frames.map Frame.bare = s.scope.frames.map Frame.bare := by
  have hbody := hbody (hs.enter Frame.every_function)
  refine ⟨?_, .inFunctionFrame hbody.safe⟩
  rintro ⟨r, ups⟩ s' hrun
  obtain ⟨s1, hinner, rfl, rfl⟩ := hrun.inFunctionFrame
  obtain ⟨ledger1, hadv, hr⟩ := hbody.ok r s1 hinner
  obtain ⟨hups, hscope⟩ := hadv.after.scope.popFunction
  have hsteady := Scope.steady_popFunction s1.scope
  have hnext := hsteady.next.trans (Scope.nextBinding_pop _)
  refine ⟨ledger1, hadv.leave hs hscope hsteady, hP ?_ hr, ?_, hadv.frames_pop hsteady⟩
  · exact .of_eq rfl rfl rfl hnext
  · intro up hup
    obtain ⟨⟨⟨hlt, hid⟩, hty⟩, _⟩ := hups up hup
    exact ⟨⟨hnext.symm ▸ hlt, hid⟩, hty⟩

end Leads

/-! Functions and units. -/

variable {result declared : Option Ty} {returns : Prop}

/-- The site inside of a function, with the result type as far as it was
written. -/
def Site.within (site : Site) (result : Option Ty) (returns : Prop) : Site :=
  { site with result, returns }

theorem Wellformed.enterFunction (hs : Wellformed site ledger s)
    (hdeclared : ∀ ty, declared = some ty → Known ledger s ty)
    (hresult : ∀ ty, result = some ty → Closed ledger s ty ∧ declared = some ty) (returns : Prop) :
    Wellformed (site.within result returns) ledger
      { s with functions := { ret := declared } :: s.functions } := { hs with
  scope := entries_declare hs.scope (.of_eq rfl rfl) (le_refl _)
  evidence := fun con bound e he => (hs.evidence con bound e he).mono (.of_eq rfl rfl) (le_refl _)
    rfl (subset_refl _) (fun _ _ => rfl) (subset_refl _) rfl fun _ _ h => h
  functions := by
    intro r hr ty hty
    rcases List.mem_cons.mp hr with rfl | hr
    · exact hdeclared ty hty
    · exact hs.functions r hr ty hty
  result := fun ty hty => ⟨(hresult ty hty).1, _, _, rfl, (hresult ty hty).2⟩
  returned := by
    rintro r ⟨⟩ ⟨⟩ }

theorem Advance.leaveFunction (hs : Wellformed site ledger s)
    (h : Advance (site.within result returns) ledger
      { s with functions := { ret := declared } :: s.functions } ledger' s') :
    Advance site ledger s ledger' { s' with functions := s'.functions.tail } := by
  have htail : s'.functions.tail = s.functions := h.later.functions
  have hafter : Wellformed site ledger' { s' with functions := s'.functions.tail } := { h.after with
    scope := entries_declare h.after.scope (.of_eq rfl rfl) (le_refl _)
    evidence := fun con bound e he => (h.after.evidence con bound e he).mono (.of_eq rfl rfl)
      (le_refl _) rfl (subset_refl _) (fun _ _ => rfl) (subset_refl _) rfl fun _ _ h => h
    functions := by
      rw [htail]
      exact fun r hr ty hty => h.known (hs.functions r hr ty hty)
    result := fun ty hty => ⟨h.closed (hs.result ty hty).1, htail ▸ (hs.result ty hty).2⟩
    returned := by
      rw [htail]
      exact hs.returned }
  refine ⟨⟨h.draws, h.settled, h.level, h.dicts, h.impls, h.impls_eq, h.created, h.created_new⟩,
    hs, hafter, ?_⟩
  exact ⟨⟨h.later.arities, h.later.adts, h.later.registry⟩, h.later.next, h.later.subst,
    h.later.binding, h.later.below, congrArg List.tail htail⟩

/-- A step at one site seen from another that asks for less. -/
theorem Leads.relax {site' : Site} {x : CheckM α} {P : Ledger → Checker → α → Prop}
    (hsite : ∀ {ledger s}, Wellformed site ledger s → Wellformed site' ledger s)
    (himpls : site.impls → site'.impls) (h : Leads site ledger s x P) :
    Leads site' ledger s x fun ledger' s' r => P ledger' s' r ∧ Wellformed site ledger' s' := by
  refine ⟨?_, h.safe⟩
  intro r s' hrun
  obtain ⟨ledger', hadv, hr⟩ := h.ok r s' hrun
  refine ⟨ledger', ⟨?_, hsite hadv.before, hsite hadv.after, hadv.later⟩, hr, hadv.after⟩
  exact ⟨hadv.draws, hadv.settled, hadv.level, hadv.dicts, hadv.impls,
    fun hne => hadv.impls_eq fun h => hne (himpls h), hadv.created, hadv.created_new⟩

theorem Leads.inFunction {body : CheckM α} {P : Ledger → Checker → α → Prop}
    (hs : Wellformed site ledger s) {declared result : Option Ty}
    (hdeclared : ∀ ty, declared = some ty → Known ledger s ty)
    (hresult : ∀ ty, result = some ty → Closed ledger s ty ∧ declared = some ty) (returns : Prop)
    (hbody : Wellformed (site.within result returns) ledger
        { s with functions := { ret := declared } :: s.functions } →
      Leads (site.within result True) ledger
        { s with functions := { ret := declared } :: s.functions } body P) (hP : Lasting P) :
    Leads site ledger s (inFunction declared body) fun ledger' s' r =>
      P ledger' s' r ∧ s'.functions = s.functions := by
  have hbody := hbody (hs.enterFunction hdeclared hresult returns)
  refine ⟨?_, .inFunction hbody.safe⟩
  intro r s' hrun
  obtain ⟨s1, hinner, rfl⟩ := hrun.inFunction
  obtain ⟨ledger1, hadv, hr⟩ := hbody.ok r s1 hinner
  refine ⟨ledger1, hadv.leaveFunction hs, hP ?_ hr, hadv.later.functions⟩
  exact .of_eq rfl rfl rfl rfl

/-- The state at the start of a unit. -/
def cleared (s : Checker) : Checker := { s with unifier := { s.unifier with subst := {} } }

/-- The ledger at the start of a unit. -/
def Ledger.cleared (ledger : Ledger) : Ledger := { ledger with created := fun _ => none }

/-- The ledger after a unit, as the types of the unit are read. -/
def Ledger.merge (ledger unit : Ledger) (read : Ty → Ty) : Ledger :=
  { unit with
    created := fun id => ((unit.created id).map (·.mapTy read)).or (ledger.created id) }

/-- Other functions that made tracers. -/
theorem Wellformed.recreate (hs : Wellformed site ledger s) (created : Nat → Option Core.FuncExpr)
    (hcreated : ∀ id func, created id = some func →
      id < s.unifier.next ∧ ∀ f, Introduced site.source id (func.mapTy f))
    (hpending : ∀ id ∈ ledger.tracers, created id = none) :
    Wellformed site { ledger with created } s := { hs with
  scope := entries_mono hs.scope (.refl s) (.refl _ _) (le_refl _) (fun _ _ => subset_refl _)
    (fun _ _ => rfl) (subset_refl _)
  created := hcreated
  pending := hpending
  evidence := fun con bound e he => (hs.evidence con bound e he).mono (.refl s) (le_refl _) rfl
    (subset_refl _) (fun _ _ => rfl) (subset_refl _) rfl fun _ _ h => h }

/-- A unit of inference. -/
theorem Leads.isolated {body : CheckM α} {P Q : Ledger → Checker → α → Prop}
    (hs : Wellformed site ledger s) (hbody : Wellformed site ledger.cleared s.cleared →
      Leads site ledger.cleared s.cleared body P)
    (hPQ : ∀ ledger1 s1 r, Wellformed site ledger1 s1 → P ledger1 s1 r →
      Q (ledger.merge ledger1 s1.unifier.resolve)
        { s1 with unifier := { s1.unifier with subst := s.unifier.subst } } r) :
    Leads site ledger s (isolated body) Q := by
  have hclear : Unifier.Supplied (s.lexicon ledger.tracers) ledger.drawn
      { s.unifier with subst := {} } :=
    (Unifier.supplied_empty (s.lexicon ledger.tracers)).resume hs.unifier
      (Lexicon.Extends.refl _) rfl (Set.empty_subset _) (Nat.zero_le _)
  have hs0 : Wellformed site ledger.cleared s.cleared :=
    (hs.setUnifier (.refl _ _) hclear (le_refl _)).recreate (fun _ => none) (by nofun)
      fun _ _ => rfl
  have hbody := hbody hs0
  refine ⟨?_, .isolated hbody.safe⟩
  intro r s' hrun
  obtain ⟨s1, hinner, rfl⟩ := hrun.isolated
  obtain ⟨ledger1, hadv, hr⟩ := hbody.ok r s1 hinner
  have htracers : ledger1.tracers = ledger.tracers := hadv.tracers
  have hextends : (s.lexicon ledger.tracers).Extends (s1.lexicon ledger1.tracers) :=
    hadv.later.toDeclares.lexicon (subset_of_eq htracers.symm)
  have hresume := hs.unifier.resume hadv.after.unifier hextends rfl hadv.draws.subset
    hadv.later.next
  have hnew : ∀ id func, ledger1.created id = some func → s.unifier.next ≤ id :=
    fun id func hid => (hadv.created_new id func hid).resolve_left (by nofun)
  have hmerge : ∀ id func, (ledger.merge ledger1 s1.unifier.resolve).created id = some func →
      (∃ func1, ledger1.created id = some func1 ∧ func1.mapTy s1.unifier.resolve = func) ∨
        ledger.created id = some func := by
    intro id func hid
    rcases Option.or_eq_some_iff.mp hid with hid | ⟨_, hid⟩
    · exact .inl (Option.map_eq_some_iff.mp hid)
    · exact .inr hid
  have hcreated : ∀ id func, (ledger.merge ledger1 s1.unifier.resolve).created id = some func →
      id < s1.unifier.next ∧ ∀ f, Introduced site.source id (func.mapTy f) := by
    intro id func hid
    rcases hmerge id func hid with ⟨func1, hid1, rfl⟩ | hold
    · obtain ⟨hlt, hintro⟩ := hadv.after.created id func1 hid1
      refine ⟨hlt, fun _ => ?_⟩
      rw [Core.FuncExpr.mapTy_mapTy]
      exact hintro _
    · obtain ⟨hlt, hintro⟩ := hs.created id func hold
      exact ⟨lt_of_lt_of_le hlt hadv.later.next, hintro⟩
  have hpending : ∀ id ∈ ledger1.tracers,
      (ledger.merge ledger1 s1.unifier.resolve).created id = none := by
    intro id hid
    change ((ledger1.created id).map _).or (ledger.created id) = none
    rw [hadv.after.pending id hid, hs.pending id (htracers ▸ hid)]
    rfl
  have hafter := (hadv.after.setUnifier (.refl _ _) hresume (le_refl _)).recreate _ hcreated
    hpending
  refine ⟨_, ⟨?_, hs, hafter, ?_⟩, hPQ ledger1 s1 r hadv.after hr⟩
  · refine ⟨hadv.draws, hadv.settled, hadv.level, hadv.dicts, hadv.impls, hadv.impls_eq, ?_, ?_⟩
    · intro id func hid
      have hnone : ledger1.created id = none := by
        by_contra hne
        obtain ⟨func1, hid1⟩ := Option.ne_none_iff_exists'.mp hne
        exact absurd (hs.created id func hid).1 (Nat.not_lt.mpr (hnew id func1 hid1))
      change ((ledger1.created id).map _).or (ledger.created id) = some func
      rw [hnone]
      exact hid
    · intro id func hid
      rcases hmerge id func hid with ⟨func1, hid, _⟩ | hid
      · exact .inr (hnew id func1 hid)
      · exact .inl hid
  · exact ⟨⟨hadv.later.arities, hadv.later.adts, hadv.later.registry⟩, hadv.later.next, .refl _,
      hadv.later.binding, hadv.later.below, hadv.later.functions⟩

/-! Scrutinees. -/

/-- The site inside of a match. -/
def Site.hide (site : Site) (id : BindingId) : Site :=
  { site with hidden := insert id site.hidden }

/-- No name refers to a binding that has just been made. -/
theorem Wellformed.hide (hs : Wellformed site ledger s) :
    Wellformed (site.hide s.scope.nextBinding) ledger
      { s with scope := { s.scope with nextBinding := s.scope.nextBinding + 1 } } := by
  have hvisible : site.visible s ⊆ {id | id < s.scope.nextBinding + 1 ∧
      id ∉ insert s.scope.nextBinding site.hidden} := by
    rintro id ⟨hlt, hid⟩
    refine ⟨Nat.lt_succ_of_lt hlt, ?_⟩
    rintro (rfl | hmem)
    · exact Nat.lt_irrefl _ hlt
    · exact hid hmem
  exact { hs with
    scope := entries_mono hs.scope (.of_eq rfl rfl) (.refl _ _) (le_refl _)
      (fun _ _ => subset_refl _) (fun _ _ => rfl) hvisible
    start := Nat.le_succ_of_le hs.start
    hidden := by
      rintro id (rfl | hid)
      · exact Nat.lt_succ_self _
      · exact Nat.lt_succ_of_lt (hs.hidden id hid)
    settled_lt := fun id ty hty => Nat.lt_succ_of_lt (hs.settled_lt id ty hty)
    evidence := fun con bound e he => (hs.evidence con bound e he).mono (.of_eq rfl rfl)
      (le_refl _) rfl (subset_refl _) (fun _ _ => rfl) hvisible rfl fun _ _ h => h }

theorem Wellformed.unhide {id : BindingId} (hs : Wellformed (site.hide id) ledger s) :
    Wellformed site ledger s := by
  have hvisible : (site.hide id).visible s ⊆ site.visible s :=
    fun other hother => ⟨hother.1, fun hmem => hother.2 (.inr hmem)⟩
  exact { hs with
    scope := entries_mono hs.scope (.refl s) (.refl _ _) (le_refl _) (fun _ _ => subset_refl _)
      (fun _ _ => rfl) hvisible
    hidden := fun other hother => hs.hidden other (.inr hother)
    evidence := fun con bound e he => (hs.evidence con bound e he).mono (.refl s) (le_refl _) rfl
      (subset_refl _) (fun _ _ => rfl) hvisible rfl fun _ _ h => h }

theorem Leads.unhide {x : CheckM α} {P : Ledger → Checker → α → Prop} {id : BindingId}
    (h : Leads (site.hide id) ledger s x P) : Leads site ledger s x P :=
  (h.relax (fun hs => hs.unhide) fun h => h).imp fun _ _ _ _ hr => hr.1

/-! A new start. -/

/-- The site for what is checked from the given binding on, with or without
settled types that may still be bound. -/
def Site.restart (site : Site) (loose : Prop) (start : BindingId) : Site :=
  { site with loose, start }

/-- So far no binding is settled there. -/
theorem Wellformed.restart (hs : Wellformed site ledger s) (loose : Prop) :
    Wellformed (site.restart loose s.scope.nextBinding) ledger s := { hs with
  start := le_refl _
  rigid := fun _ id ty hid hty => absurd (hs.settled_lt id ty hty) (Nat.not_lt.mpr hid) }

theorem Advance.resume {loose : Prop} (hs : Wellformed site ledger s) (hloose : loose → site.loose)
    (h : Advance (site.restart loose s.scope.nextBinding) ledger s ledger' s') :
    Advance site ledger s ledger' s' := by
  have hrigid : ¬site.loose → ∀ id ty, site.start ≤ id → ledger'.settled id = some ty →
      ∀ v ∈ ty.vars, v.id < s'.unifier.next ∧ ∀ w ∈ ledger'.drawn, w.id ≠ v.id := by
    intro hsite id ty hid hty v hv
    rcases Nat.lt_or_ge id s.scope.nextBinding with hlt | hge
    · rw [h.settled id hlt] at hty
      obtain ⟨hnext, hne⟩ := hs.rigid hsite id ty hid hty v hv
      refine ⟨lt_of_lt_of_le hnext h.later.next, fun w hw => ?_⟩
      rcases h.draws.new w hw with hw | hw
      · exact hne w hw
      · exact (Nat.ne_of_lt (lt_of_lt_of_le hnext hw)).symm
    · exact h.after.rigid (fun hl => hsite (hloose hl)) id ty hge hty v hv
  have hafter : Wellformed site ledger' s' := { h.after with
    start := le_trans hs.start h.later.binding
    rigid := hrigid }
  exact ⟨⟨h.draws, h.settled, h.level, h.dicts, h.impls, h.impls_eq, h.created, h.created_new⟩,
    hs, hafter, h.later⟩

theorem Leads.resume {x : CheckM α} {P : Ledger → Checker → α → Prop} {loose : Prop}
    (hs : Wellformed site ledger s) (hloose : loose → site.loose)
    (h : Leads (site.restart loose s.scope.nextBinding) ledger s x P) :
    Leads site ledger s x P := by
  refine ⟨?_, h.safe⟩
  intro r s' hrun
  obtain ⟨ledger', hadv, hr⟩ := h.ok r s' hrun
  exact ⟨ledger', hadv.resume hs hloose, hr⟩

end TraitCheck.Checker
