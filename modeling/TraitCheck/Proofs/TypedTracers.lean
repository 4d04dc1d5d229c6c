import TraitCheck.Proofs.TypedDeclarations

/-!
Type parameters inside of a declared function. Each is a tracer there, with a
dictionary parameter for each of its bounds. Both are in use from where the
function is entered to where it is left: afterwards no entry of the scope and no
evidence that is asked for mentions them, and the function that made them is on
record.
-/

namespace TraitCheck

variable {D : Set TyVar} {t : Ty} {L : Lexicon}

/-- A type without parameters is known wherever its constructor is. -/
theorem Ty.Formed.of_con {L' : Lexicon} (h : t.Formed L D)
    (hnames : ∀ name count, L.arity name = some count → L'.arity name = some count)
    (hparams : t.params = [])
    (hcon : ∀ id name, t.con? = some (.tracer id name) → id ∈ L'.tracers) : t.Formed L' D := by
  cases h with
  | var hv => exact .var hv
  | @app head args hadmits _ _ =>
    obtain ⟨con, size, bounds⟩ := head
    have hlength := congrArg List.length hparams
    rw [Ty.params, List.length_take, List.length_nil] at hlength
    dsimp only at hlength
    have hleaf : bounds = [] → Head.Admits L' ⟨con, size, bounds⟩ args.length →
        (Ty.app ⟨con, size, bounds⟩ args).Formed L' D := by
      rintro rfl hadmits'
      obtain rfl : args = [] := List.eq_nil_of_length_eq_zero (by simpa using hlength)
      exact .app hadmits' (by simp) (by simp [Ty.obligations])
    cases con with
    | named name => exact hleaf hadmits.2.1 ⟨hadmits.1, hadmits.2.1, hnames name _ hadmits.2.2⟩
    | tuple arity => exact hleaf hadmits.2.1 hadmits
    | array => exact hleaf hadmits.1 hadmits
    | tracer id name =>
      exact hleaf hadmits.2.1 ⟨hadmits.1, hadmits.2.1, hadmits.2.2.1, hcon id name rfl⟩
    | func arity =>
      have hcount := hadmits.2
      dsimp only at hcount
      omega

theorem Ty.Formed.tracer_mem {id : Nat} {name : String} (h : t.Formed L D)
    (hcon : t.con? = some (.tracer id name)) : id ∈ L.tracers := by
  cases t with
  | var v => cases hcon
  | app head args =>
    obtain ⟨con, size, bounds⟩ := head
    cases hcon
    exact h.admits.2.2.2

theorem dictionaryType_inj {bound bound' : Trait} {t' : Ty}
    (h : dictionaryType bound t = dictionaryType bound' t') : bound = bound' ∧ t = t' := by
  injection h with hhead hargs
  injection hhead with hcon
  injection hcon with hname
  exact ⟨hname, (List.cons.inj hargs).1⟩

namespace Checker

variable {site : Site} {ledger inner : Ledger} {s s' : Checker}

/-! The dictionary parameters of type parameters. -/

variable {ids : List Nat} {params : List (String × List Trait)}

theorem dictionaryTypes_cons (p : String × List Trait) (params : List (String × List Trait))
    (id : Nat) (ids : List Nat) : dictionaryTypes (p :: params) (id :: ids) =
      p.2.map (fun bound => dictionaryType bound (.tracer id p.1)) ++ dictionaryTypes params ids := by
  rw [dictionaryTypes, dictionaryTypes, List.zip_cons_cons, List.flatMap_cons]

theorem length_dictionaryTypes (h : ids.length = params.length) :
    (dictionaryTypes params ids).length = (params.flatMap (·.2)).length := by
  induction params generalizing ids with
  | nil => rfl
  | cons p params ih =>
    cases ids with
    | nil => cases h
    | cons id ids =>
      rw [dictionaryTypes_cons, List.length_append, List.length_map, ih (Nat.succ.inj h),
        List.flatMap_cons, List.length_append]

theorem mem_dictionaryTypes {next : Nat} {ty : Ty}
    (h : ty ∈ dictionaryTypes params (List.range' next params.length)) : ∃ k p bound,
      params[k]? = some p ∧ bound ∈ p.2 ∧ ty = dictionaryType bound (.tracer (next + k) p.1) := by
  obtain ⟨⟨p, id⟩, hmem, hty⟩ := List.mem_flatMap.mp h
  obtain ⟨bound, hbound, rfl⟩ := List.mem_map.mp hty
  obtain ⟨k, hk⟩ := List.mem_iff_getElem?.mp hmem
  obtain ⟨hp, hid⟩ := List.getElem?_zip_eq_some.mp hk
  obtain ⟨hlt, rfl⟩ := List.getElem?_eq_some_iff.mp hid
  rw [List.getElem_range', Nat.one_mul]
  exact ⟨k, p, bound, hp, hbound, rfl⟩

/-- The tracers of a function that is entered, one for each type parameter. -/
def ownTracers (s : Checker) (params : List (String × List Trait)) : List Nat :=
  List.range' s.unifier.next params.length

/-- The dictionary parameters of a function that is entered, with their types. -/
def ownDicts (s : Checker) (params : List (String × List Trait)) : List (BindingId × Ty) :=
  let types := dictionaryTypes params (ownTracers s params)
  (List.range' s.scope.nextBinding types.length).zip types

theorem mem_ownTracers {id : Nat} :
    id ∈ ownTracers s params ↔ s.unifier.next ≤ id ∧ id < s.unifier.next + params.length := by
  rw [ownTracers, List.mem_range'_1]

theorem tracer_of_ownDicts {p : BindingId × Ty} (h : p ∈ ownDicts s params) :
    ∃ k q bound, params[k]? = some q ∧ bound ∈ q.2 ∧
      p.2 = dictionaryType bound (.tracer (s.unifier.next + k) q.1) ∧
        s.unifier.next + k ∈ ownTracers s params := by
  obtain ⟨k, q, bound, hq, hbound, hty⟩ := mem_dictionaryTypes (List.of_mem_zip h).2
  refine ⟨k, q, bound, hq, hbound, hty, mem_ownTracers.mpr ⟨Nat.le_add_right _ _, ?_⟩⟩
  exact Nat.add_lt_add_left (List.getElem?_eq_some_iff.mp hq).1 _

/-- The dictionary parameters of the first type parameter come before the others. -/
theorem ownDicts_cons {p : String × List Trait} (params : List (String × List Trait))
    (hnext : s'.unifier.next = s.unifier.next + 1)
    (hbinding : s'.scope.nextBinding = s.scope.nextBinding + p.2.length) :
    ownDicts s (p :: params) = (List.range' s.scope.nextBinding p.2.length).zip
        (p.2.map fun bound => dictionaryType bound (.tracer s.unifier.next p.1)) ++
          ownDicts s' params := by
  have htypes : dictionaryTypes (p :: params) (ownTracers s (p :: params)) =
      p.2.map (fun bound => dictionaryType bound (.tracer s.unifier.next p.1)) ++
        dictionaryTypes params (ownTracers s' params) := by
    rw [ownTracers, ownTracers, List.length_cons, List.range'_succ, hnext, dictionaryTypes_cons]
  rw [ownDicts, ownDicts, htypes, List.length_append, List.length_map, ← List.range'_append_1,
    List.zip_append (by rw [List.length_range', List.length_map]), hbinding]

/-! Entering a function. -/

/-- The ledger inside of a function with these type parameters. -/
def Ledger.inside (ledger : Ledger) (s : Checker) (params : List (String × List Trait)) : Ledger :=
  { ledger with
    level := fun depth => if depth ≤ s.scope.depth then ledger.level depth
      else ledger.tracers ∪ {id | id ∈ ownTracers s params}
    dicts := ledger.dicts ∪ {p | p ∈ ownDicts s params} }

/-- The site where a function is entered. -/
def Site.opened (site : Site) : Site := { site with opening := True }

section Entering

variable {params : List (String × List Trait)}
variable {depth : Nat}

theorem Ledger.level_inside_of_le (h : depth ≤ s.scope.depth) :
    (ledger.inside s params).level depth = ledger.level depth :=
  if_pos h

theorem Ledger.level_inside_of_lt (h : s.scope.depth < depth) :
    (ledger.inside s params).level depth = ledger.tracers ∪ {id | id ∈ ownTracers s params} :=
  if_neg (Nat.not_le.mpr h)

theorem Ledger.tracers_inside : (ledger.inside s params).tracers =
    ledger.tracers ∪ {id | id ∈ ownTracers s params} := by
  refine Set.Subset.antisymm ?_ ?_
  · rintro id ⟨depth, hid⟩
    rcases Nat.lt_or_ge s.scope.depth depth with hlt | hge
    · rwa [Ledger.level_inside_of_lt hlt] at hid
    · rw [Ledger.level_inside_of_le hge] at hid
      exact .inl ⟨depth, hid⟩
  · intro id hid
    refine ⟨s.scope.depth + 1, ?_⟩
    rwa [Ledger.level_inside_of_lt (Nat.lt_succ_self _)]

theorem Ledger.tracers_subset_inside : ledger.tracers ⊆ (ledger.inside s params).tracers := by
  rw [Ledger.tracers_inside]
  exact Set.subset_union_left

theorem Ledger.level_subset_inside (depth : Nat) :
    ledger.level depth ⊆ (ledger.inside s params).level depth := by
  intro id hid
  rcases Nat.lt_or_ge s.scope.depth depth with hlt | hge
  · rw [Ledger.level_inside_of_lt hlt]
    exact .inl ⟨depth, hid⟩
  · rwa [Ledger.level_inside_of_le hge]

/-- A constructor that was there before is none of the new tracers. -/
theorem ConWithin.of_inside {con : Con} {T : Set Nat}
    (h : ConWithin (T ∪ {id | id ∈ ownTracers s params}) con)
    (hdrawn : ∀ id name, con = .tracer id name → id < s.unifier.next) : ConWithin T con := by
  intro id name heq
  rcases h id name heq with hid | hid
  · exact hid
  · exact absurd (hdrawn id name heq) (Nat.not_lt.mpr (mem_ownTracers.mp hid).1)

theorem Registered.inside {visible : Set BindingId} {con : Con} {bound : Trait} {e : Evidence}
    (h : Registered visible ledger s con bound e)
    (hlevel : ledger.tracers ⊆ ledger.level s.scope.depth) :
    Registered visible (ledger.inside s params) { s with scope := s.scope.pushFunction }
      con bound e := by
  have henter := h.enter { upvalues := some ∅ } hlevel
  refine { henter with named := ?_, held := ?_ }
  · intro name id he depth hle hcon
    rcases Nat.lt_or_ge s.scope.depth depth with hlt | hge
    · -- in the new frame the name is seen as it was in the frame below
      rw [Ledger.level_inside_of_lt hlt] at hcon
      have hwithin : ConWithin (ledger.level s.scope.depth) con :=
        fun tracer n heq => hlevel (hcon.of_inside h.drawn tracer n heq)
      exact (henter.named name id he _ (Nat.le_succ _) hwithin).mono (le_of_lt hlt)
    · rw [Ledger.level_inside_of_le hge] at hcon
      exact henter.named name id he depth hle hcon
  · intro name id he hcon
    rw [Ledger.tracers_inside] at hcon
    refine (henter.held name id he (hcon.of_inside h.drawn)).mono (.refl _)
      Ledger.tracers_subset_inside rfl ?_
    exact Set.union_subset_union_right _ Set.subset_union_left

theorem Wellformed.openTracers (hs : Wellformed site ledger s) (params : List (String × List Trait)) :
    Wellformed site.opened (ledger.inside s params) { s with scope := s.scope.pushFunction } := by
  have hs0 : Wellformed site ledger { s with scope := s.scope.pushFunction } :=
    hs.enter Frame.every_function
  have hextends : (s.lexicon ledger.tracers).Extends
      (lexicon { s with scope := s.scope.pushFunction } (ledger.inside s params).tracers) :=
    (Declares.of_eq rfl rfl).lexicon Ledger.tracers_subset_inside
  exact { hs0 with
    unifier := hs.unifier.extend hextends
    scope := entries_mono hs0.scope (.refl _) (.refl _ _) (le_refl _)
      (fun depth _ => Ledger.level_subset_inside depth) (fun _ _ => rfl) (subset_refl _)
    levels := fun _ hle => by
      rw [Ledger.tracers_inside, Ledger.level_inside_of_lt hle]
    root := (Ledger.level_inside_of_le (Nat.zero_le _)).trans hs.root
    tracers_lt := fun hopening => absurd trivial hopening
    pending := fun id hid => by
      rw [Ledger.tracers_inside] at hid
      rcases hid with hid | hid
      · exact hs.pending id hid
      · by_contra hne
        obtain ⟨func, hfunc⟩ := Option.ne_none_iff_exists'.mp hne
        exact absurd (hs.created id func hfunc).1 (Nat.not_lt.mpr (mem_ownTracers.mp hid).1)
    dicts := by
      rintro p (hp | hp)
      · obtain ⟨bound, id, name, heq, hid⟩ := hs.dicts p hp
        exact ⟨bound, id, name, heq, Ledger.tracers_subset_inside hid⟩
      · obtain ⟨k, q, bound, _, _, heq, hid⟩ := tracer_of_ownDicts hp
        refine ⟨bound, _, q.1, heq, ?_⟩
        rw [Ledger.tracers_inside]
        exact .inr hid
    evidence := fun con bound e he => (hs.evidence con bound e he).inside (hs.levels _ (le_refl _))
    functions := fun r hr ty hty => (hs.functions r hr ty hty).extend hextends
    result := fun ty hty => by
      obtain ⟨hclosed, hr⟩ := hs.result ty hty
      exact ⟨hclosed.extend ((Declares.of_eq rfl rfl).written Ledger.tracers_subset_inside), hr⟩ }

end Entering

/-! Binding tracers and dictionaries. -/

variable {bound : Trait}

/-- The second state has that many more variables and bindings, and is in the
same functions. -/
structure Takes (s : Checker) (vars bindings : Nat) (s' : Checker) : Prop where
  next : s'.unifier.next = s.unifier.next + vars
  binding : s'.scope.nextBinding = s.scope.nextBinding + bindings
  functions : s'.functions = s.functions

theorem Takes.after {s'' : Checker} {vars vars' bindings bindings' : Nat}
    (h' : Takes s' vars' bindings' s'') (h : Takes s vars bindings s') :
    Takes s (vars + vars') (bindings + bindings') s'' where
  next := by rw [h'.next, h.next, Nat.add_assoc]
  binding := by rw [h'.binding, h.binding, Nat.add_assoc]
  functions := h'.functions.trans h.functions

theorem Advance.declared (h : Advance site ledger s inner s')
    (hbound : s.registry.isDeclared bound = true) : s'.registry.isDeclared bound = true :=
  h.later.registry.isDeclared hbound

/-- A dictionary parameter for a tracer that is in use in this frame only. -/
theorem Bound.registered {name dictionary : String} {id : Nat} {bound : Trait}
    {binding : BindingId} (hbinding : Bound site ledger s binding none)
    (hbound : s.registry.isDeclared bound = true) (hid : id ∈ ledger.tracers)
    (hlt : id < s.unifier.next) (hlevel : ∀ depth < s.scope.depth, id ∉ ledger.level depth)
    (hname : s.scope.Names dictionary s.scope.depth)
    (hdict : (binding, dictionaryType bound (.tracer id name)) ∈ ledger.dicts) :
    Registered (site.visible s) ledger s (.tracer id name) bound (.binding dictionary binding) where
  declared := hbound
  intrinsic := by nofun
  drawn := by
    rintro _ _ ⟨⟩
    exact hlt
  visible := by
    rintro _ _ ⟨⟩
    exact ⟨hbinding.lt, hbinding.hidden⟩
  named := by
    rintro _ _ ⟨⟩ depth hle hcon
    rcases Nat.eq_or_lt_of_le hle with rfl | hlt
    · exact hname
    · exact absurd (hcon id name rfl) (hlevel depth hlt)
  held := by
    rintro _ _ ⟨⟩ _
    refine ⟨.tracer id name, rfl, rfl, Ty.formed_tracer hid name, ?_, .inr hdict⟩
    rw [hbinding.settled]
    nofun

theorem Wellformed.bindDictionaries {bounds : List Trait} (hs : Wellformed site ledger s)
    (span : Span) (name : String) (id : Nat)
    (hbounds : ∀ bound ∈ bounds, s.registry.isDeclared bound = true) (hid : id ∈ ledger.tracers)
    (hlt : id < s.unifier.next) (hlevel : ∀ depth < s.scope.depth, id ∉ ledger.level depth)
    (hdicts : ∀ p ∈ (List.range' s.scope.nextBinding bounds.length).zip
      (bounds.map fun bound => dictionaryType bound (.tracer id name)), p ∈ ledger.dicts) :
    Leads site ledger s (bindDictionaries span name id bounds) fun _ s' ids =>
      ids = List.range' s.scope.nextBinding bounds.length ∧ Takes s 0 bounds.length s' := by
  induction bounds generalizing ledger s with
  | nil => exact .pure hs ⟨rfl, rfl, rfl, rfl⟩
  | cons bound rest ih =>
    obtain ⟨hbound, hrest⟩ := List.forall_mem_cons.mp hbounds
    rw [List.length_cons, List.range'_succ, List.map_cons, List.zip_cons_cons] at hdicts
    obtain ⟨hdict, hmore⟩ := List.forall_mem_cons.mp hdicts
    have hdictionary : Known ledger s (dictionaryType bound (.tracer id name)) :=
      Ty.formed_dictionaryType (hs.arity_trait hbound) (Ty.formed_tracer hid name)
    refine .bind (hs.bindParam span _ hdictionary) ?_
    rintro ledger1 s1 binding hadv ⟨hbinding, rfl, rfl⟩
    refine .bind (hadv.after.provide span ?_) ?_
    · rintro con ⟨⟩
      exact hbinding.registered hbound (hadv.tracers ▸ hid) hlt (hadv.level ▸ hlevel)
        (Scope.Names.bindValue _ _) (hadv.dicts ▸ hdict)
    rintro ledger2 s2 _ hadv2 ⟨rfl, registry, rfl⟩
    refine .bind (ih hadv2.after (fun b hb => (hadv.trans hadv2).declared (hrest b hb))
      (hadv.tracers ▸ hid) hlt (hadv.level ▸ hlevel) (hadv.dicts ▸ hmore)) ?_
    rintro ledger3 s3 ids hadv3 ⟨rfl, htakes⟩
    refine .pure hadv3.after ⟨rfl, ?_⟩
    rw [List.length_cons, Nat.add_comm]
    exact htakes.after ⟨rfl, rfl, rfl⟩

/-- The obligations for the bounds of type parameters. -/
def obligationsOf (generics : List Generic) : List Obligation :=
  generics.flatMap fun g => g.bounds.map fun bound => ⟨.var g.var, bound⟩

/-- The types of the dictionaries for the obligations. -/
theorem length_obligationsOf (generics : List Generic) (h : ids.length = generics.length) :
    (dictionaryTypes (generics.map Generic.param) ids).length =
      (obligationsOf generics).length := by
  rw [length_dictionaryTypes (by rw [h, List.length_map]), obligationsOf, List.flatMap_map,
    List.length_flatMap, List.length_flatMap]
  congr 1
  exact List.map_congr_left fun _ _ => (List.length_map _).symm

theorem Wellformed.bindTracers {generics : List Generic} (hs : Wellformed site ledger s)
    (span : Span) (hbounds : ∀ g ∈ generics, ∀ bound ∈ g.bounds, s.registry.isDeclared bound = true)
    (hown : ∀ k < generics.length, s.unifier.next + k ∈ ledger.tracers)
    (hlevel : ∀ depth < s.scope.depth, ∀ id ∈ ledger.level depth, id < s.unifier.next)
    (hdicts : ∀ p ∈ ownDicts s (generics.map Generic.param), p ∈ ledger.dicts) :
    Leads site ledger s (bindTracers span generics) fun _ s' r =>
      r.1 = List.range' s.scope.nextBinding (obligationsOf generics).length ∧
        r.2 = (List.range' s.unifier.next generics.length).zip (generics.map (.var ·.var)) ∧
          Takes s generics.length (obligationsOf generics).length s' := by
  induction generics generalizing ledger s with
  | nil => exact .pure hs ⟨rfl, rfl, rfl, rfl, rfl⟩
  | cons g rest ih =>
    obtain ⟨hg, hrest⟩ := List.forall_mem_cons.mp hbounds
    have hid : s.unifier.next ∈ ledger.tracers := hown 0 (Nat.succ_pos _)
    have hcount : (obligationsOf (g :: rest)).length =
        g.bounds.length + (obligationsOf rest).length := by
      rw [obligationsOf, obligationsOf, List.flatMap_cons, List.length_append, List.length_map]
    refine .bind hs.freshId ?_
    rintro ledger1 s1 id hadv1 ⟨rfl, rfl, rfl⟩
    refine .bind (hadv1.after.bindType g.name (Ty.formed_tracer hid g.name)) ?_
    rintro ledger2 s2 _ hadv2 ⟨rfl, rfl⟩
    refine .bind (hadv2.after.bindDictionaries span g.name _ hg hid (Nat.lt_succ_self _)
      (fun depth hlt hmem => Nat.lt_irrefl _ (hlevel depth hlt _ hmem)) ?_) ?_
    · let s0 : Checker := { s with
        unifier.next := s.unifier.next + 1
        scope.nextBinding := s.scope.nextBinding + g.bounds.length }
      have hcons : ownDicts s (g.param :: rest.map Generic.param) =
          _ ++ ownDicts s0 (rest.map Generic.param) := ownDicts_cons _ rfl rfl
      intro p hp
      refine hdicts p ?_
      rw [List.map_cons, hcons]
      exact List.mem_append_left _ hp
    rintro ledger3 s3 ids hadv3 ⟨rfl, htakes⟩
    have hadv := (hadv1.trans hadv2).trans hadv3
    have hfirst : Takes s (1 + 0) (0 + g.bounds.length) s3 := htakes.after ⟨rfl, rfl, rfl⟩
    rw [Nat.zero_add] at hfirst
    refine .bind (ih hadv3.after (fun x hx b hb => hadv.declared (hrest x hx b hb)) ?_ ?_ ?_) ?_
    · intro k hk
      rw [hadv3.tracers, hfirst.next, Nat.add_assoc, Nat.add_comm 1]
      exact hown (k + 1) (Nat.succ_lt_succ hk)
    · intro depth hlt id hmem
      rw [hadv3.level] at hmem
      rw [hfirst.next]
      exact Nat.lt_succ_of_lt (hlevel depth (Scope.depth_eq hadv.later.below ▸ hlt) id hmem)
    · intro p hp
      rw [hadv3.dicts]
      refine hdicts p ?_
      rw [List.map_cons, ownDicts_cons _ hfirst.next hfirst.binding]
      exact List.mem_append_right _ hp
    rintro ledger4 s4 ⟨more, tracers⟩ hadv4 ⟨rfl, rfl, htakes'⟩
    refine .pure hadv4.after ⟨?_, ?_, ?_⟩
    · rw [hcount, hfirst.binding]
      exact List.range'_append_1
    · rw [hfirst.next, List.length_cons, List.range'_succ]
      rfl
    · rw [hcount, List.length_cons, Nat.add_comm rest.length]
      exact htakes'.after hfirst

/-! Leaving a function. -/

/-- The ledger where a function has been left, from that before and that inside. -/
def Ledger.close (ledger inner : Ledger) (own : List Nat) (func : Core.FuncExpr) : Ledger :=
  { inner with
    level := ledger.level
    dicts := ledger.dicts
    created := fun id => if id ∈ own then some func else inner.created id }

section Leaving

variable {params : List (String × List Trait)} {func : Core.FuncExpr} {own : List Nat}
variable {id : Nat} {scope : Scope} {bound : Trait}

theorem Ledger.created_close_of_mem (h : id ∈ own) :
    (ledger.close inner own func).created id = some func :=
  if_pos h

theorem Ledger.created_close_of_notMem (h : id ∉ own) :
    (ledger.close inner own func).created id = inner.created id :=
  if_neg h

/-- Evidence for a constructor that is not a tracer of the function is not one of
its dictionary parameters. -/
theorem Holds.leave {con : Con} {id : BindingId} (h : Holds inner s' con bound id)
    (hdicts : inner.dicts = (ledger.inside s params).dicts)
    (hlt : ∀ id ∈ ledger.tracers, id < s.unifier.next) (hcon : ConWithin ledger.tracers con) :
    Holds (ledger.close inner own func) { s' with scope } con bound id := by
  obtain ⟨target, htarget, hparams, hclosed, hsettled, hmem⟩ := h
  refine ⟨target, htarget, hparams, ?_, hsettled, ?_⟩
  · refine hclosed.of_con (fun _ _ h => h) hparams fun tracer name heq => hcon tracer name ?_
    exact Option.some.inj (htarget.symm.trans heq)
  · rcases hmem with himpl | hdict
    · exact .inl himpl
    · rw [hdicts] at hdict
      rcases hdict with hdict | hown
      · exact .inr hdict
      · obtain ⟨k, q, bound', _, _, heq, hid⟩ := tracer_of_ownDicts hown
        obtain ⟨_, rfl⟩ := dictionaryType_inj heq
        have hmem := hcon _ q.1 (Option.some.inj htarget.symm)
        exact absurd (hlt _ hmem) (Nat.not_lt.mpr (mem_ownTracers.mp hid).1)

/-- A function is left, and with it its type parameters. -/
theorem Advance.closeFunction (hs : Wellformed site ledger s) (hopening : ¬site.opening)
    (h : Advance site.opened (ledger.inside s params) { s with scope := s.scope.pushFunction }
      inner s') (hinner : Wellformed site inner s')
    (hsubst : s'.unifier.subst = s.unifier.subst) (hfunctions : s'.functions = s.functions)
    (hfunc : ∀ id ∈ ownTracers s params, ∀ f, Introduced site.source id (func.mapTy f)) :
    Advance site ledger s (ledger.close inner (ownTracers s params) func)
      { s' with scope := s'.scope.popFunction.2 } := by
  have hsteady := Scope.steady_popFunction s'.scope
  have hframes := h.frames_pop hsteady
  have hbelow := (List.cons.inj hframes).2
  have hdepth : s'.scope.popFunction.2.depth = s.scope.depth := Scope.depth_eq hbelow
  have hinnerDepth : s'.scope.depth = s.scope.depth + 1 := Scope.depth_eq h.later.below
  have hnext : s'.scope.popFunction.2.nextBinding = s'.scope.nextBinding :=
    hsteady.next.trans (Scope.nextBinding_pop _)
  have htypes : s'.scope.popFunction.2.root.types = s'.scope.root.types :=
    hsteady.types_root.trans (congrArg Frame.types (Scope.root_pop _))
  have hvisible : site.visible { s' with scope := s'.scope.popFunction.2 } = site.visible s' := by
    rw [Site.visible, Site.visible, hnext]
  have hlt := hs.tracers_lt hopening
  have htracers : inner.tracers = ledger.tracers ∪ {id | id ∈ ownTracers s params} :=
    h.tracers.trans Ledger.tracers_inside
  have hdeclares : Declares s { s' with scope := s'.scope.popFunction.2 } :=
    ⟨h.later.arities, h.later.adts, h.later.registry⟩
  have hextends := hdeclares.lexicon (subset_refl ledger.tracers)
  have hunifier := hs.unifier.resume hinner.unifier hextends rfl h.draws.subset h.later.next
  have hafter : Wellformed site (ledger.close inner (ownTracers s params) func)
      { s' with scope := s'.scope.popFunction.2 } := { hinner with
    unifier := by
      rw [← hsubst] at hunifier
      exact hunifier
    scope := by
      rw [hvisible]
      refine entries_mono hinner.scope.popFunction.2 (.of_eq rfl rfl) (.refl _ _) (le_refl _) ?_
        (fun _ _ => rfl) (subset_refl _)
      intro depth hle
      rw [h.level, Ledger.level_inside_of_le (hdepth ▸ hle)]
      exact subset_refl _
    start := hnext ▸ hinner.start
    hidden := hnext ▸ hinner.hidden
    settled_lt := hnext ▸ hinner.settled_lt
    levels := fun depth hle => hs.levels depth (hdepth ▸ hle)
    root := hs.root
    tracers_lt := fun _ id hid => lt_of_lt_of_le (hlt id hid) h.later.next
    created := fun id func' hid => by
      by_cases hown : id ∈ ownTracers s params
      · rw [Ledger.created_close_of_mem hown] at hid
        cases hid
        exact ⟨hinner.tracers_lt hopening id (htracers ▸ .inr hown), hfunc id hown⟩
      · rw [Ledger.created_close_of_notMem hown] at hid
        exact hinner.created id func' hid
    pending := fun id hid => by
      have hown : id ∉ ownTracers s params :=
        fun hown => absurd (hlt id hid) (Nat.not_lt.mpr (mem_ownTracers.mp hown).1)
      rw [Ledger.created_close_of_notMem hown]
      exact hinner.pending id (htracers ▸ .inl hid)
    dicts := hs.dicts
    evidence := fun con bound e he => by
      have hold := hinner.evidence con bound e he
      rw [hvisible]
      refine { hold with named := ?_, held := ?_ }
      · intro name id heq depth hle hcon
        have hle' : depth ≤ s.scope.depth := hdepth ▸ hle
        refine h.names_pop hsteady hle' (hold.named name id heq depth (by omega) ?_)
        rw [h.level, Ledger.level_inside_of_le hle']
        exact hcon
      · intro name id heq hcon
        refine (hold.held name id heq fun tracer n hn => ?_).leave h.dicts hlt hcon
        exact htracers ▸ .inl (hcon tracer n hn)
    names := fun name hname => htypes ▸ hinner.names name hname
    functions := fun r hr ty hty => by
      rw [hfunctions] at hr
      exact ((hs.functions r hr ty hty).mono h.draws.subset).extend hextends
    result := fun ty hty => by
      obtain ⟨hclosed, hr⟩ := hs.result ty hty
      exact ⟨hclosed.extend (hdeclares.written (subset_refl _)), hfunctions ▸ hr⟩
    returned := hfunctions ▸ hs.returned }
  refine ⟨⟨h.draws, h.settled, rfl, rfl, h.impls, h.impls_eq, ?_, ?_⟩, hs, hafter, ?_⟩
  · intro id func' hid
    have hown : id ∉ ownTracers s params :=
      fun hown => absurd (hs.created id func' hid).1 (Nat.not_lt.mpr (mem_ownTracers.mp hown).1)
    rw [Ledger.created_close_of_notMem hown]
    exact h.created id func' hid
  · intro id func' hid
    by_cases hown : id ∈ ownTracers s params
    · exact .inr (mem_ownTracers.mp hown).1
    · rw [Ledger.created_close_of_notMem hown] at hid
      exact h.created_new id func' hid
  · exact ⟨hdeclares, h.later.next, h.later.subst, le_trans h.later.binding (le_of_eq hnext.symm),
      hbelow, congrArg List.tail hfunctions⟩

/-- What the function captures is known outside of it. -/
theorem Advance.upvalue_close
    (h : Advance site.opened (ledger.inside s params) { s with scope := s.scope.pushFunction }
      inner s') {up : Upvalue} (hup : up ∈ s'.scope.popFunction.1) :
    (entryRules (ledger.close inner own func)
      (site.visible { s' with scope := s'.scope.popFunction.2 })
        { s' with scope := s'.scope.popFunction.2 }).upvalue up := by
  have hnext : s'.scope.popFunction.2.nextBinding = s'.scope.nextBinding :=
    (Scope.steady_popFunction s'.scope).next.trans (Scope.nextBinding_pop _)
  have hdepth : s'.scope.depth = s.scope.depth + 1 := Scope.depth_eq h.later.below
  obtain ⟨⟨⟨hlt, hid⟩, hty, hformed⟩, hle⟩ := h.after.scope.popFunction.1 up hup
  refine ⟨⟨hnext.symm ▸ hlt, hid⟩, hty, ?_⟩
  rw [h.level, Ledger.level_inside_of_le (by omega)] at hformed
  exact hformed

/-! What was said inside, seen from outside. -/

variable {view : View} {generics : List Generic}

/-- What sees the state where the function was left sees the one inside. -/
theorem View.Sees.reopen {view : View} {scope : Scope}
    (hview : view.Sees (ledger.close inner own func) { s' with scope })
    (hinner : Wellformed site inner s') (hown : ∀ id ∈ own, id ∈ inner.tracers)
    (hnext : scope.nextBinding = s'.scope.nextBinding) : view.Sees inner s' where
  reads := hview.reads
  adts := hview.adts
  traits := hview.traits
  disjoint := hview.disjoint
  next := hnext ▸ hview.next
  settled := fun id hid => hview.settled id (hnext ▸ hid)
  impls := hview.impls
  created := fun id func' hid => by
    refine hview.created id func' ?_
    rw [Ledger.created_close_of_notMem]
    · exact hid
    · intro hmem
      rw [hinner.pending id (hown id hmem)] at hid
      cases hid

/-- A place inside of the function. -/
theorem View.Admits.reopen {place : Core.Place}
    (hplace : view.Admits site (ledger.close inner (ownTracers s params) func) place)
    (hview : view.Sees (ledger.close inner (ownTracers s params) func) { s' with scope })
    (htracers : inner.tracers = (ledger.inside s params).tracers)
    (hdicts : inner.dicts = (ledger.inside s params).dicts) {decl : Surface.FuncDecl}
    (hdecl : decl ∈ site.source) (hparams : paramBounds decl.generics = params)
    (hintro : Introduces decl (ownTracers s params) (func.mapTy view.map))
    (hzip : ∀ p ∈ ownDicts s params, p ∈ (func.mapTy view.map).params.zip
      (dictionaryTypes params (ownTracers s params))) :
    view.Admits site inner (place.inside (func.mapTy view.map)) := by
  have hinside := hplace.inside (func.mapTy view.map)
  have hcreated : ∀ id ∈ ownTracers s params, view.created id = some (func.mapTy view.map) :=
    fun id hid => hview.created id func (Ledger.created_close_of_mem hid)
  refine ⟨hinside.cases, ?_, hinside.vars, ?_⟩
  · intro id hid
    rw [htracers, Ledger.tracers_inside] at hid
    rcases hid with hid | hid
    · exact hinside.tracers id hid
    · exact ⟨_, List.mem_cons_self, hcreated id hid⟩
  · intro p hp
    rw [hdicts] at hp
    rcases hp with hp | hp
    · exact hinside.dicts p hp
    · refine ⟨_, List.mem_cons_self, decl, hdecl, ownTracers s params, hintro, hcreated, ?_⟩
      rw [hparams]
      exact hzip p hp

/-- A tracer has evidence for the bounds of its type parameter only. -/
theorem Wellformed.bound_of_lookup (hs : Wellformed site ledger s) (hopening : ¬site.opening)
    (hinner : Wellformed site inner s')
    (htracers : inner.tracers = (ledger.inside s params).tracers)
    (hdicts : inner.dicts = (ledger.inside s params).dicts) {name : String}
    (hid : id ∈ ownTracers s params)
    (hlookup : (s'.registry.lookup (.tracer id name) bound).isSome = true) :
    ∃ k q, params[k]? = some q ∧ bound ∈ q.2 ∧ id = s.unifier.next + k := by
  obtain ⟨e, he⟩ := Option.isSome_iff_exists.mp hlookup
  have hregistered := hinner.evidence _ bound e he
  cases e with
  | intrinsic trait primitive => cases (hregistered.intrinsic trait primitive rfl).2.1
  | binding dictionary binding =>
    have hwithin : ConWithin inner.tracers (.tracer id name) := by
      rintro _ _ ⟨⟩
      rw [htracers, Ledger.tracers_inside]
      exact .inr hid
    obtain ⟨target, htarget, _, _, _, hmem⟩ := hregistered.held dictionary binding rfl hwithin
    rcases hmem with himpl | hdict
    · -- an implementation is for a type without tracers
      have hformed := (hinner.impls _ himpl).arg List.mem_cons_self
      exact (hformed.tracer_mem htarget).elim
    · rw [hdicts] at hdict
      rcases hdict with hdict | hown
      · obtain ⟨bound', id', name', heq, hid'⟩ := hs.dicts _ hdict
        obtain ⟨_, rfl⟩ := dictionaryType_inj heq
        cases htarget
        exact absurd (hs.tracers_lt hopening id hid') (Nat.not_lt.mpr (mem_ownTracers.mp hid).1)
      · obtain ⟨k, q, bound', hq, hbound, heq, _⟩ := tracer_of_ownDicts hown
        obtain ⟨rfl, rfl⟩ := dictionaryType_inj heq
        cases htarget
        exact ⟨k, q, hq, hbound, rfl⟩

/-- The variables that the tracers of a function stand for. -/
def ownVars (s : Checker) (generics : List Generic) : List (Nat × Ty) :=
  (List.range' s.unifier.next generics.length).zip (generics.map (.var ·.var))

theorem map_fst_ownVars (generics : List Generic) :
    (ownVars s generics).map Prod.fst = ownTracers s (generics.map Generic.param) := by
  rw [ownVars, ownTracers, List.map_fst_zip (by simp), List.length_map]

theorem find?_ownVars (generics : List Generic) (k : Nat) :
    (Assoc.mk (ownVars s generics)).find? (s.unifier.next + k) =
      generics[k]?.map fun g => .var g.var := by
  have hlength : (generics.map fun g => Ty.var g.var).length = generics.length :=
    List.length_map _
  rw [ownVars, ← hlength, Assoc.find?_zip_range', List.getElem?_map]

theorem exists_of_ownVars (h : (Assoc.mk (ownVars s generics)).find? id = some t) :
    ∃ k g, id = s.unifier.next + k ∧ generics[k]? = some g ∧ t = .var g.var := by
  have hmem := (List.of_mem_zip (Assoc.mem_of_find? h)).1
  obtain ⟨k, rfl⟩ := Nat.exists_eq_add_of_le (List.mem_range'_1.mp hmem).1
  rw [find?_ownVars, Option.map_eq_some_iff] at h
  obtain ⟨g, hg, rfl⟩ := h
  exact ⟨k, g, rfl, hg, rfl⟩

/-- A type from inside of the function, with its type parameters back in place of
the tracers. -/
theorem Wellformed.formed_untrace {ty : Ty} (hs : Wellformed site ledger s)
    (hopening : ¬site.opening) (hinner : Wellformed site inner s')
    (htracers : inner.tracers = (ledger.inside s (generics.map Generic.param)).tracers)
    (hdicts : inner.dicts = (ledger.inside s (generics.map Generic.param)).dicts)
    (hbounds : ∀ g ∈ generics, ∀ bound ∈ g.bounds, bound ∈ g.var.traits) (hty : Known inner s' ty) :
    (ty.untrace (Assoc.mk (ownVars s generics)).find?).Formed (s'.lexicon ledger.tracers)
      (inner.drawn ∪ genericVars generics) := by
  refine (hty.mono Set.subset_union_left).untrace (fun _ _ h => h) ?_ ?_ ?_
  · intro id hid hnone
    have hid' : id ∈ inner.tracers := hid
    rw [htracers, Ledger.tracers_inside] at hid'
    refine hid'.resolve_right fun hmem => ?_
    obtain ⟨hle, hlt⟩ := mem_ownTracers.mp hmem
    obtain ⟨k, rfl⟩ := Nat.exists_eq_add_of_le hle
    rw [List.length_map] at hlt
    rw [find?_ownVars, List.getElem?_eq_getElem (by omega)] at hnone
    cases hnone
  · intro id t ht
    obtain ⟨k, g, _, hg, rfl⟩ := exists_of_ownVars ht
    exact .var (.inr ⟨g, List.mem_of_getElem? hg, rfl⟩)
  · intro t bound ht hmeets
    cases t with
    | var v => exact hmeets
    | app head args =>
      obtain ⟨con, size, bounds⟩ := head
      rw [Ty.untrace]
      cases con with
      | tracer id name =>
        dsimp only
        cases hfind : (Assoc.mk (ownVars s generics)).find? id with
        | none => exact hmeets
        | some t =>
          obtain ⟨k, g, rfl, hg, rfl⟩ := exists_of_ownVars hfind
          have hmem : s.unifier.next + k ∈ ownTracers s (generics.map Generic.param) := by
            refine mem_ownTracers.mpr ⟨Nat.le_add_right _ _, ?_⟩
            rw [List.length_map]
            exact Nat.add_lt_add_left (List.getElem?_eq_some_iff.mp hg).1 _
          obtain ⟨k', q, hq, hbound, hk⟩ :=
            hs.bound_of_lookup hopening hinner htracers hdicts hmem hmeets
          obtain rfl : k = k' := Nat.add_left_cancel hk
          rw [List.getElem?_map, hg] at hq
          cases hq
          exact hbounds g (List.mem_of_getElem? hg) bound hbound
      | named | tuple | func | array => exact hmeets

end Leaving

end Checker

end TraitCheck
