import TraitCheck.Proofs.Announcements
import TraitCheck.Proofs.DeclaredTypes
import TraitCheck.Proofs.RenamedPrograms

/-!
A program checked in two parts, one after the other, against the same program checked
as a whole. As a whole, the structs and enums of the second part are entered before
any statement of the first is checked. The first part does not notice: it succeeded
without them, and the type names that it found are found all the same. But at that
time its traits are not declared yet. So the two ways agree, up to the order in which
ids are drawn, if no type parameter of a struct or an enum of the second part is
bounded by a trait of the first; and else the whole program fails.
-/

namespace TraitCheck

open Surface (GenericParam Program)

namespace Checker

variable {ρ : Renaming} {s s' : Checker} {leeway leeway' : Leeway}
  {headers : List (Name × List GenericParam)}

/-! Names that are entered under a renaming. -/

variable {n : Nat}

theorem rename_paramVars {n' : Nat} {params : List GenericParam}
    (h : ∀ i < params.length, ρ.var (n + i) = n' + i) :
    (paramVars n params).map (TyVar.rename ρ) = paramVars n' params := by
  induction params generalizing n n' with
  | nil => rfl
  | cons g rest ih =>
    rw [List.length_cons] at h
    have hrest : ∀ i < rest.length, ρ.var (n + 1 + i) = n' + 1 + i := by
      intro i hi
      have hnext := h (i + 1) (Nat.succ_lt_succ hi)
      rwa [← Nat.add_assoc, Nat.add_right_comm, ← Nat.add_assoc, Nat.add_right_comm n'] at hnext
    have hfirst : ρ.var n = n' := h 0 (Nat.succ_pos _)
    rw [paramVars, paramVars, List.map_cons, ih hrest, TyVar.rename, hfirst]

theorem rename_pendings {n' : Nat} (h : ∀ i < paramCount headers, ρ.var (n + i) = n' + i)
    (name : String) : Assoc.find? (pendings n' headers) name =
      (Assoc.find? (pendings n headers) name).map (Adt.rename ρ) := by
  induction headers generalizing n n' with
  | nil => rfl
  | cons header rest ih =>
    have hcount : paramCount (header :: rest) = header.2.length + paramCount rest := rfl
    rw [hcount] at h
    have hrest : ∀ i < paramCount rest,
        ρ.var (n + header.2.length + i) = n' + header.2.length + i := by
      intro i hi
      rw [Nat.add_assoc, h _ (Nat.add_lt_add_left hi _), Nat.add_assoc]
    rw [pendings, pendings, Assoc.find?_insert, Assoc.find?_insert]
    split
    · rw [Option.map_some, Adt.rename,
        rename_paramVars fun i hi => h i (Nat.lt_add_right _ hi)]
      rfl
    · exact ih hrest

/-- The second state enters names that the first does not have. -/
theorem Mirrors.announceSecond (h : Mirrors ρ leeway s s') (hstrict : leeway.Strict)
    (hroot : s.scope.below = []) (hroot' : Rooted s') (hnew : Announceable s' headers)
    (hknown : leeway'.known = pendings s'.unifier.next headers)
    (haligned : leeway'.aligned → leeway.aligned) :
    Mirrors ρ leeway' s (s'.announceAll headers) := by
  have htop := (Scope.mirrors_root hroot hroot'.root).mp h.scope
  obtain ⟨types, adts, heq, htypes, hadts⟩ := hnew.announced hroot'
  rw [heq]
  refine { h with limit := h.limit ∘ haligned, adts := fun name => ?_, scope := ?_ }
  · rw [hadts, h.adts.map (hstrict name), hknown]
  · refine (Scope.mirrors_root hroot ?_).mpr ⟨htop.values, fun name => ?_, htop.upvalues⟩
    · exact hroot'.root
    · rw [htypes, htop.types.map (hstrict.types name), Leeway.types, hknown]

/-- The first state enters the names that only the second has. -/
theorem Mirrors.announceFirst (h : Mirrors ρ leeway s s')
    (hknown : leeway.known = pendings n headers) (hroot : Rooted s) (hroot' : s'.scope.below = [])
    (hnew : Announceable s headers)
    (hvars : ∀ i < paramCount headers, ρ.var (s.unifier.next + i) = n + i)
    (hstrict : leeway'.Strict) (haligned : leeway'.aligned → leeway.aligned) :
    Mirrors ρ leeway' (s.announceAll headers) s' := by
  have htop := (Scope.mirrors_root hroot.root hroot').mp h.scope
  have hpendings := rename_pendings hvars
  obtain ⟨types, adts, heq, htypes, hadts⟩ := hnew.announced hroot
  rw [heq]
  refine { h with limit := h.limit ∘ haligned, adts := fun name => ?_, scope := ?_ }
  · rw [h.adts name, hadts, hknown, hpendings, Option.map_or, hstrict, Option.or_none]
  · have hty : Adt.ty ∘ Adt.rename ρ = Ty.rename ρ ∘ Adt.ty := funext Adt.ty_rename
    refine (Scope.mirrors_root ?_ hroot').mpr ⟨htop.values, fun name => ?_, htop.upvalues⟩
    · exact hroot.root
    · rw [htop.types name, htypes, Leeway.types, hknown, hpendings, Option.map_or, Option.map_map,
        Option.map_map, hty, hstrict.types, Option.or_none]

/-- Ids from `a` on give way to `k` others, which are taken from those at `b`. -/
def moved (a b k id : Nat) : Nat :=
  if id < a then id else if id < b then id + k else if id < b + k then a + (id - b) else id

theorem moved_injective {a b k : Nat} (hab : a ≤ b) : Function.Injective (moved a b k) := by
  intro i j h
  simp only [moved] at h
  split_ifs at h <;> omega

/-- The renaming that draws `k` variables at `a` that were drawn at `b`. -/
def exchange (a b k : Nat) (hab : a ≤ b) : Renaming where
  var := moved a b k
  binding := id
  limit := id
  var_injective := moved_injective hab
  binding_injective := Function.injective_id

/-! The two parts. -/

variable {p q : Program} {options : Options}

theorem Yields.check {program : Program} {out : List Core.Stmt} {s1 s2 : Checker}
    (hnames : Yields (declareAdts program) s.prepared () s1)
    (hunits : Yields (checkUnits s.options.maxDepth program) s1 out s2) :
    (s.check program).1 = .ok out := by
  rw [check_prepared, hnames.andThen hunits]

/-- The state in which the structs and enums of a program are named. -/
def entered (s : Checker) (program : Program) : Checker :=
  s.announceAll (Surface.headers program)

/-- A program is checked, and then another: the names of the first are entered, then
its statements are checked, and likewise for the second. -/
structure Parts (options : Options) (p q : Program) (out out' : List Core.Stmt)
    (s₁ s₂ s₃ : Checker) : Prop where
  names : Yields (declareAdts p) (new options).prepared () s₁
  units : Yields (checkUnits options.maxDepth p) s₁ out s₂
  names' : Yields (declareAdts q) s₂ () (s₂.entered q)
  units' : Yields (checkUnits options.maxDepth q) (s₂.entered q) out' s₃
  rooted : Rooted s₁
  rooted' : Rooted s₂

theorem session_pair (s : Checker) (p q : Program) :
    (s.session [p, q]).1 = [(s.check p).1, ((s.check p).2.check q).1] :=
  rfl

theorem parts_of_session {out out' : List Core.Stmt}
    (h : ((new options).session [p, q]).1 = [.ok out, .ok out']) :
    ∃ s1 s2 s3, Parts options p q out out' s1 s2 s3 := by
  rw [session_pair, List.cons.injEq, List.cons.injEq] at h
  obtain ⟨hp, hq, _⟩ := h
  have htabled := (tabled_new options).check p
  have hoptions := (balanced_check (new options) p).options
  obtain ⟨s1, h1, h2⟩ := Yields.of_check hp
  obtain ⟨s3, h3, h4⟩ := Yields.of_check hq
  rw [htabled.1.prepared_eq] at h3
  rw [hoptions] at h4
  have hrooted := ((tabled_new options).declareAdts p).1.toRooted
  rw [h1] at hrooted
  obtain ⟨_, rfl, _⟩ := h3.announceable
  exact ⟨s1, _, _, h1, h2, h3, h4, hrooted, htabled.1.toRooted⟩

namespace Parts

variable {options : Options} {p q : Program} {out out' : List Core.Stmt} {s₁ s₂ s₃ : Checker}
variable {w : Checker}

/-- The names of the second part are new before the first part, too. -/
theorem announceable (h : Parts options p q out out' s1 s2 s3) :
    Announceable s1 (Surface.headers q) := by
  obtain ⟨hnew, _, _⟩ := h.names'.announceable
  have htypes := (sameNames_checkUnits.yields h.units).types
  obtain ⟨_, htraits⟩ := h.units.checkUnits_traits
  refine ⟨hnew.distinct, hnew.params, fun header hheader => ?_, fun header hheader => ?_⟩
  · have htype := hnew.types header hheader
    rw [Scope.declaresType, htypes] at htype
    exact htype
  · refine Bool.eq_false_of_not_eq_true fun htrait => ?_
    have hafter := (htraits header.1.text).mpr (.inl htrait)
    exact Bool.false_ne_true ((hnew.traits header hheader).symm.trans hafter)

theorem next_le (h : Parts options p q out out' s1 s2 s3) : s1.unifier.next ≤ s2.unifier.next :=
  ((passes_checkUnits _ p).yields h.units).next

/-- The variables of the first part from the first one that it draws give way to the
type parameters of the second. -/
def earlier (h : Parts options p q out out' s₁ s₂ s₃) {limit : Nat}
    (hlimit : s₂.unifier.next ≤ limit) : Renaming :=
  exchange s₁.unifier.next limit (paramCount (Surface.headers q)) (h.next_le.trans hlimit)

/-- Names that are written are left as they are. -/
theorem fixes (hnames : Surface.Plain p) : ∀ name ∈ Surface.writtenStmts p, ρ.Fixes name :=
  fun name hname => .inl (hnames name hname)

/-- Before the statements of the first part, nothing is renamed. -/
theorem related_self (h : Parts options p q out out' s1 s2 s3) (hnames : Surface.Plain p)
    (hvar : ∀ id < s1.unifier.next, ρ.var id = id) (hbinding : ∀ id, ρ.binding id = id)
    (hlimit : ∀ limit, ρ.limit limit = limit) :
    let leeway : Leeway := { vars := s1.unifier.next, bindings := s1.scope.nextBinding }
    Plain ρ leeway s1 ∧ Related ρ leeway s1 s1 := by
  intro leeway
  have hstrict : leeway.Strict := fun _ => rfl
  have hfollows : Echoes ρ leeway (do preparePrelude; declareAdts p)
      (do preparePrelude; declareAdts p) id :=
    .bind (follows_preparePrelude hstrict) fun _ => follows_declareAdts hstrict (fixes hnames)
  have hrun : Yields (do preparePrelude; declareAdts p) (new options) () s1 :=
    Yields.andThen (x := preparePrelude) rfl h.names
  have hnew : Related ρ leeway (new options) (new options) :=
    related_new hstrict rfl (fun _ => (hlimit _).symm) hvar fun id _ => hbinding id
  have hat := hfollows (new options) (plain_new options)
  have hproceeds := hat.proceeds
  have hagrees := hat.agrees (new options) hnew
  rw [hrun] at hproceeds hagrees
  exact ⟨hproceeds.1, (hagrees (hstrict.inside (Nat.le_refl _) (Nat.le_refl _)) (.inl hstrict)).2⟩

/-- What the second part enters is a type name that the first part does not have. -/
theorem plain_entered (h : Parts options p q out out' s1 s2 s3) (hplain : Plain ρ leeway s1)
    {next : Nat} (hknown : leeway'.known = pendings next (Surface.headers q)) :
    Plain ρ leeway' s1 := by
  refine ⟨?_, hplain.traits⟩
  have hframes := hplain.types
  rw [Scope.Every, Scope.frames, h.rooted.root] at hframes ⊢
  refine ⟨⟨hframes.1.values, fun name ty hty => ⟨(hframes.1.types name ty hty).1, fun hmore => ?_⟩,
    hframes.1.upvalues⟩, trivial⟩
  rw [Leeway.types, Option.isSome_map, hknown] at hmore
  obtain ⟨header, hheader, rfl⟩ := List.mem_map.mp (isSome_find?_pendings hmore)
  have hnew := h.announceable.types header hheader
  rw [Scope.declaresType, Assoc.contains, hty] at hnew
  cases hnew

/-- The first part does not notice the names of the second. -/
theorem first (h : Parts options p q out out' s1 s2 s3) (hnames : Surface.Plain p) {limit : Nat}
    (hlimit : s2.unifier.next ≤ limit) :
    ∃ w, Yields (checkUnits options.maxDepth p) (s1.entered q)
        (out.map (Core.Stmt.rename (h.earlier hlimit))) w ∧
      Related (h.earlier hlimit)
        { vars := limit, bindings := s2.scope.nextBinding + 1,
          known := pendings s1.unifier.next (Surface.headers q) } s2 w := by
  let leeway : Leeway :=
    { vars := limit, bindings := s2.scope.nextBinding + 1,
      known := pendings s1.unifier.next (Surface.headers q) }
  have hfixed : ∀ id < s1.unifier.next, (h.earlier hlimit).var id = id := fun id hid => if_pos hid
  obtain ⟨hplain, hself⟩ := h.related_self hnames hfixed (fun _ => rfl) fun _ => rfl
  obtain ⟨types, adts, heq, _, _⟩ := h.announceable.announced h.rooted
  have hmirrors : Mirrors (h.earlier hlimit) leeway s1 (s1.entered q) :=
    hself.toMirrors.announceSecond (fun _ => rfl) h.rooted.root h.rooted h.announceable rfl id
  have hrel : Related (h.earlier hlimit) leeway s1 (s1.entered q) := by
    refine { hmirrors with vars := fun i hi hlt => ?_, bindings := fun i hi hlt => ?_ }
    · rw [entered, heq]
      change moved _ _ _ i =
        s1.unifier.next + paramCount (Surface.headers q) + (i - s1.unifier.next)
      rw [moved, if_neg (Nat.not_lt.mpr hi), if_pos hlt]
      omega
    · rw [entered, heq]
      exact (Nat.add_sub_of_le hi).symm
  have hinside : Inside leeway s2 := by
    refine ⟨hlimit, Nat.le_succ _, fun name hname => ?_⟩
    cases hfind : Assoc.find? leeway.known name with
    | none => rfl
    | some adt =>
      have hmem := isSome_find?_pendings (Option.isSome_iff_exists.mpr ⟨adt, hfind⟩)
      obtain ⟨header, hheader, rfl⟩ := List.mem_map.mp hmem
      obtain ⟨hnew, _, _⟩ := h.names'.announceable
      exact absurd ((hnew.traits header hheader).symm.trans hname) Bool.false_ne_true
  have hplain' : Plain (h.earlier hlimit) leeway s1 := h.plain_entered hplain rfl
  have hroom : leeway.Roomy options.maxDepth options.maxDepth (Surface.nestingStmts p) :=
    .inl ⟨trivial, rfl⟩
  have hfollows := follows_checkUnits hroom (fixes hnames) s1 hplain'
  have hagrees := hfollows.agrees (s1.entered q) hrel
  rw [h.units] at hagrees
  obtain ⟨hresult, hrel'⟩ := hagrees hinside (.inr ⟨out, rfl⟩)
  exact ⟨_, Prod.ext hresult rfl, hrel'⟩

/-- After the first part, the counters stand where they stand in the other order once
the names of the second part are entered. -/
theorem counters (h : Parts options p q out out' s1 s2 s3) (hnames : Surface.Plain p)
    {out1 : List Core.Stmt} (hw : Yields (checkUnits options.maxDepth p) (s1.entered q) out1 w) :
    w.unifier.next = s2.unifier.next + paramCount (Surface.headers q) ∧
      w.scope.nextBinding = s2.scope.nextBinding := by
  -- The renaming may as well follow one more variable.
  obtain ⟨w', hw', hrel⟩ := h.first hnames (Nat.le_succ s2.unifier.next)
  obtain rfl : w = w' := (Prod.mk.inj (hw.symm.trans hw')).2
  have hvar := hrel.vars s2.unifier.next (Nat.le_refl _) (Nat.lt_succ_self _)
  have hbinding := hrel.bindings s2.scope.nextBinding (Nat.le_refl _) (Nat.lt_succ_self _)
  rw [Nat.sub_self, Nat.add_zero] at hvar hbinding
  refine ⟨?_, hbinding.symm⟩
  rw [← hvar]
  exact (if_neg (Nat.not_lt.mpr h.next_le)).trans (if_pos (Nat.lt_succ_self _))

/-- Once the names of the second part are entered in both orders, neither state knows
more than the other. -/
theorem related_second (h : Parts options p q out out' s1 s2 s3) (hnames : Surface.Plain p)
    (hw : Yields (checkUnits options.maxDepth p) (s1.entered q)
      (out.map (Core.Stmt.rename (h.earlier (Nat.le_refl _)))) w) (hstrict : leeway.Strict) :
    Related (h.earlier (Nat.le_refl _)) leeway (s2.entered q) w := by
  have hle := h.next_le
  obtain ⟨w', hw', hrel⟩ := h.first hnames (Nat.le_refl _)
  obtain rfl : w = w' := (Prod.mk.inj (hw.symm.trans hw')).2
  obtain ⟨hnext, hbinding⟩ := h.counters hnames hw
  obtain ⟨hnew, _, _⟩ := h.names'.announceable
  have hroot : w.scope.below = [] := by
    have hroot1 : (s1.entered q).scope.below = [] := by
      obtain ⟨types, adts, heq, _, _⟩ := h.announceable.announced h.rooted
      rw [entered, heq]
      exact h.rooted.root
    exact ((passes_checkUnits _ p).yields hw).isRoot hroot1
  have hvars : ∀ i < paramCount (Surface.headers q),
      (h.earlier (Nat.le_refl _)).var (s2.unifier.next + i) = s1.unifier.next + i := by
    intro i hi
    change moved _ _ _ _ = _
    rw [moved, if_neg (by omega), if_neg (by omega), if_pos (by omega), Nat.add_sub_cancel_left]
  have hmirrors : Mirrors (h.earlier (Nat.le_refl _)) leeway (s2.entered q) w :=
    hrel.toMirrors.announceFirst rfl h.rooted' hroot hnew hvars hstrict fun _ => trivial
  obtain ⟨types, adts, heq, _, _⟩ := hnew.announced h.rooted'
  refine { hmirrors with vars := fun i hi hlt => ?_, bindings := fun i hi _ => ?_ }
  · rw [entered, heq] at hi ⊢
    have hi' : s2.unifier.next + paramCount (Surface.headers q) ≤ i := hi
    change moved _ _ _ i = w.unifier.next + (i - (s2.unifier.next + paramCount (Surface.headers q)))
    rw [moved, if_neg (by omega), if_neg (by omega), if_neg (by omega), hnext]
    omega
  · rw [entered, heq] at hi ⊢
    rw [hbinding]
    exact (Nat.add_sub_of_le hi).symm

theorem plain_second (h : Parts options p q out out' s1 s2 s3) (hp : Surface.Plain p)
    (hq : Surface.Plain q) (hstrict : leeway.Strict) (haligned : leeway.aligned) :
    Plain ρ leeway (s2.entered q) := by
  have hnew : Plain ρ leeway (new options).prepared :=
    (follows_preparePrelude hstrict (new options) (plain_new options)).proceeds.1
  have h1 : Plain ρ leeway s1 := by
    have hproceeds := (follows_declareAdts hstrict (fixes hp) _ hnew).proceeds.1
    rwa [h.names] at hproceeds
  have h2 : Plain ρ leeway s2 := by
    have hroom : leeway.Roomy options.maxDepth options.maxDepth (Surface.nestingStmts p) :=
      .inl ⟨haligned, rfl⟩
    have hproceeds := (follows_checkUnits hroom (fixes hp) s1 h1).proceeds.1
    rwa [h.units] at hproceeds
  have hproceeds := (follows_declareAdts hstrict (fixes hq) s2 h2).proceeds.1
  rwa [h.names'] at hproceeds

/-- The second part goes on alike. -/
theorem second (h : Parts options p q out out' s1 s2 s3) (hp : Surface.Plain p)
    (hq : Surface.Plain q) (hw : Yields (checkUnits options.maxDepth p) (s1.entered q)
      (out.map (Core.Stmt.rename (h.earlier (Nat.le_refl _)))) w) :
    ∃ w', Yields (checkUnits options.maxDepth q) w
      (out'.map (Core.Stmt.rename (h.earlier (Nat.le_refl _)))) w' := by
  let leeway : Leeway := { vars := s3.unifier.next, bindings := s3.scope.nextBinding }
  have hstrict : leeway.Strict := fun _ => rfl
  have hrel := h.related_second hp hw hstrict
  have hroom : leeway.Roomy options.maxDepth options.maxDepth (Surface.nestingStmts q) :=
    .inl ⟨trivial, rfl⟩
  have hplain : Plain (h.earlier (Nat.le_refl _)) leeway (s2.entered q) :=
    h.plain_second hp hq hstrict trivial
  have hagrees := (follows_checkUnits hroom (fixes hq) _ hplain).agrees w hrel
  rw [h.units'] at hagrees
  obtain ⟨hresult, _⟩ :=
    hagrees (hstrict.inside (Nat.le_refl _) (Nat.le_refl _)) (.inl hstrict)
  exact ⟨_, Prod.ext hresult rfl⟩

/-- All bounds that the second part needs are there before the first part, unless they
are declared by it. -/
theorem declared_or (h : Parts options p q out out' s1 s2 s3) {b : Name}
    (hb : b ∈ Surface.typeBounds q) :
    s1.registry.isDeclared b.text = true ∨ b.text ∈ Surface.traitNames p := by
  obtain ⟨_, htraits⟩ := h.units.checkUnits_traits
  obtain ⟨_, _, hbounds⟩ := h.names'.announceable
  exact (htraits b.text).mp (hbounds b hb)

theorem check_append (h : Parts options p q out out' s1 s2 s3) (hp : Surface.Plain p)
    (hq : Surface.Plain q) (hbounds : ∀ b ∈ Surface.typeBounds q, b.text ∉ Surface.traitNames p) :
    ((new options).check (p ++ q)).1 =
      .ok ((out ++ out').map (Core.Stmt.rename (h.earlier (Nat.le_refl _)))) := by
  have hnames : Yields (declareAdts (p ++ q)) (new options).prepared () (s1.entered q) := by
    rw [declareAdts_append]
    rcases declareAdts_cases h.announceable with ⟨_, hyields⟩ | ⟨b, hb, hnot, _⟩
    · exact h.names.andThen hyields
    · have hdeclared := (h.declared_or hb).resolve_right (hbounds b hb)
      exact absurd (hnot.symm.trans hdeclared) Bool.false_ne_true
  obtain ⟨w, hw, _⟩ := h.first hp (Nat.le_refl _)
  obtain ⟨w', hw'⟩ := h.second hp hq hw
  have hunits : Yields (checkUnits options.maxDepth (p ++ q)) (s1.entered q)
      ((out ++ out').map (Core.Stmt.rename (h.earlier (Nat.le_refl _)))) w' := by
    rw [checkUnits_append, List.map_append]
    exact hw.andThen (hw'.andThen rfl)
  exact hnames.check hunits

theorem check_append_fails (h : Parts options p q out out' s1 s2 s3) {b : Name}
    (hb : b ∈ Surface.typeBounds q) (htrait : b.text ∈ Surface.traitNames p) :
    ∃ b ∈ Surface.typeBounds q, b.text ∈ Surface.traitNames p ∧
      ((new options).check (p ++ q)).1 = .error ⟨.unknownType b.text, b.span⟩ := by
  obtain ⟨hnew, _⟩ := h.units.checkUnits_traits
  rcases declareAdts_cases h.announceable with ⟨hdeclared, _⟩ | ⟨b', hb', hnot, hfails⟩
  · have hfalse := hnew b.text htrait
    exact absurd (hfalse.symm.trans (hdeclared b hb)) Bool.false_ne_true
  · have hmem := (h.declared_or hb').resolve_left (by rw [hnot]; exact Bool.false_ne_true)
    refine ⟨b', hb', hmem, ?_⟩
    have hprepare : Yields preparePrelude (new options) () (new options).prepared := rfl
    rw [check_eq, checkWithin, declareAdts_append]
    exact hprepare.thenFails ((h.names.thenFails hfails).bind _)

end Parts

/-- If a program and then another are checked on a new checker and both are accepted,
then the checker accepts them as one program, with the same core program up to the ids
of variables, tracers and bindings, unless a type parameter of a struct or an enum of
the second is bounded by a trait of the first; and then that bound is unknown. -/
theorem check_whole_program (options : Options) {p q : Program} (hp : Surface.Plain p)
    (hq : Surface.Plain q) {out out' : List Core.Stmt}
    (h : ((new options).session [p, q]).1 = [.ok out, .ok out']) :
    ((∀ b ∈ Surface.typeBounds q, b.text ∉ Surface.traitNames p) →
      ∃ ρ : Renaming, ((new options).check (p ++ q)).1 =
        .ok ((out ++ out').map (Core.Stmt.rename ρ))) ∧
    ((∃ b ∈ Surface.typeBounds q, b.text ∈ Surface.traitNames p) →
      ∃ b ∈ Surface.typeBounds q, b.text ∈ Surface.traitNames p ∧
        ((new options).check (p ++ q)).1 = .error ⟨.unknownType b.text, b.span⟩) := by
  obtain ⟨s₁, s₂, s₃, hparts⟩ := parts_of_session h
  refine ⟨fun hbounds => ⟨_, hparts.check_append hp hq hbounds⟩, ?_⟩
  rintro ⟨b, hb, htrait⟩
  exact hparts.check_append_fails hb htrait

/-- A trait for things that have a size. -/
def sized : Program :=
  [.trait ⟨"Sized", .dummy⟩ [⟨⟨"size", .dummy⟩, [.ident "Self" [] .dummy], .ident "Int" [] .dummy⟩]
    .dummy]

/-- A struct with a size, which is asked for. -/
def row : Program :=
  [.struct ⟨"Row", .dummy⟩ [] [⟨⟨"length", .dummy⟩, .ident "Int" [] .dummy⟩] .dummy,
   .impl ⟨"Sized", .dummy⟩ (.ident "Row" [] .dummy)
     [⟨⟨"size", .dummy⟩, [], [⟨⟨"r", .dummy⟩, .ident "Row" [] .dummy⟩],
       some (.ident "Int" [] .dummy),
       ⟨[.eval (.field (.ident "r" .dummy) (.name "length") .dummy) .dummy], .dummy⟩, .dummy⟩]
     .dummy,
   .bind (.name ⟨"three", .dummy⟩) none (.call (.ident "size" .dummy)
     [.construct ⟨"Row", .dummy⟩ none [⟨⟨"length", .dummy⟩, .int 3 .dummy⟩] .dummy] .dummy) .dummy]

/-- A struct around a thing that has a size. -/
def framed : Program :=
  [.struct ⟨"Frame", .dummy⟩ [⟨⟨"T", .dummy⟩, [⟨"Sized", .dummy⟩]⟩]
    [⟨⟨"inside", .dummy⟩, .ident "T" [] .dummy⟩] .dummy]

theorem exists_accepted (h : ((new options).session [p, q]).1.map (·.isOk) = [true, true]) :
    ∃ out out', ((new options).session [p, q]).1 = [.ok out, .ok out'] := by
  rw [session_pair] at h ⊢
  cases hp : ((new options).check p).1 with
  | error e =>
    rw [hp] at h
    cases h
  | ok out =>
    cases hq : (((new options).check p).2.check q).1 with
    | error e =>
      rw [hp, hq] at h
      cases h
    | ok out' => exact ⟨out, out', rfl⟩

/-- After the trait both of the others are accepted. With the trait in one program, the
first still is, and the second is not. -/
theorem check_whole_program_sized :
    (∃ out out', ((new {}).session [sized, row]).1 = [.ok out, .ok out'] ∧
      ∃ ρ : Renaming, ((new {}).check (sized ++ row)).1 =
        .ok ((out ++ out').map (Core.Stmt.rename ρ))) ∧
    (∃ out out', ((new {}).session [sized, framed]).1 = [.ok out, .ok out']) ∧
      ((new {}).check (sized ++ framed)).1 = .error ⟨.unknownType "Sized", .dummy⟩ := by
  obtain ⟨out, out', hrow⟩ : ∃ out out', ((new {}).session [sized, row]).1 = [.ok out, .ok out'] :=
    exists_accepted (by decide +kernel)
  obtain ⟨out₁, out₁', hframed⟩ :
      ∃ out out', ((new {}).session [sized, framed]).1 = [.ok out, .ok out'] :=
    exists_accepted (by decide +kernel)
  obtain ⟨b, hb, _, hfails⟩ :=
    (check_whole_program {} (by decide) (by decide) hframed).2 (by decide)
  obtain rfl : b = ⟨"Sized", .dummy⟩ := List.mem_singleton.mp hb
  exact ⟨⟨out, out', hrow, (check_whole_program {} (by decide) (by decide) hrow).1 (by decide)⟩,
    ⟨out₁, out₁', hframed⟩, hfails⟩

end Checker

end TraitCheck
