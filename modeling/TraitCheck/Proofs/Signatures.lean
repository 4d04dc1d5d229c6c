import TraitCheck.Proofs.Shapes
import TraitCheck.Proofs.TypeNames

/-!
The two readings of a signature. The types that a function is written with are read
once over its type parameters, for those who call it, and once more in its body,
where a tracer stands for each of them. Wherever a function is declared the second
reading succeeds if the first one does, and with the type parameters back in place
of the tracers it is the first one (`declareSignature_readings_agree`). The scopes
of the two differ in the type parameters only (`Aligned`), since every tracer that
is already in scope was drawn before (`TracersDrawn`).
-/

namespace TraitCheck

/-! Types with other types in place of tracers. -/

namespace Ty

variable {map : Nat → Option Ty}

theorem untrace_concrete {con : Con} (hcon : ∀ id name, con ≠ .tracer id name) (ts : List Ty)
    (size : Nat) : (concrete con ts [] size).untrace map =
      concrete con (ts.map (untrace map)) [] size := by
  simp only [concrete, List.map_nil, List.append_nil]
  rw [untrace, untraceAll_eq_map]
  cases con with
  | tracer id name => exact absurd rfl (hcon id name)
  | named | tuple | func | array => rfl

theorem untrace_tuple (ts : List Ty) : (tuple ts).untrace map = tuple (ts.map (untrace map)) := by
  rw [tuple, tuple, List.length_map]
  exact untrace_concrete (by rintro _ _ ⟨⟩) ts 0

theorem untrace_func (ts : List Ty) (ret : Ty) :
    (func ts ret).untrace map = func (ts.map (untrace map)) (ret.untrace map) := by
  rw [func, func, funcWith, funcWith, List.length_map]
  exact untrace_concrete (by rintro _ _ ⟨⟩) (ret :: ts) 0

theorem untrace_tracer {id : Nat} {t : Ty} (hid : map id = some t) (name : String) :
    (tracer id name).untrace map = t := by
  rw [tracer, concrete, untrace]
  dsimp only
  rw [hid]
  rfl

/-- Tracers that are not replaced. -/
theorem untrace_eq_self {t : Ty} (h : ∀ id, t.Traces id → map id = none) : t.untrace map = t := by
  induction t with
  | var v => rfl
  | app head args ih =>
    have hargs : args.map (untrace map) = args := by
      conv_rhs => rw [← List.map_id args]
      exact List.map_congr_left fun t ht => ih t ht fun id hid => h id (.arg ht hid)
    obtain ⟨con, size, bounds⟩ := head
    rw [untrace, untraceAll_eq_map, hargs]
    cases con with
    | tracer id name =>
      dsimp only
      rw [h id .here]
      rfl
    | named | tuple | func | array => rfl

end Ty

/-! Types read in two scopes. -/

theorem Frame.lookupType_bare (name : String) (frames : List Frame) :
    lookupType name (frames.map bare) = lookupType name frames := by
  induction frames with
  | nil => rfl
  | cons frame below ih => rw [List.map_cons, lookupType, lookupType, ih]; rfl

theorem Scope.type?_bindType (scope : Scope) (name : String) (ty : Ty) (other : String) :
    (scope.bindType name ty).type? other = if other = name then some ty else scope.type? other := by
  rw [type?, type?, bindType, frames, frames, Frame.lookupType, Frame.lookupType,
    Assoc.find?_insert]
  split <;> rfl

/-- The types in the first scope are those of the second with variables in place of
tracers. -/
structure Scope.Aligned (map : Nat → Option Ty) (scope' scope : Scope) : Prop where
  vars : ∀ id t, map id = some t → ∃ v, t = .var v
  types : ∀ name, scope'.type? name = (scope.type? name).map (Ty.untrace map)

theorem AdtTable.arity_untrace {map : Nat → Option Ty}
    (hmap : ∀ id t, map id = some t → ∃ v, t = .var v) (adts : AdtTable) (name : String) (ty : Ty) :
    adts.arity name (ty.untrace map) = adts.arity name ty := by
  have hnamed : (ty.untrace map).isNamed name = ty.isNamed name := by
    cases ty with
    | var v => rfl
    | app head args =>
      obtain ⟨con, size, bounds⟩ := head
      cases con with
      | tracer id label =>
        rw [Ty.untrace]
        dsimp only
        cases hid : map id with
        | none => rfl
        | some t =>
          obtain ⟨v, rfl⟩ := hmap id t hid
          rfl
      | named | tuple | func | array => rfl
  rw [AdtTable.arity, AdtTable.arity, hnamed]

namespace Surface.TypeExpr

variable {map : Nat → Option Ty} {scope scope' : Scope}

mutual

theorem toTy_of_aligned (h : Scope.Aligned map scope' scope) (adts : AdtTable) :
    ∀ written : TypeExpr, written.toTy scope' adts = (written.toTy scope adts).map (Ty.untrace map)
  | .ident name args span => by
    rw [toTy, toTy, h.types name]
    cases scope.type? name with
    | none => rfl
    | some ty =>
      dsimp only [Option.map_some]
      rw [AdtTable.arity_untrace h.vars]
      split
      · rfl
      · split
        · rfl
        · rw [toTys_of_aligned h adts args]
          cases toTys scope adts args with
          | error e => rfl
          | ok types => exact congrArg Except.ok (Ty.untrace_concrete (by rintro _ _ ⟨⟩) types 0).symm
  | .tuple elems _ => by
    rw [toTy, toTy, toTys_of_aligned h adts elems]
    cases toTys scope adts elems with
    | error e => rfl
    | ok types => exact congrArg Except.ok (Ty.untrace_tuple types).symm
  | .func params ret _ => by
    rw [toTy, toTy, toTys_of_aligned h adts params, toTy_of_aligned h adts ret]
    cases toTys scope adts params with
    | error e => rfl
    | ok types =>
      cases ret.toTy scope adts with
      | error e => rfl
      | ok ty => exact congrArg Except.ok (Ty.untrace_func types ty).symm
  | .array elem size _ => by
    rw [toTy, toTy, toTy_of_aligned h adts elem]
    cases elem.toTy scope adts with
    | error e => rfl
    | ok ty => exact congrArg Except.ok (Ty.untrace_concrete (by rintro _ _ ⟨⟩) [ty] size).symm

theorem toTys_of_aligned (h : Scope.Aligned map scope' scope) (adts : AdtTable) :
    ∀ written : List TypeExpr,
      toTys scope' adts written = (toTys scope adts written).map (List.map (Ty.untrace map))
  | [] => rfl
  | t :: rest => by
    rw [toTys, toTys, toTy_of_aligned h adts t, toTys_of_aligned h adts rest]
    cases t.toTy scope adts with
    | error e => rfl
    | ok ty => cases toTys scope adts rest <;> rfl

end

end Surface.TypeExpr

namespace Checker

open Surface (FuncDecl Param Program Stmt)

variable {α : Type} {s s' : Checker} {map : Nat → Option Ty}

/-! Names of types along a run. -/

/-- The tracers among the types in scope have been drawn. -/
def TracersDrawn (s : Checker) : Prop :=
  ∀ name ty, s.scope.type? name = some ty → ∀ id, ty.Traces id → id < s.unifier.next

/-- All names stand for the same types, and no id is taken back. -/
structure SameTypes (s s' : Checker) : Prop where
  types : ∀ name, s'.scope.type? name = s.scope.type? name
  next : s.unifier.next ≤ s'.unifier.next

theorem TracersDrawn.same (h : TracersDrawn s) (hsame : SameTypes s s') : TracersDrawn s' :=
  fun name ty hty id hid =>
    lt_of_lt_of_le (h name ty ((hsame.types name).symm.trans hty) id hid) hsame.next

theorem Balanced.sameTypes (h : Balanced s s') (htop : s'.scope.top.types = s.scope.top.types) :
    SameTypes s s' := by
  refine ⟨fun name => ?_, h.next⟩
  rw [Scope.type?, Scope.type?, Scope.frames, Scope.frames, Frame.lookupType, Frame.lookupType,
    htop, ← Frame.lookupType_bare name s'.scope.below, h.below, Frame.lookupType_bare]

instance : StaysClosed SameTypes where
  refl := fun _ => ⟨fun _ => rfl, le_refl _⟩
  trans := fun _ _ _ h h' => ⟨fun name => (h'.types name).trans (h.types name),
    h.next.trans h'.next⟩
  stays := fun h => h.toBalanced.sameTypes h.types

theorem sameTypes_allows {name : String} : Allows SameTypes name :=
  fun _ _ _ _ => ⟨fun _ => rfl, le_refl _⟩

theorem sameTypes_bindDictionaries (span : Span) (name : String) (id : Nat) (bounds : List Trait) :
    Ends SameTypes (bindDictionaries span name id bounds) :=
  ends_bindDictionaries (fun _ _ => sameTypes_allows)
    fun _ _ => ends_provide fun _ _ _ => ⟨fun _ => rfl, le_refl _⟩

/-- A type is bound, with tracers that have been drawn. -/
theorem TracersDrawn.bindType (h : TracersDrawn s) {name : String} {ty : Ty}
    (hty : ∀ id, ty.Traces id → id < s.unifier.next) :
    TracersDrawn { s with scope := s.scope.bindType name ty } := by
  intro other found hfound
  change (s.scope.bindType name ty).type? other = some found at hfound
  rw [Scope.type?_bindType] at hfound
  split at hfound
  · cases hfound
    exact hty
  · exact h other found hfound

theorem TracersDrawn.bindTracer (h : TracersDrawn s) (name : String) :
    TracersDrawn { s.drawnTo (s.unifier.next + 1) with
      scope := s.scope.bindType name (.tracer s.unifier.next name) } := by
  have hdrawn : TracersDrawn (s.drawnTo (s.unifier.next + 1)) :=
    h.same ⟨fun _ => rfl, Nat.le_succ _⟩
  refine hdrawn.bindType fun _ hid => ?_
  cases hid with
  | here => exact Nat.lt_succ_self _
  | arg hmem _ => cases hmem

theorem TracersDrawn.bindTracers (h : TracersDrawn s) (span : Span) (generics : List Generic) :
    TracersDrawn ((Checker.bindTracers span generics).run.run s).2 := by
  induction generics generalizing s with
  | nil => exact h
  | cons g rest ih =>
    refine Ends.holds_bind (h.same (ends_freshId.rel s)) fun _ _ h1 => ?_
    obtain ⟨rfl, rfl⟩ := h1.freshId
    have htype := h.bindTracer g.name
    refine Ends.holds_bind htype fun _ _ h2 => ?_
    obtain rfl := h2.modify
    have hdicts := sameTypes_bindDictionaries span g.name s.unifier.next g.bounds
    refine Ends.holds_bind (htype.same (hdicts.rel _)) fun _ _ h3 => ?_
    have hrest := ih (htype.same (hdicts.yields h3))
    refine Ends.holds_bind hrest fun _ _ h4 => ?_
    rw [h4] at hrest
    exact hrest

theorem not_traces_adt (adt : Adt) (id : Nat) : ¬adt.ty.Traces id := by
  intro hid
  cases hid with
  | arg hmem hid =>
    rw [List.map_nil, List.append_nil] at hmem
    obtain ⟨v, _, rfl⟩ := List.mem_map.mp hmem
    cases hid

theorem TracersDrawn.prepared (h : TracersDrawn s) : TracersDrawn s.prepared := by
  rw [Checker.prepared]
  split
  · refine Prelude.install_rec h (fun _ h name _ => ?_) ?_ ?_ ?_ fun _ h => h
    · exact h.bindType fun id hid => (not_traces_adt ⟨name, [], .pending⟩ id hid).elim
    · exact fun _ h _ _ => h.same ⟨fun _ => rfl, Nat.le_succ _⟩
    · exact fun _ h _ _ => h.same ⟨fun _ => rfl, Nat.le_succ _⟩
    · exact fun _ h _ _ => h.same ⟨fun _ => rfl, le_refl _⟩
  · exact h

theorem TracersDrawn.declareAdts (h : TracersDrawn s) (program : Program) :
    TracersDrawn ((Checker.declareAdts program).run.run s).2 := by
  induction program generalizing s with
  | nil => exact h
  | cons stmt rest ih =>
    cases hadt : stmt.adt? with
    | none =>
      rw [declareAdts_cons_of_none hadt]
      exact ih h
    | some header =>
      rw [declareAdts_cons_of_adt hadt]
      have hfirst : TracersDrawn ((declareAdt header.1 header.2).run.run s).2 := by
        rcases declareAdt_ends s header.1 header.2 with hstays | ⟨_, heq⟩
        · exact h.same (hstays.toBalanced.sameTypes hstays.types)
        · rw [heq]
          have hnext : TracersDrawn (s.drawnTo (s.unifier.next + header.2.length)) :=
            h.same ⟨fun _ => rfl, Nat.le_add_right _ _⟩
          exact hnext.bindType fun id hid => (not_traces_adt _ id hid).elim
      refine Ends.holds_bind hfirst fun _ _ h1 => ?_
      rw [h1] at hfirst
      exact ih hfirst

/-- The states in which a function can be declared. The checker gets there from a new
one by whole statements, by steps that leave the frames as they are, and by going into
blocks and functions, where it binds values and puts tracers in place of type
parameters. -/
inductive Visited : Checker → Prop
  | new (options : Options) : Visited (new options)
  | prelude {s : Checker} : Visited s → Visited s.prepared
  | adts {s : Checker} (program : Program) : Visited s →
      Visited ((declareAdts program).run.run s).2
  | stmt {s : Checker} (room : Nat) (stmt : Stmt) : Visited s →
      Visited ((checkStmt room stmt).run.run s).2
  | step {s : Checker} {α : Type} {x : CheckM α} : Ends Stays x → Visited s →
      Visited (x.run.run s).2
  | block {s : Checker} : Visited s → Visited { s with scope := s.scope.push }
  | function {s : Checker} : Visited s → Visited { s with scope := s.scope.pushFunction }
  | tracers {s : Checker} (span : Span) (generics : List Generic) : Visited s →
      Visited ((bindTracers span generics).run.run s).2
  | value {s : Checker} (name : String) (value : Value) : Visited s →
      Visited { s with scope := s.scope.bindValue name value }
  | aside {s : Checker} (subst : Subst) (functions : List Returning) (registry : Registry) :
      Visited s → Visited { s with unifier := { s.unifier with subst }, functions, registry }

theorem Visited.tracersDrawn (h : Visited s) : TracersDrawn s := by
  induction h with
  | new options => rintro name ty ⟨⟩
  | prelude _ ih => exact ih.prepared
  | adts program _ ih => exact ih.declareAdts program
  | stmt room stmt _ ih =>
    exact ih.same (((passes_checkStmt room stmt).rel _).toBalanced.sameTypes
      ((sameNames_checkStmt room stmt).rel _).types)
  | step hstays _ ih => exact ih.same (hstays.lift.rel _)
  | tracers span generics _ ih => exact ih.bindTracers span generics
  | block _ ih | function _ ih | value _ _ _ ih | aside _ _ _ _ ih =>
    exact ih.same ⟨fun _ => rfl, le_refl _⟩

/-! The two scopes. -/

/-- The scope with a type variable for each type parameter. -/
def generic (scope : Scope) (generics : List Generic) : Scope :=
  generics.foldl (fun scope g => scope.bindType g.name (.var g.var)) scope

theorem Yields.generic {generics : List Generic} {a : Unit}
    (h : Yields (generics.forM fun g => bindType g.name (.var g.var)) s a s') :
    s' = { s with scope := Checker.generic s.scope generics } := by
  induction generics generalizing s with
  | nil => exact h.pure.2.symm
  | cons g rest ih =>
    rw [List.forM] at h
    obtain ⟨_, s1, h1, h⟩ := h.bind
    obtain rfl := h1.modify
    exact ih h

/-- What a signature is read from. -/
theorem Yields.readSignature {decl : FuncDecl} {sig : Signature}
    (h : Yields (Checker.declareSignature decl) s sig s') : List.Forall₂ (fun param ty =>
        param.ty.toTy (Checker.generic s.scope.push sig.generics) s.adts = .ok ty)
      decl.params sig.params ∧ ∀ ret, decl.ret = some ret →
      ret.toTy (Checker.generic s.scope.push sig.generics) s.adts = .ok sig.ret := by
  obtain ⟨generics, s1, h1, h⟩ := h.bind
  obtain ⟨_, rfl⟩ := h1.paramVars
  obtain ⟨s2, h, _⟩ := h.inScope
  obtain ⟨_, s3, h3, h⟩ := h.bind
  obtain rfl := h3.generic
  obtain ⟨params, s4, h4, h⟩ := h.bind
  obtain ⟨hparams, rfl⟩ := toTys_of_typesFor h4
  have hread := List.forall₂_map_left_iff.mp (forall₂_of_toTys hparams)
  cases hret : decl.ret with
  | none =>
    rw [hret] at h
    obtain ⟨_, s5, _, h⟩ := h.bind
    obtain ⟨rfl, _⟩ := h.pure
    exact ⟨hread, nofun⟩
  | some ret =>
    rw [hret] at h
    obtain ⟨ty, s5, h5, h⟩ := h.bind
    obtain ⟨hty, _⟩ := h5.typeFor
    obtain ⟨rfl, _⟩ := h.pure
    refine ⟨hread, ?_⟩
    rintro _ ⟨⟩
    exact hty

theorem Yields.tracers_cons {span : Span} {g : Generic} {rest : List Generic}
    {r : List BindingId × List (Nat × Ty)} (h : Yields (bindTracers span (g :: rest)) s r s') :
    ∃ s1 more, SameTypes { s.drawnTo (s.unifier.next + 1) with
        scope := s.scope.bindType g.name (.tracer s.unifier.next g.name) } s1 ∧
      Yields (bindTracers span rest) s1 more s' ∧ r.2 = (s.unifier.next, .var g.var) :: more.2 := by
  obtain ⟨id, s1, h1, h⟩ := h.bind
  obtain ⟨rfl, rfl⟩ := h1.freshId
  obtain ⟨_, s2, h2, h⟩ := h.bind
  obtain rfl := h2.modify
  obtain ⟨dicts, s3, h3, h⟩ := h.bind
  obtain ⟨more, s4, h4, h⟩ := h.bind
  obtain ⟨rfl, rfl⟩ := h.pure
  exact ⟨s3, more, (sameTypes_bindDictionaries _ _ _ _).yields h3, h4, rfl⟩

/-- Tracers are drawn one after the other, each for a type variable. -/
theorem Yields.tracers {span : Span} {generics : List Generic}
    {r : List BindingId × List (Nat × Ty)} (h : Yields (bindTracers span generics) s r s') :
    (r.2.map Prod.fst).Pairwise (· < ·) ∧ ∀ p ∈ r.2, s.unifier.next ≤ p.1 ∧ ∃ v, p.2 = .var v := by
  induction generics generalizing s r with
  | nil =>
    obtain ⟨rfl, _⟩ := h.pure
    exact ⟨.nil, nofun⟩
  | cons g rest ih =>
    obtain ⟨s1, more, hsame, h, hcons⟩ := h.tracers_cons
    obtain ⟨hordered, hmore⟩ := ih h
    have hlater : ∀ p ∈ more.2, s.unifier.next < p.1 := fun p hp =>
      lt_of_lt_of_le (Nat.lt_succ_self _) (hsame.next.trans (hmore p hp).1)
    rw [hcons, List.map_cons, List.pairwise_cons, List.forall_mem_cons]
    refine ⟨⟨fun _ hid => ?_, hordered⟩, ⟨le_refl _, g.var, rfl⟩, fun p hp => ?_⟩
    · obtain ⟨p, hp, rfl⟩ := List.mem_map.mp hid
      exact hlater p hp
    · exact ⟨(hlater p hp).le, (hmore p hp).2⟩

theorem aligned_bindTracers {span : Span} {generics : List Generic} {scope : Scope}
    {r : List BindingId × List (Nat × Ty)} (h : Yields (bindTracers span generics) s r s')
    (hmap : ∀ p ∈ r.2, map p.1 = some p.2) (halign : scope.Aligned map s.scope) :
    (generic scope generics).Aligned map s'.scope := by
  induction generics generalizing s r scope with
  | nil =>
    obtain ⟨_, rfl⟩ := h.pure
    exact halign
  | cons g rest ih =>
    obtain ⟨s1, more, hsame, h, hcons⟩ := h.tracers_cons
    rw [hcons] at hmap
    obtain ⟨hid, hmore⟩ := List.forall_mem_cons.mp hmap
    refine ih h hmore ⟨halign.vars, fun name => ?_⟩
    rw [hsame.types name, Scope.type?_bindType, Scope.type?_bindType, halign.types]
    split
    · rw [Option.map_some, Ty.untrace_tracer hid]
    · rfl

/-! Declarations. -/

/-- How the checker comes from the signature of a function to its body. The name of a
function is bound first, that of a method is not. -/
inductive Enters (decl : FuncDecl) (sig : Signature) (s : Checker) : Checker → Prop
  | function {s' : Checker} : Yields (do
      let id ← freshBinding
      bindValue decl.name.text
        { kind := .binding id, ty := sig.ty, generics := sig.generics.map (·.var) }) s () s' →
      Enters decl sig s s'
  | method : Enters decl sig s s

theorem Enters.sameTypes {decl : FuncDecl} {sig : Signature} (h : Enters decl sig s s') :
    SameTypes s s' ∧ s'.adts = s.adts := by
  cases h with
  | function h =>
    obtain ⟨id, s1, h1, h⟩ := h.bind
    obtain rfl := h.modify
    have hstays := ends_freshBinding.stays h1
    have hsame : SameTypes s s1 := hstays.lift
    exact ⟨⟨hsame.types, hsame.next⟩, hstays.adts⟩
  | method => exact ⟨refl_of SameTypes s, rfl⟩

theorem yields_typeFor {written : Surface.TypeExpr} {ty : Ty}
    (h : written.toTy s.scope s.adts = .ok ty) : Yields (typeFor written) s ty s := by
  rw [Yields, typeFor, Runs.run_get_bind, h]
  rfl

/-- A type that could be read over the type parameters. -/
theorem read_of_aligned {written : Surface.TypeExpr} {scope : Scope} {adts : AdtTable} {ty : Ty}
    (halign : scope.Aligned map s.scope) (hadts : s.adts = adts)
    (h : written.toTy scope adts = .ok ty) :
    ∃ ty', Yields (typeFor written) s ty' s ∧ ty = ty'.untrace map := by
  rw [Surface.TypeExpr.toTy_of_aligned halign] at h
  obtain ⟨ty', hty, rfl⟩ := Except.map_eq_ok h
  exact ⟨ty', yields_typeFor (hadts ▸ hty), rfl⟩

theorem Visited.bindParams (h : Visited s) {params : List Param} {ids : List BindingId}
    (hrun : Yields (Checker.bindParams params) s ids s') : Visited s' := by
  induction params generalizing s ids with
  | nil => exact hrun.pure.2 ▸ h
  | cons param rest ih =>
    obtain ⟨ty, s1, h1, hrun⟩ := hrun.bind
    obtain ⟨_, rfl⟩ := h1.typeFor
    obtain ⟨id, s1, h1, hrun⟩ := hrun.bind
    obtain ⟨more, s2, h2, hrun⟩ := hrun.bind
    obtain ⟨_, rfl⟩ := hrun.pure
    obtain ⟨_, rfl⟩ := h1.bindParam
    exact ih ((h.step ends_freshBinding).value param.name.text _) h2

theorem Visited.enters (h : Visited s) {decl : FuncDecl} {sig : Signature} {s1 s2 : Checker}
    (hsig : Yields (declareSignature decl) s sig s1) (henter : Enters decl sig s1 s2) :
    Visited s2 := by
  have hread := h.step (x := declareSignature decl) ends_declareSignature
  rw [hsig] at hread
  cases henter with
  | method => exact hread
  | function h =>
    obtain ⟨id, s', h1, h⟩ := h.bind
    have hdrawn := hread.step ends_freshBinding
    rw [h1] at hdrawn
    obtain rfl := h.modify
    exact hdrawn.value _ _

/-- Tracers that are drawn anew are not in scope. -/
theorem TracersDrawn.aligned (h : TracersDrawn s) (hsame : SameTypes s s')
    {tracers : List (Nat × Ty)}
    (hfresh : ∀ p ∈ tracers, s'.unifier.next ≤ p.1 ∧ ∃ v, p.2 = .var v) :
    s.scope.push.Aligned (Assoc.mk tracers).find? s'.scope := by
  refine ⟨fun id t ht => (hfresh _ (Assoc.mem_of_find? ht)).2, fun name => ?_⟩
  rw [hsame.types name]
  change s.scope.type? name = _
  cases hty : s.scope.type? name with
  | none => rfl
  | some ty =>
    refine congrArg some (Ty.untrace_eq_self fun id hid => ?_).symm
    cases hfind : (Assoc.mk tracers).find? id with
    | none => rfl
    | some t =>
      have hlt := lt_of_lt_of_le (h name ty hty id hid) hsame.next
      exact absurd hlt (Nat.not_lt.mpr (hfresh _ (Assoc.mem_of_find? hfind)).1)

/-- Wherever a function is declared, at the top, in blocks and in other functions: if its
signature can be read, then the type of each parameter can be read again where the body
begins, after the tracers and the parameters before it are bound, and so can the result
type. With the type parameters back in place of the tracers they are the types of the
signature. The body is again a place where functions can be declared. -/
theorem declareSignature_readings_agree (hs : Visited s) {decl : FuncDecl} {sig : Signature}
    {s₁ s₂ s₃ : Checker} {r : List BindingId × List (Nat × Ty)}
    (hsig : Yields (declareSignature decl) s sig s₁) (henter : Enters decl sig s₁ s₂)
    (htracers : Yields (bindTracers decl.span sig.generics)
      { s₂ with scope := s₂.scope.pushFunction } r s₃) :
    (∀ i param ids s₄, decl.params[i]? = some param →
      Yields (bindParams (decl.params.take i)) s₃ ids s₄ → ∃ ty, Yields (typeFor param.ty) s₄ ty s₄ ∧
        sig.params[i]? = some (ty.untrace (Assoc.mk r.2).find?)) ∧
    ∀ ids s₄, Yields (bindParams decl.params) s₃ ids s₄ → Visited s₄ ∧
      ∀ ret, decl.ret = some ret → ∃ ty, Yields (typeFor ret) s₄ ty s₄ ∧
        sig.ret = ty.untrace (Assoc.mk r.2).find? := by
  obtain ⟨hparams, hret⟩ := hsig.readSignature
  have hstays := ends_declareSignature.stays hsig
  have hfirst : SameTypes s s₁ := hstays.lift
  obtain ⟨hsame, hadts⟩ := henter.sameTypes
  have hstart : SameTypes s { s₂ with scope := s₂.scope.pushFunction } :=
    ⟨fun name => (hsame.types name).trans (hfirst.types name), hfirst.next.trans hsame.next⟩
  obtain ⟨hordered, hfresh⟩ := htracers.tracers
  have hnodup : (Assoc.mk r.2).keys.Nodup := hordered.imp ne_of_lt
  have hbody := aligned_bindTracers htracers (fun _ hp => Assoc.find?_of_mem hnodup hp)
    (hs.tracersDrawn.aligned hstart hfresh)
  have htraces := traces_bindTracers decl.span sig.generics
    (le_refl ({ s₂ with scope := s₂.scope.pushFunction } : Checker).unifier.next)
  rw [htracers] at htraces
  -- parameters change nothing about types
  have hread : ∀ {params ids s₄ written ty}, Yields (bindParams params) s₃ ids s₄ →
      written.toTy (generic s.scope.push sig.generics) s.adts = .ok ty →
        ∃ ty', Yields (typeFor written) s₄ ty' s₄ ∧ ty = ty'.untrace (Assoc.mk r.2).find? := by
    intro params ids s₄ written ty hrun hty
    have hlater := (ends_bindParams fun _ _ => sameTypes_allows).yields hrun
    have hpasses := (ends_bindParams fun _ _ => passes_allows).yields hrun
    have hinside := hpasses.inside (htraces.below_ne (List.cons_ne_nil _ _))
    refine read_of_aligned ⟨hbody.vars, fun name => ?_⟩ ?_ hty
    · rw [hlater.types name, hbody.types name]
    · rw [hinside.adts, htraces.adts]
      exact hadts.trans hstays.adts
  refine ⟨fun _ _ ids s₄ hparam hrun => ?_, fun _ _ hrun => ⟨?_, fun ret hsome => ?_⟩⟩
  · obtain ⟨hi, rfl⟩ := List.getElem?_eq_some_iff.mp hparam
    have hi' := lt_of_lt_of_eq hi hparams.length_eq
    obtain ⟨ty, hty, hsigned⟩ := hread hrun (hparams.get hi hi')
    refine ⟨ty, hty, ?_⟩
    rw [← hsigned]
    exact List.getElem?_eq_getElem hi'
  · have hinside := (hs.enters hsig henter).function.tracers decl.span sig.generics
    rw [htracers] at hinside
    exact hinside.bindParams hrun
  · exact hread hrun (hret ret hsome)

/-- A function of a type parameter with the name of a built-in type. -/
def pickInner : FuncDecl :=
  ⟨⟨"pick", .dummy⟩, [⟨⟨"Int", .dummy⟩, [⟨"Num", .dummy⟩]⟩],
    [⟨⟨"p", .dummy⟩, .tuple [.ident "T" [] .dummy, .ident "Int" [] .dummy] .dummy⟩],
    some (.func [.ident "T" [] .dummy] (.ident "Int" [] .dummy) .dummy), ⟨[], .dummy⟩, .dummy⟩

/-- Inside of a function over `T`, another one with a type parameter that hides a built-in
type. -/
theorem declareSignature_readings_agree_hidden :
    let start : Checker := (new {}).prepared
    let outer : Checker := ((bindTracers .dummy [⟨"T", ⟨0, "T", ∅⟩, []⟩]).run.run
      { start with scope := start.scope.pushFunction }).2
    ∃ sig s₁ r s₃, Yields (declareSignature pickInner) outer sig s₁ ∧
      Yields (bindTracers .dummy sig.generics) { s₁ with scope := s₁.scope.pushFunction } r s₃ ∧
        ∃ ty, Yields (typeFor (.tuple [.ident "T" [] .dummy, .ident "Int" [] .dummy] .dummy)) s₃
          ty s₃ ∧ sig.params[0]? = some (ty.untrace (Assoc.mk r.2).find?) := by
  intro start outer
  obtain ⟨⟨sig, r⟩, s₃, h⟩ := exists_yields (s := outer) (x := do
    let sig ← declareSignature pickInner
    modify fun s => { s with scope := s.scope.pushFunction }
    let r ← bindTracers .dummy sig.generics
    return (sig, r)) (by decide +kernel)
  obtain ⟨sig, s₁, h₁, h⟩ := h.bind
  obtain ⟨_, s₂, h₂, h⟩ := h.bind
  obtain rfl := h₂.modify
  obtain ⟨r, s₃, h₃, h⟩ := h.bind
  have hvisited : Visited outer := ((Visited.new {}).prelude.function).tracers _ _
  refine ⟨sig, s₁, r, s₃, h₁, h₃, ?_⟩
  exact (declareSignature_readings_agree hvisited h₁ .method h₃).1 0 _ [] s₃ rfl rfl

end Checker

end TraitCheck
