import TraitCheck.Proofs.RenamedWalk
import TraitCheck.Proofs.Sessions

/-!
Whole programs and sessions under a renaming. The built-in environment comes in
alike, and the names of all structs and enums are declared alike if neither run
knows more than the other. So programs that are checked one after the other give
answers that differ by the renaming (`Related.session`).
-/

namespace TraitCheck

variable {ρ : Renaming} {leeway : Checker.Leeway}
variable {r r' : Registry}

/-- Evidence for a named type, which the renaming leaves as it is. -/
theorem Registry.Mirrors.insert_named (h : r.Mirrors ρ r') (ty : String) (bound : Trait) :
    Registry.Mirrors ρ
      { r with evidence := r.evidence.insert (.named ty, bound) (.intrinsic bound ty) }
      { r' with evidence := r'.evidence.insert (.named ty, bound) (.intrinsic bound ty) } := by
  refine ⟨h.traits, fun con bound' => ?_⟩
  rw [Registry.lookup, Registry.lookup, Assoc.find?_insert, Assoc.find?_insert]
  have hcon : (con.rename ρ, bound') = (Con.named ty, bound) ↔ (con, bound') = (.named ty, bound) := by
    rw [Prod.mk.injEq, Prod.mk.injEq]
    exact and_congr_left' (by cases con <;> simp [Con.rename])
  by_cases heq : (con, bound') = (.named ty, bound)
  · rw [if_pos heq, if_pos (hcon.mpr heq)]
    rfl
  · rw [if_neg heq, if_neg (mt hcon.mp heq)]
    exact h.evidence con bound'

theorem Registry.Mirrors.insert_all (h : r.Mirrors ρ r') (bound : Trait) (types : List String) :
    let insert := fun (evidence : Assoc (Con × Trait) Evidence) ty =>
      evidence.insert (.named ty, bound) (.intrinsic bound ty)
    Registry.Mirrors ρ { r with evidence := types.foldl insert r.evidence }
      { r' with evidence := types.foldl insert r'.evidence } := by
  induction types generalizing r r' with
  | nil => exact h
  | cons ty rest ih => exact ih (h.insert_named ty bound)

namespace Checker

open Surface (Program Stmt)

/-! The built-in environment. -/

theorem modify_foldl {γ : Type} (f : Checker → γ → Checker) (list : List γ) :
    (modify fun s => list.foldl f s : CheckM Unit) = list.forM fun c => modify (f · c) := by
  induction list with
  | nil => rfl
  | cons c rest ih =>
    rw [List.forM, ← ih]
    rfl

/-- Additions that run alike one by one run alike together. -/
theorem follows_foldl {γ : Type} {f : Checker → γ → Checker} {list : List γ}
    (h : ∀ c ∈ list, Echoes ρ leeway (modify (f · c)) (modify (f · c)) id) :
    Echoes ρ leeway (modify fun s => list.foldl f s) (modify fun s => list.foldl f s)
      id := by
  have hforM : Echoes ρ leeway (list.forM fun c => modify (f · c))
      ((list.map id).forM fun c => modify (f · c)) id := .forM list h
  rwa [List.map_id, ← modify_foldl] at hforM

theorem follows_addType (hstrict : leeway.Strict) {name : String} (hname : Unnumbered name) :
    Echoes ρ leeway (modify (Prelude.addType · name)) (modify (Prelude.addType · name))
      id := by
  have hbind : Echoes ρ leeway (bindType name (.named name [])) _ id :=
    follows_bindType (by rintro _ ⟨⟩; exact .inl hname) (by rw [hstrict.types]; rintro ⟨⟩)
  rwa [Ty.rename_named] at hbind

theorem follows_addPlainFunc {f : String × Op × Ty} (hname : Unnumbered f.1)
    (hty : f.2.2.rename ρ = f.2.2) : Echoes ρ leeway (modify (Prelude.addPlainFunc · f))
      (modify (Prelude.addPlainFunc · f)) id := by
  obtain ⟨name, op, ty⟩ := f
  have hbind : Echoes ρ leeway (bindValue name { kind := .builtin op, ty }) _ id :=
    follows_bindValue (.inl hname)
  rwa [Value.rename, hty] at hbind

theorem follows_addGenericFunc {f : Prelude.GenericFunc} (hname : Unnumbered f.name)
    (hret : f.ret.map (Ty.rename ρ) = f.ret) : Echoes ρ leeway (modify (Prelude.addGenericFunc · f))
      (modify (Prelude.addGenericFunc · f)) id := by
  have hadd : (modify (Prelude.addGenericFunc · f) : CheckM Unit) = (do
      let var ← fresh "T" (.singleton f.bound)
      bindValue f.name { kind := .builtin f.op, ty := f.ty var, generics := [var] }) := rfl
  have hty : ∀ var, (f.ty var).rename ρ = f.ty (var.rename ρ) := by
    intro var
    have hgetD : (f.ret.getD (.var var)).rename ρ = f.ret.getD (.var (var.rename ρ)) := by
      cases hf : f.ret with
      | none => exact Ty.rename_var ρ var
      | some ty =>
        rw [hf] at hret
        exact Option.some.inj hret
    rw [Prelude.GenericFunc.ty, Prelude.GenericFunc.ty, Ty.rename_funcWith, List.map_replicate,
      Ty.rename_var, hgetD]
    simp [Obligation.rename]
  rw [hadd]
  refine .bind follows_fresh fun _ => ?_
  rw [← hty]
  exact follows_bindValue (.inl hname)

theorem follows_addBuiltInTrait {trait : Trait × List String} (hname : Unnumbered trait.1) :
    Echoes ρ leeway (modify (Prelude.addTrait · trait)) (modify (Prelude.addTrait · trait)) id := by
  obtain ⟨name, types⟩ := trait
  have hadd : (modify (Prelude.addTrait · (name, types)) : CheckM Unit) = (do
      let selfVar ← fresh "Self" (.singleton name)
      modify fun s => { s with registry :=
        { traits := s.registry.traits.insert name ⟨name, selfVar, ∅⟩
          evidence := types.foldl
            (fun evidence ty => evidence.insert (.named ty, name) (.intrinsic name ty))
            s.registry.evidence } }) := rfl
  rw [hadd]
  refine .bind follows_fresh fun selfVar =>
    .modify (fun s h => ⟨⟨h.types, ?_⟩, Nat.le_refl _, Nat.le_refl _, ?_⟩)
      fun s s' hrel _ => hrel.setRegistry ?_
  · exact Assoc.forall_insert ⟨.inl hname, .inl hname⟩ h.traits
  · intro other hother
    rw [Registry.isDeclared, Registry.trait?, Assoc.find?_insert]
    split
    · rfl
    · exact hother
  · have htraits : Registry.Mirrors ρ
        { s.registry with traits := s.registry.traits.insert name ⟨name, selfVar, ∅⟩ }
        { s'.registry with traits := s'.registry.traits.insert name ⟨name, selfVar.rename ρ, ∅⟩ } := by
      refine ⟨?_, hrel.registry.evidence⟩
      rw [Assoc.insert_mapVal, ← hrel.registry.traits]
      rfl
    exact htraits.insert_all name types

theorem follows_install (hstrict : leeway.Strict) :
    Echoes ρ leeway (modify Prelude.install) (modify Prelude.install) id := by
  have hinstall : (modify Prelude.install : CheckM Unit) = (do
      modify fun s => Prelude.types.foldl Prelude.addType s
      modify fun s => Prelude.traits.foldl Prelude.addTrait s
      modify fun s => Prelude.genericFuncs.foldl Prelude.addGenericFunc s
      modify fun s => Prelude.plainFuncs.foldl Prelude.addPlainFunc s
      modify ({ · with preludeInstalled := true })) := rfl
  have htypes : ∀ name ∈ Prelude.types, Unnumbered name := by decide
  have htraits : ∀ trait ∈ Prelude.traits, Unnumbered trait.1 := by decide
  have hgenerics : ∀ f ∈ Prelude.genericFuncs,
      Unnumbered f.name ∧ f.ret.map (Ty.rename ρ) = f.ret := by
    refine fun f hf => ⟨(by decide : ∀ f ∈ Prelude.genericFuncs, Unnumbered f.name) f hf, ?_⟩
    revert f
    simp [Prelude.genericFuncs]
  have hplains : ∀ f ∈ Prelude.plainFuncs, Unnumbered f.1 ∧ f.2.2.rename ρ = f.2.2 := by
    refine fun f hf => ⟨(by decide : ∀ f ∈ Prelude.plainFuncs, Unnumbered f.1) f hf, ?_⟩
    revert f
    simp [Prelude.plainFuncs]
  rw [hinstall]
  exact .bind (follows_foldl fun name hname => follows_addType hstrict (htypes name hname)) fun _ =>
    .bind (follows_foldl fun trait htrait => follows_addBuiltInTrait (htraits trait htrait)) fun _ =>
    .bind (follows_foldl fun f hf => follows_addGenericFunc (hgenerics f hf).1 (hgenerics f hf).2)
      fun _ =>
    .bind (follows_foldl fun f hf => follows_addPlainFunc (hplains f hf).1 (hplains f hf).2) fun _ =>
    .modify (fun _ h => ⟨⟨h.types, h.traits⟩, Nat.le_refl _, Nat.le_refl _, fun _ h => h⟩)
      fun _ _ hrel _ => { hrel with installed := rfl }

theorem follows_preparePrelude (hstrict : leeway.Strict) :
    Echoes ρ leeway preparePrelude preparePrelude id := by
  have hprepare : preparePrelude = (do
      let s ← get
      if s.options.prelude && !s.preludeInstalled then modify Prelude.install else pure ()) := by
    funext s
    change (Except.ok (), if (s.options.prelude && !s.preludeInstalled) = true then _ else _) =
      (if (s.options.prelude && !s.preludeInstalled) = true then modify Prelude.install
        else pure () : CheckM Unit) s
    split <;> rfl
  rw [hprepare]
  refine .get fun _ _ _ h => .ite ?_ (follows_install hstrict) (.pure rfl)
  rw [h.prelude, h.installed]

/-! Programs. -/

variable {room room' : Nat}

theorem follows_declareAdts (hstrict : leeway.Strict) {program : Program}
    (hnames : ∀ name ∈ Surface.writtenStmts program, ρ.Fixes name) :
    Echoes ρ leeway (declareAdts program) (declareAdts program) id := by
  induction program with
  | nil => exact .pure rfl
  | cons stmt rest ih =>
    rw [Surface.writtenStmts, List.forall_mem_append] at hnames
    have hrest := ih hnames.2
    cases stmt with
    | struct name generics fields span =>
      rw [Stmt.written, List.forall_mem_cons, Surface.genericNames, List.forall_mem_map] at hnames
      exact .bind (follows_declareAdt hstrict hnames.1.1 hnames.1.2) fun _ => hrest
    | enum name generics tags span =>
      rw [Stmt.written, List.forall_mem_append, List.forall_mem_cons, Surface.genericNames,
        List.forall_mem_map] at hnames
      exact .bind (follows_declareAdt hstrict hnames.1.1.1 hnames.1.1.2) fun _ => hrest
    | _ => exact hrest

theorem follows_checkUnits {program : Program}
    (hroom : leeway.Roomy room room' (Surface.nestingStmts program))
    (hnames : ∀ name ∈ Surface.writtenStmts program, ρ.Fixes name) :
    Echoes ρ leeway (checkUnits room program) (checkUnits room' program)
      (List.map (Core.Stmt.rename ρ)) := by
  induction program with
  | nil => exact .pure rfl
  | cons stmt rest ih =>
    rw [Surface.nestingStmts] at hroom
    rw [Surface.writtenStmts, List.forall_mem_append] at hnames
    refine .bind (follows_inUnit (follows_checkStmt hroom.left hnames.1)) fun _ =>
      .bind (ih hroom.right hnames.2) fun _ => .pure ?_
    rw [List.map_append]

theorem follows_checkWithin (hstrict : leeway.Strict) {program : Program}
    (hroom : leeway.Roomy room room' (Surface.nestingStmts program))
    (hnames : ∀ name ∈ Surface.writtenStmts program, ρ.Fixes name) :
    Echoes ρ leeway (checkWithin room program) (checkWithin room' program)
      (List.map (Core.Stmt.rename ρ)) :=
  .bind (follows_preparePrelude hstrict) fun _ =>
    .bind (follows_declareAdts hstrict hnames) fun _ =>
    follows_checkUnits hroom hnames

variable {s s' : Checker}

theorem Leeway.Strict.inside (hstrict : leeway.Strict) (hvars : s.unifier.next ≤ leeway.vars)
    (hbindings : s.scope.nextBinding ≤ leeway.bindings) : Inside leeway s :=
  ⟨hvars, hbindings, fun name _ => hstrict name⟩

/-- A program is checked alike, and leaves states that differ by the renaming, also
where it fails. -/
theorem Related.check (hrel : Related ρ leeway s s') (hplain : Plain ρ leeway s)
    (hstrict : leeway.Strict) (program : Program)
    (hroom : leeway.Roomy s.options.maxDepth s'.options.maxDepth (Surface.nestingStmts program))
    (hnames : ∀ name ∈ Surface.writtenStmts program, ρ.Fixes name)
    (hinside : Inside leeway (s.check program).2) : (s'.check program).1 =
        outcome (TypeError.rename ρ) (List.map (Core.Stmt.rename ρ)) (s.check program).1 ∧
      Plain ρ leeway (s.check program).2 ∧
        Related ρ leeway (s.check program).2 (s'.check program).2 := by
  rw [check_eq] at hinside
  rw [check_eq, check_eq]
  have hfollows := follows_checkWithin hstrict hroom hnames s hplain
  obtain ⟨hresult, hrel'⟩ := hfollows.agrees s' hrel hinside (.inl hstrict)
  exact ⟨hresult, hfollows.proceeds.1, hrel'⟩

/-! Sessions. -/

theorem related_new (hstrict : leeway.Strict) {options options' : Options}
    (hprelude : options'.prelude = options.prelude)
    (hlimit : leeway.aligned → options'.maxDepth = ρ.limit options.maxDepth)
    (hvars : ∀ id < leeway.vars, ρ.var id = id)
    (hbindings : ∀ id < leeway.bindings, ρ.binding id = id) :
    Related ρ leeway (new options) (new options') where
  prelude := hprelude
  limit := hlimit
  installed := rfl
  subst := rfl
  registry := ⟨rfl, fun _ _ => rfl⟩
  adts name := (hstrict name).symm
  scope := ⟨.root ⟨rfl, fun name => (hstrict.types name).symm, rfl⟩⟩
  functions := rfl
  vars id _ hid := (hvars id hid).trans (Nat.zero_add id).symm
  bindings id _ hid := (hbindings id hid).trans (Nat.zero_add id).symm

theorem plain_new (options : Options) : Plain ρ leeway (new options) :=
  ⟨⟨⟨by rintro _ _ ⟨⟩, by rintro _ _ ⟨⟩, by rintro _ ⟨⟩⟩, trivial⟩, by rintro _ _ ⟨⟩⟩

/-- Programs are checked alike one after the other. -/
theorem Related.session (hrel : Related ρ leeway s s') (hplain : Plain ρ leeway s)
    (hstrict : leeway.Strict) (haligned : leeway.aligned) (hlimit : ∀ limit, ρ.limit limit = limit)
    (programs : List Program)
    (hnames : ∀ program ∈ programs, ∀ name ∈ Surface.writtenStmts program, ρ.Fixes name)
    (hvars : (s.session programs).2.unifier.next ≤ leeway.vars)
    (hbindings : (s.session programs).2.scope.nextBinding ≤ leeway.bindings) :
    (s'.session programs).1 = (s.session programs).1.map
        (outcome (TypeError.rename ρ) (List.map (Core.Stmt.rename ρ))) ∧
      Plain ρ leeway (s.session programs).2 ∧
        Related ρ leeway (s.session programs).2 (s'.session programs).2 := by
  induction programs generalizing s s' with
  | nil => exact ⟨rfl, hplain, hrel⟩
  | cons program rest ih =>
    obtain ⟨hname, hrest⟩ := List.forall_mem_cons.mp hnames
    have hbalanced := balanced_session (s.check program).2 rest
    have hroom : leeway.Roomy s.options.maxDepth s'.options.maxDepth
        (Surface.nestingStmts program) :=
      .inl ⟨haligned, (hrel.limit haligned).trans (hlimit _)⟩
    obtain ⟨hanswer, hplain', hrel'⟩ := hrel.check hplain hstrict program hroom hname
      (hstrict.inside (hbalanced.next.trans hvars) (hbalanced.binding.trans hbindings))
    obtain ⟨hanswers, hfinal⟩ := ih hrel' hplain' hrest hvars hbindings
    exact ⟨congrArg₂ List.cons hanswer hanswers, hfinal⟩

end Checker

end TraitCheck
