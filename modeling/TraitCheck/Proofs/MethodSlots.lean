import TraitCheck.Proofs.Announcements
import TraitCheck.Proofs.Construction
import TraitCheck.Proofs.DeclaredTypes
import TraitCheck.Proofs.Lowering
import TraitCheck.Proofs.Shadowing

/-!
Methods and the slots of dictionaries. A trait fixes a slot for each of its
methods, in the order in which they are written. The name of a method stands for
its slot (`Slotted`), an implementation fills the slots in that order, whatever
order its own methods are written in, and a call of the name reads the slot from a
dictionary for the trait (`check_dictionaries_agree`). The type of what is filled
in and the type of what is read are both the signature of the method at the type
of the dictionary, without the dictionary that the signature asks for.
-/

namespace TraitCheck

namespace Ty

variable {f : Ty → Ty} {t : Ty} {D D' : Set TyVar}

theorem Hom.over (hf : Hom f) (ht : t.Over D) (hD : ∀ v ∈ D, (f (.var v)).Over D') :
    (f t).Over D' := by
  induction t with
  | var v => exact hD v (ht v (mem_vars_var.mpr rfl))
  | app head args ih =>
    rw [hf.app]
    intro v hv
    obtain ⟨_, hmem, hv⟩ := mem_vars_app.mp hv
    obtain ⟨s, hs, rfl⟩ := List.mem_map.mp hmem
    exact ih s hs (fun w hw => ht w (mem_vars_app.mpr ⟨s, hs, hw⟩)) v hv

/-- A type without variables reads as itself. -/
theorem Hom.eq_of_closed (hf : Hom f) (ht : t.Over ∅) : f t = t :=
  hf.eq_self fun v hv => absurd (ht v hv) (Set.notMem_empty v)

theorem over_func {params : List Ty} {ret : Ty} (hparams : ∀ p ∈ params, p.Over D)
    (hret : ret.Over D) : (func params ret).Over D := by
  intro v hv
  obtain ⟨s, hs, hvs⟩ := mem_vars_app.mp hv
  rw [List.map_nil, List.append_nil] at hs
  rcases List.mem_cons.mp hs with rfl | hs
  · exact hret v hvs
  · exact hparams s hs v hvs

end Ty

/-! Signatures of methods. -/

/-- Every method has a name of its own, asks for a dictionary of the trait, and is
over `Self`. -/
structure TraitDecl.OverSelf (decl : TraitDecl) (name : Trait) : Prop where
  name_eq : decl.name = name
  nodup : decl.methods.keys.Nodup
  sigs : ∀ sig ∈ decl.methods.values, ∃ params ret,
    sig = .funcWith [⟨.var decl.selfVar, name⟩] params ret ∧
      (∀ p ∈ params, p.Over {decl.selfVar}) ∧ ret.Over {decl.selfVar}

namespace TraitDecl

variable {decl : TraitDecl} {name : Trait} {sig ty : Ty}
variable {f : Ty → Ty}

theorem slotType_funcWith (decl : TraitDecl) (ty : Ty) (os : List Obligation) (params : List Ty)
    (ret : Ty) : decl.slotType ty (.funcWith os params ret) =
      .func (params.map (·.substitute [(decl.selfVar.id, ty)]))
        (ret.substitute [(decl.selfVar.id, ty)]) := by
  rw [slotType, Ty.substitute, (Ty.hom_replace _).funcWith, Ty.asFunc?_funcWith]
  rfl

/-- What `Self` is read as goes into the slots. -/
theorem OverSelf.map_slotType (h : decl.OverSelf name) (hsig : sig ∈ decl.methods.values)
    (hf : Ty.Hom f) (ty : Ty) : f (decl.slotType ty sig) = decl.slotType (f ty) sig := by
  obtain ⟨params, ret, rfl, hparams, hret⟩ := h.sigs sig hsig
  have hself : ∀ {t : Ty}, t.Over {decl.selfVar} →
      f (t.substitute [(decl.selfVar.id, ty)]) = t.substitute [(decl.selfVar.id, f ty)] := by
    intro t ht
    refine hf.substitute fun v hv => ?_
    obtain rfl : v = decl.selfVar := ht v hv
    exact Option.isSome_iff_exists.mpr ⟨ty, if_pos rfl⟩
  rw [slotType_funcWith, slotType_funcWith, hf.func, hself hret, List.map_map]
  congr 1
  exact List.map_congr_left fun p hp => hself (hparams p hp)

/-- What a reference to a method asks for, and what it is apart from that. -/
theorem OverSelf.shape_instance (h : decl.OverSelf name) (hsig : sig ∈ decl.methods.values)
    (hf : Ty.Hom f) {shape : FuncShape}
    (hshape : (f (sig.substitute [(decl.selfVar.id, ty)])).asFunc? = some shape) :
    shape.obligations = [⟨f ty, name⟩] ∧
      Ty.func shape.params shape.ret = decl.slotType (f ty) sig := by
  rw [← h.map_slotType hsig hf]
  obtain ⟨params, ret, rfl, _, _⟩ := h.sigs sig hsig
  rw [(Ty.hom_substitute _).funcWith, hf.funcWith, Ty.asFunc?_funcWith] at hshape
  cases hshape
  have hself : (Ty.var decl.selfVar).substitute [(decl.selfVar.id, ty)] = ty := by
    have hfind : (Assoc.mk [(decl.selfVar.id, ty)]).find? decl.selfVar.id = some ty := if_pos rfl
    rw [Ty.substitute, Ty.replace_var, hfind]
    rfl
  refine ⟨?_, ?_⟩
  · rw [List.map_singleton, List.map_singleton, Obligation.map, Obligation.map, hself]
  · rw [slotType_funcWith, hf.func]

theorem OverSelf.closed_slotType (h : decl.OverSelf name) (hsig : sig ∈ decl.methods.values)
    (hty : ty.Over ∅) : (decl.slotType ty sig).Over ∅ := by
  obtain ⟨params, ret, rfl, hparams, hret⟩ := h.sigs sig hsig
  have hself : ∀ {t : Ty}, t.Over {decl.selfVar} →
      (t.substitute [(decl.selfVar.id, ty)]).Over ∅ := by
    intro t ht
    refine (Ty.hom_substitute _).over ht ?_
    rintro v rfl
    have hfind : (Assoc.mk [(decl.selfVar.id, ty)]).find? decl.selfVar.id = some ty := if_pos rfl
    rw [Ty.substitute, Ty.replace_var, hfind]
    exact hty
  rw [slotType_funcWith]
  refine Ty.over_func ?_ (hself hret)
  intro p hp
  obtain ⟨p, hp', rfl⟩ := List.mem_map.mp hp
  exact hself (hparams p hp')

end TraitDecl

/-! Unification with a type that has no variables. -/

namespace Unifier

variable {registry : Registry} {u u' : Unifier} {a b c : Ty}

/-- What is bound has no variables. -/
def Ground (u : Unifier) : Prop := ∀ id t, u.subst.find? id = some t → t.Over ∅

theorem Ground.acyclic (h : u.Ground) : u.subst.Acyclic := by
  refine ⟨fun _ => 0, fun id t hfind _ hw => ?_⟩
  obtain ⟨v, hv, _⟩ := Ty.mentions_iff.mp hw
  exact absurd (h id t hfind v hv) (Set.notMem_empty v)

/-- From one unifier to the other more is bound, and all of it to types without
variables. -/
structure Grounds (u u' : Unifier) : Prop where
  ground : u'.Ground
  extends_ : u.subst.Extends u'.subst

theorem Grounds.trans {u'' : Unifier} (h : Grounds u u') (h' : Grounds u' u'') : Grounds u u'' :=
  ⟨h'.ground, h.extends_.trans h'.extends_⟩

/-- What has become a type without variables stays it. -/
theorem Grounds.resolve_eq (h : Grounds u u') (hu : u.Ground) (ha : a.Over ∅)
    (hb : u.resolve b = a) : u'.resolve b = a := by
  rw [resolve, ← h.extends_.apply_apply hu.acyclic h.ground.acyclic]
  change u'.resolve (u.resolve b) = a
  rw [hb]
  exact (hom_resolved u').eq_of_closed ha

theorem Grounds.resolve_deref (h : Grounds u u') (hu : u.Ground) (b : Ty) :
    u'.resolve (u.subst.deref b) = u'.resolve b := by
  have happly := h.extends_.apply_apply hu.acyclic h.ground.acyclic
  rw [resolve, ← happly (u.subst.deref b), Subst.apply_deref hu.acyclic, happly]
  rfl

theorem grounds_bind (hu : u.Ground) {v : TyVar} (hv : u.subst.find? v.id = none) {head : Head}
    {args : List Ty} (hclosed : (Ty.app head args).Over ∅)
    (h : (bind registry v head args).run.run u = (.ok c, u')) :
    Grounds u u' ∧ u'.resolve (.var v) = .app head args := by
  have hsame : u.resolve (.app head args) = .app head args :=
    (hom_resolved u).eq_of_closed hclosed
  have hself : ¬(Ty.app head args).mentions v.id = true := by
    intro hmentions
    obtain ⟨w, hw, _⟩ := Ty.mentions_iff.mp hmentions
    exact absurd (hclosed w hw) (Set.notMem_empty w)
  rw [bind, Runs.run_get_bind, hsame] at h
  dsimp only at h
  rw [if_neg hself] at h
  split at h
  · cases h
  · cases h
    have hfind := Subst.find?_insert (σ := u.subst) hself
    have hground : (u.assign v.id (.app head args)).Ground := by
      intro id t ht
      rw [assign, hfind] at ht
      split at ht
      · cases ht
        exact hclosed
      · exact hu id t ht
    have hbound : (u.assign v.id (.app head args)).subst.find? v.id = some (.app head args) := by
      rw [assign, hfind, if_pos rfl]
    refine ⟨⟨hground, fun _ _ ht => ?_⟩, ?_⟩
    · rw [assign, hfind, if_neg]
      · exact ht
      · rintro rfl
        rw [hv] at ht
        cases ht
    · rw [resolve, Subst.apply_bound hground.acyclic hbound]
      exact (Subst.hom_apply _).eq_of_closed hclosed

theorem grounds_unifyAll {step : Ty → Ty → UnifyM Ty}
    (hstep : ∀ {a b c u u'}, u.Ground → a.Over ∅ → (step a b).run.run u = (.ok c, u') →
      Grounds u u' ∧ u'.resolve b = a)
    {as bs cs : List Ty} (hlength : as.length = bs.length) (hu : u.Ground)
    (has : ∀ a ∈ as, a.Over ∅) (h : (unifyAll step as bs).run.run u = (.ok cs, u')) :
    Grounds u u' ∧ bs.map u'.resolve = as := by
  induction as generalizing bs cs u with
  | nil =>
    cases bs with
    | nil =>
      cases h
      exact ⟨⟨hu, .refl _⟩, rfl⟩
    | cons b bs => cases hlength
  | cons a as ih =>
    cases bs with
    | nil => cases hlength
    | cons b bs =>
      obtain ⟨ha, has⟩ := List.forall_mem_cons.mp has
      rw [unifyAll, Runs.run_bind] at h
      split at h
      · rename_i c u1 hfirst
        obtain ⟨hgrounds1, hb⟩ := hstep hu ha hfirst
        rw [Runs.run_bind] at h
        split at h
        · rename_i cs' u2 hrest
          cases h
          obtain ⟨hgrounds2, hbs⟩ := ih (Nat.succ.inj hlength) hgrounds1.ground has hrest
          refine ⟨hgrounds1.trans hgrounds2, ?_⟩
          rw [List.map_cons, hbs, hgrounds2.resolve_eq hgrounds1.ground ha hb]
        · cases h
      · cases h

theorem grounds_unifyWithin (depth : Nat) (hu : u.Ground) (ha : a.Over ∅)
    (h : (unifyWithin registry depth a b).run.run u = (.ok c, u')) :
    Grounds u u' ∧ u'.resolve b = a := by
  induction depth generalizing a b c u u' with
  | zero => cases h
  | succ depth ih =>
    cases a with
    | var v => exact absurd (ha v (Ty.mem_vars_var.mpr rfl)) (Set.notMem_empty v)
    | app head as =>
      rw [unifyWithin, Runs.run_get_bind, Subst.deref_app] at h
      cases hb : u.subst.deref b with
      | var w =>
        rw [hb] at h
        obtain ⟨hgrounds, hw⟩ :=
          grounds_bind hu (Subst.find?_of_deref_eq_var hu.acyclic hb) ha h
        refine ⟨hgrounds, ?_⟩
        rw [← hgrounds.resolve_deref hu b, hb, hw]
      | app head' bs =>
        rw [hb] at h
        dsimp only at h
        split at h
        · rename_i hsame
          obtain ⟨rfl, hlength⟩ := hsame
          rw [Runs.run_bind] at h
          split at h
          · rename_i cs u1 hall
            cases h
            have has : ∀ a ∈ as, a.Over ∅ := fun a hmem v hv =>
              ha v (Ty.mem_vars_app.mpr ⟨a, hmem, hv⟩)
            obtain ⟨hgrounds, hbs⟩ := grounds_unifyAll ih hlength hu has hall
            refine ⟨hgrounds, ?_⟩
            rw [← hgrounds.resolve_deref hu b, hb, (hom_resolved _).app, hbs]
          · cases h
        · cases h

/-- What unifies with a type without variables, when nothing is bound yet, comes to
stand for that type. -/
theorem resolve_of_unify_closed (hempty : u.subst = {}) (ha : a.Over ∅)
    (h : (unify registry a b).run.run u = (.ok c, u')) : u'.resolve b = a := by
  have hground : u.Ground := by
    intro id t ht
    rw [hempty] at ht
    cases ht
  rw [unify, Runs.run_get_bind] at h
  exact (grounds_unifyWithin _ hground ha h).2

end Unifier

/-! Calls of methods. -/

/-- The expression calls a slot of a dictionary of the trait. The slot is that of the
method of this name, and the callee has the signature of the method at the type of
the dictionary. -/
def Core.Expr.CallsSlot (e : Core.Expr) (registry : Registry) (bound : Trait) (index : Nat)
    (name : String) : Prop :=
  ∃ decl sig dict ty args hasValue, registry.trait? bound = some decl ∧
    decl.methods.entries[index]? = some (name, sig) ∧ dict.ty = dictionaryType bound ty ∧
      e.kind = .call ⟨.field dict index, decl.slotType ty sig⟩ args hasValue

theorem Core.Expr.CallsSlot.of_traits {e : Core.Expr} {registry registry' : Registry}
    {bound : Trait} {index : Nat} {name : String} (h : e.CallsSlot registry' bound index name)
    (htraits : ∀ bound, registry'.trait? bound = registry.trait? bound) :
    e.CallsSlot registry bound index name := by
  obtain ⟨decl, sig, dict, ty, args, hasValue, hdecl, hcall⟩ := h
  exact ⟨decl, sig, dict, ty, args, hasValue, (htraits bound).symm.trans hdecl, hcall⟩

theorem Assoc.mem_values_of_getElem? {α β : Type} {table : Assoc α β} {i : Nat} {key : α}
    {value : β} (h : table.entries[i]? = some (key, value)) : value ∈ table.values :=
  List.mem_map_of_mem (List.mem_of_getElem? h)

namespace Checker

open Surface (Expr TypeExpr MethodSig FuncDecl Stmt Program)

variable {α : Type} {s s' : Checker} {names : List String}
variable {bound : Trait} {room index : Nat} {name : String} {e : Core.Expr} {span : Span}
  {o : Obligation} {value : Value}

/-- Every trait is over its `Self`. A name that stands for a method is that of the
method in the slot. -/
structure Slotted (s : Checker) : Prop where
  traits : ∀ bound decl, s.registry.trait? bound = some decl → decl.OverSelf bound
  methods : ∀ name value bound index, s.scope.peek? name = some value →
    value.kind = .method bound index → ∃ decl, s.registry.trait? bound = some decl ∧
      decl.methods.entries[index]? = some (name, value.ty) ∧ value.generics = [decl.selfVar]

theorem Rebinds.trait?_eq (h : Rebinds names s s') (bound : Trait) :
    s'.registry.trait? bound = s.registry.trait? bound := by
  rw [Registry.trait?, Registry.trait?, h.traits]

theorem Slotted.rebinds (h : Slotted s) (hrebinds : Rebinds names s s') : Slotted s' where
  traits := by
    intro bound decl hdecl
    rw [hrebinds.trait?_eq] at hdecl
    exact h.traits bound decl hdecl
  methods := by
    intro name value bound index hvalue hkind
    rw [hrebinds.trait?_eq]
    exact h.methods name value bound index (hrebinds.method name value bound index hvalue hkind)
      hkind

theorem Slotted.stay (h : Slotted s) (hstays : Stays s s') : Slotted s' := by
  have hrebinds : Rebinds [] s s' := hstays.lift
  exact h.rebinds hrebinds

theorem Slotted.mapTy_callsSlot (hs : Slotted s) (h : e.CallsSlot s.registry bound index name)
    {f : Ty → Ty} (hf : Ty.Hom f) : (e.mapTy f).CallsSlot s.registry bound index name := by
  obtain ⟨decl, sig, dict, ty, args, hasValue, hdecl, hslot, hdict, hcall⟩ := h
  have hsig := Assoc.mem_values_of_getElem? hslot
  obtain ⟨kind, resultTy⟩ := e
  obtain rfl : kind = _ := hcall
  refine ⟨decl, sig, dict.mapTy f, f ty, Core.mapTyExprs f args, hasValue, hdecl, hslot, ?_, ?_⟩
  · rw [Core.Expr.mapTy_ty, hdict, hf.dictionaryType]
  · rw [← (hs.traits bound decl hdecl).map_slotType hsig hf]
    rfl

/-- A dictionary has the type of its obligation as it is known where it is found. -/
theorem ty_dictionary {dict : Core.Expr} (h : Yields (dictionary span o) s dict s') :
    dict.ty = dictionaryType o.bound (s.unifier.resolve o.ty) ∧ s'.unifier = s.unifier := by
  obtain ⟨ty, s1, h1, h⟩ := h.bind
  replace h1 := h1.get_bind
  obtain ⟨rfl, rfl⟩ := h1.pure
  replace h := h.get_bind
  obtain ⟨evidence, s1, h1, h⟩ := h.bind
  obtain ⟨_, rfl⟩ := h1.ofExcept
  dsimp only at h
  split at h
  · obtain ⟨rfl, rfl⟩ := h.pure
    exact ⟨rfl, rfl⟩
  · obtain ⟨value, s1, h1, h⟩ := h.bind
    obtain ⟨_, rfl⟩ := h1.modifyGet
    obtain ⟨_, h⟩ := h.ensure_bind
    obtain ⟨rfl, rfl⟩ := h.pure
    exact ⟨rfl, rfl⟩

theorem ty_dictionaries {os : List Obligation} {dicts : List Core.Expr}
    (h : Yields (dictionaries span os) s dicts s') :
    dicts.map (·.ty) = os.map (fun o => dictionaryType o.bound (s.unifier.resolve o.ty)) ∧
      s'.unifier = s.unifier := by
  induction os generalizing dicts s s' with
  | nil =>
    obtain ⟨rfl, rfl⟩ := h.pure
    exact ⟨rfl, rfl⟩
  | cons o rest ih =>
    obtain ⟨dict, s1, h1, h⟩ := h.bind
    obtain ⟨hdict, hunifier⟩ := ty_dictionary h1
    obtain ⟨more, s2, h2, h⟩ := h.bind
    obtain ⟨hmore, hunifier'⟩ := ih h2
    obtain ⟨rfl, rfl⟩ := h.pure
    rw [hunifier] at hmore hunifier'
    rw [List.map_cons, List.map_cons, hdict, hmore]
    exact ⟨rfl, hunifier'⟩

/-- A call passes a dictionary for each obligation, at the type known by then. -/
theorem applied_of_closeCall {callee : Callee} {shape : FuncShape} {args : List Core.Expr}
    (h : Yields (closeCall callee shape args span) s e s') : ∃ dicts s1, dicts.map (·.ty) =
        shape.obligations.map (fun o => dictionaryType o.bound (s.unifier.resolve o.ty)) ∧
      Yields (applied callee dicts args (shape.params.map s.unifier.resolve)
        (s.unifier.resolve shape.ret) span) s1 e s' := by
  obtain ⟨dicts, s1, h1, h⟩ := h.bind
  obtain ⟨hdicts, hunifier⟩ := ty_dictionaries h1
  obtain ⟨_, s2, h2, h⟩ := h.bind
  replace h2 := h2.get_bind
  obtain ⟨rfl, rfl⟩ := h2.pure
  obtain ⟨_, h⟩ := h.ensure_bind
  replace h := h.get_bind
  rw [hunifier] at h
  exact ⟨dicts, s1, hdicts, h⟩

/-- What is called by its name is what the name stands for, with its type over new
variables. -/
theorem callee_of_named {r : Callee × Ty} (h : Yields (namedCallee name span) s r s')
    (hvalue : s.scope.peek? name = some value) :
    r.2 = value.ty.substitute (Subst.relabelling s.unifier.next value.generics) ∧
      (∀ op, value.kind = .builtin op → r.1 = .builtin op) ∧
      ∀ bound index, value.kind = .method bound index → r.1 = .method index := by
  obtain ⟨found, s1, h1, h⟩ := h.bind
  obtain ⟨hfound, rfl⟩ := h1.lookupValue.modifyGet
  obtain rfl : found = value := by
    rw [Scope.getValue_fst, hvalue] at hfound
    exact Option.some.inj hfound
  obtain ⟨ty, s2, h2, h⟩ := h.bind
  obtain ⟨rfl, rfl⟩ := h2.modifyGet
  cases hkind : found.kind with
  | binding id =>
    rw [hkind] at h
    obtain ⟨rfl, _⟩ := h.pure
    exact ⟨rfl, nofun, nofun⟩
  | builtin op =>
    rw [hkind] at h
    obtain ⟨rfl, _⟩ := h.pure
    exact ⟨rfl, fun _ heq => congrArg Callee.builtin (ValueKind.builtin.inj heq), nofun⟩
  | method bound index =>
    rw [hkind] at h
    obtain ⟨rfl, _⟩ := h.pure
    exact ⟨rfl, nofun, fun _ _ heq => congrArg Callee.method (ValueKind.method.inj heq).2⟩

/-- An accepted call of a method reads its slot. -/
theorem Slotted.callsSlot (hs : Slotted s) {hint : Option Ty} {nameSpan : Span} {args : List Expr}
    (h : Yields (checkExpr room hint (.call (.ident name nameSpan) args span)) s e s')
    (hvalue : s.scope.peek? name = some value) (hkind : value.kind = .method bound index) :
    e.CallsSlot s.registry bound index name := by
  obtain ⟨decl, hdecl, hslot, hgenerics⟩ := hs.methods name value bound index hvalue hkind
  have hsig := Assoc.mem_values_of_getElem? hslot
  have hover := hs.traits bound decl hdecl
  cases room with
  | zero =>
    rw [checkExpr] at h
    obtain ⟨_, _, _, h⟩ := h.bind
    exact h.fail.elim
  | succ room =>
    rw [checkExpr] at h
    obtain ⟨⟨callee, ty⟩, s1, h1, h⟩ := h.bind
    obtain ⟨rfl, _, hcallee⟩ := callee_of_named h1 hvalue
    obtain rfl : callee = .method index := hcallee bound index hkind
    obtain ⟨shape, s2, h2, h⟩ := h.bind
    rw [hgenerics, Subst.relabelling, Subst.relabelling] at h2
    obtain ⟨hobligations, htype⟩ :=
      hover.shape_instance hsig (Unifier.hom_resolved _) h2.openCall
    obtain ⟨_, s3, _, h⟩ := h.bind
    obtain ⟨values, s4, _, h⟩ := h.bind
    obtain ⟨dicts, s5, hdicts, h⟩ := applied_of_closeCall h
    rw [hobligations, List.map_singleton] at hdicts
    obtain ⟨dict, rfl, hdict⟩ := List.map_eq_singleton_iff.mp hdicts
    obtain ⟨rfl, _⟩ := h.pure
    refine ⟨decl, value.ty, dict, _, values, !(s4.unifier.resolve shape.ret).isVoid, hdecl, hslot,
      hdict, ?_⟩
    rw [← hover.map_slotType hsig (Unifier.hom_resolved _), ← htype,
      (Unifier.hom_resolved _).func]

/-! Declarations of traits. -/

variable {decl : TraitDecl}

/-- The method has its signature as written, with what it asks its caller for. -/
def ReadsAs (scope : Scope) (adts : AdtTable) (o : Obligation) (method : MethodSig)
    (entry : String × Ty) : Prop :=
  entry.1 = method.name.text ∧ ∃ params ret,
    TypeExpr.toTys scope adts method.params = .ok params ∧
      method.ret.toTy scope adts = .ok ret ∧ entry.2 = .funcWith [o] params ret

/-- From one state to the other the trait is declared, with its methods in the order
in which they are written, and the names of the methods are bound to their slots. -/
structure DeclaresTrait (s s' : Checker) (name : Trait) (methods : List MethodSig)
    (decl : TraitDecl) : Prop where
  new : s.registry.trait? name = none
  traits : s'.registry.traits = s.registry.traits.insert name decl
  overSelf : decl.OverSelf name
  asWritten : List.Forall₂ (ReadsAs (s.scope.push.bindType "Self" (.var decl.selfVar)) s.adts
    ⟨.var decl.selfVar, name⟩) methods decl.methods.entries
  slots : ∀ i key sig, decl.methods.entries[i]? = some (key, sig) →
    s'.scope.peek? key = some { kind := .method name i, ty := sig, generics := [decl.selfVar] }
  others : ∀ key, key ∉ decl.methods.keys → s'.scope.peek? key = s.scope.peek? key

theorem readsAs_addMethods {selfVar : TyVar} {sigs : List MethodSig}
    {methods out : Assoc String Ty} (h : Yields (addMethods bound selfVar methods sigs) s out s') :
    ∃ more, out.entries = methods.entries ++ more ∧
      List.Forall₂ (ReadsAs s.scope s.adts ⟨.var selfVar, bound⟩) sigs more := by
  induction sigs generalizing methods with
  | nil =>
    obtain ⟨rfl, _⟩ := h.pure
    exact ⟨[], (List.append_nil _).symm, .nil⟩
  | cons method rest ih =>
    obtain ⟨hnew, h⟩ := h.ensure_bind
    obtain ⟨params, s2, h2, h⟩ := h.bind
    obtain ⟨hparams, rfl⟩ := toTys_of_typesFor h2
    obtain ⟨ret, s3, h3, h⟩ := h.bind
    obtain ⟨hret, rfl⟩ := h3.typeFor
    obtain ⟨more, hentries, hmore⟩ := ih h
    refine ⟨(method.name.text, .funcWith [⟨.var selfVar, bound⟩] params ret) :: more, ?_,
      .cons ⟨rfl, params, ret, hparams, hret, rfl⟩ hmore⟩
    rw [hentries, Assoc.entries_insert methods _ hnew, List.append_assoc]
    rfl

theorem peek?_bindMethods (bound : Trait) (selfVar : TyVar) (index : Nat)
    {methods : List (String × Ty)} (hnodup : (methods.map Prod.fst).Nodup) (s : Checker) :
    let s' := ((bindMethods bound selfVar index methods).run.run s).2
    s'.registry = s.registry ∧
    (∀ i key sig, methods[i]? = some (key, sig) → s'.scope.peek? key =
      some { kind := .method bound (index + i), ty := sig, generics := [selfVar] }) ∧
    ∀ key, key ∉ methods.map Prod.fst → s'.scope.peek? key = s.scope.peek? key := by
  induction methods generalizing index s with
  | nil => exact ⟨rfl, by rintro _ _ _ ⟨⟩, fun _ _ => rfl⟩
  | cons method rest ih =>
    obtain ⟨name, ty⟩ := method
    obtain ⟨hname, hnodup⟩ := List.nodup_cons.mp hnodup
    let value : Value := { kind := .method bound index, ty, generics := [selfVar] }
    obtain ⟨hregistry, hslots, hothers⟩ :=
      ih (index + 1) hnodup { s with scope := s.scope.bindValue name value }
    refine ⟨hregistry, fun i key sig hi => ?_, fun key hkey => ?_⟩
    · cases i with
      | zero =>
        cases hi
        refine (hothers name hname).trans ?_
        exact (s.scope.peek?_bindValue name value name).trans (if_pos rfl)
      | succ i =>
        rw [← Nat.add_assoc, Nat.add_right_comm]
        exact hslots i key sig hi
    · obtain ⟨hne, hrest⟩ := not_or.mp (mt List.mem_cons.mpr hkey)
      refine (hothers key hrest).trans ?_
      exact (s.scope.peek?_bindValue name value key).trans (if_neg hne)

/-- A trait is declared, or at most variables are drawn. -/
theorem declareTrait_ends (hover : TypesOver s ∅ ∅ s.scope) (name : Name)
    (methods : List MethodSig) : Stays s ((declareTrait name methods).run.run s).2 ∨
      ∃ decl, DeclaresTrait s ((declareTrait name methods).run.run s).2 name.text methods decl := by
  let P := fun s' => Stays s s' ∨ ∃ decl, DeclaresTrait s s' name.text methods decl
  refine Ends.holds_bind (P := P) (.inl (refl_of Stays s)) fun _ s1 h1 => ?_
  obtain ⟨rfl, rfl⟩ := h1.get
  refine Ends.holds_bind (P := P) (.inl ((EndsIn.ensure rfl).rel s)) fun _ s1 h1 => ?_
  obtain ⟨_, rfl⟩ := h1.ensure
  refine Ends.holds_bind (P := P) (.inl (ends_fresh.rel s)) fun selfVar _ h1 => ?_
  have hfresh := ends_fresh.stays h1
  obtain ⟨_, rfl⟩ := h1.fresh
  have hstays := trans_of Stays hfresh ((ends_traitMethods name.text selfVar methods).rel _)
  refine Ends.holds_bind (P := P) (.inl hstays) fun table s2 hmethods => ?_
  rw [hmethods] at hstays
  have hself : TypesOver (s.drawnTo (s.unifier.next + 1)) ∅ ∅ s.scope := hover
  obtain ⟨rfl, hnodup, hsigs⟩ := hmethods.methodsFor hself
  refine Ends.holds_bind (P := P) (.inl hstays) fun _ s2 h2 => ?_
  obtain ⟨rfl, rfl⟩ := h2.get
  refine Ends.holds_bind (P := P) (.inl (trans_of Stays hstays (ends_declare.rel _))) ?_
  intro registry s2 h2
  obtain ⟨hdeclare, rfl⟩ := h2.ofExcept
  obtain ⟨hnew, rfl⟩ := Registry.eq_of_declare hdeclare
  obtain ⟨s3, hbody, _⟩ := hmethods.inScope
  obtain ⟨_, s4, h4, hbody⟩ := hbody.bind
  obtain rfl := h4.modify
  obtain ⟨more, hentries, hreads⟩ := readsAs_addMethods hbody
  obtain rfl : table.entries = more := hentries
  obtain ⟨hregistry, hslots, hothers⟩ := peek?_bindMethods name.text selfVar 0 hnodup
    { s.drawnTo (s.unifier.next + 1) with
      registry := { s.registry with
        traits := s.registry.traits.insert name.text ⟨name.text, selfVar, table⟩ } }
  simp only [Nat.zero_add] at hslots
  refine .inr ⟨⟨name.text, selfVar, table⟩, ?_, congrArg Registry.traits hregistry, ?_, hreads,
    hslots, hothers⟩
  · exact Option.isNone_iff_eq_none.mp (Option.isSome_eq_false_iff.mp hnew)
  · refine ⟨rfl, hnodup, fun sig hsig => ?_⟩
    obtain ⟨params, ret, heq, hparams, hret⟩ := hsigs sig hsig
    exact ⟨params, ret, heq, fun p hp => (hparams p hp).isOver, hret.isOver⟩

theorem DeclaresTrait.trait?_eq {name : Trait} {methods : List MethodSig}
    (h : DeclaresTrait s s' name methods decl) (bound : Trait) :
    s'.registry.trait? bound = if bound = name then some decl else s.registry.trait? bound := by
  rw [Registry.trait?, h.traits, Assoc.find?_insert]
  rfl

theorem Slotted.declareTrait (h : Slotted s) {name : Trait} {methods : List MethodSig}
    {decl : TraitDecl} (hdeclares : DeclaresTrait s s' name methods decl) : Slotted s' where
  traits := by
    intro bound decl' hdecl'
    rw [hdeclares.trait?_eq] at hdecl'
    split at hdecl'
    · rename_i heq
      cases hdecl'
      exact heq ▸ hdeclares.overSelf
    · exact h.traits bound decl' hdecl'
  methods := by
    intro key value bound index hvalue hkind
    rw [hdeclares.trait?_eq]
    by_cases hkey : key ∈ decl.methods.keys
    · -- the name is one of the new ones, and stands for what it was bound to
      obtain ⟨⟨_, sig⟩, hmem, rfl⟩ := List.mem_map.mp hkey
      obtain ⟨i, hi⟩ := List.mem_iff_getElem?.mp hmem
      rw [hdeclares.slots i _ sig hi] at hvalue
      cases hvalue
      cases hkind
      exact ⟨decl, if_pos rfl, hi, rfl⟩
    · rw [hdeclares.others key hkey] at hvalue
      obtain ⟨decl', hdecl', hslot⟩ := h.methods key value bound index hvalue hkind
      refine ⟨decl', (if_neg ?_).trans hdecl', hslot⟩
      rintro rfl
      rw [hdeclares.new] at hdecl'
      cases hdecl'

/-! Whole programs. -/

theorem Slotted.checkStmt (h : Slotted s) (hover : TypesOver s ∅ ∅ s.scope) (room : Nat)
    (stmt : Stmt) : Slotted ((Checker.checkStmt room stmt).run.run s).2 := by
  cases htrait : stmt.trait? with
  | none => exact h.rebinds ((rebinds_checkStmt htrait).rel s)
  | some name =>
    cases stmt with
    | trait name methods span =>
      rw [Checker.checkStmt]
      refine Ends.holds_bind (h.stay (ends_requireTopLevel.rel s)) ?_
      intro _ s1 h1
      obtain ⟨_, rfl⟩ := h1.requireTopLevel
      have hend : Slotted ((Checker.declareTrait name methods).run.run s).2 := by
        rcases declareTrait_ends hover name methods with hstays | ⟨decl, hdeclares⟩
        · exact h.stay hstays
        · exact h.declareTrait hdeclares
      refine Ends.holds_bind hend fun _ _ h2 => ?_
      rw [h2] at hend
      exact hend
    | _ => cases htrait

theorem Slotted.setSubst (h : Slotted s) (subst : Subst) :
    Slotted { s with unifier := { s.unifier with subst } } :=
  { h with }

theorem Slotted.checkUnit (h : Slotted s) (hover : TypesOver s ∅ ∅ s.scope) (room : Nat)
    (stmt : Stmt) : Slotted ((inUnit (Checker.checkStmt room stmt)).run.run s).2 := by
  have hbody := (h.setSubst {}).checkStmt (by exact hover) room stmt
  refine Slotted.setSubst ?_ s.unifier.subst
  refine Ends.holds_bind (x := Checker.checkStmt room stmt) hbody fun _ _ h1 => ?_
  rw [h1] at hbody
  exact hbody

theorem rebinds_declareAdts (program : Program) : Ends (Rebinds []) (declareAdts program) := by
  refine ends_declareAdts fun name params => .of_rel fun s => ?_
  rcases declareAdt_ends s name params with hstays | ⟨_, heq⟩
  · exact hstays.lift
  · rw [heq]
    exact .of_peek (fun _ => rfl) rfl id

/-- Nothing that is built in is a method. -/
theorem slotted_new (options : Options) : Slotted (new options).prepared := by
  let P := fun s : Checker =>
    (∀ bound decl, s.registry.trait? bound = some decl → decl.OverSelf bound) ∧
      ∀ name value bound index, s.scope.peek? name = some value → value.kind ≠ .method bound index
  have hslotted : ∀ {s}, P s → Slotted s := by
    refine fun h => ⟨h.1, fun name value bound index hvalue hkind => ?_⟩
    exact absurd hkind (h.2 name value bound index hvalue)
  have hnew : P (new options) := ⟨by rintro _ _ ⟨⟩, by rintro _ _ _ _ ⟨⟩⟩
  have hbind : ∀ {s : Checker} {unifier : Unifier} (name : String) (value : Value), P s →
      (∀ bound index, value.kind ≠ .method bound index) →
        P { s with unifier, scope := s.scope.bindValue name value } := by
    refine fun {s} unifier name value h hvalue => ⟨h.1, fun other found bound index hfound => ?_⟩
    rw [Scope.peek?_bindValue] at hfound
    split at hfound
    · cases hfound
      exact hvalue bound index
    · exact h.2 other found bound index hfound
  rw [prepared]
  split
  · refine hslotted (Prelude.install_rec hnew (fun _ h _ _ => h) ?_ ?_ ?_ fun _ h => h)
    · exact fun s h _ _ =>
        ⟨Assoc.forall_insert ⟨rfl, List.nodup_nil, by rintro _ ⟨⟩⟩ h.1, h.2⟩
    · exact fun s h f _ => hbind f.name _ h (by simp)
    · exact fun _ h f _ => hbind f.1 _ h (by simp)
  · exact hslotted hnew

theorem Slotted.check {stmts : List Stmt} (h : Slotted s.prepared)
    (htabled : Tabled stmts s.prepared) (program : Program) : Slotted (s.check program).2 := by
  have hstart : Tabled (stmts ++ program) s.prepared := htabled.mono (List.subset_append_left _ _)
  have hnamed := h.rebinds ((rebinds_declareAdts program).rel s.prepared)
  have hroot := (hstart.declareAdts program).1
  rw [check_prepared]
  refine Ends.holds_bind hnamed fun _ _ h1 => ?_
  rw [h1] at hnamed hroot
  exact (hroot.keeps_checkUnits (hstart.announced h1) (List.subset_append_right _ _) _
    (List.Subset.refl _) (fun _ stmt ht hs => hs.checkUnit ht.typesOver _ stmt) hnamed).2

theorem Slotted.session {stmts : List Stmt} (h : Slotted s.prepared)
    (htabled : Tabled stmts s.prepared) (programs : List Program) :
    Slotted (s.session programs).2.prepared := by
  induction programs generalizing s stmts with
  | nil => exact h
  | cons program rest ih =>
    have hcheck := (htabled.check program).1
    have hslotted := h.check htabled program
    rw [← hcheck.prepared_eq] at hslotted hcheck
    exact ih hslotted hcheck

/-! Dictionaries. -/

variable {ty : Ty} {impl : Impl} {methods : List FuncDecl} {out : List Core.Stmt}

/-- The function is what the declaration is checked to in a state that differs at most
in names of dictionaries, with types that may be read further. -/
def Compiles (s : Checker) (method : FuncDecl) (func : Core.FuncExpr) : Prop :=
  ∃ s₀, Rebinds [] s s₀ ∧ ∃ room sig s₁ checked ty s₂ f,
    Yields (declareSignature method) s₀ sig s₁ ∧
      Yields (checkFunc room sig method) s₁ (checked, ty) s₂ ∧ Ty.Hom f ∧ func = checked.mapTy f

/-- The field is the function that one of the methods is checked to, the one with the
name of the entry. Its type is the signature of the entry at the type. -/
def Fulfils (s : Checker) (decl : TraitDecl) (ty : Ty) (methods : List FuncDecl)
    (entry : String × Ty) (field : Core.Expr) : Prop :=
  ∃ method ∈ methods, method.name.text = entry.1 ∧ ∃ func, Compiles s method func ∧
    field = ⟨.func func, decl.slotType ty entry.2⟩

/-- The statements bind a dictionary of the trait for the type, with one field for each
slot. The methods that are written have the names of those of the trait, each once. -/
structure Implemented (s : Checker) (bound : Trait) (written : TypeExpr) (methods : List FuncDecl)
    (out : List Core.Stmt) (decl : TraitDecl) (ty : Ty) : Prop where
  declared : s.registry.trait? bound = some decl
  overSelf : decl.OverSelf bound
  target : written.toTy s.scope s.adts = .ok ty
  names : (methods.map (·.name.text)).Perm decl.methods.keys
  dictionary : ∃ id fields, out = [.bind id ⟨.object none fields, dictionaryType bound ty⟩] ∧
    List.Forall₂ (Fulfils s decl ty methods) decl.methods.entries fields

theorem Compiles.of_rebinds {method : FuncDecl} {func : Core.FuncExpr}
    (h : Compiles s' method func) (hrebinds : Rebinds [] s s') : Compiles s method func := by
  obtain ⟨s0, hrebinds0, hchecked⟩ := h
  exact ⟨s0, hrebinds.trans hrebinds0, hchecked⟩

theorem Compiles.mapTy {method : FuncDecl} {func : Core.FuncExpr} (h : Compiles s method func)
    {g : Ty → Ty} (hg : Ty.Hom g) : Compiles s method (func.mapTy g) := by
  obtain ⟨s0, hrebinds, room, sig, s1, checked, ty, s2, f, hsig, hfunc, hf, rfl⟩ := h
  refine ⟨s0, hrebinds, room, sig, s1, checked, ty, s2, g ∘ f, hsig, hfunc, hg.comp hf, ?_⟩
  rw [Core.FuncExpr.mapTy_mapTy]

/-- A method that fits a type without variables gets that type. -/
theorem eq_of_fit {expected found : Ty} (hexpected : expected.Over ∅)
    (h : Yields (isolated do
      let _ ← unify span expected ty
      resolve ty) s found s') : found = expected := by
  obtain ⟨s1, hbody, _⟩ := h.isolated
  obtain ⟨_, s2, h2, hbody⟩ := hbody.bind
  obtain ⟨u, hunify, rfl⟩ := h2.unify
  replace hbody := hbody.get_bind
  obtain ⟨rfl, _⟩ := hbody.pure
  exact Unifier.resolve_of_unify_closed rfl hexpected hunify

theorem slotType_of_methodType {sig : Ty} (h : Yields (impl.methodType sig span) s ty s') :
    ty = impl.decl.slotType impl.target sig ∧ s = s' := by
  rw [TraitDecl.slotType]
  rw [Impl.methodType] at h
  cases hshape : (sig.substitute [(impl.decl.selfVar.id, impl.target)]).asFunc? with
  | none =>
    rw [hshape] at h
    exact h.fail.elim
  | some shape =>
    rw [hshape] at h
    obtain ⟨rfl, rfl⟩ := h.pure
    exact ⟨rfl, rfl⟩

/-- What the method has come to: a function with the type of its slot. -/
def MethodChecked (s : Checker) (impl : Impl) (method : FuncDecl) (field : Core.Expr) : Prop :=
  ∃ sig func, impl.decl.methods.find? method.name.text = some sig ∧ Compiles s method func ∧
    field = ⟨.func func, impl.decl.slotType impl.target sig⟩

theorem methodsChecked_of_checkMethods (hover : impl.decl.OverSelf bound)
    (hclosed : impl.target.Over ∅) {done out : Assoc String Core.Expr}
    (h : Yields (checkMethods room impl done methods) s out s') (hnodup : done.keys.Nodup) :
    out.keys.Nodup ∧ ∃ checked : List (FuncDecl × Core.Expr), checked.map Prod.fst = methods ∧
      (∀ c ∈ checked, MethodChecked s impl c.1 c.2) ∧
        out.entries = done.entries ++ checked.map fun c => (c.1.name.text, c.2) := by
  induction methods generalizing s done with
  | nil =>
    rw [checkMethods] at h
    obtain ⟨rfl, rfl⟩ := h.pure
    exact ⟨hnodup, [], rfl, by nofun, (List.append_nil _).symm⟩
  | cons method rest ih =>
    rw [checkMethods] at h
    split at h
    · exact h.fail.elim
    · rename_i declared hfind
      obtain ⟨hnew, h⟩ := h.ensure_bind
      obtain ⟨expected, _, h1, h⟩ := h.bind
      obtain ⟨rfl, rfl⟩ := slotType_of_methodType h1
      obtain ⟨sig, s1, h1, h⟩ := h.bind
      obtain ⟨⟨func, ty⟩, s2, h2, h⟩ := h.bind
      obtain ⟨found, s3, h3, h⟩ := h.bind
      have hclosed' := hover.closed_slotType (Assoc.mem_values_of_find? hfind) hclosed
      obtain rfl := eq_of_fit hclosed' h3
      have hstays : Stays s s3 := trans_of Stays (ends_declareSignature.yields h1)
        (trans_of Stays ((stays_checkFunc room sig method).yields h2)
          ((EndsIn.isolated (.bind ends_unify fun _ => ends_resolve)).yields h3))
      have hcompiles : Compiles s method func := by
        refine ⟨s, .refl [] s, room, sig, s1, func, ty, s2, id, h1, h2, Ty.hom_id, ?_⟩
        rw [Core.FuncExpr.mapTy_id]
      obtain ⟨hout, checked, rfl, hchecked, hentries⟩ :=
        ih h (Assoc.nodup_keys_insert done _ _ hnodup)
      refine ⟨hout, (method, ⟨.func func, impl.decl.slotType impl.target declared⟩) :: checked,
        rfl, List.forall_mem_cons.mpr ⟨?_, ?_⟩, ?_⟩
      · exact ⟨declared, func, hfind, hcompiles, rfl⟩
      · intro c hc
        obtain ⟨sig', func', hfind', hcompiles', hfield⟩ := hchecked c hc
        exact ⟨sig', func', hfind', hcompiles'.of_rebinds hstays.lift, hfield⟩
      · rw [hentries, Assoc.entries_insert done _ hnew, List.append_assoc]
        rfl

/-- An accepted implementation fills the slots of its trait. -/
theorem Slotted.implemented (hs : Slotted s) (hover : TypesOver s ∅ ∅ s.scope) {bound : Name}
    {written : TypeExpr}
    (h : Yields (Checker.checkStmt room (.impl bound written methods span)) s out s') :
    ∃ decl ty, Implemented s bound.text written methods out decl ty := by
  rw [Checker.checkStmt] at h
  obtain ⟨_, _, h1, h⟩ := h.bind
  obtain ⟨_, rfl⟩ := h1.requireTopLevel
  obtain ⟨impl, s1, h1, h⟩ := h.bind
  obtain ⟨hdecl, htarget, _⟩ := h1.openImpl
  have hrebinds : Rebinds [] s s1 := rebinds_openImpl.yields h1
  have hself := hs.traits _ _ hdecl
  obtain ⟨done, s2, h2, h⟩ := h.bind
  obtain ⟨hdone, checked, hmethods, hchecked, hentries⟩ :=
    methodsChecked_of_checkMethods hself (formed_toTy hover htarget).isOver h2 List.nodup_nil
  rw [show (∅ : Assoc String Core.Expr).entries = [] from rfl, List.nil_append] at hentries
  split at h
  · exact h.fail.elim
  · rename_i fields hfields
    obtain ⟨rfl, _⟩ := h.pure
    have honly : ∀ key ∈ done.keys, key ∈ impl.decl.methods.keys := by
      intro key hkey
      rw [Assoc.keys, hentries, List.map_map] at hkey
      obtain ⟨c, hc, rfl⟩ := List.mem_map.mp hkey
      obtain ⟨sig, _, hfind, _⟩ := hchecked c hc
      exact (Assoc.find?_isSome _ _).mp (Option.isSome_of_eq_some hfind)
    obtain ⟨hperm, hread⟩ := Assoc.Within.inOrder ⟨hdone, honly⟩ hself.nodup hfields
    refine ⟨impl.decl, impl.target, hdecl, hself, htarget, ?_, impl.binding, fields, ?_, ?_⟩
    · rw [Assoc.keys, hentries, List.map_map] at hperm
      rwa [← hmethods, List.map_map]
    · rw [Impl.dictionaryType, hself.name_eq]
    · rw [Assoc.keys, List.forall₂_map_left_iff] at hread
      have hboth : List.Forall₂ (fun entry field => entry ∈ impl.decl.methods.entries ∧
          (entry.1, field) ∈ done.entries) impl.decl.methods.entries fields :=
        (List.forall₂_and_left _ _).mpr ⟨fun _ hentry => hentry, hread⟩
      refine hboth.imp fun entry field hmem => ?_
      rw [hentries] at hmem
      obtain ⟨c, hc, heq⟩ := List.mem_map.mp hmem.2
      obtain ⟨hname, rfl⟩ : c.1.name.text = entry.1 ∧ c.2 = field := Prod.mk.inj heq
      obtain ⟨sig, func, hfind, hcompiles, hfield⟩ := hchecked c hc
      obtain rfl : sig = entry.2 := by
        rw [hname, Assoc.find?_of_mem hself.nodup hmem.1] at hfind
        exact (Option.some.inj hfind).symm
      exact ⟨c.1, hmethods ▸ List.mem_map_of_mem hc, hname, func, hcompiles.of_rebinds hrebinds,
        hfield⟩

theorem Implemented.mapTy {bound : Trait} {written : TypeExpr} {methods : List FuncDecl}
    {out : List Core.Stmt} {decl : TraitDecl} {ty : Ty}
    (h : Implemented s bound written methods out decl ty) (hclosed : ty.Over ∅) {f : Ty → Ty}
    (hf : Ty.Hom f) : Implemented s bound written methods (Core.mapTyStmts f out) decl ty := by
  obtain ⟨id, fields, rfl, hfields⟩ := h.dictionary
  refine { h with dictionary := ⟨id, Core.mapTyExprs f fields, ?_, ?_⟩ }
  · have hdictionary : f (dictionaryType bound ty) = dictionaryType bound ty := by
      rw [hf.dictionaryType, hf.eq_of_closed hclosed]
    conv_rhs => rw [← hdictionary]
    rfl
  · rw [Core.mapTyExprs_eq_map, List.forall₂_map_right_iff]
    have hboth : List.Forall₂ (fun entry field => entry ∈ decl.methods.entries ∧
        Fulfils s decl ty methods entry field) decl.methods.entries fields :=
      (List.forall₂_and_left _ _).mpr ⟨fun _ hentry => hentry, hfields⟩
    refine hboth.imp fun entry _ hentry => ?_
    obtain ⟨method, hmethod, hname, func, hcompiles, rfl⟩ := hentry.2
    have hsig : entry.2 ∈ decl.methods.values := List.mem_map_of_mem hentry.1
    have hslot := hf.eq_of_closed (h.overSelf.closed_slotType hsig hclosed)
    refine ⟨method, hmethod, hname, func.mapTy f, hcompiles.mapTy hf, ?_⟩
    conv_rhs => rw [← hslot]
    rfl

theorem Implemented.setSubst {written : TypeExpr} {subst : Subst}
    (h : Implemented { s with unifier := { s.unifier with subst } } bound written methods out
      decl ty) : Implemented s bound written methods out decl ty := by
  obtain ⟨id, fields, hout, hfields⟩ := h.dictionary
  have hsame : Rebinds [] s { s with unifier := { s.unifier with subst } } :=
    (Rebinds.refl [] s).alike ⟨rfl, rfl⟩
  refine { h with dictionary := ⟨id, fields, hout, hfields.imp fun _ _ hentry => ?_⟩ }
  obtain ⟨method, hmethod, hname, func, hcompiles, hfield⟩ := hentry
  exact ⟨method, hmethod, hname, func, hcompiles.of_rebinds hsame, hfield⟩

/-- A unit that declares a trait. -/
theorem declaresTrait_of_unit (hover : TypesOver s ∅ ∅ s.scope) {name : Name}
    {methods : List MethodSig}
    (h : Yields (inUnit (Checker.checkStmt room (.trait name methods span))) s out s') :
    ∃ decl, DeclaresTrait s s' name.text methods decl := by
  obtain ⟨_, s1, hstmt, rfl⟩ := h.unit
  rw [Checker.checkStmt] at hstmt
  obtain ⟨_, _, h1, hstmt⟩ := hstmt.bind
  obtain ⟨_, rfl⟩ := h1.requireTopLevel
  obtain ⟨_, s2, h2, hstmt⟩ := hstmt.bind
  obtain ⟨_, rfl⟩ := hstmt.pure
  have hends := declareTrait_ends (s := { s with unifier := { s.unifier with subst := {} } })
    (by exact hover) name methods
  rw [h2] at hends
  rcases hends with hstays | ⟨decl, hdeclares⟩
  · -- then the trait would not be there
    obtain ⟨hnew, hdeclared⟩ := h2.declareTrait_traits
    have hthere := (hdeclared name.text).mpr (.inr rfl)
    rw [Registry.isDeclared, Registry.trait?, hstays.traits] at hthere
    rw [Registry.isDeclared, Registry.trait?, hthere] at hnew
    cases hnew
  · exact ⟨decl, { hdeclares with }⟩

/-- A unit that implements a trait. -/
theorem Slotted.implemented_of_unit (hs : Slotted s) (hover : TypesOver s ∅ ∅ s.scope)
    {bound : Name} {written : TypeExpr}
    (h : Yields (inUnit (Checker.checkStmt room (.impl bound written methods span))) s out s') :
    ∃ decl ty, Implemented s bound.text written methods out decl ty := by
  obtain ⟨s1, hbody, rfl⟩ := h.isolated
  obtain ⟨stmts, s2, hstmt, hbody⟩ := hbody.bind
  replace hbody := hbody.get_bind
  obtain ⟨rfl, _⟩ := hbody.pure
  obtain ⟨decl, ty, himplemented⟩ := (hs.setSubst {}).implemented (by exact hover) hstmt
  exact ⟨decl, ty, (himplemented.mapTy (formed_toTy hover himplemented.target).isOver
    (Unifier.hom_resolved _)).setSubst⟩

/-! Programs that are accepted. -/

variable {pre : Program}

/-- The second registry has all traits of the first, as they are there. -/
def KeepsTraits (registry registry' : Registry) : Prop :=
  ∀ bound decl, registry.trait? bound = some decl → registry'.trait? bound = some decl

/-- What is built in comes before all that is declared. -/
theorem keepsTraits_prepared (options : Options) (programs : List Program) :
    KeepsTraits ((new options).session programs).2.registry
      ((new options).session programs).2.prepared.registry := by
  rcases List.eq_nil_or_concat programs with rfl | ⟨earlier, last, rfl⟩
  · rintro _ _ ⟨⟩
  · rw [List.concat_eq_append, session_append]
    have hearlier := ((tabled_new options).session earlier).1
    rw [show ((((new options).session earlier).2.session [last]).2).prepared =
      (((new options).session earlier).2.session [last]).2 from
        (hearlier.check last).1.prepared_eq]
    exact fun _ _ hdecl => hdecl

/-- The runs that an accepted program is made of, around one of its statements. -/
theorem runs_of_check (options : Options) (before : List Program) {post : Program} {stmt : Stmt}
    (h : (((new options).session before).2.check (pre ++ stmt :: post)).1 = .ok out) :
    let start := ((new options).session before).2
    ∃ first lowered rest s1 s s', out = first ++ (lowered ++ rest) ∧
      Yields (declareAdts (pre ++ stmt :: post)) start.prepared () s1 ∧
      Yields (checkUnits options.maxDepth pre) s1 first s ∧
      Yields (inUnit (checkStmt options.maxDepth stmt)) s lowered s' ∧
      Yields (checkUnits options.maxDepth post) s' rest (start.check (pre ++ stmt :: post)).2 := by
  intro start
  obtain ⟨s1, hnames, hunits⟩ := Yields.of_check h
  rw [(balanced_session (new options) before).options, checkUnits_append] at hunits
  obtain ⟨first, s, hfirst, hunits⟩ := hunits.bind
  obtain ⟨more, s2, hmore, hunits⟩ := hunits.bind
  obtain ⟨rfl, rfl⟩ := hunits.pure
  rw [checkUnits] at hmore
  obtain ⟨lowered, s', hstmt, hmore⟩ := hmore.bind
  obtain ⟨rest, s3, hrest, hmore⟩ := hmore.bind
  obtain ⟨rfl, rfl⟩ := hmore.pure
  exact ⟨first, lowered, rest, s1, s, s', rfl, hnames, hfirst, hstmt, hrest⟩

/-- Where a statement of a program is reached, the names of methods stand for their
slots, and types are read without variables. -/
theorem slotted_of_runs (options : Options) (before : List Program) {program : Program}
    (hpre : pre ⊆ program) {s1 : Checker} {first : List Core.Stmt}
    (hnames : Yields (declareAdts program) ((new options).session before).2.prepared () s1)
    (hfirst : Yields (checkUnits room pre) s1 first s) : Slotted s ∧ TypesOver s ∅ ∅ s.scope := by
  have hslotted := (slotted_new options).session (tabled_new options) before
  have htabled := ((tabled_new options).session before).1.mono
    (List.subset_append_left _ program)
  have hannounced := htabled.announced hnames
  have hslotted1 := hslotted.rebinds ((rebinds_declareAdts program).yields hnames)
  have htabled1 := (htabled.declareAdts program).1
  rw [hnames] at htabled1
  have hsub : program ⊆ [] ++ before.flatten ++ program := List.subset_append_right _ _
  obtain ⟨htabled2, hslotted2⟩ := htabled1.keeps_checkUnits hannounced hsub room hpre
    (fun _ stmt ht hs => hs.checkUnit ht.typesOver room stmt) hslotted1
  rw [hfirst] at hslotted2 htabled2
  exact ⟨hslotted2, htabled2.typesOver⟩

/-- For every statement of a program that is accepted, after any programs whatever. It
was checked in a state where the traits declared before are there, and all traits stay
as they are.
A trait has its methods as they are written, in that order, and the name of each is
bound to its slot.
An implementation becomes one dictionary, with one field for each slot: the function
of the method with the name of the slot, at the signature of the slot with `Self`
replaced, and without its dictionary. The names of its methods are those of the trait,
each once, so one with a missing, repeated or unknown method is not accepted.
And every call in the statement, at any depth, of a name that stands there for a method
reads the slot of that method from a dictionary of the trait, with the signature of the
method at the type of the dictionary. -/
theorem check_dictionaries_agree (options : Options) (before : List Program)
    {pre post : Program} {stmt : Stmt} {out : List Core.Stmt}
    (h : (((new options).session before).2.check (pre ++ stmt :: post)).1 = .ok out) :
    let start := ((new options).session before).2
    let final := (start.check (pre ++ stmt :: post)).2
    ∃ first lowered rest s₁ s s', out = first ++ (lowered ++ rest) ∧
      Yields (declareAdts (pre ++ stmt :: post)) start.prepared () s₁ ∧
      Yields (checkUnits options.maxDepth pre) s₁ first s ∧
      Yields (inUnit (checkStmt options.maxDepth stmt)) s lowered s' ∧
      KeepsTraits start.registry s.registry ∧ KeepsTraits s.registry s'.registry ∧
      KeepsTraits s'.registry final.registry ∧
      (∀ name methods span, stmt = .trait name methods span →
        ∃ decl, DeclaresTrait s s' name.text methods decl) ∧
      (∀ bound written methods span, stmt = .impl bound written methods span →
        ∃ decl ty, Implemented s bound.text written methods lowered decl ty) ∧
      ∀ part ∈ stmt.parts [], ∃ s₀, Rebinds part.bound s s₀ ∧
        ∃ node ∈ Core.walkStmts lowered, Lowers s₀ part.expr node ∧
          ∀ name nameSpan args span value bound index,
            part.expr = .call (.ident name nameSpan) args span →
            s₀.scope.peek? name = some value → value.kind = .method bound index →
              node.CallsSlot s.registry bound index name := by
  intro start final
  obtain ⟨first, lowered, rest, s₁, s, s', hout, hnames, hfirst, hstmt, hrest⟩ :=
    runs_of_check options before h
  obtain ⟨hslotted, hover⟩ :=
    slotted_of_runs options before (List.subset_append_left _ _) hnames hfirst
  refine ⟨first, lowered, rest, s₁, s, s', hout, hnames, hfirst, hstmt, ?_, ?_, ?_, ?_, ?_, ?_⟩
  · intro bound decl hdecl
    have hprepared := keepsTraits_prepared options before bound decl hdecl
    rw [← ((rebinds_declareAdts _).yields hnames).trait?_eq] at hprepared
    exact ((passes_checkUnits _ _).kept.yields hfirst).keeps.traits bound decl hprepared
  · exact ((EndsIn.inUnit (passes_checkStmt _ _)).kept.yields hstmt).keeps.traits
  · exact ((passes_checkUnits _ _).kept.yields hrest).keeps.traits
  · rintro name methods span rfl
    exact declaresTrait_of_unit hover hstmt
  · rintro bound written methods span rfl
    exact hslotted.implemented_of_unit hover hstmt
  · intro part hpart
    have hfits := (Shows.inUnit renders_checkStmt).holds (.refl [] s) False.elim hstmt
    obtain ⟨s₀, hrebinds, node, hnode, hlowers⟩ := hfits.renders part hpart
    refine ⟨s₀, hrebinds, node, hnode, hlowers, ?_⟩
    intro name nameSpan args span value bound index hcall hvalue hkind
    obtain ⟨room, hint, checked, s₂, f, hrun, hf, rfl⟩ := hlowers
    rw [hcall] at hrun
    have hslot := (hslotted.rebinds hrebinds).callsSlot hrun hvalue hkind
    have hmapped := (hslotted.rebinds hrebinds).mapTy_callsSlot hslot hf
    exact hmapped.of_traits fun bound => hrebinds.trait?_eq bound

/-- A trait for things that have an area. -/
def areas : Program :=
  [.trait ⟨"Shape", .dummy⟩
    [⟨⟨"area", .dummy⟩, [.ident "Self" [] .dummy], .ident "Int" [] .dummy⟩,
     ⟨⟨"twice", .dummy⟩, [.ident "Self" [] .dummy], .ident "Int" [] .dummy⟩] .dummy]

/-- The area of a square, the second method of which is written first and calls the
other one. -/
def squareArea : List FuncDecl :=
  [⟨⟨"twice", .dummy⟩, [], [⟨⟨"s", .dummy⟩, .ident "Square" [] .dummy⟩],
     some (.ident "Int" [] .dummy),
     ⟨[.eval (.binary .add (.call (.ident "area" .dummy) [.ident "s" .dummy] .dummy) (.int 0 .dummy)
       .dummy) .dummy], .dummy⟩, .dummy⟩,
   ⟨⟨"area", .dummy⟩, [], [⟨⟨"s", .dummy⟩, .ident "Square" [] .dummy⟩],
     some (.ident "Int" [] .dummy),
     ⟨[.eval (.field (.ident "s" .dummy) (.name "side") .dummy) .dummy], .dummy⟩, .dummy⟩]

/-- A square has a dictionary with both methods, and one of them finds the other there. -/
theorem check_dictionaries_agree_square :
    let side : Program := [.struct ⟨"Square", .dummy⟩ []
      [⟨⟨"side", .dummy⟩, .ident "Int" [] .dummy⟩] .dummy]
    let square : Stmt := .impl ⟨"Shape", .dummy⟩ (.ident "Square" [] .dummy) squareArea .dummy
    ∃ out, (((new {}).session [areas]).2.check (side ++ square :: [])).1 = .ok out ∧
      ∃ first lowered rest s, out = first ++ (lowered ++ rest) ∧
        (∃ decl ty, Implemented s "Shape" (.ident "Square" [] .dummy) squareArea lowered decl ty) ∧
          ∃ node ∈ Core.walkStmts lowered, node.CallsSlot s.registry "Shape" 0 "area" := by
  intro side square
  obtain ⟨out, hout⟩ : ∃ out,
      (((new {}).session [areas]).2.check (side ++ square :: [])).1 = .ok out :=
    exists_ok (by decide +kernel)
  obtain ⟨first, lowered, rest, s₁, s, s', hparts, hnames, hfirst, _, _, _, _, _, himpl, hcalls⟩ :=
    check_dictionaries_agree {} [areas] hout
  refine ⟨out, hout, first, lowered, rest, s, hparts, himpl _ _ _ _ rfl, ?_⟩
  -- where the implementation is reached, the name stands for the first slot
  have hmethod : (s.scope.peek? "area").map (·.kind) = some (.method "Shape" 0) := by
    have hs₁ : s₁ = ((declareAdts (side ++ square :: [])).run.run
        ((new {}).session [areas]).2.prepared).2 := by
      rw [hnames]
    have hs : s = ((checkUnits 512 side).run.run s₁).2 := by
      rw [show (checkUnits 512 side).run.run s₁ = _ from hfirst]
    rw [hs, hs₁]
    decide +kernel
  obtain ⟨value, hvalue, hkind⟩ := Option.map_eq_some_iff.mp hmethod
  obtain ⟨s₀, hrebinds, node, hnode, _, hslot⟩ :=
    hcalls ⟨["s"], .call (.ident "area" .dummy) [.ident "s" .dummy] .dummy⟩ (by
      simp [square, squareArea, Surface.Stmt.parts, Surface.partsOfDecls, Surface.FuncDecl.parts,
        Surface.Block.parts, Surface.partsOfStmts, Surface.Expr.parts, Surface.Expr.self])
  refine ⟨node, hnode, hslot _ _ _ _ value _ _ rfl ?_ hkind⟩
  rw [hrebinds.same "area" (by decide) (by decide), hvalue]

end Checker

end TraitCheck
