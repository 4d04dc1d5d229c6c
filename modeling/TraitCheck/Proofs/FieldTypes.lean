import TraitCheck.Proofs.Announcements
import TraitCheck.Proofs.DeclaredTypes
import TraitCheck.Proofs.Instances

/-!
Field types follow the type arguments. A field is read through an instance of the
declaration, over new variables, that is unified with the type of the target. The
type of the field is then its declared type with the type arguments of the target
in place of the type parameters, and all that this does to other types is to add
the bounds of the parameters to the variables among the type arguments
(`fieldOf_follows_arguments`). Every parameter has to have a variable of its own
for this, which holds of all that is ever declared (`session_parametric`).
-/

namespace TraitCheck

/-! Values that are found in a table of keys and values. -/

namespace Assoc

variable {κ α : Type} [DecidableEq κ]

/-- Different keys find all values in their order. -/
theorem map_find?_zip {keys : List κ} (h : keys.Nodup) {values : List α}
    (hlength : values.length = keys.length) :
    keys.map (Assoc.mk (keys.zip values)).find? = values.map some := by
  induction keys generalizing values with
  | nil => rw [List.length_eq_zero_iff.mp hlength]; rfl
  | cons key keys ih =>
    cases values with
    | nil => cases hlength
    | cons value values =>
      obtain ⟨hkey, hkeys⟩ := List.nodup_cons.mp h
      rw [List.zip_cons_cons, List.map_cons, List.map_cons, find?_mk_cons, if_pos rfl,
        ← ih hkeys (Nat.succ.inj hlength)]
      congr 1
      refine List.map_congr_left fun _ hother => ?_
      rw [find?_mk_cons, if_neg]
      rintro rfl
      exact hkey hother

end Assoc

namespace Subst

theorem ids_renumber (next : Nat) (vars : List TyVar) :
    (renumber next vars).map (·.id) = List.range' next vars.length := by
  induction vars generalizing next with
  | nil => rfl
  | cons v rest ih => rw [renumber, List.map_cons, ih, List.length_cons, List.range'_succ]

/-- The copies have the traits of the variables. -/
theorem traits_renumber (next : Nat) (vars : List TyVar) :
    (renumber next vars).map (·.traits) = vars.map (·.traits) := by
  induction vars generalizing next with
  | nil => rfl
  | cons v rest ih => rw [renumber, List.map_cons, List.map_cons, ih]

end Subst

/-! Types by their names and arguments. -/

variable {name : String} {ts args : List Ty}

theorem Ty.named_eq_app (name : String) (ts : List Ty) :
    Ty.named name ts = .app ⟨.named name, 0, []⟩ ts := by
  rw [Ty.named, Ty.concrete, List.map_nil, List.map_nil, List.append_nil]

theorem Ty.named_inj {ts' : List Ty} (h : Ty.named name ts = Ty.named name ts') : ts = ts' := by
  rw [named_eq_app, named_eq_app] at h
  exact (Ty.app.inj h).2

theorem Ty.over_named {D : Set TyVar} (h : ∀ t ∈ ts, t.Over D) : (Ty.named name ts).Over D := by
  intro v hv
  rw [named_eq_app] at hv
  obtain ⟨t, ht, hv⟩ := Ty.mem_vars_app.mp hv
  exact h t ht v hv

/-- The type arguments, each with the bounds of its parameter. -/
def Adt.bounded (adt : Adt) (args : List Ty) : List (TraitSet × Ty) :=
  (adt.generics.map (·.traits)).zip args

/-- A declaration with different type parameters, at type arguments. -/
theorem Adt.ty_substitute {adt : Adt} (h : (adt.generics.map (·.id)).Nodup)
    (hlength : args.length = adt.generics.length) :
    adt.ty.substitute (adt.arguments args) = .named adt.name args := by
  rw [Adt.ty, (Ty.hom_substitute _).named, List.map_map]
  congr 1
  have hfind : (adt.generics.map (·.id)).map (Assoc.mk (adt.arguments args)).find? =
      args.map some := Assoc.map_find?_zip h (by rw [hlength, List.length_map])
  have hsome : ∀ v ∈ adt.generics, some ((Ty.var v).substitute (adt.arguments args)) =
      (Assoc.mk (adt.arguments args)).find? v.id := by
    intro v hv
    have hmem : (Assoc.mk (adt.arguments args)).find? v.id ∈ args.map some :=
      hfind ▸ List.mem_map_of_mem (List.mem_map_of_mem hv)
    obtain ⟨arg, _, harg⟩ := List.mem_map.mp hmem
    rw [Ty.substitute, Ty.replace_var, ← harg]
    rfl
  apply List.map_injective_iff.mpr (Option.some_injective Ty)
  rw [← hfind, List.map_map, List.map_map]
  exact List.map_congr_left hsome

/-- Type arguments that resolve to the same give the same field types. -/
theorem Ty.Hom.substitute_congr {f : Ty → Ty} (hf : Ty.Hom f) {keys : List VarId}
    {args' : List Ty} (h : args.map f = args'.map f) (t : Ty) :
    f (t.substitute (keys.zip args)) = f (t.substitute (keys.zip args')) := by
  have hzip : ∀ ts : List Ty, (keys.zip ts).map (fun p => (p.1, f p.2)) = keys.zip (ts.map f) :=
    fun _ => List.zip_map_right.symm
  have hfind : ∀ id, ((Assoc.mk (keys.zip args)).find? id).map f =
      ((Assoc.mk (keys.zip args')).find? id).map f := by
    intro id
    rw [← Assoc.find?_mk_map, ← Assoc.find?_mk_map, hzip, hzip, h]
  refine (hf.comp (hom_substitute _)).congr (hf.comp (hom_substitute _)) fun _ _ => ?_
  rw [Function.comp_apply, Function.comp_apply, Ty.substitute, Ty.substitute, replace_var,
    replace_var, ← Option.getD_map f, ← Option.getD_map f, hfind]

/-! Sessions. -/

namespace Unifier

variable {registry : Registry} {D : Set TyVar} {u u' : Unifier}

/-- New variables for some that are declared. -/
theorem Session.renumber (h : Session D u) (vars : List TyVar) :
    ∃ D', D ⊆ D' ∧ (∀ v ∈ Subst.renumber u.next vars, v ∈ D') ∧
      Session D' { u with next := u.next + vars.length } := by
  induction vars generalizing D u with
  | nil => exact ⟨D, subset_rfl, by simp [Subst.renumber], h⟩
  | cons v rest ih =>
    obtain ⟨D', hsub, hmem, hsession⟩ := ih (h.draw v.name v.traits)
    refine ⟨D', (Set.subset_insert _ _).trans hsub, ?_, ?_⟩
    · rw [Subst.renumber]
      exact List.forall_mem_cons.mpr ⟨hsub (Set.mem_insert _ _), hmem⟩
    · rw [List.length_cons, Nat.add_comm rest.length, ← Nat.add_assoc]
      exact hsession

theorem Session.aside (h : Session D u) (vars : List TyVar) :
    Aside D { u with next := u.next + vars.length } (Subst.renumber u.next vars) := by
  obtain ⟨D', hsub, _, hsession⟩ := h.renumber vars
  have hold := h.consistent
  refine ⟨⟨hsession.consistent.valid, fun v hv => hsession.consistent.lt v (hsub hv), hold.unique⟩,
    h.vars_subset, fun x hx => (Subst.mem_renumber hx).2, fun x hx => ?_, fun _ hx v hv => ?_, ?_⟩
  · exact hold.valid.find?_next (Subst.mem_renumber hx).1
  · exact Nat.ne_of_lt (lt_of_lt_of_le (hold.lt v hv) (Subst.mem_renumber hx).1)
  · rw [Subst.ids_renumber]
    exact List.nodup_range'

/-- Types of the same name are unified argument by argument. -/
theorem unifiesAll_of_named {as bs : List Ty} {r : Except Failure Ty}
    (h : Unifies registry u (.named name as) (.named name bs) r u')
    (hlength : as.length = bs.length) :
    ∃ r', UnifiesAll registry u as bs r' u' ∧ ((∃ c, r = .ok c) ↔ ∃ cs, r' = .ok cs) := by
  rw [Ty.named_eq_app, Ty.named_eq_app] at h
  have ha := Subst.deref_app u.subst ⟨.named name, 0, []⟩ as
  have hb := Subst.deref_app u.subst ⟨.named name, 0, []⟩ bs
  cases h with
  | same ha' => cases ha'.symm.trans ha
  | merged ha' => cases ha'.symm.trans ha
  | left ha' => cases ha'.symm.trans ha
  | right _ hb' => cases hb'.symm.trans hb
  | clash ha' hb' hne =>
    cases ha'.symm.trans ha
    cases hb'.symm.trans hb
    exact absurd ⟨rfl, hlength⟩ hne
  | @args _ _ _ _ _ _ _ r' ha' hb' _ hall =>
    cases ha'.symm.trans ha
    cases hb'.symm.trans hb
    refine ⟨r', hall, ?_⟩
    cases r' with
    | error failure => exact ⟨by rintro ⟨_, ⟨⟩⟩, by rintro ⟨_, ⟨⟩⟩⟩
    | ok cs => exact ⟨fun _ => ⟨cs, rfl⟩, fun _ => ⟨_, rfl⟩⟩

end Unifier

namespace Checker

open Surface (Program Stmt GenericParam)

variable {s s' : Checker}

/-! Every type parameter has a variable of its own. -/

variable {room : Nat} {program : Program}

/-- The type parameters of each declaration are different variables. -/
def Parametric (s : Checker) : Prop :=
  ∀ name adt, Assoc.find? s.adts name = some adt → (adt.generics.map (·.id)).Nodup

theorem ids_paramVars (next : Nat) (params : List GenericParam) :
    (paramVars next params).map (·.id) = List.range' next params.length := by
  induction params generalizing next with
  | nil => rfl
  | cons g rest ih => rw [paramVars, List.map_cons, ih, List.length_cons, List.range'_succ]

/-- What was parametric before is so afterwards. -/
def KeepsParametric (s s' : Checker) : Prop := Parametric s → Parametric s'

theorem keepsParametric_of_adts (h : s'.adts = s.adts) : KeepsParametric s s' := by
  intro hs name adt hadt
  exact hs name adt (h ▸ hadt)

instance : StaysClosed KeepsParametric where
  refl := fun _ => id
  trans := fun _ _ _ h h' hs => h' (h hs)
  stays := fun h => keepsParametric_of_adts h.adts

/-- Completing a declaration leaves its type parameters. -/
theorem keepsParametric_setAdtKind {kind : AdtKind} :
    Ends KeepsParametric (setAdtKind name kind) := by
  exact .modify fun _ hs => Assoc.forall_modify (fun found hfound => hs name found hfound) hs

theorem keepsParametric_checkStmt {stmt : Stmt} : Ends KeepsParametric (checkStmt room stmt) := by
  cases hadt : stmt.adt? with
  | none =>
    exact (sameNames_checkStmt room stmt).imp fun hsame => keepsParametric_of_adts (hsame.adts hadt)
  | some header =>
    cases stmt with
    | struct name params decls span =>
      rw [checkStmt]
      exact .bind ends_requireTopLevel fun _ =>
        .bind (ends_defineStruct fun _ => keepsParametric_setAdtKind) fun _ => .pure
    | enum name params decls span =>
      rw [checkStmt]
      exact .bind ends_requireTopLevel fun _ =>
        .bind (ends_defineEnum fun _ => keepsParametric_setAdtKind) fun _ => .pure
    | _ => cases hadt

theorem keepsParametric_declareAdt {name : Name} {params : List GenericParam} :
    Ends KeepsParametric (declareAdt name params) := by
  refine .of_rel fun s hs => ?_
  rcases declareAdt_ends s name params with hstays | ⟨_, heq⟩
  · exact keepsParametric_of_adts hstays.adts hs
  · rw [heq]
    refine Assoc.forall_insert ?_ hs
    rw [ids_paramVars]
    exact List.nodup_range'

theorem session_parametric (options : Options) (programs : List Program) :
    Parametric ((new options).session programs).2 := by
  refine session_rec (fun s program hs => ?_) (fun _ _ hadt => nomatch hadt) programs
  have hcheck : Ends KeepsParametric (checkProgram program) :=
    .bind (.modify fun s => keepsParametric_of_adts (adts_prepared s)) fun _ =>
      .bind (ends_declareAdts fun _ _ => keepsParametric_declareAdt) fun _ =>
        .bind .get fun _ => ends_checkUnits fun _ _ => keepsParametric_checkStmt
  exact hcheck.rel s hs

/-! Reading a field. -/

variable {adt : Adt} {fields : Fields} {field : String} {index : Nat} {ty : Ty} {span : Span}
variable {u : Unifier}

theorem yields_unify {a b c : Ty}
    (h : (Unifier.unify s.registry a b).run.run s.unifier = (.ok c, u)) :
    Yields (unify span a b) s c { s with unifier := u } := by
  rw [Yields, Checker.unify, Runs.run_get_bind, h]
  rfl

/-- The new variables for the type parameters, in an instance of the declaration. -/
def instanceVars (s : Checker) (adt : Adt) : List TyVar :=
  Subst.renumber s.unifier.next adt.generics

theorem length_instanceVars (s : Checker) (adt : Adt) :
    ((instanceVars s adt).map Ty.var).length = adt.generics.length := by
  rw [List.length_map, instanceVars, Subst.length_renumber]

/-- The unifier after the instance is made. -/
def instanceUnifier (s : Checker) (adt : Adt) : Unifier :=
  { s.unifier with next := s.unifier.next + adt.generics.length }

theorem yields_instantiateAdt (hparams : (adt.generics.map (·.id)).Nodup) :
    Yields (instantiateAdt adt) s ⟨.named adt.name ((instanceVars s adt).map .var),
        adt.arguments ((instanceVars s adt).map .var)⟩
      { s with unifier := instanceUnifier s adt } := by
  rw [← adt.ty_substitute hparams (length_instanceVars s adt), instanceVars,
    Adt.arguments, ← Subst.relabelling_eq_zip]
  rfl

/-- A field that is there is read by unifying an instance with the target. -/
theorem yields_fieldOf (hparams : (adt.generics.map (·.id)).Nodup)
    (hfield : fields.locate? field = some (index, ty)) {target : Ty} {result : Nat × Ty} :
    Yields (fieldOf adt fields target field span) s result s' ↔ ∃ c u,
      (Unifier.unify s.registry (.named adt.name ((instanceVars s adt).map .var)) target).run.run
          (instanceUnifier s adt) = (.ok c, u) ∧ s' = { s with unifier := u } ∧ result =
          (index, u.resolve (ty.substitute (adt.arguments ((instanceVars s adt).map .var)))) := by
  simp only [fieldOf, hfield]
  constructor
  · intro h
    obtain ⟨inst, s1, h1, h⟩ := h.bind
    cases h1.symm.trans (yields_instantiateAdt hparams)
    obtain ⟨c, s2, h2, h⟩ := h.bind
    obtain ⟨u, hunify, rfl⟩ := h2.unify
    obtain ⟨_, s3, h3, h⟩ := h.bind
    cases h3
    obtain ⟨rfl, rfl⟩ := h.pure
    exact ⟨c, u, hunify, rfl, rfl⟩
  · rintro ⟨c, u, hunify, rfl, rfl⟩
    exact (yields_instantiateAdt hparams).andThen ((yields_unify hunify).andThen rfl)

variable {D : Set TyVar} {args : List Ty}

/-- Unification of an instance with the declaration at type arguments. -/
theorem unify_instance (hsession : Unifier.Session D s.unifier)
    (hlength : args.length = adt.generics.length) (hargs : ∀ arg ∈ args, arg.Over D)
    {r : Except Failure Ty}
    (hrun : (Unifier.unify s.registry (.named adt.name ((instanceVars s adt).map .var))
      (.named adt.name args)).run.run (instanceUnifier s adt) = (r, u)) : ((∃ c, r = .ok c) ↔
        ∀ p ∈ adt.bounded args, s.registry.Supports p.1 (s.unifier.resolve p.2)) ∧
      ((∃ c, r = .ok c) →
        Ty.Hom u.resolve ∧ ((instanceVars s adt).map .var).map u.resolve = args.map u.resolve ∧
          ∃ ρ, Unifier.Relabels D s.unifier u (adt.bounded args) ρ) := by
  obtain ⟨D', hsub, hnew, hsession'⟩ := hsession.renumber adt.generics
  have hleft : (Ty.named adt.name ((instanceVars s adt).map .var)).Over D' := by
    refine Ty.over_named fun _ ht => ?_
    obtain ⟨x, hx, rfl⟩ := List.mem_map.mp ht
    exact fun v hv => Ty.mem_vars_var.mp hv ▸ hnew x hx
  have hright : (Ty.named adt.name args).Over D' :=
    Ty.over_named fun arg harg v hv => hsub (hargs arg harg v hv)
  have hunifies := Unifier.unifies_unify (hsession'.knows hleft).owns (hsession'.knows hright).owns
    hrun
  obtain ⟨r', hall, hok⟩ :=
    Unifier.unifiesAll_of_named hunifies ((length_instanceVars s adt).trans hlength.symm)
  have hturns := (hsession.aside adt.generics).run hargs hall
  rw [Subst.traits_renumber] at hturns
  refine ⟨hok.trans hturns.1, fun hsucceeds => ?_⟩
  obtain ⟨c, rfl⟩ := hsucceeds
  have hvalid := (hunifies.grows (hsession'.knows hleft).owns (hsession'.knows hright).owns).2
  have hhom := Unifier.hom_resolve hvalid
  have hagree := (Unifier.unify_agree hsession' hleft hright hrun).1
  rw [hhom.named, hhom.named] at hagree
  obtain ⟨ρ, hρ⟩ := hturns.2 (hok.mp ⟨c, rfl⟩)
  refine ⟨hhom, Ty.named_inj hagree, ρ, hρ.resolve, hρ.kept, fun v hv p hp hres => ?_, hρ.traits,
    hρ.injective⟩
  exact (Nat.le_add_right _ _).trans (hρ.new v hv p hp hres)

/-- For every struct and every enum that is ever declared, every state of the
checker with a unifier in use, every field and every type arguments over the
variables drawn so far: the field can be read from a value of the type at these
arguments if and only if each argument that resolves to a concrete type has
evidence for the bounds of its parameter. Its index is then the declared one, and
its type is the declared one with the arguments in place of the parameters. Apart
from that, variables that are among the arguments are merged with new ones that
have the bounds of the parameters too, and nothing else is bound or changed. -/
theorem fieldOf_follows_arguments (span : Span) {options : Options} {programs : List Program}
    {name : String} (hadt : Assoc.find? ((new options).session programs).2.adts name = some adt)
    (hfield : fields.locate? field = some (index, ty)) (hsession : Unifier.Session D s.unifier)
    (hlength : args.length = adt.generics.length) (hargs : ∀ arg ∈ args, arg.Over D) :
    ((∃ result s', Yields (fieldOf adt fields (.named adt.name args) field span) s result s') ↔
      ∀ p ∈ adt.bounded args, s.registry.Supports p.1 (s.unifier.resolve p.2)) ∧
    ∀ result s', Yields (fieldOf adt fields (.named adt.name args) field span) s result s' →
      result = (index, s'.unifier.resolve (ty.substitute (adt.arguments args))) ∧
      s' = { s with unifier := s'.unifier } ∧
      ∃ ρ, Unifier.Relabels D s.unifier s'.unifier (adt.bounded args) ρ := by
  have hparams := session_parametric options programs name adt hadt
  constructor
  · refine ⟨?_, fun hsupports => ?_⟩
    · rintro ⟨result, s', h⟩
      obtain ⟨c, u, hunify, _, _⟩ := (yields_fieldOf hparams hfield).mp h
      exact (unify_instance hsession hlength hargs hunify).1.mp ⟨c, rfl⟩
    · obtain ⟨c, hc⟩ := (unify_instance hsession hlength hargs rfl).1.mpr hsupports
      exact ⟨_, _, (yields_fieldOf hparams hfield).mpr ⟨c, _, Prod.ext hc rfl, rfl, rfl⟩⟩
  · intro result s' h
    obtain ⟨c, u, hunify, rfl, rfl⟩ := (yields_fieldOf hparams hfield).mp h
    obtain ⟨hhom, hsame, hrelabels⟩ := (unify_instance hsession hlength hargs hunify).2 ⟨c, rfl⟩
    exact ⟨congrArg (index, ·) (hhom.substitute_congr hsame ty), rfl, hrelabels⟩

/-- A parameter with a bound: a variable gains the bound, and a type without
evidence for it is rejected. -/
theorem fieldOf_follows_arguments_bounded :
    let name (text : String) : Name := ⟨text, .dummy⟩
    let programs : List Program := [[.trait (name "Show") [] .dummy],
      [.struct (name "Box") [⟨name "T", [name "Show"]⟩]
        [⟨name "value", .ident "T" [] .dummy⟩] .dummy]]
    let param : TyVar := ⟨1, "T", .singleton "Show"⟩
    let fields : Fields := ⟨[("value", .var param)]⟩
    let arg : TyVar := ⟨2, "A", ∅⟩
    let s : Checker := { unifier := { next := 3 } }
    ∃ adt, Assoc.find? ((new { prelude := false }).session programs).2.adts "Box" = some adt ∧
      adt.fields? = some fields ∧ adt.generics = [param] ∧
      (∃ result s', Yields (fieldOf adt fields (.named adt.name [.var arg]) "value" .dummy) s
        result s' ∧ ∃ ρ, Unifier.Relabels {arg} s.unifier s'.unifier (adt.bounded [.var arg]) ρ) ∧
      ¬∃ result s', Yields (fieldOf adt fields (.named adt.name [.int]) "value" .dummy) s
        result s' := by
  intro name programs param fields arg s
  have hfound : (Assoc.find? ((new { prelude := false }).session programs).2.adts "Box").map
      (fun adt => (adt.generics, adt.fields?.map (·.entries))) =
        some ([param], some fields.entries) := by decide +kernel
  obtain ⟨adt, hadt, heq⟩ := Option.map_eq_some_iff.mp hfound
  obtain ⟨hgenerics, hentries⟩ := Prod.mk.inj heq
  obtain ⟨⟨_⟩, hfields, rfl⟩ := Option.map_eq_some_iff.mp hentries
  have hfield : fields.locate? "value" = some (0, .var param) := by decide
  have hsession : Unifier.Session {arg} s.unifier := by
    rw [← insert_empty_eq arg]
    exact .draw "A" ∅ (.drawId (.drawId .start))
  have hlength : ∀ ty : Ty, [ty].length = adt.generics.length := fun _ => by rw [hgenerics]; rfl
  refine ⟨adt, hadt, hfields, hgenerics, ?_, ?_⟩
  · have hread := fieldOf_follows_arguments .dummy hadt hfield hsession (hlength (.var arg))
      (by simp [Ty.Over, Ty.vars])
    obtain ⟨result, s', h⟩ := hread.1.mpr (by
      rw [Adt.bounded, hgenerics]
      exact List.forall_mem_singleton.mpr (s.registry.supports_var _ _))
    exact ⟨result, s', h, (hread.2 result s' h).2.2⟩
  · intro h
    have hread := fieldOf_follows_arguments .dummy hadt hfield hsession (hlength .int)
      (by simp [Ty.Over, Ty.int, Ty.named, Ty.concrete, Ty.vars, Ty.allVars])
    have hsupports := hread.1.mp h
    rw [Adt.bounded, hgenerics] at hsupports
    have hshow : "Show" ∈ param.traits := List.mem_singleton.mpr rfl
    exact absurd (List.forall_mem_singleton.mp hsupports _ _ rfl "Show" hshow) (by decide)

end Checker

end TraitCheck
