import TraitCheck.Proofs.TypedCalls

/-!
Structs, enums, tuples, arrays and patterns. A declared type is used over fresh
variables, and every view reads these as some type arguments; the fields then
have their declared types at those arguments. So what is constructed and what is
selected follows the layout of its type.
-/

namespace TraitCheck

namespace Assoc

variable {κ α : Type} [DecidableEq κ]

/-- Values for variables are found by the ids of these. -/
theorem find?_zip_vars (vars : List TyVar) (f : TyVar → α)
    (hf : ∀ v ∈ vars, ∀ w ∈ vars, v.id = w.id → f v = f w) {v : TyVar} (hv : v ∈ vars) :
    (Assoc.mk ((vars.map (·.id)).zip (vars.map f))).find? v.id = some (f v) := by
  induction vars with
  | nil => cases hv
  | cons x rest ih =>
    rw [List.map_cons, List.map_cons, List.zip_cons_cons, find?, find?.go]
    split
    · rename_i hid
      rw [hf x List.mem_cons_self v hv hid]
    · rename_i hne
      rcases List.mem_cons.mp hv with rfl | hmem
      · exact absurd rfl hne
      · exact ih (fun v hv w hw => hf v (List.mem_cons_of_mem x hv) w (List.mem_cons_of_mem x hw))
          hmem

end Assoc

theorem Ty.mem_vars_of_param {ty p : Ty} (hp : p ∈ ty.params) {v : TyVar} (hv : v ∈ p.vars) :
    v ∈ ty.vars := by
  cases ty with
  | var w => cases hp
  | app head args => exact Ty.mem_vars_app.mpr ⟨p, List.mem_of_mem_take hp, hv⟩

namespace Checker

variable {site : Site} {ledger ledger' : Ledger} {s s' : Checker} {e : Core.Expr} {ty target : Ty}
  {adt : Adt} {fields : Fields} {tag : Option Nat}

/-! Declared types. -/

/-- The declaration is in the table with all its fields. -/
structure Declared (s : Checker) (adt : Adt) (tag : Option Nat) (fields : Fields) : Prop where
  find : Assoc.find? s.adts adt.name = some adt
  fields : adt.fieldsAt tag = some fields

theorem not_pending_of_fieldsAt (h : adt.fieldsAt tag = some fields) : adt.isPending = false := by
  rw [Adt.isPending]
  split
  · rename_i hkind
    cases tag with
    | none =>
      rw [Adt.fieldsAt, Adt.fields?, hkind] at h
      cases h
    | some tag =>
      rw [Adt.fieldsAt, Adt.tags?, hkind] at h
      cases h
  · rfl

theorem Declared.grows (h : Declared s adt tag fields) {adts : AdtTable} (hgrows : s.adts.Grows adts) :
    Assoc.find? adts adt.name = some adt := by
  obtain ⟨adt', hfind, _, hsame⟩ := hgrows adt.name adt h.find
  rw [hfind, hsame (not_pending_of_fieldsAt h.fields)]

theorem Declared.later (h : Declared s adt tag fields) (hlater : s.adts.Grows s'.adts) :
    Declared s' adt tag fields :=
  ⟨h.grows hlater, h.fields⟩

/-- The instance is over variables that may be bound. -/
def Instantiates (adt : Adt) (ledger : Ledger) (_ : Checker) (inst : Instance) : Prop :=
  ∃ next, inst = ⟨adt.ty.substitute (Subst.relabelling next adt.generics),
      Subst.relabelling next adt.generics⟩ ∧
    ∀ v ∈ Subst.renumber next adt.generics, v ∈ ledger.drawn

namespace Instantiates

variable {inst : Instance}

theorem lasting : Lasting (Instantiates adt) := by
  rintro ledger s ledger' s' inst hcarries ⟨next, heq, hdrawn⟩
  exact ⟨next, heq, fun v hv => hcarries.drawn (hdrawn v hv)⟩

theorem known_field (h : Instantiates adt ledger s inst)
    (hty : ty.Formed (s.written ∅) {v | v ∈ adt.generics}) : Known ledger s (inst.fieldType ty) := by
  obtain ⟨next, rfl, hdrawn⟩ := h
  have hincludes : (s.written ∅).Includes (s.lexicon ledger.tracers) :=
    ⟨fun _ _ h => h, Set.empty_subset _⟩
  exact (hty.relabel_all next hincludes fun _ h => h).mono hdrawn

theorem known (h : Instantiates adt ledger s inst) (hfind : Assoc.find? s.adts adt.name = some adt) :
    Known ledger s inst.ty := by
  have hty : adt.ty.Formed (s.written ∅) {v | v ∈ adt.generics} := by
    refine Ty.formed_named ?_ ?_
    · rw [List.length_map]
      exact Wellformed.arity_adt hfind
    · intro t ht
      obtain ⟨v, hv, rfl⟩ := List.mem_map.mp ht
      exact .var hv
  have hknown := h.known_field hty
  obtain ⟨next, rfl, _⟩ := h
  exact hknown

/-- A view reads the variables as type arguments. -/
theorem view (h : Instantiates adt ledger s inst) {f : Ty → Ty} (hf : Ty.Hom f) : ∃ args,
    args.length = adt.generics.length ∧ f inst.ty = .named adt.name args ∧
      ∀ L ty, ty.Formed L {v | v ∈ adt.generics} →
        f (inst.fieldType ty) = ty.substitute (adt.arguments args) := by
  obtain ⟨next, rfl, _⟩ := h
  have hcomp := hf.comp (Ty.hom_substitute (Subst.relabelling next adt.generics))
  let g : TyVar → Ty := fun v => f ((Ty.var v).substitute (Subst.relabelling next adt.generics))
  refine ⟨adt.generics.map g, List.length_map _, ?_, ?_⟩
  · refine (hcomp.named adt.name (adt.generics.map .var)).trans ?_
    rw [List.map_map]
    rfl
  · intro L ty hty
    refine hcomp.congr (Ty.hom_substitute _) ?_
    intro v hv
    have hfind := Assoc.find?_zip_vars adt.generics g ?_ (hty.isOver v hv)
    · rw [Ty.substitute, Ty.replace_var, Adt.arguments, hfind]
      rfl
    · intro v hv w hw hid
      obtain ⟨x, _, hx, _⟩ := Subst.find?_relabelling next hv
      dsimp only [g]
      rw [Ty.substitute, Ty.substitute, Ty.replace_var, Ty.replace_var, ← hid, hx]
      rfl

/-- The fields of the instance are the components of its type. -/
theorem layout (h : Instantiates adt ledger s inst) (hs : Wellformed site ledger s)
    (hadt : Declared s adt tag fields) {view : View} (hview : view.Sees ledger s) :
    Core.Layout view.adts view.registry (view.map inst.ty) tag
      ((fields.values.map inst.fieldType).map view.map) := by
  obtain ⟨args, hlength, hty, hfields⟩ := h.view hview.reads.toHom
  have heq : (fields.values.map inst.fieldType).map view.map =
      fields.values.map (·.substitute (adt.arguments args)) := by
    rw [List.map_map]
    refine List.map_congr_left fun ty hmem => ?_
    have htyped := (hs.adts adt.name adt hadt.find).fields tag fields hadt.fields
    exact hfields (s.written ∅) ty (htyped.2 ty hmem)
  rw [hty, heq]
  exact .data (hadt.grows hview.adts) hadt.fields hlength

end Instantiates

theorem Wellformed.instantiateAdt (hs : Wellformed site ledger s) (adt : Adt) :
    Leads site ledger s (instantiateAdt adt) fun ledger' s' inst =>
      Instantiates adt ledger' s' inst ∧ s'.adts = s.adts :=
  .change (hs.drawCopies adt.generics) ⟨⟨_, rfl, fun _ hv => .inr hv⟩, rfl⟩

theorem Wellformed.lookupAdt (hs : Wellformed site ledger s) (name : Name) :
    Leads site ledger s (lookupAdt name) fun _ s' adt =>
      Assoc.find? s'.adts adt.name = some adt := by
  refine .get ?_
  split
  · rename_i adt hfind
    refine .pure hs ?_
    rw [(hs.adts name.text adt hfind).name_eq]
    exact hfind
  · exact .fail

theorem Wellformed.constructedFields (hs : Wellformed site ledger s)
    (hadt : Assoc.find? s.adts adt.name = some adt) (tag : Option Name) (span : Span) :
    Leads site ledger s (constructedFields adt tag span) fun _ s' r => Declared s' adt r.1 r.2 := by
  rw [Checker.constructedFields.eq_def]
  split
  · rename_i fields hkind
    refine .pure hs ⟨hadt, ?_⟩
    rw [Adt.fieldsAt, Adt.fields?, hkind]
  · rename_i tags tag hkind
    split
    · rename_i index fields hlocate
      refine .pure hs ⟨hadt, ?_⟩
      rw [Adt.fieldsAt, Adt.tags?, hkind]
      exact (Assoc.getElem?_of_locate? hlocate).2
    · exact .fail
  · exact .fail
  · exact .fail
  · exact .fail

/-- What is supplied by name is in order, each at its type. -/
def Supplies (site : Site) (type : Ty → Ty) (fields : Fields) (ledger : Ledger) (s : Checker)
    (supplied : Assoc String Core.Expr) : Prop :=
  ∀ name e, supplied.find? name = some e → ∃ ty, fields.find? name = some ty ∧
    GivesAt site (type ty) ledger s e

section Supplies

variable {type : Ty → Ty} {supplied : Assoc String Core.Expr}

theorem Supplies.lasting : Lasting (Supplies site type fields) := by
  intro ledger s ledger' s' supplied hcarries h name e hfind
  obtain ⟨ty, hty, he⟩ := h name e hfind
  exact ⟨ty, hty, GivesAt.lasting hcarries he⟩

theorem Supplies.empty : Supplies site type fields ledger s ∅ := fun _ _ h => nomatch h

theorem Supplies.insert {name : String} (h : Supplies site type fields ledger s supplied)
    (hty : fields.find? name = some ty) (he : GivesAt site (type ty) ledger s e) :
    Supplies site type fields ledger s (supplied.insert name e) :=
  Assoc.forall_insert ⟨ty, hty, he⟩ h

/-- All of them, in the order of the declaration. -/
theorem Supplies.inOrder {values : List Core.Expr} (h : Supplies site type fields ledger s supplied)
    (hnodup : fields.keys.Nodup) (hvalues : supplied.inOrder fields.keys = .ok values) :
    GivesAll site (fields.values.map type) ledger s values := by
  have hall := Assoc.forall₂_of_inOrder hvalues
  rw [Assoc.keys, List.forall₂_map_left_iff, List.forall₂_iff_zip] at hall
  rw [GivesAll, List.forall₂_map_left_iff, Assoc.values, List.forall₂_map_left_iff,
    List.forall₂_iff_zip]
  refine ⟨hall.1, ?_⟩
  intro entry e hmem
  obtain ⟨ty, hty, he⟩ := h entry.1 e (hall.2 hmem)
  rw [Assoc.find?_of_mem hnodup (List.of_mem_zip hmem).1] at hty
  cases hty
  exact he

end Supplies

theorem Wellformed.gives_constructed (hs : Wellformed site ledger s) {inst : Instance}
    {values : List Core.Expr} (hinst : Instantiates adt ledger s inst)
    (hadt : Declared s adt tag fields)
    (hvalues : GivesAll site (fields.values.map inst.fieldType) ledger s values) :
    Gives site ledger s ⟨constructed tag values, s.unifier.resolve inst.ty⟩ := by
  have hty := hs.known_resolve (hinst.known hadt.find)
  rw [constructed.eq_def]
  split
  · exact .constant rfl hty
  · refine .object hty hvalues.gives fun _ hview => ?_
    rw [hvalues.tys_eq hview, hview.reads.resolve]
    exact hinst.layout hs hadt hview

/-! Fields. -/

variable {elem : Ty}

/-- The type is that of the component with the given index, in every view from
now on. What it is a component of is not a dictionary. -/
structure Component (target : Ty) (tag : Option Nat) (ledger : Ledger) (s : Checker)
    (component : Nat × Ty) : Prop where
  known : Known ledger s component.2
  has : ∀ view : View, view.Sees ledger s →
    Core.HasComponent view.adts view.registry (view.map target) tag component.1
      (view.map component.2)
  plain : ∀ view : View, view.Sees ledger s → ∀ bound self,
    view.map target = dictionaryType bound self → view.registry.isDeclared bound = false

theorem Component.lasting : Lasting (Component target tag) :=
  fun hcarries h => ⟨hcarries.known h.known, fun view hview => h.has view (hcarries.sees hview),
    fun view hview => h.plain view (hcarries.sees hview)⟩

/-- A component of a tuple. -/
theorem component_tuple {arity i : Nat} (hty : Known ledger s ty)
    (hcon : ty.con? = some (.tuple arity)) (hparam : ty.params[i]? = some elem) :
    Component ty none ledger s (i, elem) := by
  refine ⟨hty.param (List.mem_of_getElem? hparam), fun view hview => ?_, fun _ hview => ?_⟩
  · rw [hty.eq_tuple hcon, hview.reads.tuple]
    refine ⟨_, .tuple _, ?_⟩
    rw [List.getElem?_map, hparam]
    rfl
  · intro bound self heq
    rw [hty.eq_tuple hcon, hview.reads.tuple] at heq
    cases congrArg Ty.con? heq

/-- A component of an array. -/
theorem component_array {i : Nat} (hty : Known ledger s ty) (hcon : ty.con? = some .array)
    (hparams : ty.params = [elem]) (hi : i < ty.size) : Component ty none ledger s (i, elem) := by
  obtain ⟨elem', hparams', heq⟩ := hty.eq_array hcon
  obtain rfl : elem' = elem := (List.cons.inj (hparams'.symm.trans hparams)).1
  refine ⟨hty.param (hparams ▸ List.mem_singleton.mpr rfl), fun view hview => ?_,
    fun _ hview => ?_⟩
  · rw [heq, hview.reads.array]
    exact ⟨_, .array _ _, List.getElem?_replicate_of_lt hi⟩
  · intro bound self heq'
    rw [heq, hview.reads.array] at heq'
    cases congrArg Ty.con? heq'

theorem Wellformed.fieldOf (hs : Wellformed site ledger s) (hadt : Declared s adt tag fields)
    (htarget : Known ledger s target) (field : String) (span : Span) :
    Leads site ledger s (fieldOf adt fields target field span) (Component target tag) := by
  rw [Checker.fieldOf.eq_def]
  split
  · exact .resolve .fail
  · rename_i index ty hlocate
    obtain ⟨_, hvalue⟩ := Assoc.getElem?_of_locate? hlocate
    refine .bind (hs.instantiateAdt adt) ?_
    rintro ledger1 s1 inst hadv ⟨hinst, _⟩
    have hadt1 := hadt.later hadv.later.adts
    refine .bind (hadv.after.unify span (hinst.known hadt1.find) (hadv.known htarget)) ?_
    rintro ledger2 s2 c hadv2 ⟨_, hleft, hright⟩
    have hinst2 := Instantiates.lasting hadv2.carries hinst
    have hadt2 := hadt1.later hadv2.later.adts
    have hformed := ((hadv2.after.adts adt.name adt hadt2.find).fields tag fields hadt.fields).2 ty
      (List.mem_of_getElem? hvalue)
    refine .resolve (.pure hadv2.after ⟨?_, fun view hview => ?_, fun view hview => ?_⟩)
    · exact hadv2.after.known_resolve (hinst2.known_field hformed)
    · have hlayout := hinst2.layout hadv2.after hadt2 hview
      rw [(hleft.trans hright.symm) view hview] at hlayout
      refine ⟨_, hlayout, ?_⟩
      rw [List.getElem?_map, List.getElem?_map, hvalue, hview.reads.resolve]
      rfl
    · intro bound self heq
      obtain ⟨args, _, hinst, _⟩ := hinst2.view hview.reads.toHom
      rw [(hleft.trans hright.symm) view hview] at hinst
      cases congrArg Ty.con? (heq.symm.trans hinst)
      rw [Registry.isDeclared, hview.disjoint _ adt (hadt2.grows hview.adts)]
      rfl

theorem Wellformed.find_of? (hs : Wellformed site ledger s) (h : s.adts.of? ty = some adt) :
    Assoc.find? s.adts adt.name = some adt := by
  rw [AdtTable.of?] at h
  split at h
  · rw [(hs.adts _ adt h).name_eq]
    exact h
  · cases h

theorem Wellformed.declared_struct? (hs : Wellformed site ledger s)
    (h : s.adts.struct? ty = some (adt, fields)) : Declared s adt none fields := by
  obtain ⟨adt', hadt, h⟩ := Option.bind_eq_some_iff.mp h
  obtain ⟨fields', hfields, h⟩ := Option.bind_eq_some_iff.mp h
  cases h
  exact ⟨hs.find_of? hadt, hfields⟩

theorem Wellformed.selected (hs : Wellformed site ledger s) (hty : Known ledger s ty)
    (field : Surface.FieldRef) (targetSpan span : Span) :
    Leads site ledger s (selected ty field targetSpan span) (Component ty none) := by
  rw [Checker.selected.eq_def]
  split
  · exact .fail
  · rename_i arity i hcon
    split
    · rename_i elem hparam
      exact .pure hs (component_tuple hty hcon hparam)
    · exact .fail
  · rename_i i hcon
    obtain ⟨elem, hparams, _⟩ := hty.eq_array hcon
    rw [hparams]
    dsimp only
    split
    · rename_i hlt
      exact .pure hs (component_array hty hcon hparams hlt)
    · exact .fail
  · refine .get ?_
    split
    · rename_i adt fields hstruct
      exact hs.fieldOf (hs.declared_struct? hstruct) hty _ span
    · exact .fail
  · exact .fail

theorem Wellformed.select (hs : Wellformed site ledger s) (he : Gives site ledger s e)
    (field : Surface.FieldRef) (targetSpan span : Span) :
    Leads site ledger s (select e field targetSpan span) (Gives site) := by
  refine .resolve (.bind (hs.selected (hs.known_resolve he.known) field targetSpan span) ?_)
  rintro ledger1 s1 ⟨index, ty⟩ hadv hcomponent
  have hread : ∀ view : View, view.Sees ledger1 s1 →
      view.map (s.unifier.resolve e.ty) = view.map e.ty :=
    fun view hview => (hadv.carries.sees hview).reads.resolve e.ty
  refine .pure hadv.after (.field (Gives.lasting hadv.carries he) hcomponent.known ?_ (.inr ?_))
  · intro view hview
    rw [← hread view hview]
    exact hcomponent.has view hview
  · intro view hview
    rw [← hread view hview]
    exact hcomponent.plain view hview

/-! Matches. -/

variable {m : Match} {k : Nat} {ty? : Option Ty}

/-- The enum of a match is declared, and no name refers to its scrutinee. -/
structure Matches (ledger : Ledger) (s : Checker) (m : Match) : Prop where
  find : Assoc.find? s.adts m.adt.name = some m.adt
  tags : m.adt.tags? = some m.tags
  known : Known ledger s m.ty
  lt : m.scrutinee < s.scope.nextBinding
  unsettled : ledger.settled m.scrutinee = none

theorem Matches.advance {m : Match} (h : Matches ledger s m)
    (hadv : Advance site ledger s ledger' s') : Matches ledger' s' m where
  find := by
    obtain ⟨adt', hfind, _, hsame⟩ := hadv.later.adts m.adt.name m.adt h.find
    have hdone : m.adt.isPending = false := by
      have htags := h.tags
      rw [Adt.tags?] at htags
      rw [Adt.isPending]
      split at htags
      · rename_i hkind
        rw [hkind]
      · cases htags
    rw [hfind, hsame hdone]
  tags := h.tags
  known := hadv.known h.known
  lt := lt_of_lt_of_le h.lt hadv.later.binding
  unsettled := (hadv.settled m.scrutinee h.lt).trans h.unsettled

theorem Matches.declared (h : Matches ledger s m) (hfields : m.tags.values[k]? = some fields) :
    Declared s m.adt (some k) fields := by
  refine ⟨h.find, ?_⟩
  rw [Adt.fieldsAt, h.tags]
  exact hfields

theorem Wellformed.enumOf (hs : Wellformed site ledger s) (ty : Ty) (span : Span) :
    Leads site ledger s (enumOf ty span) fun _ s' r =>
      Assoc.find? s'.adts r.1.name = some r.1 ∧ r.1.tags? = some r.2 := by
  refine .get ?_
  split
  · rename_i found henum
    obtain ⟨adt, hadt, henum⟩ := Option.bind_eq_some_iff.mp henum
    obtain ⟨tags, htags, henum⟩ := Option.bind_eq_some_iff.mp henum
    cases henum
    exact .pure hs ⟨hs.find_of? hadt, htags⟩
  · exact .fail

/-- The statements that bind the payload of a case are in order. -/
def GivesPayload (site : Site) (m : Match) (k : Nat) (ledger : Ledger) (s : Checker)
    (stmts : List Core.Stmt) : Prop :=
  ∀ view : View, view.Sees ledger s → ∀ place : Core.Place, view.Admits site ledger place →
    Core.EveryStmts (view.rules site) (place.enter m.scrutinee (view.map m.ty) k)
      (Core.mapTyStmts view.map stmts)

theorem GivesPayload.lasting : Lasting (GivesPayload site m k) :=
  fun hcarries h view hview place hplace =>
    h view (hcarries.sees hview) place (hplace.carry hcarries)

/-- A field of the scrutinee. -/
theorem Matches.payload {component : Nat × Ty} {id : BindingId} (h : Matches ledger s m)
    (hid : Bound site ledger s id ty?) (hcomponent : Component m.ty (some k) ledger s component)
    {view : View} (hview : view.Sees ledger s) {place : Core.Place}
    (hplace : view.Admits site ledger place) :
    (Core.Stmt.mapTy view.map (.bind id ⟨.field ⟨.ident m.scrutinee, m.ty⟩ component.1,
      component.2⟩)).Every (view.rules site) (place.enter m.scrutinee (view.map m.ty) k) := by
  have hscrutinee : (place.enter m.scrutinee (view.map m.ty) k).cases m.scrutinee =
      some (view.map m.ty, k) := if_pos rfl
  have hsettled : view.settled m.scrutinee = none := (hview.settled _ h.lt).trans h.unsettled
  have htraced : ∀ {t}, Known ledger s t → Core.Traced view.created place (view.map t) :=
    fun ht => hplace.traced hview.reads.toHom ht (subset_refl _)
  rw [Core.Stmt.mapTy, Core.Expr.mapTy, Core.ExprKind.mapTy, Core.Expr.mapTy, Core.ExprKind.mapTy,
    Core.Stmt.Every, Core.Expr.Every, Core.ExprKind.Every, Core.Expr.Every, Core.ExprKind.Every]
  refine ⟨⟨hid.start, lt_of_lt_of_le hid.lt hview.next, fun _ => .inl ?_⟩,
    ⟨trivial, ?_, by rintro _ _ ⟨⟩, by rintro _ _ ⟨⟩, ⟨htraced hcomponent.known, by simp⟩, ?_⟩,
    ⟨trivial, trivial, ?_, by rintro _ _ ⟨⟩, ⟨htraced h.known, by simp⟩, by rintro _ ⟨⟩⟩, trivial⟩
  · refine ⟨_, _, rfl, ?_⟩
    dsimp only [Core.Expr.scrutinee?]
    rw [hscrutinee]
    rfl
  · dsimp only [Core.Expr.DataTyped, Core.Expr.scrutinee?]
    rw [hscrutinee]
    exact ⟨rfl, hcomponent.has view hview⟩
  · rintro d (_ | _ | ⟨heq, hdeclared⟩)
    rw [hcomponent.plain view hview _ _ heq] at hdeclared
    cases hdeclared
  · rintro other ty ⟨⟩ hty
    rw [hsettled] at hty
    cases hty

theorem Wellformed.bindCaseFields {m : Match} {k : Nat} {bindings : List Surface.CaseBinding}
    (hfields : m.tags.values[k]? = some fields) (hs : Wellformed site ledger s)
    (hm : Matches ledger s m) (seen : List String) :
    Leads site ledger s (bindCaseFields m fields seen bindings) (GivesPayload site m k) := by
  induction bindings generalizing ledger s seen with
  | nil =>
    refine .pure hs fun view hview place hplace => ?_
    rw [Core.mapTyStmts, Core.EveryStmts]
    trivial
  | cons b rest ih =>
    refine .ensure fun _ => .bind (hs.fieldOf (hm.declared hfields) hm.known _ _) ?_
    rintro ledger1 s1 ⟨index, ty⟩ hadv hcomponent
    refine .bind (hadv.after.bindLocal none b.binding.text hcomponent.known (by simp)) ?_
    rintro ledger2 s2 id hadv2 ⟨hid, _⟩
    refine .bind (ih hadv2.after ((hm.advance hadv).advance hadv2) _) ?_
    intro ledger3 s3 stmts hadv3 hstmts
    have hm3 := ((hm.advance hadv).advance hadv2).advance hadv3
    have hcomponent3 := Component.lasting (hadv2.trans hadv3).carries hcomponent
    refine .pure hadv3.after fun view hview place hplace => ?_
    rw [Core.mapTyStmts, Core.EveryStmts]
    exact ⟨hm3.payload (hid.carry hadv3.carries) hcomponent3 hview hplace,
      hstmts view hview place hplace⟩

/-! Hints and elements. -/

theorem Leads.resolve? {β : Type} {hint : Option Ty} {f : Option Ty → CheckM β}
    {R : Ledger → Checker → β → Prop} (h : Leads site ledger s (f (hint.map s.unifier.resolve)) R) :
    Leads site ledger s (resolve? hint >>= f) R := by
  cases hint with
  | none => exact h
  | some t =>
    rw [Checker.resolve?, bind_assoc]
    exact .resolve h

theorem Wellformed.hinted_resolve (hs : Wellformed site ledger s) {hint : Option Ty}
    (h : Hinted hint ledger s) : Hinted (hint.map s.unifier.resolve) ledger s := by
  intro t ht
  obtain ⟨t', rfl, rfl⟩ := Option.map_eq_some_iff.mp ht
  exact hs.known_resolve (h t' rfl)

theorem Wellformed.tupleHints (hs : Wellformed site ledger s) (length : Nat) {hint : Option Ty}
    (h : Hinted hint ledger s) : Leads site ledger s (tupleHints length hint)
      fun ledger' s' hints => ∀ t ∈ hints, Known ledger' s' t := by
  refine .resolve? (.pure hs ?_)
  intro t ht
  cases hhint : (hint.map s.unifier.resolve).filter (·.con? = some (.tuple length)) with
  | none =>
    rw [hhint] at ht
    cases ht
  | some t' =>
    rw [hhint] at ht
    exact (hs.hinted_resolve h t' (Option.filter_eq_some_iff.mp hhint).1).param ht

theorem Wellformed.arrayHint (hs : Wellformed site ledger s) {hint : Option Ty}
    (h : Hinted hint ledger s) : Leads site ledger s (arrayHint hint)
      fun ledger' s' hint' => Hinted hint' ledger' s' := by
  refine .resolve? (.pure hs ?_)
  intro t ht
  obtain ⟨t', ht', hhead⟩ := Option.bind_eq_some_iff.mp ht
  exact (hs.hinted_resolve h t' (Option.filter_eq_some_iff.mp ht').1).param
    (List.mem_of_head? hhead)

theorem Wellformed.elementOf (hs : Wellformed site ledger s) (hty : Known ledger s ty)
    (span : Span) : Leads site ledger s (elementOf ty span) Known := by
  rw [Checker.elementOf.eq_def]
  split
  · rename_i elem rest _ hparams
    exact .pure hs (hty.param (hparams ▸ List.mem_cons_self))
  · exact .fail

/-! Patterns. -/

/-- A type to settle a binding at, where bindings are to be settled. -/
theorem exists_settled (h : site.tidy → Settles site ledger s ty) : ∃ ty? : Option Ty,
    (∀ t, ty? = some t → t = ty ∧ Settles site ledger s t) ∧ (site.tidy → ty? = some ty) := by
  by_cases htidy : site.tidy
  · refine ⟨some ty, ?_, fun _ => rfl⟩
    rintro t ⟨⟩
    exact ⟨rfl, h htidy⟩
  · exact ⟨none, by nofun, fun h => absurd h htidy⟩

theorem toList_subset (h : ∀ t, ty? = some t → t = ty ∧ Settles site ledger s t) {tys : List Ty}
    (hmem : ty ∈ tys) : ty?.toList ⊆ tys :=
  fun t ht => (h t (Option.mem_toList.mp ht)).1 ▸ hmem

theorem Settles.param (h : Settles site ledger s ty) {p : Ty} (hp : p ∈ ty.params) :
    Settles site ledger s p := by
  have hvars : ∀ v ∈ p.vars, v ∈ ty.vars := fun v hv => Ty.mem_vars_of_param hp hv
  exact ⟨fun v hv w hw => h.apart v (hvars v hv) w (hvars w hw),
    fun hloose v hv => h.rigid hloose v (hvars v hv)⟩

theorem Wellformed.bindElements {source : Core.Expr} {names : List Name} {tys : List Ty}
    (hs : Wellformed site ledger s) (index : Nat) (hsource : Gives site ledger s source)
    (hcomponents : ∀ j t, tys[j]? = some t → Component source.ty none ledger s (index + j, t))
    (hsettles : site.tidy → ∀ t ∈ tys, Settles site ledger s t) :
    Leads site ledger s (bindElements source index names tys) fun ledger' s' stmts =>
      GivesStmts site ledger' s' stmts ∧ SettlesOnly s ledger' s' tys := by
  induction tys generalizing ledger s index names with
  | nil =>
    rw [Checker.bindElements.eq_def]
    split
    · rename_i heq
      cases heq
    · exact .pure hs ⟨.nil, hs.settlesOnly []⟩
  | cons ty tys ih =>
    cases names with
    | nil => exact .pure hs ⟨.nil, hs.settlesOnly _⟩
    | cons name names =>
      have hcomponent := hcomponents 0 ty rfl
      obtain ⟨ty?, hty?, htidy⟩ := exists_settled fun htidy => hsettles htidy ty List.mem_cons_self
      refine .bind (hs.bindLocal ty? name.text hcomponent.known hty?) ?_
      rintro ledger1 s1 id hadv ⟨hid, honly⟩
      refine .bind (ih hadv.after (index + 1) (Gives.lasting hadv.carries hsource) ?_ ?_) ?_
      · intro j t ht
        have hnext := hcomponents (j + 1) t ht
        rw [Nat.add_comm j, ← Nat.add_assoc] at hnext
        exact Component.lasting hadv.carries hnext
      · exact fun htidy t ht => (hsettles htidy t (List.mem_cons_of_mem ty ht)).advance hadv
      · rintro ledger2 s2 stmts hadv2 ⟨hstmts, honly2⟩
        have hadv' := hadv.trans hadv2
        have hcomponent' := Component.lasting hadv'.carries hcomponent
        have hfield := Gives.field (Gives.lasting hadv'.carries hsource) hcomponent'.known
          hcomponent'.has (.inr hcomponent'.plain)
        have hbind := GivesStmts.bind (hid.carry hadv2.carries) hfield.every
          fun h => ⟨ty, htidy h, .refl _ _ _⟩
        refine .pure hadv2.after ⟨hbind.append hstmts, (honly.trans hadv2 honly2).mono ?_⟩
        exact List.append_subset.mpr ⟨toList_subset hty? List.mem_cons_self,
          List.subset_cons_self _ _⟩

theorem Wellformed.bindPattern (hs : Wellformed site ledger s) (pattern : Surface.Pattern)
    (hty : Known ledger s ty) (hsettles : site.tidy → Settles site ledger s ty)
    (he : GivesAt site ty ledger s e) (span : Span) :
    Leads site ledger s (bindPattern pattern ty e span) fun ledger' s' stmts =>
      GivesStmts site ledger' s' stmts ∧ SettlesOnly s ledger' s' (ty :: ty.params) := by
  obtain ⟨ty?, hty?, htidy⟩ := exists_settled hsettles
  have hsub : ty?.toList ⊆ ty :: ty.params := toList_subset hty? List.mem_cons_self
  cases pattern with
  | name name =>
    refine .bind (hs.bindLocal ty? name.text hty hty?) ?_
    rintro ledger1 s1 id hadv ⟨hid, honly⟩
    obtain ⟨he, hsame⟩ := GivesAt.lasting hadv.carries he
    exact .pure hadv.after ⟨.bind hid he.every fun h => ⟨ty, htidy h, hsame⟩, honly.mono hsub⟩
  | tuple names =>
    rw [Checker.bindPattern.eq_def]
    dsimp only
    split
    · rename_i arity hcon
      refine .ensure fun _ => .bind (hs.freshBinding ty? fun t ht => (hty? t ht).2) ?_
      rintro ledger1 s1 source hadv ⟨hid, honly⟩
      have hsource : Gives site ledger1 s1 ⟨.ident source, ty⟩ := by
        refine .ident (hadv.known hty) hid.hidden fun _ hview t ht => ?_
        rw [hview.settled source hid.lt, hid.settled] at ht
        obtain ⟨rfl, hsettled⟩ := hty? t ht
        exact hview.reads.instanceOf hsettled.apart
      refine .bind (hadv.after.bindElements 0 hsource ?_ ?_) ?_
      · intro j t ht
        rw [Nat.zero_add]
        exact component_tuple (hadv.known hty) hcon ht
      · exact fun htidy _ ht => ((hsettles htidy).param ht).advance hadv
      · rintro ledger2 s2 stmts hadv2 ⟨hstmts, honly2⟩
        obtain ⟨he, hsame⟩ := GivesAt.lasting (hadv.trans hadv2).carries he
        have hbind := GivesStmts.bind (hid.carry hadv2.carries) he.every
          fun h => ⟨ty, htidy h, hsame⟩
        refine .pure hadv2.after ⟨hbind.append hstmts, (honly.trans hadv2 honly2).mono ?_⟩
        exact List.append_subset.mpr ⟨hsub, List.subset_cons_self _ _⟩
    · refine ⟨fun _ _ hrun => ?_, (safe_of ends_freshAll).bind fun _ _ _ => .fail rfl⟩
      obtain ⟨_, _, _, hrun⟩ := hrun.bind
      exact hrun.fail.elim

end Checker

end TraitCheck
