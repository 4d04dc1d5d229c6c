import TraitCheck.Proofs.Matches

/-!
Construction of structs and of cases of enums. The fields may be supplied in any
order. Their values are checked in the order in which they are written, and the
object has them in the order in which they are declared: a construction that is
accepted supplies each declared field once, and value `i` is what the expression
supplied for field `i` is checked to (`checkExpr_construct_exact`). If a field is
unknown, supplied twice or missing, the construction is rejected.
-/

namespace TraitCheck

/-- What a type and a tag construct: all fields of a struct, or a case of an enum
with its index and its fields. -/
inductive Adt.Constructs (adt : Adt) : Option Name → Option Nat → Fields → Prop
  | struct {fields : Fields} : adt.kind = .struct fields → Constructs adt none none fields
  | case {tags : Assoc String Fields} {tag : Name} {index : Nat} {fields : Fields} :
      adt.kind = .enum tags → tags.locate? tag.text = some (index, fields) →
      Constructs adt (some tag) (some index) fields

namespace Checker

open Surface (FieldInit)

variable {s s' : Checker} {room : Nat} {hint : Option Ty} {inst : Instance} {fields : Fields}
  {inits : List FieldInit} {adt : Adt} {tag : Option Name} {index : Option Nat} {span : Span}

theorem constructedFields_eq (h : adt.Constructs tag index fields) (span : Span) :
    constructedFields adt tag span = pure (index, fields) := by
  cases h with
  | struct hkind => simp only [constructedFields, hkind]
  | case hkind hlocate => simp only [constructedFields, hkind, hlocate]

theorem constructed_case (i : Nat) : constructed (some i) [] = .int i := rfl

theorem constructed_object {values : List Core.Expr} (h : index = none ∨ values ≠ []) :
    constructed index values = .object index values := by
  cases index with
  | none => rfl
  | some i =>
    cases values with
    | nil => exact absurd rfl (h.resolve_left nofun)
    | cons => rfl

/-- From the first state to the last, the values of the supplied fields are
checked from left to right, each as one of the type of its field. -/
inductive InitsChecked (room : Nat) (inst : Instance) (fields : Fields) :
    Checker → List (FieldInit × Core.Expr) → Checker → Prop
  | nil {s : Checker} : InitsChecked room inst fields s [] s
  | cons {s s₁ s' : Checker} {init : FieldInit} {value : Core.Expr} {ty : Ty}
      {rest : List (FieldInit × Core.Expr)} :
      fields.find? init.name.text = some ty →
      Yields (expecting (inst.fieldType ty) init.value.span fun hint =>
        checkExpr room hint init.value) s value s₁ →
      InitsChecked room inst fields s₁ rest s' →
      InitsChecked room inst fields s ((init, value) :: rest) s'

/-- A supplied field, by the entry that it has in the table of its name. -/
def suppliedEntry (checked : FieldInit × Core.Expr) : String × Core.Expr :=
  (checked.1.name.text, checked.2)

theorem InitsChecked.declared {checked : List (FieldInit × Core.Expr)}
    (h : InitsChecked room inst fields s checked s') :
    ∀ name ∈ (checked.map suppliedEntry).map Prod.fst, name ∈ fields.keys := by
  induction h with
  | nil => nofun
  | cons hfind _ _ ih =>
    intro name hname
    rcases List.mem_cons.mp hname with rfl | hname
    · exact (Assoc.find?_isSome _ _).mp (Option.isSome_of_eq_some hfind)
    · exact ih name hname

/-- Each supplied field comes last in the table, since none is supplied twice. -/
theorem initsChecked_of_checkInits {supplied out : Assoc String Core.Expr}
    (h : Yields (checkInits room inst fields supplied inits) s out s')
    (hnodup : supplied.keys.Nodup) : out.keys.Nodup ∧ ∃ checked, checked.map Prod.fst = inits ∧
      InitsChecked room inst fields s checked s' ∧
      out.entries = supplied.entries ++ checked.map suppliedEntry := by
  induction inits generalizing s supplied with
  | nil =>
    rw [checkInits] at h
    obtain ⟨rfl, rfl⟩ := h.pure
    exact ⟨hnodup, [], rfl, .nil, (List.append_nil _).symm⟩
  | cons init rest ih =>
    obtain ⟨name, e⟩ := init
    rw [checkInits] at h
    split at h
    · obtain ⟨_, _, _, h⟩ := h.bind
      exact h.fail.elim
    · rename_i ty hfind
      obtain ⟨hnew, h⟩ := h.ensure_bind
      obtain ⟨value, s2, h2, h⟩ := h.bind
      obtain ⟨hout, checked, rfl, hchecks, hentries⟩ :=
        ih h (Assoc.nodup_keys_insert supplied _ value hnodup)
      refine ⟨hout, (⟨name, e⟩, value) :: checked, rfl, .cons hfind h2 hchecks, ?_⟩
      rw [hentries, Assoc.entries_insert supplied value hnew, List.append_assoc]
      rfl

/-- The steps of a construction that is accepted. -/
theorem initsChecked_of_checkExpr {ty : Name} {e : Core.Expr}
    (hadt : s.adts.find? ty.text = some adt) (hfields : adt.Constructs tag index fields)
    (hnodup : fields.keys.Nodup)
    (h : Yields (checkExpr (room + 1) hint (.construct ty tag inits span)) s e s') :
    (inits.map (·.name.text)).Perm fields.keys ∧
      ∃ inst s1 checked values, Yields (instantiateAdt adt) s inst s1 ∧
        checked.map Prod.fst = inits ∧ InitsChecked room inst fields s1 checked s' ∧
        List.Forall₂ (fun field value => ∃ init : FieldInit, init.name.text = field ∧
          (init, value) ∈ checked) fields.keys values ∧
        e = ⟨constructed index values, s'.unifier.resolve inst.ty⟩ := by
  rw [checkExpr] at h
  obtain ⟨adt', s1, h1, h⟩ := h.bind
  obtain ⟨rfl, rfl⟩ : adt = adt' ∧ s = s1 := by
    replace h1 := h1.get_bind
    rw [hadt] at h1
    exact h1.pure
  obtain ⟨inst, s2, h2, h⟩ := h.bind
  obtain ⟨⟨index', fields'⟩, s3, h3, h⟩ := h.bind
  rw [constructedFields_eq hfields] at h3
  obtain ⟨heq, rfl⟩ := h3.pure
  cases heq
  obtain ⟨supplied, s4, h4, h⟩ := h.bind
  obtain ⟨hsupplied, checked, hinits, hchecks, hentries⟩ :=
    initsChecked_of_checkInits h4 List.nodup_nil
  rw [show (∅ : Assoc String Core.Expr).entries = [] from rfl, List.nil_append] at hentries
  split at h
  · exact h.fail.elim
  · rename_i values hvalues
    obtain ⟨ty', s5, h5, h⟩ := h.bind
    cases h5
    obtain ⟨rfl, rfl⟩ := h.pure
    have honly : ∀ name ∈ supplied.keys, name ∈ fields.keys := by
      rw [Assoc.keys, hentries]
      exact hchecks.declared
    obtain ⟨hperm, hread⟩ := Assoc.Within.inOrder ⟨hsupplied, honly⟩ hnodup hvalues
    refine ⟨?_, inst, s2, checked, values, h2, hinits, hchecks, ?_, rfl⟩
    · rw [Assoc.keys, hentries] at hperm
      rw [← hinits, List.map_map]
      rwa [List.map_map] at hperm
    · refine hread.imp fun _ _ hmem => ?_
      rw [hentries] at hmem
      obtain ⟨⟨init, _⟩, hchecked, heq⟩ := List.mem_map.mp hmem
      cases heq
      exact ⟨init, rfl, hchecked⟩

/-- In every state, for every declared struct and every tag of a declared enum,
which has no field twice, and every list of supplied fields: if the construction
is accepted, the supplied names are the declared ones in some order, and value `i`
is the one that the expression supplied for field `i` was checked to, when the
supplied expressions were checked from left to right. A case without fields is
its index, and all else is an object with the index. If a field is missing,
supplied twice or unknown, the construction is rejected. -/
theorem checkExpr_construct_exact (ty : Name) (hadt : s.adts.find? ty.text = some adt)
    (hfields : adt.Constructs tag index fields) (hnodup : fields.keys.Nodup) :
    (∀ e s', Yields (checkExpr (room + 1) hint (.construct ty tag inits span)) s e s' →
      (inits.map (·.name.text)).Perm fields.keys ∧
      ∃ inst s₁ checked values, Yields (instantiateAdt adt) s inst s₁ ∧
        checked.map Prod.fst = inits ∧ InitsChecked room inst fields s₁ checked s' ∧
        List.Forall₂ (fun field value => ∃ init : FieldInit, init.name.text = field ∧
          (init, value) ∈ checked) fields.keys values ∧
        (∀ i, index = some i → fields.keys = [] → e.kind = .int i) ∧
        (index = none ∨ fields.keys ≠ [] → e.kind = .object index values)) ∧
    (¬(inits.map (·.name.text)).Perm fields.keys → ∃ error s',
      (checkExpr (room + 1) hint (.construct ty tag inits span)).run.run s =
        (.error error, s')) := by
  constructor
  · intro e s' h
    obtain ⟨hperm, inst, s₁, checked, values, hinst, hinits, hchecks, hvalues, rfl⟩ :=
      initsChecked_of_checkExpr hadt hfields hnodup h
    refine ⟨hperm, inst, s₁, checked, values, hinst, hinits, hchecks, hvalues, ?_, ?_⟩
    · rintro i rfl hnone
      rw [hnone] at hvalues
      cases hvalues
      exact constructed_case i
    · intro hsome
      refine constructed_object (hsome.imp id fun hne hnil => hne ?_)
      rw [hnil] at hvalues
      exact List.forall₂_nil_right_iff.mp hvalues
  · intro hperm
    cases hrun : (checkExpr (room + 1) hint (.construct ty tag inits span)).run.run s with
    | mk result s' =>
      cases result with
      | error error => exact ⟨error, s', rfl⟩
      | ok e => exact absurd (initsChecked_of_checkExpr hadt hfields hnodup hrun).1 hperm

/-- Fields that are supplied in the opposite order are accepted, and one of them
twice is not. -/
theorem checkExpr_construct_exact_reordered :
    let name (text : String) : Name := ⟨text, .dummy⟩
    let fields : Fields := ⟨[("radius", .int), ("label", .var ⟨0, "T", ∅⟩)]⟩
    let tags : Assoc String Fields := ⟨[("Empty", ∅), ("Circle", fields)]⟩
    let adt : Adt := ⟨"Shape", [⟨0, "T", ∅⟩], .enum tags⟩
    let s : Checker := { adts := ⟨[("Shape", adt)]⟩, unifier := { next := 1 } }
    let label : FieldInit := ⟨name "label", .string "unit" .dummy⟩
    let radius : FieldInit := ⟨name "radius", .int 1 .dummy⟩
    let check (inits : List FieldInit) :=
      checkExpr 2 none (.construct (name "Shape") (some (name "Circle")) inits .dummy)
    (∃ e s', Yields (check [label, radius]) s e s' ∧
      ∃ inst s₁ checked values, Yields (instantiateAdt adt) s inst s₁ ∧
        checked.map Prod.fst = [label, radius] ∧ InitsChecked 1 inst fields s₁ checked s' ∧
        List.Forall₂ (fun field value => ∃ init : FieldInit, init.name.text = field ∧
          (init, value) ∈ checked) ["radius", "label"] values ∧
        e.kind = .object (some 1) values) ∧
      ∃ error s', (check [label, radius, label]).run.run s = (.error error, s') := by
  intro name fields tags adt s label radius check
  have hadt : s.adts.find? "Shape" = some adt := rfl
  have hfields : adt.Constructs (some (name "Circle")) (some 1) fields := .case rfl rfl
  have hnodup : fields.keys.Nodup := by decide
  obtain ⟨e, s', hrun⟩ : ∃ e s', Yields (check [label, radius]) s e s' :=
    exists_yields (by decide +kernel)
  obtain ⟨_, inst, s₁, checked, values, hinst, hinits, hchecks, hvalues, _, hkind⟩ :=
    (checkExpr_construct_exact (name "Shape") hadt hfields hnodup).1 e s' hrun
  refine ⟨⟨e, s', hrun, inst, s₁, checked, values, hinst, hinits, hchecks, hvalues,
    hkind (.inr (by decide))⟩, ?_⟩
  refine (checkExpr_construct_exact (name "Shape") hadt hfields hnodup).2 fun hperm => ?_
  exact absurd hperm.length_eq (by decide)

end Checker

end TraitCheck
