import TraitCheck.Proofs.Readings
import TraitCheck.Proofs.ScopeInvariants

/-!
Instantiation is a renaming that can be undone. The given variables are replaced by
copies with ids that were never drawn, and all other variables stay. So the type
that comes out has its variables where the type had them (`vars_substitute`), shares
none of the given ones with it, and becomes the type again when the copies are
replaced by what they are copies of.
-/

namespace TraitCheck

variable {t : Ty}

theorem Ty.allVars_eq_flatMap (args : List Ty) : Ty.allVars args = args.flatMap Ty.vars := by
  induction args with
  | nil => rfl
  | cons t rest ih => rw [Ty.allVars, List.flatMap_cons, ih]

/-- A reading that takes variables for variables does so at every place. -/
theorem Ty.Hom.vars {f : Ty → Ty} (hf : Ty.Hom f) {g : TyVar → TyVar}
    (h : ∀ v ∈ t.vars, f (.var v) = .var (g v)) : (f t).vars = t.vars.map g := by
  induction t with
  | var v => rw [h v (Ty.mem_vars_var.mpr rfl), Ty.vars, Ty.vars, List.map_singleton]
  | app head args ih =>
    rw [hf.app, Ty.vars, Ty.vars, Ty.allVars_eq_flatMap, Ty.allVars_eq_flatMap, List.flatMap_map,
      List.map_flatMap]
    refine List.flatMap_congr fun s hs => ih s hs fun v hv => h v ?_
    exact Ty.mem_vars_app.mpr ⟨s, hs, hv⟩

variable {v : TyVar} {vars : List TyVar} {next : Nat}

namespace Subst

/-- What a variable becomes: the `i`-th of the given ones gets the `i`-th new id, and
all else of it stays. -/
def copy (next : Nat) (vars : List TyVar) (v : TyVar) : TyVar :=
  if v ∈ vars then { v with id := next + vars.idxOf v } else v

theorem find?_relabelling_mem (h : (vars.map (·.id)).Nodup) (hv : v ∈ vars) (next : Nat) :
    (Assoc.mk (relabelling next vars)).find? v.id = some (.var (copy next vars v)) := by
  rw [copy, if_pos hv]
  induction vars generalizing next with
  | nil => cases hv
  | cons x rest ih =>
    rw [relabelling, Assoc.find?_mk_cons]
    obtain ⟨hx, hrest⟩ := List.nodup_cons.mp h
    rcases List.mem_cons.mp hv with rfl | hv
    · rw [if_pos rfl, List.idxOf_cons_self]
      rfl
    · have hid : x.id ≠ v.id := fun hid => hx (List.mem_map.mpr ⟨v, hv, hid.symm⟩)
      rw [if_neg hid, ih hrest hv, List.idxOf_cons_ne rest fun heq => hid (congrArg TyVar.id heq),
        Nat.succ_eq_add_one, Nat.add_assoc, Nat.add_comm 1]

/-- The copies have the new ids, in the order of the variables. -/
theorem ids_copy (h : vars.Nodup) (next : Nat) :
    (vars.map (copy next vars)).map (·.id) = List.range' next vars.length := by
  refine List.ext_getElem (by simp) fun i hi _ => ?_
  have hi' : i < vars.length := by simpa using hi
  rw [List.getElem_map, List.getElem_map, List.getElem_range', copy, if_pos (List.getElem_mem hi'),
    h.idxOf_getElem i hi', Nat.one_mul]

/-- Each copy back in its place. -/
def undoing (next : Nat) (vars : List TyVar) : List (VarId × Ty) :=
  (List.range' next vars.length).zip (vars.map .var)

theorem find?_undoing (hv : v ∈ vars) :
    (Assoc.mk (undoing next vars)).find? (copy next vars v).id = some (.var v) := by
  have hlength : (vars.map Ty.var).length = vars.length := List.length_map _
  rw [copy, if_pos hv, undoing, ← hlength, Assoc.find?_zip_range', List.getElem?_map,
    List.getElem?_idxOf hv]
  rfl

theorem find?_undoing_of_lt {id : VarId} (hid : id < next) :
    (Assoc.mk (undoing next vars)).find? id = none := by
  by_contra hfind
  obtain ⟨t, ht⟩ := Option.ne_none_iff_exists'.mp hfind
  have hmem := (List.of_mem_zip (Assoc.mem_of_find? ht)).1
  exact Nat.not_lt.mpr (List.mem_range'_1.mp hmem).1 hid

end Subst

/-- Variables that differ have different ids, and all of them have been drawn. -/
structure Drawn (next : Nat) (vars : List TyVar) : Prop where
  agree : ∀ v ∈ vars, ∀ w ∈ vars, v.id = w.id → v = w
  lt : ∀ v ∈ vars, v.id < next

namespace Drawn

open Subst (copy relabelling undoing)

theorem nodup_ids (h : Drawn next (vars ++ t.vars)) (hnodup : vars.Nodup) :
    (vars.map (·.id)).Nodup :=
  hnodup.map_on fun v hv w hw => h.agree v (List.mem_append_left _ hv) w (List.mem_append_left _ hw)

/-- What is not replaced has an id that none of the given variables has. -/
theorem find?_relabelling (h : Drawn next (vars ++ t.vars)) (hv : v ∈ t.vars) (hmem : v ∉ vars) :
    (Assoc.mk (relabelling next vars)).find? v.id = none := by
  refine Subst.find?_relabelling_of_notMem next fun w hw hid => hmem ?_
  exact h.agree w (List.mem_append_left _ hw) v (List.mem_append_right _ hv) hid ▸ hw

theorem substitute_var (h : Drawn next (vars ++ t.vars)) (hnodup : vars.Nodup) (hv : v ∈ t.vars) :
    (Ty.var v).substitute (relabelling next vars) = .var (copy next vars v) := by
  rw [Ty.substitute, Ty.replace_var]
  by_cases hmem : v ∈ vars
  · rw [Subst.find?_relabelling_mem (h.nodup_ids hnodup) hmem, Option.getD_some]
  · rw [h.find?_relabelling hv hmem, Option.getD_none, copy, if_neg hmem]

theorem vars_substitute (h : Drawn next (vars ++ t.vars)) (hnodup : vars.Nodup) :
    (t.substitute (relabelling next vars)).vars = t.vars.map (copy next vars) :=
  (Ty.hom_substitute _).vars fun _ hv => h.substitute_var hnodup hv

theorem mentions_substitute (h : Drawn next (vars ++ t.vars)) (hnodup : vars.Nodup)
    (hv : v ∈ vars) : (t.substitute (relabelling next vars)).mentions v.id = false := by
  rw [← Bool.not_eq_true, Ty.mentions_iff, h.vars_substitute hnodup]
  rintro ⟨w, hw, hid⟩
  obtain ⟨x, hx, rfl⟩ := List.mem_map.mp hw
  have hlt := h.lt v (List.mem_append_left _ hv)
  by_cases hmem : x ∈ vars
  · rw [copy, if_pos hmem] at hid
    exact absurd hlt (Nat.not_lt.mpr (hid ▸ Nat.le_add_right next _))
  · rw [copy, if_neg hmem] at hid
    obtain rfl := h.agree x (List.mem_append_right _ hx) v (List.mem_append_left _ hv) hid
    exact hmem hv

theorem substitute_undoing (h : Drawn next (vars ++ t.vars)) (hnodup : vars.Nodup) :
    (t.substitute (relabelling next vars)).substitute (undoing next vars) = t := by
  refine ((Ty.hom_substitute _).comp (Ty.hom_substitute _)).eq_self fun v hv => ?_
  rw [Function.comp_apply, h.substitute_var hnodup hv, Ty.substitute, Ty.replace_var]
  by_cases hmem : v ∈ vars
  · rw [Subst.find?_undoing hmem, Option.getD_some]
  · rw [copy, if_neg hmem, Subst.find?_undoing_of_lt (h.lt v (List.mem_append_right _ hv)),
      Option.getD_none]

end Drawn

/-- For every type and every list of different variables, where all variables in play
have been drawn and two with one id are the same: an instance of the type has none of
the given variables. Its variables are those of the type, at the same places, except that
each of the given ones has a new id, and name and traits as before; the new ids follow
the counter, one for each of the given variables, and the counter moves on behind them.
At every place the obligations are those that were there, in their order and with their
bounds, and the given variables in place of the new ones give the type again. -/
theorem Unifier.instantiate_renames (u : Unifier) (hnodup : vars.Nodup)
    (h : Drawn u.next (vars ++ t.vars)) :
    let map := Subst.relabelling u.next vars
    ∃ ty, u.instantiate vars t = (ty, { u with next := u.next + vars.length }) ∧
      (∀ v ∈ vars, ty.mentions v.id = false) ∧
      ty.vars = t.vars.map (Subst.copy u.next vars) ∧
      (vars.map (Subst.copy u.next vars)).map (·.id) = List.range' u.next vars.length ∧
      (∀ k head args, Ty.At k (.app head args) t →
        Ty.At k ((Ty.app head args).substitute map) ty ∧
          ((Ty.app head args).substitute map).obligations =
            (Ty.app head args).obligations.map fun o => ⟨o.ty.substitute map, o.bound⟩) ∧
      ty.substitute (Subst.undoing u.next vars) = t := by
  intro map
  refine ⟨t.substitute map, rfl, fun _ hv => h.mentions_substitute hnodup hv,
    h.vars_substitute hnodup, Subst.ids_copy hnodup u.next, ?_, h.substitute_undoing hnodup⟩
  intro k head args hat
  refine ⟨hat.replace _, ?_⟩
  rw [(Ty.hom_substitute map).app, Ty.obligations_map]
  rfl

/-- A function over two type parameters, one of them bounded, and a variable from
outside. -/
theorem Unifier.instantiate_renames_bounded :
    let outer : TyVar := ⟨1, "R", ∅⟩
    let item : TyVar := ⟨3, "T", .singleton "Show"⟩
    let result : TyVar := ⟨4, "U", ∅⟩
    let t := Ty.funcWith [⟨.var item, "Show"⟩]
      [.var item, .var outer, .tuple [.var result, .var item]] (.var result)
    let u : Unifier := { next := 9 }
    ∃ ty, u.instantiate [item, result] t = (ty, { u with next := 11 }) ∧
      ty.vars = [⟨10, "U", ∅⟩, ⟨9, "T", .singleton "Show"⟩, outer, ⟨10, "U", ∅⟩,
        ⟨9, "T", .singleton "Show"⟩, ⟨9, "T", .singleton "Show"⟩] ∧
      ty.substitute [(9, .var item), (10, .var result)] = t := by
  intro outer item result t u
  have hnodup : [item, result].Nodup := by decide
  have hdrawn : Drawn u.next ([item, result] ++ t.vars) := ⟨by decide, by decide⟩
  obtain ⟨ty, hrun, _, hvars, _, _, hundo⟩ := Unifier.instantiate_renames u hnodup hdrawn
  exact ⟨ty, hrun, hvars.trans (by decide), hundo⟩

end TraitCheck
