import Mathlib.Logic.Function.Basic
import TraitCheck.Proofs.DictionaryNames
import TraitCheck.Proofs.Terms
import TraitCheck.Unifier

/-!
Renamings of type variables, tracers and bindings. An id has no meaning of its
own, so whatever is computed from types commutes with a renaming that sends
different ids to different ones. The ids of tracers also stand in the names of
their dictionaries, and there they are renamed too. All other names stay as they
are. The limit of nesting, which a failure may name, is one more number that may
be exchanged.
-/

namespace TraitCheck

namespace Assoc

variable {κ κ' α β : Type}

/-- The table with other keys and values. -/
def bimap (f : κ → κ') (g : α → β) (table : Assoc κ α) : Assoc κ' β :=
  ⟨table.entries.map (Prod.map f g)⟩

/-- The table with other values. -/
def mapVal (g : α → β) (table : Assoc κ α) : Assoc κ β := table.bimap id g

@[simp] theorem values_bimap (f : κ → κ') (g : α → β) (table : Assoc κ α) :
    (table.bimap f g).values = table.values.map g := by
  simp [values, bimap]

@[simp] theorem keys_mapVal (g : α → β) (table : Assoc κ α) :
    (table.mapVal g).keys = table.keys := by
  simp [keys, mapVal, bimap]

variable [DecidableEq κ] [DecidableEq κ']

section Bimap

variable {f : κ → κ'} {g : α → β} (hf : Function.Injective f) (table : Assoc κ α)

include hf

theorem find?_bimap (key : κ) : (table.bimap f g).find? (f key) = (table.find? key).map g := by
  obtain ⟨entries⟩ := table
  simp only [find?, bimap]
  induction entries with
  | nil => rfl
  | cons entry rest ih =>
    obtain ⟨k, a⟩ := entry
    by_cases hk : k = key
    · simp [find?.go, hk]
    · simp [find?.go, hk, hf.ne hk, ih]

theorem contains_bimap (key : κ) : (table.bimap f g).contains (f key) = table.contains key := by
  rw [contains, contains, find?_bimap hf, Option.isSome_map]

theorem insert_bimap (key : κ) (value : α) :
    (table.insert key value).bimap f g = (table.bimap f g).insert (f key) (g value) := by
  obtain ⟨entries⟩ := table
  simp only [insert, bimap, mk.injEq]
  induction entries with
  | nil => rfl
  | cons entry rest ih =>
    obtain ⟨k, a⟩ := entry
    by_cases hk : k = key
    · simp [insert.go, hk]
    · simp [insert.go, hk, hf.ne hk, ih]

theorem insertNew_bimap (key : κ) (value : α) :
    (table.insertNew key value).bimap f g = (table.bimap f g).insertNew (f key) (g value) := by
  rw [insertNew, insertNew, contains_bimap hf]
  split
  · rfl
  · exact insert_bimap hf table key value

theorem modify_bimap {m : α → α} {m' : β → β} (hm : ∀ a, g (m a) = m' (g a)) (key : κ) :
    (table.modify key m).bimap f g = (table.bimap f g).modify (f key) m' := by
  rw [modify, modify, find?_bimap hf]
  cases table.find? key with
  | none => rfl
  | some a =>
    rw [Option.map_some]
    dsimp only
    rw [insert_bimap hf, hm]

end Bimap

section MapVal

variable {g : α → β} (table : Assoc κ α)

@[simp] theorem find?_mapVal (key : κ) : (table.mapVal g).find? key = (table.find? key).map g :=
  find?_bimap Function.injective_id table key

@[simp] theorem contains_mapVal (key : κ) : (table.mapVal g).contains key = table.contains key :=
  contains_bimap Function.injective_id table key

theorem insert_mapVal (key : κ) (value : α) :
    (table.insert key value).mapVal g = (table.mapVal g).insert key (g value) :=
  insert_bimap Function.injective_id table key value

theorem locate?_mapVal (key : κ) :
    (table.mapVal g).locate? key = (table.locate? key).map (Prod.map id g) := by
  obtain ⟨entries⟩ := table
  simp only [locate?, mapVal, bimap]
  induction entries with
  | nil => rfl
  | cons entry rest ih =>
    obtain ⟨k, a⟩ := entry
    by_cases hk : k = key
    · simp [locate?.go, hk]
    · simp only [List.map_cons, locate?.go, Prod.map_apply, id_eq, hk, if_false]
      rw [ih]
      cases locate?.go key rest <;> rfl

theorem inOrder_mapVal (keys : List κ) :
    (table.mapVal g).inOrder keys = (table.inOrder keys).map (List.map g) := by
  induction keys with
  | nil => rfl
  | cons key rest ih =>
    rw [inOrder, inOrder, find?_mapVal, ih]
    cases table.find? key with
    | none => rfl
    | some a => cases table.inOrder rest <;> rfl

end MapVal

end Assoc

/-- New ids for variables and tracers, which are counted together, and for
bindings, and what is named in place of a limit. -/
structure Renaming where
  var : Nat → Nat
  binding : BindingId → BindingId
  limit : Nat → Nat
  var_injective : Function.Injective var
  binding_injective : Function.Injective binding

/-! Names. -/

/-- A name that does not end in the id of a tracer. -/
def Unnumbered (name : String) : Prop := '#' ∉ name.toList

instance (name : String) : Decidable (Unnumbered name) :=
  inferInstanceAs (Decidable (¬ '#' ∈ name.toList))

/-- A name that ends in an id. -/
def numbered (stem : String) (id : Nat) : String := stem ++ "#" ++ id.repr ++ ">"

theorem toList_numbered (stem : String) (id : Nat) :
    (numbered stem id).toList = stem.toList ++ '#' :: (id.repr.toList ++ ['>']) := by
  simp [numbered]

theorem not_unnumbered_numbered (stem : String) (id : Nat) : ¬Unnumbered (numbered stem id) := by
  rw [Unnumbered, toList_numbered]
  simp

theorem numbered_inj {stem stem' : String} {id id' : Nat} (hstem : Unnumbered stem)
    (hstem' : Unnumbered stem') (h : numbered stem id = numbered stem' id') :
    stem = stem' ∧ id = id' := by
  have hlist := congrArg String.toList h
  rw [toList_numbered, toList_numbered] at hlist
  obtain ⟨hstems, hids⟩ := append_cons_inj hstem hstem' hlist
  have hrepr : id.repr.toList = id'.repr.toList := List.append_cancel_right hids
  have hdigits : Nat.toDigits 10 id = Nat.toDigits 10 id' := by simpa [Nat.repr] using hrepr
  refine ⟨String.toList_inj.mp hstems, ?_⟩
  rw [← Nat.ofDigitChars_ten_toDigits (n := id), hdigits, Nat.ofDigitChars_ten_toDigits]

/-- A tracer stands with its id at the end of the names of its dictionaries. -/
theorem dictionaryName_tracer (bound : Trait) (id : Nat) (name : String) :
    s!"${bound}<{name}#{id}>" = numbered ("$" ++ bound ++ "<" ++ name) id := by
  apply String.toList_inj.mp
  simp [numbered, toString]

theorem unnumbered_append {a b : String} : Unnumbered (a ++ b) ↔ Unnumbered a ∧ Unnumbered b := by
  simp [Unnumbered, not_or]

namespace Renaming

variable (ρ : Renaming)
variable {n stem : String}

open Classical in
/-- Renames the tracer that a name ends in. -/
noncomputable def name (n : String) : String :=
  if h : ∃ stem id, Unnumbered stem ∧ n = numbered stem id then
    numbered h.choose (ρ.var h.choose_spec.choose)
  else n

theorem name_numbered (hstem : Unnumbered stem) (id : Nat) :
    ρ.name (numbered stem id) = numbered stem (ρ.var id) := by
  have h : ∃ stem' id', Unnumbered stem' ∧ numbered stem id = numbered stem' id' :=
    ⟨stem, id, hstem, rfl⟩
  obtain ⟨hunnumbered, heq⟩ := h.choose_spec.choose_spec
  obtain ⟨hstems, hids⟩ := numbered_inj hstem hunnumbered heq
  rw [name, dif_pos h]
  exact congrArg₂ numbered hstems.symm (congrArg ρ.var hids.symm)

theorem name_of_unnumbered (h : Unnumbered n) : ρ.name n = n := by
  rw [name, dif_neg]
  rintro ⟨stem, id, _, rfl⟩
  exact not_unnumbered_numbered stem id h

/-- The name and all that it is put together with stay as they are: it holds no
id, or no id is renamed. -/
def Fixes (n : String) : Prop := Unnumbered n ∨ ∀ id, ρ.var id = id

theorem name_of_fixes (h : ρ.Fixes n) : ρ.name n = n := by
  rcases h with h | hid
  · exact ρ.name_of_unnumbered h
  · by_cases hn : ∃ stem id, Unnumbered stem ∧ n = numbered stem id
    · obtain ⟨stem, id, hstem, rfl⟩ := hn
      rw [ρ.name_numbered hstem, hid]
    · rw [name, dif_neg hn]

theorem name_numbered_of_fixes (hstem : ρ.Fixes stem) (id : Nat) :
    ρ.name (numbered stem id) = numbered stem (ρ.var id) := by
  rcases hstem with hstem | hid
  · exact ρ.name_numbered hstem id
  · rw [ρ.name_of_fixes (.inr hid), hid]

variable {ρ} in
theorem Fixes.append {a b : String} (ha : ρ.Fixes a) (hb : ρ.Fixes b) : ρ.Fixes (a ++ b) := by
  rw [Fixes, unnumbered_append, and_or_right]
  exact ⟨ha, hb⟩

theorem name_injective : Function.Injective ρ.name := by
  have hfixed : ∀ n, (¬∃ stem id, Unnumbered stem ∧ n = numbered stem id) → ρ.name n = n :=
    fun _ hn => by rw [name, dif_neg hn]
  intro a b h
  by_cases ha : ∃ stem id, Unnumbered stem ∧ a = numbered stem id
  · obtain ⟨stem, id, hstem, rfl⟩ := ha
    rw [ρ.name_numbered hstem] at h
    by_cases hb : ∃ stem id, Unnumbered stem ∧ b = numbered stem id
    · obtain ⟨stem', id', hstem', rfl⟩ := hb
      rw [ρ.name_numbered hstem'] at h
      obtain ⟨rfl, hids⟩ := numbered_inj hstem hstem' h
      rw [ρ.var_injective hids]
    · rw [hfixed b hb] at h
      exact absurd ⟨stem, ρ.var id, hstem, h.symm⟩ hb
  · rw [hfixed a ha] at h
    by_cases hb : ∃ stem id, Unnumbered stem ∧ b = numbered stem id
    · obtain ⟨stem', id', hstem', rfl⟩ := hb
      rw [ρ.name_numbered hstem'] at h
      exact absurd ⟨stem', ρ.var id', hstem', h⟩ ha
    · rw [hfixed b hb] at h
      exact h

end Renaming

/-! Types. -/

variable (ρ : Renaming)

def Con.rename : Con → Con
  | .tracer id name => .tracer (ρ.var id) name
  | con => con

theorem Con.rename_injective : Function.Injective (Con.rename ρ) := by
  intro a b h
  cases a <;> cases b <;> try exact h
  case tracer.tracer =>
    obtain ⟨hids, hnames⟩ := Con.tracer.inj h
    rw [ρ.var_injective hids, hnames]
  all_goals cases h

@[simp] theorem Con.display_rename (con : Con) : (con.rename ρ).display = con.display := by
  cases con <;> rfl

def TyVar.rename (v : TyVar) : TyVar := { v with id := ρ.var v.id }

def Head.rename (head : Head) : Head := { head with con := head.con.rename ρ }

theorem Head.rename_injective : Function.Injective (Head.rename ρ) := by
  rintro ⟨con, size, bounds⟩ ⟨con', size', bounds'⟩ h
  simp only [rename, Head.mk.injEq] at h ⊢
  exact ⟨Con.rename_injective ρ h.1, h.2⟩

namespace Ty

mutual

def rename : Ty → Ty
  | .var v => .var (v.rename ρ)
  | .app head args => .app (head.rename ρ) (renameAll args)

def renameAll : List Ty → List Ty
  | [] => []
  | t :: rest => t.rename :: renameAll rest

end

theorem renameAll_eq_map (ts : List Ty) : renameAll ρ ts = ts.map (rename ρ) := by
  induction ts with
  | nil => rfl
  | cons t rest ih => rw [renameAll, ih, List.map_cons]

@[simp] theorem rename_var (v : TyVar) : (var v).rename ρ = .var (v.rename ρ) := by
  rw [rename]

@[simp] theorem rename_app (head : Head) (args : List Ty) :
    (app head args).rename ρ = .app (head.rename ρ) (args.map (rename ρ)) := by
  rw [rename, renameAll_eq_map]

end Ty

def Obligation.rename (o : Obligation) : Obligation := ⟨o.ty.rename ρ, o.bound⟩

def FuncShape.rename (shape : FuncShape) : FuncShape :=
  ⟨shape.obligations.map (·.rename ρ), shape.params.map (·.rename ρ), shape.ret.rename ρ⟩

namespace Ty

variable {ts : List Ty}

theorem rename_concrete (con : Con) (params : List Ty) (obligations : List Obligation)
    (size : Nat) : (concrete con params obligations size).rename ρ =
      concrete (con.rename ρ) (params.map (rename ρ)) (obligations.map (·.rename ρ)) size := by
  simp [concrete, Head.rename, Obligation.rename, Function.comp_def]

@[simp] theorem rename_named (name : String) (params : List Ty) :
    (named name params).rename ρ = named name (params.map (rename ρ)) :=
  rename_concrete ρ _ _ _ _

@[simp] theorem rename_void : void.rename ρ = void := rename_named ρ _ _

@[simp] theorem rename_int : int.rename ρ = int := rename_named ρ _ _

@[simp] theorem rename_float : float.rename ρ = float := rename_named ρ _ _

@[simp] theorem rename_string : string.rename ρ = string := rename_named ρ _ _

@[simp] theorem rename_bool : bool.rename ρ = bool := rename_named ρ _ _

@[simp] theorem rename_tuple (elems : List Ty) :
    (tuple elems).rename ρ = tuple (elems.map (rename ρ)) := by
  rw [tuple, tuple, rename_concrete, List.length_map]
  rfl

@[simp] theorem rename_funcWith (obligations : List Obligation) (params : List Ty) (ret : Ty) :
    (funcWith obligations params ret).rename ρ =
      funcWith (obligations.map (·.rename ρ)) (params.map (rename ρ)) (ret.rename ρ) := by
  rw [funcWith, funcWith, rename_concrete, List.length_map]
  rfl

@[simp] theorem rename_func (params : List Ty) (ret : Ty) :
    (func params ret).rename ρ = func (params.map (rename ρ)) (ret.rename ρ) :=
  rename_funcWith ρ _ _ _

@[simp] theorem rename_array (elem : Ty) (size : Nat) :
    (array elem size).rename ρ = array (elem.rename ρ) size :=
  rename_concrete ρ _ _ _ _

@[simp] theorem rename_tracer (id : Nat) (name : String) :
    (tracer id name).rename ρ = tracer (ρ.var id) name :=
  rename_concrete ρ _ _ _ _

@[simp] theorem con?_rename (t : Ty) : (t.rename ρ).con? = t.con?.map (·.rename ρ) := by
  cases t with
  | var v => rw [rename_var]; rfl
  | app head args => rw [rename_app]; rfl

@[simp] theorem size_rename (t : Ty) : (t.rename ρ).size = t.size := by
  cases t with
  | var v => rw [rename_var]; rfl
  | app head args => rw [rename_app]; rfl

@[simp] theorem isVar_rename (t : Ty) : (t.rename ρ).isVar = t.isVar := by
  cases t with
  | var v => rw [rename_var]; rfl
  | app head args => rw [rename_app]; rfl

@[simp] theorem params_rename (t : Ty) : (t.rename ρ).params = t.params.map (rename ρ) := by
  cases t with
  | var v => rw [rename_var]; rfl
  | app head args => simp [params, Head.rename, List.map_take]

@[simp] theorem obligations_rename (t : Ty) :
    (t.rename ρ).obligations = t.obligations.map (·.rename ρ) := by
  cases t with
  | var v => rw [rename_var]; rfl
  | app head args =>
    rw [rename_app, obligations, obligations, List.length_map, ← List.map_drop, List.map_zipWith,
      List.zipWith_map_left]
    rfl

@[simp] theorem isNamed_rename (t : Ty) (name : String) :
    (t.rename ρ).isNamed name = t.isNamed name := by
  rw [isNamed, isNamed, con?_rename]
  cases t.con? with
  | none => rfl
  | some con => cases con <;> simp [Con.rename]

@[simp] theorem isVoid_rename (t : Ty) : (t.rename ρ).isVoid = t.isVoid := isNamed_rename ρ t _

@[simp] theorem asFunc?_rename (t : Ty) : (t.rename ρ).asFunc? = t.asFunc?.map (·.rename ρ) := by
  rw [asFunc?, asFunc?, con?_rename, params_rename, obligations_rename]
  cases t.con? with
  | none => rfl
  | some con =>
    cases con with
    | func arity => cases t.params <;> rfl
    | named name => rfl
    | tuple arity => rfl
    | array => rfl
    | tracer id name => rfl

theorem any_congr {p q : Ty → Bool} (h : ∀ t ∈ ts, p t = q t) : ts.any p = ts.any q := by
  induction ts with
  | nil => rfl
  | cons t rest ih =>
    obtain ⟨ht, hrest⟩ := List.forall_mem_cons.mp h
    rw [List.any_cons, List.any_cons, ht, ih hrest]

@[simp] theorem mentions_rename (id : VarId) (t : Ty) :
    (t.rename ρ).mentions (ρ.var id) = t.mentions id := by
  induction t with
  | var v =>
    rw [rename_var, mentions, mentions]
    exact decide_eq_decide.mpr ρ.var_injective.eq_iff
  | app head args ih =>
    rw [rename_app, mentions, mentions, anyMentions_eq_any, anyMentions_eq_any, List.any_map]
    exact any_congr ih

theorem allNodes_congr {f : Ty → Ty} (h : ∀ t ∈ ts, (f t).nodes = t.nodes) :
    allNodes (ts.map f) = allNodes ts := by
  induction ts with
  | nil => rfl
  | cons t rest ih =>
    obtain ⟨ht, hrest⟩ := List.forall_mem_cons.mp h
    rw [List.map_cons, allNodes, allNodes, ht, ih hrest]

@[simp] theorem nodes_rename (t : Ty) : (t.rename ρ).nodes = t.nodes := by
  induction t with
  | var v => rw [rename_var, nodes, nodes]
  | app head args ih => rw [rename_app, nodes, nodes, allNodes_congr ih]

theorem rename_replace {map map' : VarId → Option Ty}
    (h : ∀ id, map' (ρ.var id) = (map id).map (rename ρ)) (t : Ty) :
    (t.replace map).rename ρ = (t.rename ρ).replace map' := by
  induction t with
  | var v =>
    rw [rename_var, replace, replace, show (v.rename ρ).id = ρ.var v.id from rfl, h]
    cases map v.id with
    | none => exact rename_var ρ v
    | some t => rfl
  | app head args ih =>
    rw [rename_app, replace, replace, rename_app, replaceAll_eq_map, replaceAll_eq_map,
      List.map_map, List.map_map]
    exact congrArg _ (List.map_congr_left ih)

theorem rename_untrace {map map' : Nat → Option Ty}
    (h : ∀ id, map' (ρ.var id) = (map id).map (rename ρ)) (t : Ty) :
    (t.untrace map).rename ρ = (t.rename ρ).untrace map' := by
  induction t with
  | var v => rw [rename_var, untrace, untrace, rename_var]
  | app head args ih =>
    obtain ⟨con, size, bounds⟩ := head
    have hargs : (untraceAll map args).map (rename ρ) = untraceAll map' (args.map (rename ρ)) := by
      rw [untraceAll_eq_map, untraceAll_eq_map, List.map_map, List.map_map]
      exact List.map_congr_left ih
    rw [rename_app, untrace, untrace]
    cases con with
    | tracer id name =>
      dsimp only [Head.rename, Con.rename]
      rw [h]
      cases map id with
      | none => rw [Option.map_none, Option.getD_none, Option.getD_none, rename_app, hargs]; rfl
      | some t => rfl
    | named name => rw [← hargs]; exact rename_app ρ _ _
    | tuple arity => rw [← hargs]; exact rename_app ρ _ _
    | func arity => rw [← hargs]; exact rename_app ρ _ _
    | array => rw [← hargs]; exact rename_app ρ _ _

/-- Maps from variables or tracers to types, entry by entry. -/
theorem find?_renamed (map : List (Nat × Ty)) (id : Nat) :
    (Assoc.mk (map.map (Prod.map ρ.var (rename ρ)))).find? (ρ.var id) =
      ((Assoc.mk map).find? id).map (rename ρ) :=
  Assoc.find?_bimap ρ.var_injective (Assoc.mk map) id

theorem rename_substitute (map : List (VarId × Ty)) (t : Ty) : (t.substitute map).rename ρ =
      (t.rename ρ).substitute (map.map (Prod.map ρ.var (rename ρ))) :=
  rename_replace ρ (find?_renamed ρ map) t

end Ty

/-! Substitutions. -/

namespace Subst

variable (σ : Subst)

def rename : Subst := ⟨σ.bindings.bimap ρ.var (Ty.rename ρ)⟩

theorem find?_rename (id : VarId) :
    (σ.rename ρ).find? (ρ.var id) = (σ.find? id).map (Ty.rename ρ) :=
  Assoc.find?_bimap ρ.var_injective σ.bindings id

@[simp] theorem size_rename : (σ.rename ρ).size = σ.size := List.length_map _

@[simp] theorem nodes_rename : (σ.rename ρ).nodes = σ.nodes := by
  rw [nodes, nodes, rename, Assoc.values_bimap, Ty.allNodes_congr fun t _ => Ty.nodes_rename ρ t]

theorem insert_rename (id : VarId) (t : Ty) :
    (σ.insert id t).rename ρ = (σ.rename ρ).insert (ρ.var id) (t.rename ρ) := by
  have hinsert : rename ρ ⟨σ.bindings.insert id t⟩ =
      ⟨(σ.rename ρ).bindings.insert (ρ.var id) (t.rename ρ)⟩ :=
    congrArg Subst.mk (Assoc.insert_bimap ρ.var_injective σ.bindings id t)
  cases t with
  | var v =>
    rw [Ty.rename_var] at hinsert ⊢
    rw [insert, insert, show (v.rename ρ).id = ρ.var v.id from rfl]
    by_cases hv : v.id = id
    · rw [if_pos hv, if_pos (congrArg ρ.var hv)]
    · rw [if_neg hv, if_neg (ρ.var_injective.ne hv), hinsert]
  | app head args =>
    rw [Ty.rename_app] at hinsert ⊢
    exact hinsert

theorem derefWithin_rename (n : Nat) (t : Ty) :
    (σ.rename ρ).derefWithin n (t.rename ρ) = (σ.derefWithin n t).rename ρ := by
  induction n generalizing t with
  | zero => rfl
  | succ n ih =>
    cases t with
    | var v =>
      have hfind : (σ.rename ρ).find? (v.rename ρ).id = (σ.find? v.id).map (Ty.rename ρ) :=
        find?_rename ρ σ v.id
      rw [Ty.rename_var, derefWithin, derefWithin, hfind]
      cases σ.find? v.id with
      | none => exact (Ty.rename_var ρ v).symm
      | some t => exact ih t
    | app head args => rw [Ty.rename_app, derefWithin, derefWithin, Ty.rename_app]

theorem deref_rename (t : Ty) : (σ.rename ρ).deref (t.rename ρ) = (σ.deref t).rename ρ := by
  rw [deref, deref, size_rename, derefWithin_rename]

theorem applyWithin_rename (n : Nat) (t : Ty) :
    (σ.rename ρ).applyWithin n (t.rename ρ) = (σ.applyWithin n t).rename ρ := by
  induction n generalizing t with
  | zero => rfl
  | succ n ih =>
    rw [applyWithin, applyWithin]
    refine (Ty.rename_replace ρ (fun _ => ?_) t).symm
    rw [find?_rename, Option.map_map, Option.map_map]
    exact congrArg (fun f => Option.map f _) (funext ih)

theorem apply_rename (t : Ty) : (σ.rename ρ).apply (t.rename ρ) = (σ.apply t).rename ρ := by
  rw [apply, apply, size_rename, applyWithin_rename]

/-- New variables are drawn for renamed ones alike, where the renaming follows
the counter. -/
theorem relabelling_rename {next next' : Nat} (vars : List TyVar)
    (h : ∀ k, k < vars.length → ρ.var (next + k) = next' + k) :
    relabelling next' (vars.map (·.rename ρ)) =
      (relabelling next vars).map (Prod.map ρ.var (Ty.rename ρ)) := by
  induction vars generalizing next next' with
  | nil => rfl
  | cons v rest ih =>
    have hfirst : ρ.var next = next' := h 0 (Nat.succ_pos _)
    have hrest := @ih (next + 1) (next' + 1) fun k hk => by
      have := h (k + 1) (Nat.succ_lt_succ hk)
      rwa [Nat.add_right_comm, Nat.add_assoc, Nat.add_right_comm next' 1 k, Nat.add_assoc next' k 1]
    rw [List.map_cons, relabelling, relabelling, List.map_cons, hrest, Prod.map_apply,
      Ty.rename_var]
    simp only [TyVar.rename, hfirst]

end Subst

end TraitCheck
