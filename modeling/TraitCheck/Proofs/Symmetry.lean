import TraitCheck.Proofs.Soundness

/-!
Unification is symmetric. A merged variable takes its name from the left, so two
calls with exchanged arguments soon differ in the names of variables, and in
nothing else (`unnamed`). They go through the same positions, bind the same ids
at the same time, draw the same ids, and fail at the same place for the same
reason, except that a mismatch is told from the other side (`Failure.Mirrors`).
This is shown of one step after the other, for any two states that differ in
names only.
-/

namespace TraitCheck

/-! Types without the names of their variables. -/

variable {v w : TyVar}

def TyVar.unnamed (v : TyVar) : TyVar := { v with name := "" }

theorem TyVar.id_of_unnamed (h : v.unnamed = w.unnamed) : v.id = w.id :=
  (congrArg TyVar.id h :)

theorem TyVar.traits_of_unnamed (h : v.unnamed = w.unnamed) : v.traits = w.traits :=
  (congrArg TyVar.traits h :)

namespace Ty

variable {t : Ty}

mutual

/-- The type without the names that its variables are shown with. -/
def unnamed : Ty → Ty
  | .var v => .var v.unnamed
  | .app head args => .app head (unnamedAll args)

def unnamedAll : List Ty → List Ty
  | [] => []
  | t :: rest => t.unnamed :: unnamedAll rest

end

theorem unnamedAll_eq_map (ts : List Ty) : unnamedAll ts = ts.map unnamed := by
  induction ts with
  | nil => rfl
  | cons t rest ih => rw [unnamedAll, ih, List.map_cons]

@[simp] theorem unnamed_var (v : TyVar) : (var v).unnamed = .var v.unnamed := by
  rw [unnamed]

@[simp] theorem unnamed_app (head : Head) (args : List Ty) :
    (app head args).unnamed = .app head (args.map unnamed) := by
  rw [unnamed, unnamedAll_eq_map]

theorem eq_var_of_unnamed (h : (var v).unnamed = t.unnamed) :
    ∃ w, t = .var w ∧ w.unnamed = v.unnamed := by
  cases t with
  | var w =>
    rw [unnamed_var, unnamed_var] at h
    exact ⟨w, rfl, (Ty.var.inj h).symm⟩
  | app head args =>
    rw [unnamed_var, unnamed_app] at h
    cases h

theorem eq_app_of_unnamed {head : Head} {args : List Ty} (h : (app head args).unnamed = t.unnamed) :
    ∃ args', t = .app head args' ∧ args.map unnamed = args'.map unnamed := by
  cases t with
  | var w =>
    rw [unnamed_var, unnamed_app] at h
    cases h
  | app head' args' =>
    rw [unnamed_app, unnamed_app] at h
    obtain ⟨rfl, hargs⟩ := Ty.app.inj h
    exact ⟨args', rfl, hargs⟩

theorem mentions_unnamed (id : VarId) (t : Ty) : t.unnamed.mentions id = t.mentions id := by
  rw [Bool.eq_iff_iff]
  induction t with
  | var v =>
    rw [unnamed_var, mentions_var, mentions_var]
    rfl
  | app head args ih =>
    rw [unnamed_app, mentions_app, mentions_app]
    constructor
    · rintro ⟨s, hs, hid⟩
      obtain ⟨t, ht, rfl⟩ := List.mem_map.mp hs
      exact ⟨t, ht, (ih t ht).mp hid⟩
    · rintro ⟨t, ht, hid⟩
      exact ⟨t.unnamed, List.mem_map_of_mem ht, (ih t ht).mpr hid⟩

theorem cases_of_unnamed {x y : Option Ty} (h : x.map unnamed = y.map unnamed) :
    x = none ∧ y = none ∨ ∃ s t, x = some s ∧ y = some t ∧ s.unnamed = t.unnamed := by
  cases x with
  | none => exact .inl ⟨rfl, Option.map_eq_none_iff.mp h.symm⟩
  | some s =>
    obtain ⟨t, ht, heq⟩ := Option.map_eq_some_iff.mp h.symm
    exact .inr ⟨s, t, rfl, ht, heq.symm⟩

theorem map_unnamed_congr {f g : Ty → Ty} {as bs : List Ty}
    (hfg : ∀ a ∈ as, ∀ b, a.unnamed = b.unnamed → (f a).unnamed = (g b).unnamed)
    (h : as.map unnamed = bs.map unnamed) : (as.map f).map unnamed = (bs.map g).map unnamed := by
  induction as generalizing bs with
  | nil =>
    rw [List.map_eq_nil_iff.mp h.symm]
    rfl
  | cons a as ih =>
    obtain ⟨b, bs, rfl, hab, hrest⟩ := List.map_eq_cons_iff.mp h.symm
    rw [List.map_cons, List.map_cons, List.map_cons, List.map_cons,
      hfg a List.mem_cons_self b hab.symm,
      ih (fun x hx => hfg x (List.mem_cons_of_mem a hx)) hrest.symm]

/-- Replacing variables does not look at their names. -/
theorem unnamed_replace {f g : VarId → Option Ty}
    (hfg : ∀ id, (f id).map unnamed = (g id).map unnamed) {s : Ty} (h : s.unnamed = t.unnamed) :
    (s.replace f).unnamed = (t.replace g).unnamed := by
  induction s generalizing t with
  | var v =>
    obtain ⟨w, rfl, hw⟩ := eq_var_of_unnamed h
    rw [replace_var, replace_var, TyVar.id_of_unnamed hw]
    rcases cases_of_unnamed (hfg v.id) with ⟨hf, hg⟩ | ⟨x, y, hf, hg, hxy⟩
    · rw [hf, hg]
      exact h
    · rw [hf, hg]
      exact hxy
  | app head args ih =>
    obtain ⟨args', rfl, hargs⟩ := eq_app_of_unnamed h
    rw [replace_app, replace_app, unnamed_app, unnamed_app]
    congr 1
    exact map_unnamed_congr (fun s hs _ hst => ih s hs hst) hargs

end Ty

/-! Bindings that differ in names only. -/

theorem Assoc.keys_insert_insert {κ α : Type} [DecidableEq κ] (table : Assoc κ α) {key key' : κ}
    (h : key ≠ key') (value : α) :
    ((table.insert key value).insert key' value).keys = table.keys ++
      ((if key ∈ table.keys then [] else [key]) ++ if key' ∈ table.keys then [] else [key']) := by
  by_cases hkey : key ∈ table.keys <;> by_cases hkey' : key' ∈ table.keys <;>
    simp [keys_insert, hkey, hkey', Ne.symm h]

namespace Subst

/-- The same ids are bound, to the same types but for names. -/
structure Alike (σ τ : Subst) : Prop where
  keys : σ.bindings.keys.Perm τ.bindings.keys
  find : ∀ id, (σ.find? id).map Ty.unnamed = (τ.find? id).map Ty.unnamed

namespace Alike

variable {σ τ υ : Subst} {s t : Ty}

theorem refl (σ : Subst) : σ.Alike σ := ⟨.refl _, fun _ => rfl⟩

theorem trans (h : σ.Alike τ) (h' : τ.Alike υ) : σ.Alike υ :=
  ⟨h.keys.trans h'.keys, fun id => (h.find id).trans (h'.find id)⟩

theorem size (h : σ.Alike τ) : σ.size = τ.size := by
  rw [size_eq_length_keys, size_eq_length_keys, h.keys.length_eq]

theorem derefWithin (h : σ.Alike τ) (n : Nat) (hst : s.unnamed = t.unnamed) :
    (σ.derefWithin n s).unnamed = (τ.derefWithin n t).unnamed := by
  induction n generalizing s t with
  | zero => exact hst
  | succ n ih =>
    cases s with
    | app head args =>
      obtain ⟨args', rfl, _⟩ := Ty.eq_app_of_unnamed hst
      exact hst
    | var v =>
      obtain ⟨w, rfl, hw⟩ := Ty.eq_var_of_unnamed hst
      rw [Subst.derefWithin, Subst.derefWithin, TyVar.id_of_unnamed hw]
      rcases Ty.cases_of_unnamed (h.find v.id) with ⟨hσ, hτ⟩ | ⟨x, y, hσ, hτ, hxy⟩
      · rw [hσ, hτ]
        exact hst
      · rw [hσ, hτ]
        exact ih hxy

theorem deref (h : σ.Alike τ) (hst : s.unnamed = t.unnamed) :
    (σ.deref s).unnamed = (τ.deref t).unnamed := by
  rw [Subst.deref, Subst.deref, ← h.size]
  exact h.derefWithin σ.size hst

theorem applyWithin (h : σ.Alike τ) (n : Nat) (hst : s.unnamed = t.unnamed) :
    (σ.applyWithin n s).unnamed = (τ.applyWithin n t).unnamed := by
  induction n generalizing s t with
  | zero => exact hst
  | succ n ih =>
    rw [Subst.applyWithin, Subst.applyWithin]
    apply Ty.unnamed_replace _ hst
    intro id
    rcases Ty.cases_of_unnamed (h.find id) with ⟨hσ, hτ⟩ | ⟨x, y, hσ, hτ, hxy⟩
    · rw [hσ, hτ]
      rfl
    · rw [hσ, hτ]
      exact congrArg some (ih hxy)

theorem apply (h : σ.Alike τ) (hst : s.unnamed = t.unnamed) :
    (σ.apply s).unnamed = (τ.apply t).unnamed := by
  rw [Subst.apply, Subst.apply, ← h.size]
  exact h.applyWithin σ.size hst

theorem enter (h : σ.Alike τ) (id : VarId) (hst : s.unnamed = t.unnamed) :
    Alike ⟨σ.bindings.insert id s⟩ ⟨τ.bindings.insert id t⟩ := by
  constructor
  · rw [Assoc.keys_insert, Assoc.keys_insert]
    simp only [h.keys.mem_iff]
    split
    · exact h.keys
    · exact h.keys.append_right [id]
  · intro other
    rw [find?, find?, Assoc.find?_insert, Assoc.find?_insert]
    split
    · rw [Option.map_some, Option.map_some, hst]
    · exact h.find other

theorem insert (h : σ.Alike τ) (id : VarId) (hst : s.unnamed = t.unnamed) :
    (σ.insert id s).Alike (τ.insert id t) := by
  cases s with
  | app head args =>
    obtain ⟨args', rfl, _⟩ := Ty.eq_app_of_unnamed hst
    exact h.enter id hst
  | var v =>
    obtain ⟨w, rfl, hw⟩ := Ty.eq_var_of_unnamed hst
    rw [Subst.insert, Subst.insert, TyVar.id_of_unnamed hw]
    split
    · exact h
    · exact h.enter id hst

/-- Two variables may be bound to a third in either order. -/
theorem insert_swap (σ : Subst) (m : TyVar) (id id' : VarId) :
    ((σ.insert id (.var m)).insert id' (.var m)).Alike
      ((σ.insert id' (.var m)).insert id (.var m)) := by
  by_cases hid : m.id = id
  · simp only [Subst.insert, if_pos hid]
    exact .refl _
  by_cases hid' : m.id = id'
  · simp only [Subst.insert, if_pos hid']
    exact .refl _
  simp only [Subst.insert, if_neg hid, if_neg hid']
  by_cases heq : id = id'
  · rw [heq]
    exact .refl _
  constructor
  · rw [Assoc.keys_insert_insert _ heq, Assoc.keys_insert_insert _ (Ne.symm heq)]
    exact List.perm_append_comm.append_left _
  · intro other
    simp only [find?, Assoc.find?_insert]
    split <;> split <;> rfl

end Alike

end Subst

/-! Calls side by side. -/

/-- The second failure is the first one, but for names and for the side from
which a mismatch is seen. No other failures come up. -/
inductive Failure.Mirrors : Failure → Failure → Prop
  | mismatch {expected found expected' found' : Ty} : expected.unnamed = expected'.unnamed →
      found.unnamed = found'.unnamed →
      Mirrors (.typeMismatch expected found) (.typeMismatch found' expected')
  | missing {ty ty' : Ty} (bound : Trait) : ty.unnamed = ty'.unnamed →
      Mirrors (.traitMismatch ty bound) (.traitMismatch ty' bound)
  | infinite {var var' ty ty' : Ty} : var.unnamed = var'.unnamed → ty.unnamed = ty'.unnamed →
      Mirrors (.infiniteType var ty) (.infiniteType var' ty')

namespace Unifier

variable {v v' : TyVar}

/-- The same ids were drawn and bound, to the same types but for names. -/
structure Alike (u w : Unifier) : Prop where
  next : u.next = w.next
  subst : u.subst.Alike w.subst

variable {α β : Type} {registry : Registry} {u w : Unifier}

theorem Alike.refl (u : Unifier) : u.Alike u := ⟨rfl, .refl _⟩

theorem Alike.resolve (h : u.Alike w) {s t : Ty} (hst : s.unnamed = t.unnamed) :
    (u.resolve s).unnamed = (w.resolve t).unnamed :=
  h.subst.apply hst

/-- Both succeed, or both fail and the failures mirror each other. -/
inductive Mirrored : Except Failure α → Except Failure α → Prop
  | ok (a b : α) : Mirrored (.ok a) (.ok b)
  | error {e e' : Failure} : e.Mirrors e' → Mirrored (.error e) (.error e')

/-- The two steps, each in its state, end alike. -/
@[mk_iff]
structure InStep (u w : Unifier) (x y : UnifyM α) : Prop where
  results : Mirrored (x.run.run u).1 (y.run.run w).1
  states : (x.run.run u).2.Alike (y.run.run w).2

open Runs

theorem InStep.pure (h : u.Alike w) (a b : α) : InStep u w (pure a : UnifyM α) (pure b) :=
  ⟨.ok a b, h⟩

theorem InStep.throw (h : u.Alike w) {e e' : Failure} (he : e.Mirrors e') :
    InStep u w (throw e : UnifyM α) (throw e') :=
  ⟨.error he, h⟩

/-- Reading the state. -/
theorem InStep.get {f g : Unifier → UnifyM α} (h : InStep u w (f u) (g w)) :
    InStep u w (get >>= f) (get >>= g) :=
  ⟨h.results, h.states⟩

theorem InStep.bind {x y : UnifyM α} {f g : α → UnifyM β} (h : InStep u w x y)
    (hrest : ∀ a b u' w', Alike u' w' → InStep u' w' (f a) (g b)) :
    InStep u w (x >>= f) (y >>= g) := by
  obtain ⟨hresults, hstates⟩ := h
  rw [inStep_iff, run_bind, run_bind]
  cases hx : x.run.run u with
  | mk r u' =>
    cases hy : y.run.run w with
    | mk r' w' =>
      rw [hx, hy] at hresults hstates
      cases hresults with
      | ok a b =>
        have hnext := hrest a b u' w' hstates
        exact ⟨hnext.results, hnext.states⟩
      | error he => exact ⟨.error he, hstates⟩

theorem inStep_mismatch (h : u.Alike w) {a b a' b' : Ty} (ha : a.unnamed = a'.unnamed)
    (hb : b.unnamed = b'.unnamed) : InStep u w (mismatch a b) (mismatch b' a') :=
  ⟨.error (.mismatch (h.resolve ha) (h.resolve hb)), h⟩

/-- The merged variable has the traits of both, in whatever order they come. -/
theorem inStep_merge (h : u.Alike w) {x x' : TyVar} (hv : v'.unnamed = v.unnamed)
    (hx : x'.unnamed = x.unnamed) :
    InStep u w (modifyGet (merge v x)) (modifyGet (merge x' v')) := by
  refine ⟨.ok _ _, congrArg (· + 1) h.next, ?_⟩
  have hmerged : (Ty.var (u.mergedVar v x)).unnamed = (Ty.var (w.mergedVar x' v')).unnamed := by
    have htraits : v.traits.union x.traits = x'.traits.union v'.traits := by
      rw [TyVar.traits_of_unnamed hv, TyVar.traits_of_unnamed hx, TraitSet.union_comm]
    simp only [Ty.unnamed_var, TyVar.unnamed, mergedVar, h.next, htraits]
  change (u.merge v x).2.subst.Alike (w.merge x' v').2.subst
  rw [merge_snd, merge_snd, TyVar.id_of_unnamed hv, TyVar.id_of_unnamed hx]
  -- the other call enters the two ids in the opposite order
  exact ((h.subst.insert v.id hmerged).insert x.id hmerged).trans (.insert_swap _ _ _ _)

/-- A variable meets a concrete type, from whichever side. -/
theorem inStep_bind (h : u.Alike w) (hv : v'.unnamed = v.unnamed) (head : Head)
    {args args' : List Ty} (hargs : args.map Ty.unnamed = args'.map Ty.unnamed) :
    InStep u w (Unifier.bind registry v head args) (Unifier.bind registry v' head args') := by
  have hid := TyVar.id_of_unnamed hv
  have htraits := TyVar.traits_of_unnamed hv
  have hvar : (Ty.var v).unnamed = (Ty.var v').unnamed := by
    rw [Ty.unnamed_var, Ty.unnamed_var, hv]
  have hty : (u.resolve (.app head args)).unnamed = (w.resolve (.app head args')).unnamed := by
    apply h.resolve
    rw [Ty.unnamed_app, Ty.unnamed_app, hargs]
  have hmentions : (w.resolve (.app head args')).mentions v.id =
      (u.resolve (.app head args)).mentions v.id := by
    rw [← Ty.mentions_unnamed, ← hty, Ty.mentions_unnamed]
  refine .get ?_
  dsimp only
  rw [hid, htraits, hmentions]
  split
  · exact .throw h (.infinite hvar hty)
  · split
    · exact .throw h (.missing _ hty)
    · exact ⟨.ok _ _, h.next, h.subst.insert v.id hty⟩

theorem inStep_unifyAll {step step' : Ty → Ty → UnifyM Ty}
    (hstep : ∀ {u w a b a' b'}, Alike u w → a.unnamed = a'.unnamed → b.unnamed = b'.unnamed →
      InStep u w (step a b) (step' b' a'))
    (h : u.Alike w) {as bs as' bs' : List Ty} (has : as.map Ty.unnamed = as'.map Ty.unnamed)
    (hbs : bs.map Ty.unnamed = bs'.map Ty.unnamed) :
    InStep u w (unifyAll step as bs) (unifyAll step' bs' as') := by
  induction as generalizing bs as' bs' u w with
  | nil =>
    obtain rfl := List.map_eq_nil_iff.mp has.symm
    rw [unifyAll.eq_def, unifyAll.eq_def]
    cases bs' with
    | nil => exact .pure h _ _
    | cons b bs' => exact .pure h _ _
  | cons a as ih =>
    obtain ⟨a', as', rfl, ha, has⟩ := List.map_eq_cons_iff.mp has.symm
    cases bs with
    | nil =>
      obtain rfl := List.map_eq_nil_iff.mp hbs.symm
      exact .pure h _ _
    | cons b bs =>
      obtain ⟨b', bs', rfl, hb, hbs⟩ := List.map_eq_cons_iff.mp hbs.symm
      rw [unifyAll, unifyAll]
      refine .bind (hstep h ha.symm hb.symm) fun _ _ _ _ h' => ?_
      exact .bind (ih h' has.symm hbs.symm) fun _ _ _ _ h'' => .pure h'' _ _

/-- The induction is on the depth. At the roots the two calls see the same
variables or heads, only from the other side. -/
theorem inStep_unifyWithin (depth : Nat) (h : u.Alike w) {a b a' b' : Ty}
    (ha : a.unnamed = a'.unnamed) (hb : b.unnamed = b'.unnamed) :
    InStep u w (unifyWithin registry depth a b) (unifyWithin registry depth b' a') := by
  induction depth generalizing u w a b a' b' with
  | zero => exact inStep_mismatch h ha hb
  | succ depth ih =>
    have hroota := h.subst.deref ha
    have hrootb := h.subst.deref hb
    refine .get ?_
    cases hda : u.subst.deref a with
    | var v =>
      rw [hda] at hroota
      obtain ⟨v', hda', hv⟩ := Ty.eq_var_of_unnamed hroota
      rw [hda']
      cases hdb : u.subst.deref b with
      | var x =>
        rw [hdb] at hrootb
        obtain ⟨x', hdb', hx⟩ := Ty.eq_var_of_unnamed hrootb
        rw [hdb']
        dsimp only
        rw [TyVar.id_of_unnamed hv, TyVar.id_of_unnamed hx]
        by_cases heq : v.id = x.id
        · rw [if_pos heq, if_pos heq.symm]
          exact .pure h _ _
        · rw [if_neg heq, if_neg (Ne.symm heq)]
          exact inStep_merge h hv hx
      | app head args =>
        rw [hdb] at hrootb
        obtain ⟨args', hdb', hargs⟩ := Ty.eq_app_of_unnamed hrootb
        rw [hdb']
        -- the other call has the variable on its right, and binds it all the same
        exact inStep_bind h hv head hargs
    | app head as =>
      rw [hda] at hroota
      obtain ⟨as', hda', has⟩ := Ty.eq_app_of_unnamed hroota
      rw [hda']
      cases hdb : u.subst.deref b with
      | var x =>
        rw [hdb] at hrootb
        obtain ⟨x', hdb', hx⟩ := Ty.eq_var_of_unnamed hrootb
        rw [hdb']
        exact inStep_bind h hx head has
      | app head' bs =>
        rw [hdb] at hrootb
        obtain ⟨bs', hdb', hbs⟩ := Ty.eq_app_of_unnamed hrootb
        rw [hdb']
        have hlas : as'.length = as.length := by simpa using congrArg List.length has.symm
        have hlbs : bs'.length = bs.length := by simpa using congrArg List.length hbs.symm
        dsimp only
        rw [hlas, hlbs]
        by_cases heq : head = head' ∧ as.length = bs.length
        · rw [if_pos heq, if_pos ⟨heq.1.symm, heq.2.symm⟩]
          exact .bind (inStep_unifyAll (fun hs hx hy => ih hs hx hy) h has hbs)
            fun _ _ _ _ h' => .pure h' _ _
        · rw [if_neg heq, if_neg fun hrev => heq ⟨hrev.1.symm, hrev.2.symm⟩]
          exact inStep_mismatch h ha hb

theorem inStep_unify (registry : Registry) (u : Unifier) (a b : Ty) :
    InStep u u (unify registry a b) (unify registry b a) := by
  refine .get ?_
  rw [Nat.add_right_comm]
  exact inStep_unifyWithin _ (.refl u) rfl rfl

/-- Two calls in a session that differ in the order of their arguments draw the
same ids, and bind the same ids to the same types but for the names of variables.
Either both succeed, with results that resolve to the same type but for names, or
both fail with the same failure but for names, where a mismatch has what is
expected and what is found exchanged. -/
theorem unify_symmetric {D : Set TyVar} (hsession : Session D u) (registry : Registry)
    {a b : Ty} (ha : a.Over D) (hb : b.Over D) {r r' : Except Failure Ty} {u₁ u₂ : Unifier}
    (h : (unify registry a b).run.run u = (r, u₁))
    (h' : (unify registry b a).run.run u = (r', u₂)) : u₁.next = u₂.next ∧
    (∀ id, (u₁.subst.find? id).map Ty.unnamed = (u₂.subst.find? id).map Ty.unnamed) ∧
    ((∃ c c', r = .ok c ∧ r' = .ok c' ∧ (u₁.resolve c).unnamed = (u₂.resolve c').unnamed) ∨
      ∃ e e', r = .error e ∧ r' = .error e' ∧ e.Mirrors e') := by
  obtain ⟨hresults, hstates⟩ := inStep_unify registry u a b
  rw [h, h'] at hresults hstates
  refine ⟨hstates.next, hstates.subst.find, ?_⟩
  have hKa := hsession.knows ha
  have hKb := hsession.knows hb
  cases hresults with
  | ok c c' =>
    have hleft := (unifies_unify hKa.owns hKb.owns h).agree hKa hKb rfl
    have hright := (unifies_unify hKb.owns hKa.owns h').agree hKb hKa rfl
    refine .inl ⟨c, c', rfl, rfl, ?_⟩
    rw [← hleft.left, ← hright.right]
    exact hstates.resolve rfl
  | error he => exact .inr ⟨_, _, rfl, rfl, he⟩

/-- Two variables are merged, each time under the name of the left one, and then
a mismatch is met. -/
theorem unify_symmetric_mismatch :
    let v : Ty := .var ⟨0, "a", ∅⟩
    let w : Ty := .var ⟨1, "b", ∅⟩
    ∃ u₁ u₂, (unify {} (.tuple [v, .int]) (.tuple [w, .string])).run.run { next := 2 } =
        (.error (.typeMismatch .int .string), u₁) ∧
      (unify {} (.tuple [w, .string]) (.tuple [v, .int])).run.run { next := 2 } =
        (.error (.typeMismatch .string .int), u₂) ∧
      u₁.resolve v = .var ⟨2, "a", ∅⟩ ∧ u₂.resolve v = .var ⟨2, "b", ∅⟩ ∧ u₁.next = u₂.next ∧
      ∀ id, (u₁.subst.find? id).map Ty.unnamed = (u₂.subst.find? id).map Ty.unnamed := by
  intro v w
  have hsession : Session _ { next := 2 } := .draw "b" ∅ (.draw "a" ∅ .start)
  have hsymmetric := unify_symmetric hsession {} (a := .tuple [v, .int])
    (b := .tuple [w, .string]) ?_ ?_ rfl rfl
  · exact ⟨_, _, rfl, rfl, rfl, rfl, hsymmetric.1, hsymmetric.2.1⟩
  · simp [v, Ty.Over, Ty.tuple, Ty.int, Ty.named, Ty.concrete, Unifier.freshVar]
  · simp [w, Ty.Over, Ty.tuple, Ty.string, Ty.named, Ty.concrete, Unifier.freshVar]

end Unifier

end TraitCheck
