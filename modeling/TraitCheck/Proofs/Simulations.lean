import TraitCheck.Proofs.Runs

/-!
Steps that run alike in related states. A simulation tells which states are
related, what reading them shows, and how failures correspond. It need only hold
for valid states, and as long as they stay inside some bound that a run never
comes back into, so the first of two steps is inside if both are. A simulation
that is not strict speaks of the runs that succeed only. For a pair of steps that
are put together from smaller ones it is enough that the smaller ones run alike.
-/

namespace TraitCheck

/-- The result in which values and failures are exchanged. -/
def outcome {ε α : Type} (g : ε → ε) (f : α → α) : Except ε α → Except ε α
  | .ok a => .ok (f a)
  | .error e => .error (g e)

structure Simulation (σ ε : Type) where
  valid : σ → Prop
  rel : σ → σ → Prop
  /-- What is known of two states that are read. -/
  view : σ → σ → Prop
  /-- A state that looks like a given one. -/
  mirror : σ → σ
  error : ε → ε
  ahead : σ → σ → Prop
  inside : σ → Prop
  /-- Whether failures correspond too. -/
  strict : Prop
  rel_view : ∀ {s s'}, rel s s' → view s s'
  view_mirror : ∀ s, view s (mirror s)
  ahead_refl : ∀ s, ahead s s
  ahead_trans : ∀ {s t u}, ahead s t → ahead t u → ahead s u
  inside_of_ahead : ∀ {s t}, ahead s t → inside t → inside s

variable {σ ε α β : Type} (S : Simulation σ ε)

/-- The result is one that the simulation speaks of. -/
def Simulation.Counts (r : Except ε α) : Prop := S.strict ∨ ∃ a, r = .ok a

/-- The second step does in a state related to `s` what the first one does in `s`. -/
structure FollowsAt (x y : ExceptT ε (StateM σ) α) (f : α → α) (s : σ) : Prop where
  proceeds : S.valid (x.run.run s).2 ∧ S.ahead s (x.run.run s).2
  agrees : ∀ s', S.rel s s' → S.inside (x.run.run s).2 → S.Counts (x.run.run s).1 →
    (y.run.run s').1 = outcome S.error f (x.run.run s).1 ∧
      S.rel (x.run.run s).2 (y.run.run s').2

/-- The second step does in related states what the first one does. -/
def Follows (x y : ExceptT ε (StateM σ) α) (f : α → α) : Prop :=
  ∀ s, S.valid s → FollowsAt S x y f s

/-- What a step can return from a valid state. -/
def Returns (x : ExceptT ε (StateM σ) α) (a : α) : Prop :=
  ∃ s t, S.valid s ∧ x.run.run s = (.ok a, t)

variable {S}

theorem Simulation.Counts.strict {e : ε} (h : S.Counts (.error e : Except ε α)) : S.strict := by
  rcases h with h | ⟨a, ha⟩
  · exact h
  · cases ha

theorem Simulation.Counts.of_map {r : Except ε α} {g : α → β} (h : S.Counts (r.map g)) :
    S.Counts r := by
  cases r with
  | error e => exact .inl h.strict
  | ok a => exact .inr ⟨a, rfl⟩

theorem Simulation.Counts.of_bind {r : Except ε α} {g : α → Except ε β} (h : S.Counts (r >>= g)) :
    S.Counts r := by
  cases r with
  | error e => exact .inl h.strict
  | ok a => exact .inr ⟨a, rfl⟩

namespace FollowsAt

variable {x y : ExceptT ε (StateM σ) α} {f : α → α} {h : β → β} {s : σ}

/-- One step after the other, where the second need only follow from where the
first can end. -/
theorem bind {g g' : α → ExceptT ε (StateM σ) β} (hx : FollowsAt S x y f s)
    (hg : ∀ a t, x.run.run s = (.ok a, t) → S.valid t → FollowsAt S (g a) (g' (f a)) h t) :
    FollowsAt S (x >>= g) (y >>= g') h s where
  proceeds := by
    have hproceeds := hx.proceeds
    rw [Runs.run_bind]
    cases hrun : x.run.run s with
    | mk r t =>
      rw [hrun] at hproceeds
      cases r with
      | error e => exact hproceeds
      | ok a =>
        obtain ⟨hvalid, hahead⟩ := (hg a t hrun hproceeds.1).proceeds
        exact ⟨hvalid, S.ahead_trans hproceeds.2 hahead⟩
  agrees s' hrel hinside hcounts := by
    have hproceeds := hx.proceeds
    have hagrees := hx.agrees s' hrel
    rw [Runs.run_bind] at hinside hcounts ⊢
    rw [Runs.run_bind]
    cases hrun : x.run.run s with
    | mk r t =>
      rw [hrun] at hproceeds hagrees hinside hcounts
      cases r with
      | error e =>
        obtain ⟨hresult, hrel'⟩ := hagrees hinside (.inl hcounts.strict)
        rw [show y.run.run s' = (.error (S.error e), (y.run.run s').2) from
          Prod.ext hresult rfl]
        exact ⟨rfl, hrel'⟩
      | ok a =>
        have hrest := hg a t hrun hproceeds.1
        obtain ⟨hresult, hrel'⟩ :=
          hagrees (S.inside_of_ahead hrest.proceeds.2 hinside) (.inr ⟨a, rfl⟩)
        rw [show y.run.run s' = (.ok (f a), (y.run.run s').2) from Prod.ext hresult rfl]
        exact hrest.agrees _ hrel' hinside hcounts

/-- Reading the state. -/
theorem get {g g' : σ → ExceptT ε (StateM σ) α}
    (hg : ∀ s', S.view s s' → FollowsAt S (g s) (g' s') f s) :
    FollowsAt S (get >>= g) (get >>= g') f s where
  proceeds := (hg _ (S.view_mirror s)).proceeds
  agrees s' hrel := (hg s' (S.rel_view hrel)).agrees s' hrel

theorem modify {g g' : σ → σ} (hproceeds : S.valid (g s) ∧ S.ahead s (g s))
    (hagrees : ∀ s', S.rel s s' → S.inside (g s) → S.rel (g s) (g' s')) :
    FollowsAt S (modify g) (modify g') id s where
  proceeds := hproceeds
  agrees s' hrel hinside _ := ⟨rfl, hagrees s' hrel hinside⟩

/-- The second step may be any other where the first one never ends as the
simulation asks. -/
theorem of_not {z : ExceptT ε (StateM σ) α} (hx : FollowsAt S x z f s)
    (hnot : S.inside (x.run.run s).2 → ¬S.Counts (x.run.run s).1) : FollowsAt S x y f s where
  proceeds := hx.proceeds
  agrees _ _ hinside hcounts := absurd hcounts (hnot hinside)

end FollowsAt

namespace Follows

variable {x y : ExceptT ε (StateM σ) α} {f : α → α} {h : β → β}

/-- One step after the other, where the second may rely on what the first can
return. -/
theorem bind_of {g g' : α → ExceptT ε (StateM σ) β} (hx : Follows S x y f)
    (hg : ∀ a, Returns S x a → Follows S (g a) (g' (f a)) h) : Follows S (x >>= g) (y >>= g') h :=
  fun s hvalid => (hx s hvalid).bind fun a t hrun => hg a ⟨s, t, hvalid, hrun⟩ t

theorem bind {g g' : α → ExceptT ε (StateM σ) β} (hx : Follows S x y f)
    (hg : ∀ a, Follows S (g a) (g' (f a)) h) : Follows S (x >>= g) (y >>= g') h :=
  hx.bind_of fun a _ => hg a

theorem pure {a a' : α} (ha : a' = f a) : Follows S (Pure.pure a) (Pure.pure a') f :=
  fun s hvalid => ⟨⟨hvalid, S.ahead_refl s⟩, fun _ hrel _ _ => ⟨congrArg Except.ok ha, hrel⟩⟩

/-- A failure has to be met by one only if the simulation is strict. -/
theorem throw {e : ε} (hy : S.strict → y = MonadExcept.throw (S.error e)) :
    Follows S (MonadExcept.throw e : ExceptT ε (StateM σ) α) y f := by
  refine fun s hvalid => ⟨⟨hvalid, S.ahead_refl s⟩, fun _ hrel _ hcounts => ?_⟩
  rw [hy hcounts.strict]
  exact ⟨rfl, hrel⟩

/-- Reading the state. -/
theorem get {g g' : σ → ExceptT ε (StateM σ) α}
    (hg : ∀ s s', S.valid s → S.view s s' → Follows S (g s) (g' s') f) :
    Follows S (get >>= g) (get >>= g') f :=
  fun s hvalid => .get fun s' hview => hg s s' hvalid hview s hvalid

theorem modifyGet {g g' : σ → α × σ}
    (hproceeds : ∀ s, S.valid s → S.valid (g s).2 ∧ S.ahead s (g s).2)
    (hagrees : ∀ s s', S.rel s s' → S.inside (g s).2 →
      (g' s').1 = f (g s).1 ∧ S.rel (g s).2 (g' s').2) :
    Follows S (modifyGet g) (modifyGet g') f := by
  refine fun s hvalid => ⟨hproceeds s hvalid, fun s' hrel hinside _ => ?_⟩
  obtain ⟨hresult, hrel'⟩ := hagrees s s' hrel hinside
  exact ⟨congrArg Except.ok hresult, hrel'⟩

theorem modify {g g' : σ → σ} (hproceeds : ∀ s, S.valid s → S.valid (g s) ∧ S.ahead s (g s))
    (hagrees : ∀ s s', S.rel s s' → S.inside (g s) → S.rel (g s) (g' s')) :
    Follows S (modify g) (modify g') id :=
  fun s hvalid => .modify (hproceeds s hvalid) (hagrees s)

theorem ite {c c' : Prop} [Decidable c] [Decidable c'] {x1 x2 y1 y2 : ExceptT ε (StateM σ) α}
    (hc : c' ↔ c) (h1 : Follows S x1 y1 f) (h2 : Follows S x2 y2 f) :
    Follows S (if c then x1 else x2) (if c' then y1 else y2) f := by
  by_cases hcond : c
  · rwa [if_pos hcond, if_pos (hc.mpr hcond)]
  · rwa [if_neg hcond, if_neg (mt hc.mp hcond)]

/-- A step that runs in a changed state and is followed by a change of state. -/
theorem bracket {x' y' : ExceptT ε (StateM σ) β} {g : β → β} {enter enter' : σ → σ}
    (k : σ → Except ε α × σ → Except ε β × σ) (hx : ∀ s, x'.run.run s = k s (x.run.run (enter s)))
    (hy : ∀ s, y'.run.run s = k s (y.run.run (enter' s))) (h : Follows S x y f)
    (henter : ∀ s, S.valid s → S.valid (enter s)) (hleave : ∀ s r t, S.valid t →
      S.ahead (enter s) t → S.valid (k s (r, t)).2 ∧ S.ahead s (k s (r, t)).2)
    (hback : ∀ s r t, (S.inside (k s (r, t)).2 → S.inside t) ∧
      (S.Counts (k s (r, t)).1 → S.Counts r))
    (hrel : ∀ s s', S.rel s s' → S.rel (enter s) (enter' s') ∧ ∀ r t t', S.rel t t' →
      (k s' (outcome S.error f r, t')).1 = outcome S.error g (k s (r, t)).1 ∧
        S.rel (k s (r, t)).2 (k s' (outcome S.error f r, t')).2) : Follows S x' y' g := by
  intro s hvalid
  obtain ⟨hproceeds, hagrees⟩ := h _ (henter s hvalid)
  refine ⟨?_, fun s' hs hinside hcounts => ?_⟩
  · rw [hx]
    exact hleave s _ _ hproceeds.1 hproceeds.2
  · rw [hx] at hinside hcounts ⊢
    obtain ⟨hinner, houter⟩ := hrel s s' hs
    obtain ⟨hresult, hrel'⟩ := hagrees _ hinner ((hback s _ _).1 hinside) ((hback s _ _).2 hcounts)
    rw [hy, show y.run.run (enter' s') = (_, (y.run.run (enter' s')).2) from Prod.ext hresult rfl]
    exact houter _ _ _ hrel'

theorem forM {γ : Type} {r : γ → γ} {g g' : γ → ExceptT ε (StateM σ) Unit} (list : List γ)
    (hg : ∀ c ∈ list, Follows S (g c) (g' (r c)) id) :
    Follows S (list.forM g) ((list.map r).forM g') id := by
  induction list with
  | nil => exact .pure rfl
  | cons c rest ih =>
    obtain ⟨hc, hrest⟩ := List.forall_mem_cons.mp hg
    rw [List.map_cons, List.forM, List.forM]
    exact .bind hc fun _ => ih hrest

end Follows

end TraitCheck
