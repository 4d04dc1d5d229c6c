import TraitCheck.Proofs.Lowering
import TraitCheck.Proofs.RenamedPrograms

/-!
The limit of nesting only cuts off. Two runs with room for all expressions of a
program do the same, whatever is left of the room. A failure that names the limit
would then be the same for any other limit, so there is none; and with less room
the walk does not get through.
-/

namespace TraitCheck.Checker

open Surface (Program nestingStmts)

variable {d : Nat}

/-- The answer of a new checker with the given limit of nesting. -/
def answer (prelude : Bool) (limit : Nat) (program : Program) : Except TypeError (List Core.Stmt) :=
  ((new ⟨prelude, limit⟩).check program).1

/-- Renames no id, but exchanges the limit. -/
def relimited (limit : Nat → Nat) : Renaming where
  var := id
  binding := id
  limit := limit
  var_injective := Function.injective_id
  binding_injective := Function.injective_id

variable {prelude : Bool} {program : Program}

/-- With enough room the answers correspond, whatever is taken for the limit. -/
theorem answer_relimited {d' : Nat} (hd : nestingStmts program ≤ d)
    (hd' : nestingStmts program ≤ d') (limit : Nat → Nat) : answer prelude d' program =
      outcome (TypeError.rename (relimited limit))
        (List.map (Core.Stmt.rename (relimited limit))) (answer prelude d program) := by
  let final := ((new ⟨prelude, d⟩).check program).2
  let leeway : Leeway :=
    { vars := final.unifier.next, bindings := final.scope.nextBinding, aligned := False }
  have hstrict : leeway.Strict := fun _ => rfl
  have hrel : Related (relimited limit) leeway (new ⟨prelude, d⟩) (new ⟨prelude, d'⟩) :=
    related_new hstrict rfl False.elim (fun _ _ => rfl) fun _ _ => rfl
  exact (hrel.check (plain_new _) hstrict program (.inr ⟨hd, hd'⟩)
    (fun _ _ => .inr fun _ => rfl) (hstrict.inside (Nat.le_refl _) (Nat.le_refl _))).1

theorem answer_eq_of_room {d' : Nat} (hd : nestingStmts program ≤ d)
    (hd' : nestingStmts program ≤ d') : answer prelude d' program = answer prelude d program := by
  -- The renamed answer is that of the same run again.
  rw [answer_relimited hd hd' id, ← answer_relimited hd hd id]

theorem answer_ne_nestingTooDeep (hd : nestingStmts program ≤ d) (limit : Nat) (span : Span) :
    answer prelude d program ≠ .error ⟨.invalidContext (.nestingTooDeep limit), span⟩ := by
  intro h
  -- The failure would have to name the next number as well.
  have hsucc : answer prelude d program = _ := answer_relimited hd hd Nat.succ
  rw [h] at hsucc
  injection hsucc with hfailure
  injection hfailure with hcontext
  injection hcontext with hmisuse
  injection hmisuse with hlimit
  exact Nat.succ_ne_self limit hlimit.symm

/-- Statements are checked only if there is room for every expression in them. -/
theorem room_of_checkUnits {s s' : Checker} {out : List Core.Stmt}
    (h : Yields (checkUnits d program) s out s') : nestingStmts program ≤ d := by
  induction program generalizing s s' out with
  | nil => exact Nat.zero_le d
  | cons stmt rest ih =>
    obtain ⟨_, s1, h1, h⟩ := h.bind
    obtain ⟨_, s2, h2, _⟩ := h.bind
    have hstmt := (Shows.inUnit renders_checkStmt).holds (.refl [] s) False.elim h1
    exact Nat.max_le.mpr ⟨hstmt.room, ih h2⟩

theorem room_of_answer {out : List Core.Stmt} (h : answer prelude d program = .ok out) :
    nestingStmts program ≤ d := by
  rw [answer, check_eq] at h
  have hrun : Yields (checkWithin d program) (new ⟨prelude, d⟩) out _ := Prod.ext h rfl
  obtain ⟨_, _, _, hrun⟩ := hrun.bind
  obtain ⟨_, _, _, hrun⟩ := hrun.bind
  exact room_of_checkUnits hrun

/-- On a new checker every limit that leaves room for the expressions of a program
gives the same answer, and never a failure that names the limit. Any smaller limit
gives a failure. So a program is accepted under a limit if and only if there is
room for its expressions and it is accepted under every large limit, with the same
core program. -/
theorem limit_only_cuts_off (prelude : Bool) (program : Program) :
    (∀ d d', nestingStmts program ≤ d → nestingStmts program ≤ d' →
      answer prelude d' program = answer prelude d program) ∧
    (∀ d, nestingStmts program ≤ d → ∀ limit span,
      answer prelude d program ≠ .error ⟨.invalidContext (.nestingTooDeep limit), span⟩) ∧
    (∀ d, d < nestingStmts program → ∃ e, answer prelude d program = .error e) ∧
    ∀ d out, answer prelude d program = .ok out ↔
      nestingStmts program ≤ d ∧ ∃ d₀, ∀ d' ≥ d₀, answer prelude d' program = .ok out := by
  refine ⟨fun d d' => answer_eq_of_room, fun d hd => answer_ne_nestingTooDeep hd, fun d hd => ?_,
    fun d out => ⟨fun h => ?_, fun h => ?_⟩⟩
  · cases hanswer : answer prelude d program with
    | error e => exact ⟨e, rfl⟩
    | ok out => exact absurd (room_of_answer hanswer) (Nat.not_le_of_lt hd)
  · have hroom := room_of_answer h
    exact ⟨hroom, d, fun _ hd' => (answer_eq_of_room hroom (hroom.trans hd')).trans h⟩
  · obtain ⟨hroom, d₀, hlarge⟩ := h
    have hmax := hlarge (max d d₀) (Nat.le_max_right d d₀)
    exact (answer_eq_of_room (hroom.trans (Nat.le_max_left d d₀)) hroom).trans hmax

end TraitCheck.Checker
