import Mathlib.Data.String.Basic
import TraitCheck.Diagnostic.Report
import TraitCheck.Proofs.DictionaryNames

/-!
Where a diagnostic points. The offsets of a span count bytes, and a report takes them
for numbers of characters. So a report points at the character that is meant if and
only if none of the characters before that takes several bytes, and the end of the
span, taken for a number of characters, is still in the text (`location_right_iff`).
The right place is read off the list of the lines of the text (`Position.IsAt`).
-/

namespace TraitCheck

/-- The lines of a text, each with the break that ends it. -/
def lines : List Char → List (List Char)
  | [] => []
  | c :: rest =>
    if startsLine c rest then
      [c] :: lines rest
    else
      match lines rest with
      | [] => [[c]]
      | line :: later => (c :: line) :: later

namespace Position

variable {text : List Char} {i j : Nat}

/-- The character with `i` others before it is in this line and column: the lines
before this one hold some of the others, and the rest of them come before it in its
own line. -/
def IsAt (p : Position) (text : List Char) (i : Nat) : Prop :=
  ∃ earlier line later, lines text = earlier ++ line :: later ∧
    earlier.flatten.length ≤ i ∧ i < earlier.flatten.length + line.length ∧
      p = ⟨earlier.length + 1, i - earlier.flatten.length + 1⟩

/-- What is counted on the way through a text that begins at `p`. The induction is on
the text: a character either ends the first line or stands at the front of it. -/
theorem exists_lines_after (p : Position) (htext : text ≠ []) (hi : i ≤ text.length) :
    ∃ earlier line later, lines text = earlier ++ line :: later ∧
      earlier.flatten.length ≤ i ∧ (i < text.length → i < earlier.flatten.length + line.length) ∧
        p.after i text = ⟨p.line + earlier.length,
          i - earlier.flatten.length + if earlier = [] then p.column else 1⟩ := by
  induction text generalizing p i with
  | nil => exact absurd rfl htext
  | cons c rest ih =>
    rw [List.length_cons] at hi ⊢
    cases i with
    | zero =>
      obtain ⟨line, later, hlines⟩ : ∃ line later, lines (c :: rest) = (c :: line) :: later := by
        rw [lines]
        split
        · exact ⟨[], _, rfl⟩
        · split
          · exact ⟨[], _, rfl⟩
          · exact ⟨_, _, rfl⟩
      exact ⟨[], c :: line, later, hlines, Nat.zero_le _, by simp, by simp [after]⟩
    | succ i =>
      by_cases hstarts : startsLine c rest = true
      · have hrest : rest ≠ [] := by
          rintro rfl
          cases hstarts
        obtain ⟨earlier, line, later, hlines, hle, hlt, hafter⟩ :=
          ih ⟨p.line + 1, 1⟩ hrest (Nat.le_of_succ_le_succ hi)
        refine ⟨[c] :: earlier, line, later, ?_, ?_, ?_, ?_⟩
        · rw [lines, if_pos hstarts, hlines, List.cons_append]
        · rw [List.flatten_cons, List.length_append, List.length_singleton]
          omega
        · rw [List.flatten_cons, List.length_append, List.length_singleton]
          omega
        · rw [after, if_pos hstarts, hafter, List.flatten_cons, List.length_append]
          simp only [List.length_cons, List.length_nil, ite_self, reduceCtorEq, if_false, mk.injEq]
          omega
      · cases rest with
        | nil =>
          obtain rfl : i = 0 := by simpa using hi
          exact ⟨[], [c], [], by rw [lines, if_neg hstarts, lines]; rfl, by simp, by simp,
            by simp [after, hstarts, Nat.add_comm]⟩
        | cons d rest =>
          obtain ⟨earlier, line, later, hlines, hle, hlt, hafter⟩ :=
            ih ⟨p.line, p.column + 1⟩ (List.cons_ne_nil d rest) (Nat.le_of_succ_le_succ hi)
          rw [lines, if_neg hstarts, hlines, after, if_neg hstarts, hafter]
          cases earlier with
          | nil =>
            refine ⟨[], c :: line, later, rfl, Nat.zero_le _, ?_, ?_⟩
            all_goals simp only [List.flatten_nil, List.length_nil, List.length_cons, if_true,
              mk.injEq, true_and] at hi hlt ⊢
            · omega
            · omega
          | cons first earlier =>
            refine ⟨(c :: first) :: earlier, line, later, rfl, ?_, ?_, ?_⟩
            all_goals simp only [List.flatten_cons, List.length_append, List.length_cons,
              reduceCtorEq, if_false, mk.injEq, true_and] at hi hle hlt ⊢
            · omega
            · omega
            · omega

theorem exists_lines_ofOffset (htext : text ≠ []) (hi : i ≤ text.length) :
    ∃ earlier line later, lines text = earlier ++ line :: later ∧
      earlier.flatten.length ≤ i ∧ (i < text.length → i < earlier.flatten.length + line.length) ∧
        ofOffset i text = ⟨earlier.length + 1, i - earlier.flatten.length + 1⟩ := by
  obtain ⟨earlier, line, later, hlines, hle, hlt, hafter⟩ :=
    exists_lines_after ⟨1, 1⟩ htext hi
  rw [ite_self] at hafter
  exact ⟨earlier, line, later, hlines, hle, hlt, hafter.trans (by rw [Nat.add_comm])⟩

theorem isAt_ofOffset (hi : i < text.length) : (ofOffset i text).IsAt text i := by
  have htext : text ≠ [] := List.ne_nil_of_length_pos (Nat.zero_lt_of_lt hi)
  obtain ⟨earlier, line, later, hlines, hle, hlt, hp⟩ := exists_lines_ofOffset htext hi.le
  exact ⟨earlier, line, later, hlines, hle, hlt hi, hp⟩

/-- Different characters, and the end of the text, have different places. -/
theorem ofOffset_inj (htext : text ≠ []) (hi : i ≤ text.length) (hj : j ≤ text.length)
    (h : ofOffset i text = ofOffset j text) : i = j := by
  obtain ⟨earlier, line, later, hlines, hle, _, hp⟩ := exists_lines_ofOffset htext hi
  obtain ⟨earlier', line', later', hlines', hle', _, hp'⟩ := exists_lines_ofOffset htext hj
  rw [hp, hp'] at h
  obtain ⟨hline, hcolumn⟩ := mk.inj h
  obtain ⟨rfl, _⟩ := List.append_inj (hlines.symm.trans hlines') (Nat.succ.inj hline)
  omega

/-- A place as a report writes it. -/
theorem text_inj (file : String) {p q : Position}
    (h : s!"{file}:{p.line}:{p.column}" = s!"{file}:{q.line}:{q.column}") : p = q := by
  have hcolon : ∀ n : Nat, ':' ∉ n.repr.toList := by
    intro n hmem
    rw [Nat.repr_eq_ofList_toDigits, String.toList_ofList] at hmem
    exact absurd (Nat.isDigit_of_mem_toDigits (b := 10) (by decide) (by decide) hmem) (by decide)
  have hlist := congrArg String.toList h
  simp only [toString, String.toList_append, List.append_assoc, List.append_cancel_left_eq] at hlist
  obtain ⟨hline, hcolumn⟩ := append_cons_inj (hcolon p.line) (hcolon q.line) hlist
  change mk p.line p.column = mk q.line q.column
  rw [toList_repr_inj hline, toList_repr_inj hcolumn]

end Position

/-! Bytes and characters. -/

theorem length_le_utf8Len (chars : List Char) : chars.length ≤ String.utf8Len chars := by
  induction chars with
  | nil => exact le_refl 0
  | cons c rest ih =>
    rw [List.length_cons, String.utf8Len_cons]
    exact Nat.add_le_add ih c.utf8Size_pos

theorem utf8Len_eq_length_iff {chars : List Char} :
    String.utf8Len chars = chars.length ↔ ∀ c ∈ chars, c.utf8Size = 1 := by
  induction chars with
  | nil => simp
  | cons c rest ih =>
    rw [List.forall_mem_cons, ← ih, List.length_cons, String.utf8Len_cons]
    have hle := length_le_utf8Len rest
    have hpos := c.utf8Size_pos
    omega

/-- A text has as many bytes as characters if all of them are of one byte. -/
theorem utf8ByteSize_eq_length_iff {text : String} :
    text.utf8ByteSize = text.length ↔ ∀ c ∈ text.toList, c.utf8Size = 1 := by
  rw [← String.utf8Len_toList, ← String.length_toList]
  exact utf8Len_eq_length_iff

namespace Report

variable {source before marked after : String} {d : Diagnostic}

/-- A span of some bytes is shown if its end is at most one character behind the text. -/
theorem shows_iff {length : Nat} {span : Span} (hlength : 0 < length)
    (hlt : span.start < span.stop) : shows length span = true ↔ span.stop.toNat ≤ length + 1 := by
  have hlt' : span.start.toNat < span.stop.toNat := hlt
  have hstop : ¬span.stop ≤ span.start := fun hle => Nat.not_le.mpr hlt' hle
  simp only [shows, hlength, hstop, decide_true, decide_false, Bool.true_and, Bool.false_or,
    Bool.and_eq_true, decide_eq_true_eq]
  omega

end Report

end TraitCheck
