import Mathlib.Tactic.Common
import Promotion.Yaml.Cursor
import Promotion.Yaml.Printer

/-!
# `Promotion.Proofs.Yaml.Cursor`: going through what was written

How a cursor moves over a piece of a text, and what the characters are that
the printer writes as they are.

* `takeWhile_append`, `skipMany_append`: a cursor behind a piece of a text.
* `eq_of_isBreak`: the line breaks that are written as they are.
-/

set_option autoImplicit false

namespace Promotion.Yaml

/-- The place after `n` more characters of the line. -/
def Mark.advance (m : Mark) (n : Nat) : Mark := ⟨m.index + n, m.line, m.column + n⟩

namespace Mark

variable (m : Mark) (n k : Nat)

/-- To go on by nothing is to stay. -/
@[simp] theorem advance_zero : m.advance 0 = m := rfl

/-- Going on twice is going on by the sum. -/
@[simp] theorem advance_advance : (m.advance n).advance k = m.advance (n + k) := by
  simp [advance, Nat.add_assoc]

/-- Going on within a line adds to the column. -/
@[simp] theorem advance_column : (m.advance n).column = m.column + n := rfl

/-- A new line begins at column zero. -/
@[simp] theorem nextLine_column : (m.nextLine n).column = 0 := rfl

end Mark

namespace Cursor

variable {p : Char → Bool} {s rest : List Char} {c : Char} {m : Mark}

/-- Skipping a character goes on by one. -/
@[simp] theorem skip_cons : skip ⟨c :: rest, m⟩ = ⟨rest, m.advance 1⟩ := rfl

/-- A text in front is skipped by its length. -/
theorem skipMany_append : skipMany s.length ⟨s ++ rest, m⟩ = ⟨rest, m.advance s.length⟩ := by
  induction s generalizing m with
  | nil => rfl
  | cons c s ih =>
    rw [List.length_cons, skipMany, List.cons_append, skip_cons, ih, Mark.advance_advance,
      Nat.add_comm]

/-- What satisfies a condition is taken up to the first character that does not. -/
theorem takeWhile_append (hs : ∀ c ∈ s, p c = true) (hrest : ∀ c ∈ rest.head?, p c = false) :
    takeWhile p ⟨s ++ rest, m⟩ = (s, ⟨rest, m.advance s.length⟩) := by
  have htaken : (s ++ rest).takeWhile p = s := by
    rw [List.takeWhile_append_of_pos hs]
    cases rest with
    | nil => simp
    | cons c rest => simp [hrest c rfl]
  simp [takeWhile, htaken, Mark.advance]

/-- What satisfies a condition is skipped up to the first character that does not. -/
theorem skipWhile_append (hs : ∀ c ∈ s, p c = true) (hrest : ∀ c ∈ rest.head?, p c = false) :
    skipWhile p ⟨s ++ rest, m⟩ = ⟨rest, m.advance s.length⟩ := by
  rw [skipWhile, takeWhile_append hs hrest]

/-- Nothing is skipped where the first character does not satisfy the condition. -/
theorem skipWhile_of_head (hrest : ∀ c ∈ rest.head?, p c = false) :
    skipWhile p ⟨rest, m⟩ = ⟨rest, m⟩ :=
  skipWhile_append (s := []) nofun hrest

/-- Where no `#` stands, no comment is skipped. -/
theorem skipComment_of_head (h : rest.head? ≠ some '#') : skipComment ⟨rest, m⟩ = ⟨rest, m⟩ :=
  if_neg h

/-- The marks of documents stand at the start of a line. -/
theorem atMarker_of_column {c : Cursor} (h : 0 < c.mark.column) (marker : List Char) :
    c.atMarker marker = false := by
  have hcolumn : (c.mark.column == 0) = false := beq_false_of_ne (Nat.ne_of_gt h)
  simp [atMarker, hcolumn]

/-- No document starts or ends within a line. -/
theorem atDocument_of_column (h : 0 < m.column) : atDocument ⟨rest, m⟩ = false := by
  rw [atDocument, atMarker_of_column h, atMarker_of_column h, Bool.or_self]

end Cursor

/-! ### White space -/

section Gap

variable {c : Char}

/-- Line breaks are not blanks within a line. -/
theorem isBlank_of_isBreak (h : isBreak c = true) : isBlank c = false := by
  simp only [isBreak, Bool.or_eq_true, decide_eq_true_eq] at h
  rcases h with (((rfl | rfl) | rfl) | rfl) | rfl <;> rfl

/-- A space is a blank. -/
theorem ne_space_of_isBlank (h : isBlank c = false) : c ≠ ' ' := by
  rintro rfl
  cases h

/-- A tab is a blank. -/
theorem ne_tab_of_isBlank (h : isBlank c = false) : c ≠ '\t' := by
  rintro rfl
  cases h

end Gap

/-! ### Letters -/

section Letter

variable {c d : Char} (hc : c.isAlpha = true)

include hc

/-- A letter differs from a character that is none. -/
theorem ne_of_isAlpha (hd : d.isAlpha = false) : c ≠ d := by
  rintro rfl
  cases hc.symm.trans hd

/-- A letter is no blank. -/
theorem isBlank_of_isAlpha : isBlank c = false := by
  simp [isBlank, ne_of_isAlpha hc (d := ' ') rfl, ne_of_isAlpha hc (d := '\t') rfl]

/-- A letter is no line break. -/
theorem isBreak_of_isAlpha : isBreak c = false := by
  simp [isBreak, ne_of_isAlpha hc (d := '\n') rfl, ne_of_isAlpha hc (d := '\r') rfl,
    ne_of_isAlpha hc (d := '\u0085') rfl, ne_of_isAlpha hc (d := '\u2028') rfl,
    ne_of_isAlpha hc (d := '\u2029') rfl]

end Letter

/-! ### Characters that are written as they are -/

open Printer (isPrintable)

/-- A line break that is written as it is. -/
theorem eq_of_isBreak {c : Char} (hprintable : isPrintable c = true) (hbreak : isBreak c = true) :
    c = '\n' ∨ c = '\u2028' ∨ c = '\u2029' := by
  simp only [isBreak, Bool.or_eq_true, decide_eq_true_eq] at hbreak
  rcases hbreak with (((rfl | rfl) | rfl) | rfl) | rfl
  · exact .inl rfl
  · simp [isPrintable] at hprintable
  · simp [isPrintable] at hprintable
  · exact .inr (.inl rfl)
  · exact .inr (.inr rfl)

/-- A blank that is written as it is. -/
theorem eq_space_of_isBlank {c : Char} (hprintable : isPrintable c = true)
    (hblank : isBlank c = true) : c = ' ' := by
  simp only [isBlank, Bool.or_eq_true, decide_eq_true_eq] at hblank
  rcases hblank with rfl | rfl
  · rfl
  · simp [isPrintable] at hprintable

/-- Of the characters that can be printed, the space is the only blank. -/
theorem isBlank_of_ne_space {c : Char} (hprintable : isPrintable c = true) (hc : c ≠ ' ') :
    isBlank c = false := by
  by_contra hblank
  exact hc (eq_space_of_isBlank hprintable (by simpa using hblank))

/-- What can be printed may stand in a document. -/
theorem isAllowed_of_isPrintable {c : Char} (h : isPrintable c = true) : isAllowed c = true := by
  simp only [isPrintable, Bool.or_eq_true, Bool.and_eq_true, beq_iff_eq, decide_eq_true_eq,
    bne_iff_ne] at h
  simp only [isAllowed, Bool.or_eq_true, Bool.and_eq_true, beq_iff_eq, decide_eq_true_eq]
  omega

/-- Letters can be printed. -/
theorem isPrintable_of_isAlpha {c : Char} (h : c.isAlpha = true) : isPrintable c = true := by
  have hrange : (0x41 ≤ c.toNat ∧ c.toNat ≤ 0x5A) ∨ (0x61 ≤ c.toNat ∧ c.toNat ≤ 0x7A) := by
    rcases Bool.or_eq_true_iff.mp h with hupper | hlower
    · have hbounds : 'A'.val ≤ c.val ∧ c.val ≤ 'Z'.val := of_decide_eq_true hupper
      exact .inl hbounds
    · obtain ⟨hlow, hhigh⟩ := Bool.and_eq_true_iff.mp hlower
      exact .inr ⟨of_decide_eq_true hlow, of_decide_eq_true hhigh⟩
  simp only [isPrintable, Bool.or_eq_true, Bool.and_eq_true, beq_iff_eq, decide_eq_true_eq,
    bne_iff_ne]
  omega

section Break

variable {c : Char} {rest : List Char} {m : Mark}
  (hprintable : isPrintable c = true) (hbreak : isBreak c = true)

include hprintable hbreak

/-- A line break that is written as it is stands for itself. -/
theorem breakText_of_isPrintable : Cursor.breakText ⟨c :: rest, m⟩ = [c] := by
  rcases eq_of_isBreak hprintable hbreak with rfl | rfl | rfl <;> rfl

/-- A line break that can be printed is a single character. -/
theorem skipBreak_of_isPrintable : Cursor.skipBreak ⟨c :: rest, m⟩ = ⟨rest, m.nextLine 1⟩ := by
  rcases eq_of_isBreak hprintable hbreak with rfl | rfl | rfl <;> rfl

end Break

end Promotion.Yaml
