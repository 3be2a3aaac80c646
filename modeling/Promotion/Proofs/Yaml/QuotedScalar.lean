import Mathlib.Algebra.Group.Nat.Defs
import Promotion.Proofs.Yaml.Folding
import Promotion.Proofs.Yaml.Printer
import Promotion.Yaml.QuotedScalar

/-!
# `Promotion.Proofs.Yaml.QuotedScalar`: quoted scalars are read back

* `read_single`: a text between single quotation marks.
* `read_double`: a text between double quotation marks, for any characters.
-/

set_option autoImplicit false

namespace Promotion.Yaml.QuotedScalar

open Printer

variable {quote : Char} {fuel : Nat} {done s rest : List Char} {c : Char} {m : Mark}

/-! ### Escapes -/

/-- A digit that was written is read as its value. -/
theorem hexDigit?_hexDigit (n : Nat) : hexDigit? (hexDigit n) = some (n % 16) := by
  have hdigits : ∀ d < 16, hexDigit? (Nat.digitChar d).toUpper = some d := by decide
  exact hdigits (n % 16) (Nat.mod_lt n (by decide))

/-- A number is written with the given count of digits. -/
theorem length_hexDigits (count n : Nat) : (hexDigits count n).length = count := by
  induction count generalizing n with
  | zero => rfl
  | succ count ih => simp [hexDigits, ih]

/-- The digits of a number are read as the number, before more digits. -/
theorem hexValue?_hexDigits (count more n start : Nat) (rest : List Char) :
    hexValue? (count + more) start (hexDigits count n ++ rest)
      = hexValue? more (start * 16 ^ count + n % 16 ^ count) rest := by
  -- By induction on the digits in front, since the last digit is written behind the others.
  induction count generalizing more n start rest with
  | zero => simp [hexDigits, Nat.mod_one]
  | succ count ih =>
    have hvalue : 16 * (start * 16 ^ count + n / 16 % 16 ^ count) + n % 16
        = start * 16 ^ (count + 1) + n % 16 ^ (count + 1) := by
      rw [Nat.pow_succ', Nat.mod_mul, Nat.mul_add, Nat.mul_left_comm]
      omega
    rw [hexDigits, List.append_assoc, Nat.add_assoc, Nat.add_comm 1 more, ih, List.singleton_append,
      hexValue?, hexDigit?_hexDigit]
    simp only [hvalue]

/-- A character is that of its number. -/
theorem charOf?_toNat (c : Char) : charOf? c.toNat = some c := by
  have hvalid : c.toNat < 0xD800 ∨ (0xDFFF < c.toNat ∧ c.toNat < 0x110000) := c.valid
  have hrange : (c.toNat < 0xD800 || (0xDFFF < c.toNat && c.toNat ≤ 0x10FFFF)) = true := by
    simp only [Bool.or_eq_true, Bool.and_eq_true, decide_eq_true_eq]
    omega
  rw [charOf?, if_pos hrange, Char.ofNat_toNat]

/-- A numeric escape is read as its character. -/
theorem readEscape_numeric {width : Nat} {letter : Char} (hletter : escaped? letter = none)
    (hwidth : hexWidth? letter = some width) (hc : c.toNat < 16 ^ width) :
    ∃ m', readEscape ⟨letter :: hexDigits width c.toNat ++ rest, m⟩ = .ok (c, ⟨rest, m'⟩) := by
  have hvalue : hexValue? width 0 (hexDigits width c.toNat ++ rest) = some c.toNat := by
    have := hexValue?_hexDigits width 0 c.toNat 0 rest
    simpa [Nat.mod_eq_of_lt hc, hexValue?] using this
  -- The letter and its digits are skipped together.
  have hlength : (letter :: hexDigits width c.toNat).length = width + 1 := by
    rw [List.length_cons, length_hexDigits]
  have hskip : Cursor.skipMany (width + 1) ⟨letter :: (hexDigits width c.toNat ++ rest), m⟩
      = ⟨rest, m.advance (width + 1)⟩ := hlength ▸ Cursor.skipMany_append
  rw [List.cons_append]
  simp only [readEscape, hletter, hwidth, hvalue, Option.bind_some, charOf?_toNat, hskip]
  exact ⟨_, rfl⟩

/-- What stands after the backslash is read as the character. -/
theorem readEscape_escapeOf (c : Char) (rest : List Char) (m : Mark) :
    ∃ m', readEscape ⟨escapeOf c ++ rest, m⟩ = .ok (c, ⟨rest, m'⟩) := by
  unfold escapeOf
  split <;> try exact ⟨_, rfl⟩
  split
  next h => exact readEscape_numeric rfl rfl (by omega)
  split
  next h => exact readEscape_numeric rfl rfl (by omega)
  · have hvalid : c.toNat < 0xD800 ∨ (0xDFFF < c.toNat ∧ c.toNat < 0x110000) := c.valid
    exact readEscape_numeric rfl rfl (by omega)

/-! ### Steps -/

/-- A character that means nothing else is added. -/
theorem readFrom_cons (hquote : c ≠ quote) (hends : Folding.Ends (c :: rest))
    (hescape : c = '\\' → quote ≠ '"') :
    readFrom quote (fuel + 1) done ⟨c :: rest, m⟩
      = readFrom quote fuel (c :: done) ⟨rest, m.advance 1⟩ := by
  obtain ⟨hblank, hbreak⟩ := hends c rfl
  have hplain : ¬(c = '\\' ∧ quote = '"') := fun h => hescape h.1 h.2
  simp [readFrom, hquote, hblank, hbreak, hplain]

/-- White space is read up to its end, which stands within a line. -/
theorem readFrom_fold {f : Folding} {next : Cursor} (hquote : c ≠ quote)
    (hc : isBlank c = true ∨ isBreak c = true)
    (hfold : Folding.read 0 (c :: rest).length {} ⟨c :: rest, m⟩ = .ok (f, next))
    (hcolumn : 0 < next.mark.column) :
    readFrom quote (fuel + 1) done ⟨c :: rest, m⟩
      = readFrom quote fuel (f.text.reverse ++ done) next := by
  have hgap : (isBlank c || isBreak c) = true := by simpa using hc
  obtain ⟨nextRest, nextMark⟩ := next
  rw [readFrom]
  simp only [hquote, if_false, hgap, if_true, readFrom.fold, hfold,
    Cursor.atDocument_of_column hcolumn, Bool.false_eq_true]

/-- A row of spaces is kept. -/
theorem readFrom_spaces {row : List Char} (hquote : quote ≠ ' ') (hrow : ∀ c ∈ row, c = ' ')
    (hrest : Folding.Ends rest) :
    readFrom quote (fuel + 1) done ⟨' ' :: (row ++ rest), m⟩
      = readFrom quote fuel ((' ' :: row).reverse ++ done)
        ⟨rest, m.advance (' ' :: row).length⟩ := by
  have hfold := Folding.read_spaces 0 (' ' :: (row ++ rest)).length (f := {}) (m := m)
    (List.forall_mem_cons.mpr ⟨rfl, hrow⟩) hrest rfl (by simp)
  exact readFrom_fold hquote.symm (.inl rfl) hfold
    (Nat.lt_of_lt_of_le (Nat.succ_pos _) (Nat.le_add_left ..))

/-- A row of line breaks is kept, where the first one is no line feed. -/
theorem readFrom_breaks (fuel : Nat) (done : List Char) {row : List Char}
    (hquote : isBreak quote = false) (hc : c ≠ '\n')
    (hprintable : ∀ d ∈ c :: row, isPrintable d = true) (hbreak : ∀ d ∈ c :: row, isBreak d = true) (hrest : Folding.Ends rest) :
    ∃ m', readFrom quote (fuel + 1) done ⟨c :: row ++ (margin ++ rest), m⟩
      = readFrom quote fuel ((c :: row).reverse ++ done) ⟨rest, m'⟩ := by
  -- The break is not the quote, so it starts a fold.
  have hne : c ≠ quote := by
    rintro rfl
    cases hquote.symm.trans (hbreak c (List.mem_cons_self ..))
  rw [List.forall_mem_cons] at hprintable hbreak
  obtain ⟨m', hm', hfold⟩ := Folding.read_breaks 0 (c :: (row ++ (margin ++ rest))).length row
    (m := m) eq_of_mem_margin hrest
    (fun d hd => ⟨hprintable.2 d hd, hbreak.2 d hd⟩) hprintable.1 hbreak.1 (by simp)
  refine ⟨m', ?_⟩
  rw [List.cons_append, readFrom_fold hne (.inr hbreak.1) hfold (hm' ▸ by decide)]
  simp [Folding.text, hc]

/-! ### Single quotation marks -/

/-- A mark that is written twice stands for one. -/
theorem readFrom_doubled :
    readFrom '\'' (fuel + 1) done ⟨'\'' :: '\'' :: rest, m⟩
      = readFrom '\'' fuel ('\'' :: done) ⟨rest, m.advance 2⟩ := by
  simp [readFrom, Cursor.skipMany]

/-- A text between single quotation marks, of which a part is read. -/
theorem readFrom_single (fuel : Nat) (done : List Char) (hs : SingleRest s)
    (hfuel : s.length < fuel) (hrest : rest.head? ≠ some '\'') :
    ∃ m', readFrom '\'' fuel done ⟨singleQuotedFrom false s ++ '\'' :: rest, m⟩
      = .ok (done.reverse ++ s, ⟨rest, m'⟩) := by
  -- By induction on the steps, with what was read generalized. Spaces and breaks are read in
  -- whole rows, because a fold ends where they do.
  induction fuel generalizing s done m with
  | zero => omega
  | succ fuel ih =>
    cases s with
    | nil => exact ⟨m.advance 1, by simp [readFrom, singleQuotedFrom, hrest]⟩
    | cons c s =>
      rw [List.length_cons] at hfuel
      by_cases hspace : c = ' '
      · subst hspace
        obtain ⟨row, s, rfl, hrow, hhead⟩ := exists_row (· = ' ') s
        simp only [decide_eq_true_eq, decide_eq_false_iff_not] at hrow hhead
        have hends := ends_singleQuotedFrom (hs.after_spaces hrow hhead) rest
        obtain ⟨m', hread⟩ := ih ((' ' :: row).reverse ++ done)
          (m := m.advance (' ' :: row).length) hs.tail.append
          (by simp only [List.length_append] at hfuel; omega)
        rw [← List.cons_append, singleQuotedFrom_spaces (List.forall_mem_cons.mpr ⟨rfl, hrow⟩),
          List.append_assoc, List.cons_append, readFrom_spaces (by decide) hrow hends, hread]
        exact ⟨m', by simp⟩
      by_cases hbreak : isBreak c = true
      · obtain ⟨row, s, rfl, hrow, hhead⟩ := exists_row isBreak s
        have hends := hs.after_breaks (List.forall_mem_cons.mpr ⟨hbreak, hrow⟩) hhead
        have hlineFeed : c ≠ '\n' := by
          rintro rfl
          exact hs.noLineFeed (List.mem_cons_self ..)
        have hprintable : ∀ d ∈ c :: row, isPrintable d = true :=
          fun d hd => hs.printable d (List.mem_append_left s hd)
        obtain ⟨m₁, hbreaks⟩ := readFrom_breaks fuel done (m := m) (rfl : isBreak '\'' = false)
          hlineFeed hprintable (List.forall_mem_cons.mpr ⟨hbreak, hrow⟩)
          (ends_singleQuotedFrom hends rest)
        obtain ⟨m', hread⟩ := ih ((c :: row).reverse ++ done) (m := m₁) hs.tail.append
          (by simp only [List.length_append] at hfuel; omega)
        rw [← List.cons_append, singleQuotedFrom_breaks hbreak hrow, singleQuotedFrom_margin hends,
          List.append_assoc, List.append_assoc, hbreaks, hread]
        exact ⟨m', by simp⟩
      rw [singleQuotedFrom, if_neg hbreak, if_neg hspace]
      -- A quote inside the text is doubled.
      by_cases hmark : c = '\''
      · subst hmark
        obtain ⟨m', hread⟩ := ih ('\'' :: done) (m := m.advance 2) hs.tail
          (Nat.lt_of_succ_lt_succ hfuel)
        refine ⟨m', readFrom_doubled.trans ?_⟩
        simpa using hread
      · obtain ⟨m', hread⟩ := ih (c :: done) (m := m.advance 1) hs.tail
          (Nat.lt_of_succ_lt_succ hfuel)
        have hends : Folding.Ends (c :: (singleQuotedFrom false s ++ '\'' :: rest)) :=
          Folding.ends_cons (isBlank_of_ne_space (hs.printable c (List.mem_cons_self ..)) hspace)
            (by simpa using hbreak)
        rw [if_neg hmark]
        refine ⟨m', (readFrom_cons hmark hends fun _ => by decide).trans ?_⟩
        simpa using hread

/-- A text between single quotation marks is read. -/
theorem read_single (rest : List Char) (m : Mark) (hs : SingleRest s)
    (hrest : rest.head? ≠ some '\'') :
    ∃ m', read '\'' ⟨'\'' :: (singleQuotedFrom false s ++ '\'' :: rest), m⟩
      = .ok (s, ⟨rest, m'⟩) := by
  have hlength : s.length ≤ (singleQuotedFrom false s).length := length_le_singleQuotedFrom false s
  exact readFrom_single _ [] hs (by simp; omega) hrest

/-! ### Double quotation marks -/

/-- A character that is no space is not read as white space. -/
theorem ends_doubleQuotedChar (hc : c ≠ ' ') (rest : List Char) :
    Folding.Ends (doubleQuotedChar c ++ rest) := by
  unfold doubleQuotedChar
  split
  · exact Folding.ends_cons rfl rfl
  next h =>
    simp only [Bool.or_eq_true, Bool.not_eq_true', decide_eq_true_eq, not_or,
      Bool.not_eq_false] at h
    exact Folding.ends_cons (isBlank_of_ne_space h.1.1.1 hc) (by simpa using h.1.1.2)

/-- What stands after a backslash is no line break. -/
theorem atLineEnd_escapeOf (c : Char) (rest : List Char) :
    atLineEnd (escapeOf c ++ rest) = false := by
  unfold escapeOf
  split <;> try rfl
  split
  · rfl
  split <;> rfl

/-- An escape is read as its character. -/
theorem readFrom_escape (c : Char) (rest : List Char) (m : Mark) :
    ∃ m', readFrom '"' (fuel + 1) done ⟨'\\' :: escapeOf c ++ rest, m⟩
      = readFrom '"' fuel (c :: done) ⟨rest, m'⟩ := by
  obtain ⟨m', hescape⟩ := readEscape_escapeOf c rest (m.advance 1)
  have hquote : '\\' ≠ '"' := by decide
  exact ⟨m', by simp [readFrom, isBlank, isBreak, atLineEnd_escapeOf, hescape]⟩

/-- A character that is no space is read back. -/
theorem readFrom_doubleQuotedChar (fuel : Nat) (done : List Char) (hc : c ≠ ' ')
    (rest : List Char) (m : Mark) :
    ∃ m', readFrom '"' (fuel + 1) done ⟨doubleQuotedChar c ++ rest, m⟩
      = readFrom '"' fuel (c :: done) ⟨rest, m'⟩ := by
  have hends := ends_doubleQuotedChar hc rest
  -- The character is escaped, or written as it is.
  unfold doubleQuotedChar at hends ⊢
  split at hends
  next h =>
    rw [if_pos h]
    exact readFrom_escape c rest m
  next h =>
    rw [if_neg h]
    simp only [Bool.or_eq_true, decide_eq_true_eq, not_or] at h
    exact ⟨m.advance 1, readFrom_cons h.1.2 hends fun hbackslash => absurd hbackslash h.2⟩

/-- A text between double quotation marks, of which a part is read. -/
theorem readFrom_double (fuel : Nat) (done : List Char) (hfuel : s.length < fuel)
    (rest : List Char) :
    ∃ m', readFrom '"' fuel done ⟨s.flatMap doubleQuotedChar ++ '"' :: rest, m⟩
      = .ok (done.reverse ++ s, ⟨rest, m'⟩) := by
  -- By induction on the steps; only spaces are read in rows, as breaks are escaped.
  induction fuel generalizing s done m with
  | zero => omega
  | succ fuel ih =>
    cases s with
    | nil => exact ⟨m.advance 1, by simp [readFrom]⟩
    | cons c s =>
      rw [List.length_cons] at hfuel
      by_cases hspace : c = ' '
      · subst hspace
        obtain ⟨row, s, rfl, hrow, hhead⟩ := exists_row (· = ' ') s
        simp only [decide_eq_true_eq, decide_eq_false_iff_not] at hrow hhead
        have hends : Folding.Ends (s.flatMap doubleQuotedChar ++ '"' :: rest) := by
          cases s with
          | nil => exact Folding.ends_cons rfl rfl
          | cons d s =>
            rw [List.flatMap_cons, List.append_assoc]
            exact ends_doubleQuotedChar (hhead d rfl) _
        obtain ⟨m', hread⟩ := ih (s := s) ((' ' :: row).reverse ++ done)
          (m := m.advance (' ' :: row).length) (by simp only [List.length_append] at hfuel; omega)
        refine ⟨m', ?_⟩
        rw [← List.cons_append, List.flatMap_append,
          flatMap_spaces (List.forall_mem_cons.mpr ⟨rfl, hrow⟩), List.append_assoc,
          List.cons_append, readFrom_spaces (by decide) hrow hends, hread]
        simp
      · obtain ⟨m₁, hstep⟩ := readFrom_doubleQuotedChar fuel done hspace
          (s.flatMap doubleQuotedChar ++ '"' :: rest) m
        obtain ⟨m', hread⟩ := ih (s := s) (c :: done) (m := m₁)
          (Nat.lt_of_succ_lt_succ hfuel)
        refine ⟨m', ?_⟩
        rw [List.flatMap_cons, List.append_assoc, hstep, hread]
        simp

/-- A text between double quotation marks is read. -/
theorem read_double (s rest : List Char) (m : Mark) :
    ∃ m', read '"' ⟨'"' :: (s.flatMap doubleQuotedChar ++ '"' :: rest), m⟩
      = .ok (s, ⟨rest, m'⟩) := by
  have hlength : s.length ≤ (s.flatMap doubleQuotedChar).length := length_le_doubleQuoted s
  exact readFrom_double _ []
    (by simp only [List.length_cons, List.length_append]; omega) rest

end Promotion.Yaml.QuotedScalar
