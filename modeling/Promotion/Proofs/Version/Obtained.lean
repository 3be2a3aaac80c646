import Mathlib.Data.List.DropRight
import Promotion.Version.Basic

/-!
# `Promotion.Proofs.Version.Obtained`: a version is read back from its text

The text of a version is what was read, without the white space around it, or
the digits of a bare number. Reading it once more gives the same version, with
its numbers, its qualifier and its text.

* `trim_trim`: a trimmed text has no white space left to remove.
* `Version.parse_text`: every version the program holds is read back.
-/

set_option autoImplicit false

namespace Promotion

namespace Text

/-! ### Trimming -/

/-- A text whose ends are not white space is left as it is. -/
theorem trim_eq_self {s : List Char} (hhead : ∀ c ∈ s.head?, isBlank c = false)
    (hlast : ∀ c ∈ s.getLast?, isBlank c = false) : trim s = s := by
  have hdrop {t : List Char} (ht : ∀ c ∈ t.head?, isBlank c = false) :
      t.dropWhile isBlank = t := by
    cases t with
    | nil => rfl
    | cons c t => rw [List.dropWhile_cons_of_neg]; simp [ht c rfl]
  rw [trim, trimLeft, hdrop hhead, trimRight, hdrop (by rwa [List.head?_reverse]),
    List.reverse_reverse]

/-- What is left after white space was dropped does not begin with any. -/
theorem isBlank_head?_dropWhile (s : List Char) :
    ∀ c ∈ (s.dropWhile isBlank).head?, isBlank c = false :=
  fun c hc => by simpa [Option.mem_def.mp hc] using List.head?_dropWhile_not isBlank s

/-- A trimmed text does not start with a blank. -/
theorem isBlank_head?_trim (s : List Char) : ∀ c ∈ (trim s).head?, isBlank c = false := by
  -- What is cut from the end leaves the first character alone.
  intro c hc
  have hprefix : trim s <+: trimLeft s := List.rdropWhile_prefix isBlank (trimLeft s)
  apply isBlank_head?_dropWhile s c
  obtain ⟨t, ht⟩ := hprefix
  rw [Option.mem_def, show s.dropWhile isBlank = trimLeft s from rfl, ← ht, List.head?_append,
    Option.mem_def.mp hc]
  rfl

/-- A trimmed text does not end with a blank. -/
theorem isBlank_getLast?_trim (s : List Char) : ∀ c ∈ (trim s).getLast?, isBlank c = false := by
  rw [trim, trimRight, List.getLast?_reverse]
  exact isBlank_head?_dropWhile _

/-- Trimming a trimmed text changes nothing. -/
theorem trim_trim (s : List Char) : trim (trim s) = trim s :=
  trim_eq_self (isBlank_head?_trim s) (isBlank_getLast?_trim s)

/-! ### Splitting -/

/-- A text without the separator is not cut. -/
theorem cut_eq_none {sep : Char} {s : List Char} (h : sep ∉ s) : cut sep s = none := by
  induction s with
  | nil => rfl
  | cons c s ih =>
    rw [List.mem_cons, not_or] at h
    rw [cut, if_neg (Ne.symm h.1), ih h.2]
    rfl

/-- A text without the separator is one field. -/
theorem fieldsOf_eq_singleton {sep : Char} {s : List Char} (h : sep ∉ s) :
    fieldsOf sep s = [s] := by
  induction s with
  | nil => rfl
  | cons c s ih =>
    rw [List.mem_cons, not_or] at h
    rw [fieldsOf, if_neg (Ne.symm h.1), ih h.2]

end Text

namespace Version

/-- A version that the program can hold: one that was read from a text, or the
one that a bare number denotes. -/
inductive Obtained : Version → Prop
  | parsed {s : String} {v : Version} (h : parse s = .ok v) : Obtained v
  | number {n : Nat} (h : n < segmentLimit) : Obtained (ofNat n)

/-- A version keeps the text that it was read from. -/
theorem text_of_ofTrimmed {s : List Char} {v : Version} (h : ofTrimmed s = .ok v) :
    v.text = String.ofList s := by
  -- With and without a qualifier, the version keeps the text it was read from.
  simp only [ofTrimmed] at h
  split at h
  · cases h
  · cases h
  · split at h
    · cases h
    · cases h
      rfl
  · split at h
    · cases h
    · cases h
      rfl

/-- The digits of a number below the bound are a segment. -/
theorem parseSegment_toDigits (text : String) {n : Nat} (hn : n < segmentLimit) :
    parseSegment text (Nat.toDigits 10 n) = .ok n := by
  have hvalue : digitsValue (Nat.toDigits 10 n) = n := Nat.ofDigitChars_ten_toDigits
  have hdigits : (Nat.toDigits 10 n).all Char.isDigit = true :=
    List.all_eq_true.mpr fun _ hc => Nat.isDigit_of_mem_toDigits (by decide) (by decide) hc
  have hnonempty : (Nat.toDigits 10 n).isEmpty = false := by simp
  simp [parseSegment, hvalue, hdigits, hnonempty, hn]

/-- A bare number is read back from its digits. -/
theorem parse_ofNat {n : Nat} (hn : n < segmentLimit) :
    parse (String.ofList (Nat.toDigits 10 n)) = .ok (ofNat n) := by
  have hdigit {c : Char} (hc : c ∈ Nat.toDigits 10 n) : c.isDigit = true :=
    Nat.isDigit_of_mem_toDigits (by decide) (by decide) hc
  -- Digits are neither blanks nor separators.
  have hblank {c : Char} (hc : c ∈ Nat.toDigits 10 n) : Text.isBlank c = false := by
    have hrange : 48 ≤ c.toNat ∧ c.toNat ≤ 57 := by
      simpa [Char.isDigit, UInt32.le_iff_toNat_le] using hdigit hc
    simp [Text.isBlank]
    omega
  have htrim : Text.trim (Nat.toDigits 10 n) = Nat.toDigits 10 n :=
    Text.trim_eq_self (fun c hc => hblank (List.mem_of_mem_head? hc))
      fun c hc => hblank (List.mem_of_mem_getLast? hc)
  have hcut : Text.cut '-' (Nat.toDigits 10 n) = none :=
    Text.cut_eq_none fun hc => absurd (hdigit hc) (by decide)
  have hfields : Text.fieldsOf '.' (Nat.toDigits 10 n) = [Nat.toDigits 10 n] :=
    Text.fieldsOf_eq_singleton fun hc => absurd (hdigit hc) (by decide)
  rw [parse, String.toList_ofList, htrim, ofTrimmed.eq_def, hcut]
  simp [hfields, parseSegments, parseSegment_toDigits _ hn, ofNat]

/-- A version is read back from its text. -/
theorem parse_text {v : Version} (h : Obtained v) : parse v.text = .ok v := by
  cases h with
  | @parsed s v h =>
    have htext := text_of_ofTrimmed h
    rw [htext, parse, String.toList_ofList, Text.trim_trim]
    exact h
  | number h => exact parse_ofNat h

end Version

end Promotion
