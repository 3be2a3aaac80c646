import Promotion.Proofs.Version.Text

/-!
# `Promotion.Proofs.Version.Grammar`: which texts are versions

A text without the white space at its ends is a version when it is spelled like
one (`Spells`): numbers of decimal digits with full stops between them, and
behind the first hyphen, if there is one, a qualifier. For every other text
there is one part to blame (`Blames`): nothing at all, an empty qualifier, or
the leftmost piece that is no number.

* `isTrimmed_iff`: what is left of a text without the white space at its ends.
* `parseSegments_eq_ok_iff`, `parseSegments_eq_error_iff`: the pieces between the
  full stops are all numbers, or the leftmost one that is none is blamed.
* `ofTrimmed_eq`: how a text is read that is divided at its first hyphen.
* `parse_decides_grammar`: the versions that are read are the ones that are
  spelled, and the errors blame what is wrong.
-/

set_option autoImplicit false

namespace Promotion

namespace Text

/-! ### White space at the ends -/

/-- `t` is `s` without the white space at its ends. -/
structure IsTrimmed (s t : List Char) : Prop where
  within : ∃ front back, s = front ++ t ++ back ∧ (∀ c ∈ front, isBlank c = true) ∧
    ∀ c ∈ back, isBlank c = true
  head : ∀ c ∈ t.head?, isBlank c = false
  last : ∀ c ∈ t.getLast?, isBlank c = false

/-- Trimming takes off the blanks at both ends, and nothing else. -/
theorem isTrimmed_trim (s : List Char) : IsTrimmed s (trim s) where
  within := by
    have hback : trimLeft s = trim s ++ ((trimLeft s).reverse.takeWhile isBlank).reverse := by
      rw [trim, trimRight, ← List.reverse_append, List.takeWhile_append_dropWhile,
        List.reverse_reverse]
    refine ⟨s.takeWhile isBlank, ((trimLeft s).reverse.takeWhile isBlank).reverse, ?_,
      fun c hc => List.mem_takeWhile_imp hc, fun c hc => List.mem_takeWhile_imp (List.mem_reverse.mp hc)⟩
    rw [List.append_assoc, ← hback, trimLeft, List.takeWhile_append_dropWhile]
  head := isBlank_head?_trim s
  last := isBlank_getLast?_trim s

/-- Blanks in front do not matter to what is left after them. -/
theorem trimLeft_append {front : List Char} (hfront : ∀ c ∈ front, isBlank c = true)
    (s : List Char) : trimLeft (front ++ s) = trimLeft s :=
  List.dropWhile_append_of_pos hfront

/-- Blanks behind do not matter to what is left before them. -/
theorem trimRight_append {back : List Char} (hback : ∀ c ∈ back, isBlank c = true)
    (s : List Char) : trimRight (s ++ back) = trimRight s := by
  rw [trimRight, List.reverse_append, List.dropWhile_append_of_pos fun c hc =>
    hback c (List.mem_reverse.mp hc), trimRight]

/-- There is one way to take the white space from the ends of a text. -/
theorem isTrimmed_iff {s t : List Char} : IsTrimmed s t ↔ t = trim s := by
  refine ⟨fun h => ?_, fun h => h ▸ isTrimmed_trim s⟩
  obtain ⟨⟨front, back, rfl, hfront, hback⟩, hhead, hlast⟩ := h
  -- A text without blanks at its ends is trimmed already.
  have hself : trim t = t := trim_eq_self hhead hlast
  rw [trim, List.append_assoc, trimLeft_append hfront]
  cases t with
  | nil =>
    have hnone : trimLeft ([] ++ back) = [] := List.dropWhile_eq_nil_iff.mpr hback
    rw [hnone]
    rfl
  | cons c t =>
    have hleft : trimLeft (c :: t ++ back) = c :: t ++ back :=
      List.dropWhile_cons_of_neg (by simp [hhead c rfl])
    have hleft' : trimLeft (c :: t) = c :: t :=
      List.dropWhile_cons_of_neg (by simp [hhead c rfl])
    rw [hleft, trimRight_append hback]
    rw [trim, hleft'] at hself
    exact hself.symm

/-! ### Pieces -/

/-- The fields of a text are what lies between the separators. -/
theorem fieldsOf_eq_splitOn (sep : Char) (s : List Char) : fieldsOf sep s = s.splitOn sep := by
  induction s with
  | nil => rfl
  | cons c s ih =>
    rw [List.splitOn, List.splitOnP_cons_eq_if_modifyHead, ← List.splitOn, ← ih, fieldsOf]
    by_cases hc : c = sep
    · simp [hc]
    · obtain ⟨field, fields, hfields⟩ := List.exists_cons_of_ne_nil (fieldsOf_ne_nil sep s)
      simp [hc, hfields]

end Text

namespace Version

/-! ### Spelling -/

/-- The value of a row of decimal digits. -/
def valueOf (piece : List Char) : Nat := Nat.ofDigitChars 10 piece 0

/-- A number of a version: decimal digits, with any number of zeros in front, of a
value that 64 bits can hold. -/
structure IsNumber (piece : List Char) : Prop where
  ne_nil : piece ≠ []
  digits : ∀ c ∈ piece, c.isDigit = true
  lt : valueOf piece < Nat.pow 2 64

/-- A text divided at its first hyphen: what stands in front of it, and what
stands behind it, if there is one. -/
inductive Divides : List Char → List Char → Option (List Char) → Prop
  | plain {t : List Char} (h : '-' ∉ t) : Divides t t none
  | hyphen {numbers : List Char} (qualifier : List Char) (h : '-' ∉ numbers) :
    Divides (numbers ++ '-' :: qualifier) numbers (some qualifier)

/-- A text that spells a version. -/
inductive Spells : List Char → Version → Prop
  | intro {t numbers : List Char} {qualifier : Option (List Char)} (hne : t ≠ [])
    (hdivides : Divides t numbers qualifier) (hqualifier : qualifier ≠ some [])
    (hnumbers : ∀ piece ∈ numbers.splitOn '.', IsNumber piece) :
    Spells t ⟨(numbers.splitOn '.').map valueOf, qualifier.map String.ofList, String.ofList t⟩

/-- What is wrong with a piece of a text that is no number. -/
inductive Fault (t : List Char) : List Char → VersionError → Prop
  | empty : Fault t [] (.emptySegment (String.ofList t))
  | nonNumeric {piece : List Char} {c : Char} (hc : c ∈ piece) (hdigit : c.isDigit = false) :
    Fault t piece (.nonNumericSegment (String.ofList t) (String.ofList piece))
  | overflow {piece : List Char} (hne : piece ≠ []) (hdigits : ∀ c ∈ piece, c.isDigit = true)
    (hlarge : Nat.pow 2 64 ≤ valueOf piece) :
    Fault t piece (.segmentOverflow (String.ofList t) (String.ofList piece))

/-- What is wrong with a text that spells no version: there is nothing, or nothing
behind its first hyphen, or else its leftmost piece that is no number. -/
inductive Blames : List Char → VersionError → Prop
  | empty : Blames [] .empty
  | qualifier {t numbers : List Char} (hdivides : Divides t numbers (some [])) :
    Blames t (.emptyQualifier (String.ofList t))
  | segment {t numbers bad : List Char} {qualifier : Option (List Char)}
    {good rest : List (List Char)} {e : VersionError} (hne : t ≠ [])
    (hdivides : Divides t numbers qualifier) (hqualifier : qualifier ≠ some [])
    (hpieces : numbers.splitOn '.' = good ++ bad :: rest)
    (hgood : ∀ piece ∈ good, IsNumber piece) (hbad : Fault t bad e) : Blames t e

/-- Every text is numbers alone, or numbers, a hyphen and a qualifier. -/
theorem exists_divides (t : List Char) : ∃ numbers qualifier, Divides t numbers qualifier := by
  cases hcut : Text.cut '-' t with
  | none => exact ⟨t, none, .plain (Text.cut_eq_none_iff.mp hcut)⟩
  | some parts =>
    obtain ⟨numbers, qualifier⟩ := parts
    obtain ⟨hnumbers, rfl⟩ := Text.cut_eq_some_iff.mp hcut
    exact ⟨numbers, some qualifier, .hyphen qualifier hnumbers⟩

/-- A text is divided as it is cut at its first hyphen. -/
theorem Divides.cut_eq {t numbers : List Char} {qualifier : Option (List Char)}
    (h : Divides t numbers qualifier) :
    Text.cut '-' t = qualifier.map fun qualifier => (numbers, qualifier) := by
  cases h with
  | plain h => exact Text.cut_eq_none h
  | hyphen qualifier h => exact Text.cut_eq_some_iff.mpr ⟨h, rfl⟩

/-! ### Pieces are read -/

/-- A piece is read as its value when it is a number that fits. -/
theorem parseSegment_eq_ok_iff {t piece : List Char} {n : Nat} :
    parseSegment (String.ofList t) piece = .ok n ↔ IsNumber piece ∧ n = valueOf piece := by
  have hvalue : digitsValue piece = valueOf piece := rfl
  -- The three tests are those of a number: it is not empty, has digits only, and is below the
  -- limit.
  unfold parseSegment
  split
  next hnil =>
    have hnumber : ¬ IsNumber piece := fun h => h.ne_nil (List.isEmpty_iff.mp hnil)
    simp [hnumber]
  split
  next hnil hdigits =>
    have hnumber : ¬ IsNumber piece := fun h => by simp [List.all_eq_true.mpr h.digits] at hdigits
    simp [hnumber]
  split
  next hlarge =>
    have hnumber : ¬ IsNumber piece := fun h => Nat.not_lt_of_le hlarge h.lt
    simp [hnumber]
  next hnil hdigits hsmall =>
    have hnumber : IsNumber piece :=
      ⟨by simpa using hnil, by simpa using hdigits, Nat.lt_of_not_le hsmall⟩
    simp [hnumber, hvalue, eq_comm]

/-- A piece is refused for the first of its faults. -/
theorem parseSegment_eq_error_iff {t piece : List Char} {e : VersionError} :
    parseSegment (String.ofList t) piece = .error e ↔ Fault t piece e := by
  -- The faults exclude each other in the order of the tests.
  constructor
  · intro h
    unfold parseSegment at h
    split at h
    next hnil =>
      cases h
      rw [List.isEmpty_iff.mp hnil]
      exact .empty
    split at h
    next hdigits =>
      cases h
      obtain ⟨c, hc, hdigit⟩ : ∃ c ∈ piece, c.isDigit = false := by simpa using hdigits
      exact .nonNumeric hc hdigit
    split at h
    next hnil hdigits hlarge =>
      cases h
      exact .overflow (by simpa using hnil) (by simpa using hdigits) hlarge
    · cases h
  · intro h
    cases h with
    | empty => rfl
    | nonNumeric hc hdigit =>
      have hall : piece.all Char.isDigit = false := List.all_eq_false.mpr ⟨_, hc, by simp [hdigit]⟩
      simp [parseSegment, List.ne_nil_of_mem hc, hall]
    | overflow hne hdigits hlarge =>
      have hvalue : segmentLimit ≤ digitsValue piece := hlarge
      simp [parseSegment, hne, List.all_eq_true.mpr hdigits, hvalue]

/-- The pieces are read when all of them are numbers. -/
theorem parseSegments_eq_ok_iff {t : List Char} {pieces : List (List Char)} {numbers : List Nat} :
    parseSegments (String.ofList t) pieces = .ok numbers ↔
      (∀ piece ∈ pieces, IsNumber piece) ∧ numbers = pieces.map valueOf := by
  -- By induction on the pieces: all of them have to be numbers.
  induction pieces generalizing numbers with
  | nil => simp [parseSegments, eq_comm]
  | cons piece pieces ih =>
    rw [List.forall_mem_cons, List.map_cons, parseSegments]
    split
    next e herror =>
      have hnumber : ¬ IsNumber piece := fun h => by
        rw [parseSegment_eq_ok_iff.mpr ⟨h, rfl⟩] at herror
        cases herror
      simp [hnumber]
    next n hn =>
      obtain ⟨hnumber, rfl⟩ := parseSegment_eq_ok_iff.mp hn
      split
      next e herror =>
        have hrest : ¬ ∀ piece ∈ pieces, IsNumber piece := fun h => by
          rw [ih.mpr ⟨h, rfl⟩] at herror
          cases herror
        simp only [hrest, and_false, false_and, reduceCtorEq]
      next ns hns =>
        obtain ⟨hrest, rfl⟩ := ih.mp hns
        rw [Except.ok.injEq, eq_comm (b := numbers)]
        exact ⟨fun h => ⟨⟨hnumber, hrest⟩, h⟩, fun h => h.2⟩

/-- Otherwise the leftmost piece that is no number is to blame. -/
theorem parseSegments_eq_error_iff {t : List Char} {pieces : List (List Char)} {e : VersionError} :
    parseSegments (String.ofList t) pieces = .error e ↔
      ∃ good bad rest, pieces = good ++ bad :: rest ∧ (∀ piece ∈ good, IsNumber piece) ∧
        Fault t bad e := by
  -- By induction on the pieces: the first one that is no number is to blame.
  induction pieces with
  | nil => simp [parseSegments]
  | cons piece pieces ih =>
    rw [parseSegments]
    constructor
    · intro h
      split at h
      next herror =>
        cases h
        exact ⟨[], piece, pieces, rfl, List.forall_mem_nil _, parseSegment_eq_error_iff.mp herror⟩
      next hn =>
        split at h
        next herror =>
          cases h
          obtain ⟨good, bad, rest, rfl, hgood, hbad⟩ := ih.mp herror
          have hnumber := (parseSegment_eq_ok_iff.mp hn).1
          exact ⟨piece :: good, bad, rest, rfl, List.forall_mem_cons.mpr ⟨hnumber, hgood⟩, hbad⟩
        · cases h
    · rintro ⟨good, bad, rest, heq, hgood, hbad⟩
      cases good with
      | nil =>
        obtain ⟨rfl, rfl⟩ := List.cons.inj heq
        rw [parseSegment_eq_error_iff.mpr hbad]
      | cons first good =>
        obtain ⟨rfl, rfl⟩ := List.cons.inj heq
        rw [List.forall_mem_cons] at hgood
        rw [parseSegment_eq_ok_iff.mpr ⟨hgood.1, rfl⟩]
        dsimp only
        rw [ih.mpr ⟨good, bad, rest, rfl, hgood.2, hbad⟩]

/-! ### Texts are read -/

/-- A text that ends in its first hyphen is not read any further. -/
theorem ofTrimmed_of_empty_qualifier {t numbers : List Char}
    (hdivides : Divides t numbers (some [])) :
    ofTrimmed t = .error (.emptyQualifier (String.ofList t)) := by
  have hcut := hdivides.cut_eq
  have hne : t ≠ [] := by
    rintro rfl
    cases hcut
  rw [Option.map_some] at hcut
  obtain ⟨c, s, rfl⟩ := List.exists_cons_of_ne_nil hne
  rw [ofTrimmed.eq_def, hcut]

/-- Any other text is read piece by piece in front of its first hyphen. -/
theorem ofTrimmed_eq {t numbers : List Char} {qualifier : Option (List Char)} (hne : t ≠ [])
    (hdivides : Divides t numbers qualifier) (hqualifier : qualifier ≠ some []) :
    ofTrimmed t = (parseSegments (String.ofList t) (numbers.splitOn '.')).map fun segments =>
      ⟨segments, qualifier.map String.ofList, String.ofList t⟩ := by
  -- The text is cut at the first hyphen, which is how it is divided.
  have hcut := hdivides.cut_eq
  cases qualifier with
  | none =>
    obtain rfl : numbers = t := by
      cases hdivides
      rfl
    obtain ⟨c, s, rfl⟩ := List.exists_cons_of_ne_nil hne
    rw [ofTrimmed.eq_def, hcut, ← Text.fieldsOf_eq_splitOn]
    dsimp only [Option.map_none]
    cases parseSegments (String.ofList (c :: s)) (Text.fieldsOf '.' (c :: s)) <;> rfl
  | some qualifier =>
    have hqualifier : qualifier ≠ [] := fun h => hqualifier (congrArg some h)
    obtain ⟨c, s, rfl⟩ := List.exists_cons_of_ne_nil hne
    obtain ⟨c', s', rfl⟩ := List.exists_cons_of_ne_nil hqualifier
    rw [ofTrimmed.eq_def, hcut, ← Text.fieldsOf_eq_splitOn]
    dsimp only [Option.map_some]
    cases parseSegments (String.ofList (c :: s)) (Text.fieldsOf '.' numbers) <;> rfl

/-- A trimmed text is a version when it spells it. -/
theorem ofTrimmed_eq_ok_iff {t : List Char} {v : Version} : ofTrimmed t = .ok v ↔ Spells t v := by
  constructor
  · intro h
    obtain ⟨numbers, qualifier, hdivides⟩ := exists_divides t
    have hne : t ≠ [] := by
      rintro rfl
      cases h
    -- A hyphen with nothing behind it is refused before any number is read.
    have hqualifier : qualifier ≠ some [] := by
      rintro rfl
      rw [ofTrimmed_of_empty_qualifier hdivides] at h
      cases h
    rw [ofTrimmed_eq hne hdivides hqualifier, map_eq_ok_iff] at h
    obtain ⟨segments, hsegments, rfl⟩ := h
    obtain ⟨hnumbers, rfl⟩ := parseSegments_eq_ok_iff.mp hsegments
    exact .intro hne hdivides hqualifier hnumbers
  · rintro ⟨hne, hdivides, hqualifier, hnumbers⟩
    rw [ofTrimmed_eq hne hdivides hqualifier, parseSegments_eq_ok_iff.mpr ⟨hnumbers, rfl⟩]
    rfl

/-- A trimmed text is refused for the fault that comes first. -/
theorem ofTrimmed_eq_error_iff {t : List Char} {e : VersionError} :
    ofTrimmed t = .error e ↔ Blames t e := by
  constructor
  · intro h
    by_cases hne : t = []
    · subst hne
      cases h
      exact .empty
    obtain ⟨numbers, qualifier, hdivides⟩ := exists_divides t
    by_cases hqualifier : qualifier = some []
    · subst hqualifier
      rw [ofTrimmed_of_empty_qualifier hdivides] at h
      cases h
      exact .qualifier hdivides
    rw [ofTrimmed_eq hne hdivides hqualifier] at h
    -- With a text and a qualifier in order, only a number can be at fault.
    cases hsegments : parseSegments (String.ofList t) (numbers.splitOn '.') with
    | ok segments =>
      rw [hsegments] at h
      cases h
    | error e' =>
      rw [hsegments] at h
      cases h
      obtain ⟨good, bad, rest, hpieces, hgood, hbad⟩ := parseSegments_eq_error_iff.mp hsegments
      exact .segment hne hdivides hqualifier hpieces hgood hbad
  · intro h
    cases h with
    | empty => rfl
    | qualifier hdivides => exact ofTrimmed_of_empty_qualifier hdivides
    | segment hne hdivides hqualifier hpieces hgood hbad =>
      rw [ofTrimmed_eq hne hdivides hqualifier,
        parseSegments_eq_error_iff.mpr ⟨_, _, _, hpieces, hgood, hbad⟩]
      rfl

/-- The texts that are read as versions are those that spell one, once the white
space at their ends is gone, and an error names what is wrong with the text that
is left. -/
theorem parse_decides_grammar (s : String) :
    ∃ t, (∀ t', Text.IsTrimmed s.toList t' ↔ t' = t) ∧
      (∀ v, parse s = .ok v ↔ Spells t v) ∧ ∀ e, parse s = .error e ↔ Blames t e :=
  ⟨Text.trim s.toList, fun _ => Text.isTrimmed_iff, fun _ => ofTrimmed_eq_ok_iff,
    fun _ => ofTrimmed_eq_error_iff⟩

end Version

end Promotion
