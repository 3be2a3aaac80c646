import Promotion.Proofs.Manifest.Document
import Promotion.Proofs.Version.Obtained
import Promotion.Version.Document

/-!
# `Promotion.Proofs.Version.Text`: the text of a version determines it

A version comes from a text that was read, or from a bare number in a document,
which fills the fields without reading anything. Both ways leave a version whose
fields are those of its own text (`ToldByText`):

* `cut_eq_some_iff`: a text is divided at the first separator.
* `Reads`, `reads_of_ofTrimmed`: what a text that is read consists of.
* `toldByText_of_parse`: its version is told by it.
* `obtained_of_ofDocument`: a version in a document is one that can be read, and
  so is every version of a manifest (`Manifest.obtained_of_read`).
* `text_determines_version`: both ways together, and what follows for versions
  that are shown, written and compared.
-/

set_option autoImplicit false

namespace Promotion

namespace Text

/-- A text is divided at the first separator, which is in neither part of what
stands in front of it. -/
theorem cut_eq_some_iff {sep : Char} {s front back : List Char} :
    cut sep s = some (front, back) ↔ sep ∉ front ∧ s = front ++ sep :: back := by
  induction s generalizing front with
  | nil => simp [cut]
  | cons first rest ih =>
    by_cases hfirst : first = sep
    · rw [cut, if_pos hfirst, hfirst]
      constructor
      · rintro ⟨⟩
        exact ⟨List.not_mem_nil, rfl⟩
      · rintro ⟨hfront, heq⟩
        -- The separator at the front would be in a first part that is not empty.
        cases front with
        | nil =>
          cases heq
          rfl
        | cons other front =>
          cases heq
          exact absurd List.mem_cons_self hfront
    · rw [cut, if_neg hfirst, Option.map_eq_some_iff]
      constructor
      · rintro ⟨⟨front, back⟩, hcut, heq⟩
        cases heq
        obtain ⟨hfront, rfl⟩ := ih.mp hcut
        exact ⟨by simp [Ne.symm hfirst, hfront], rfl⟩
      · rintro ⟨hfront, heq⟩
        cases front with
        | nil =>
          cases heq
          exact absurd rfl hfirst
        | cons other front =>
          cases heq
          rw [List.mem_cons, not_or] at hfront
          exact ⟨(front, back), ih.mpr ⟨hfront.2, rfl⟩, rfl⟩

/-- Only a text without the separator is not cut. -/
theorem cut_eq_none_iff {sep : Char} {s : List Char} : cut sep s = none ↔ sep ∉ s := by
  refine ⟨fun h hmem => ?_, cut_eq_none⟩
  obtain ⟨front, back, heq, hfront⟩ := List.eq_append_cons_of_mem hmem
  rw [cut_eq_some_iff.mpr ⟨hfront, heq⟩] at h
  cases h

/-- Every text has a field. -/
theorem fieldsOf_ne_nil (sep : Char) (s : List Char) : fieldsOf sep s ≠ [] := by
  cases s with
  | nil => exact List.cons_ne_nil _ _
  | cons first rest =>
    rw [fieldsOf]
    split
    · exact List.cons_ne_nil _ _
    · split <;> exact List.cons_ne_nil _ _

end Text

namespace Version

/-! ### What is read -/

/-- There are as many numbers as fields. -/
theorem length_of_parseSegments {text : String} {fields : List (List Char)} {numbers : List Nat}
    (h : parseSegments text fields = .ok numbers) : numbers.length = fields.length := by
  -- By induction on the fields, each of which becomes one number.
  induction fields generalizing numbers with
  | nil =>
    cases h
    rfl
  | cons field fields ih =>
    rw [parseSegments] at h
    split at h
    · cases h
    · split at h
      · cases h
      next hrest =>
        cases h
        rw [List.length_cons, List.length_cons, ih hrest]

/-- A text of a version: dot-separated numbers, and behind the first hyphen, if
there is one, the qualifier. -/
inductive Reads : List Char → Version → Prop
  | plain {s : List Char} {segments : List Nat} (hne : s ≠ []) (hcut : '-' ∉ s)
    (hsegments : parseSegments (String.ofList s) (Text.fieldsOf '.' s) = .ok segments) :
    Reads s ⟨segments, none, String.ofList s⟩
  | qualified {numbers qualifier : List Char} {segments : List Nat} (hne : qualifier ≠ [])
    (hcut : '-' ∉ numbers)
    (hsegments : parseSegments (String.ofList (numbers ++ '-' :: qualifier))
      (Text.fieldsOf '.' numbers) = .ok segments) :
    Reads (numbers ++ '-' :: qualifier)
      ⟨segments, some (String.ofList qualifier), String.ofList (numbers ++ '-' :: qualifier)⟩

/-- A version that was read from a trimmed text is one the text reads as. -/
theorem reads_of_ofTrimmed {s : List Char} {v : Version} (h : ofTrimmed s = .ok v) :
    Reads s v := by
  simp only [ofTrimmed] at h
  split at h
  · cases h
  · cases h
  next numbers qualifier hqualifier _ hcut =>
    split at h
    · cases h
    next segments hsegments =>
      cases h
      obtain ⟨hnumbers, rfl⟩ := Text.cut_eq_some_iff.mp hcut
      exact .qualified hqualifier hnumbers hsegments
  -- Without a hyphen, all of the text is numbers.
  next hne hcut =>
    split at h
    · cases h
    next hsegments =>
      cases h
      exact .plain hne (Text.cut_eq_none_iff.mp hcut) hsegments

/-! ### What the text tells -/

/-- A version whose fields are those of its text: the text is read as the
version, has no white space around it, and has the qualifier behind its first
hyphen. -/
structure ToldByText (v : Version) : Prop where
  parse_text : parse v.text = .ok v
  text_ne_empty : v.text ≠ ""
  head : ∀ c ∈ v.text.toList.head?, Text.isBlank c = false
  last : ∀ c ∈ v.text.toList.getLast?, Text.isBlank c = false
  segments_ne_nil : v.segments ≠ []
  qualifier_ne_empty : v.qualifier ≠ some ""
  qualifier_iff : ∀ qualifier, v.qualifier = some qualifier ↔
    ∃ numbers, '-' ∉ numbers ∧ v.text.toList = numbers ++ '-' :: qualifier.toList

/-- A text is read in one way only, so its qualifier is what stands behind the
first hyphen. -/
theorem Reads.qualifier_iff {s : List Char} {v : Version} (h : Reads s v) (qualifier : String) :
    v.qualifier = some qualifier ↔
      ∃ numbers, '-' ∉ numbers ∧ s = numbers ++ '-' :: qualifier.toList := by
  cases h with
  | plain hne hcut hsegments =>
    constructor
    · rintro ⟨⟩
    · rintro ⟨numbers, -, rfl⟩
      exact absurd (List.mem_append_right numbers List.mem_cons_self) hcut
  | @qualified numbers rest segments hne hcut hsegments =>
    constructor
    · rintro ⟨⟩
      exact ⟨numbers, hcut, by rw [String.toList_ofList]⟩
    · rintro ⟨numbers', hcut', heq⟩
      -- Both divide the text at its first hyphen.
      have hthis : Text.cut '-' (numbers ++ '-' :: rest) = some (numbers, rest) :=
        Text.cut_eq_some_iff.mpr ⟨hcut, rfl⟩
      have hother : Text.cut '-' (numbers ++ '-' :: rest) = some (numbers', qualifier.toList) :=
        Text.cut_eq_some_iff.mpr ⟨hcut', heq⟩
      obtain ⟨-, hrest⟩ := Prod.mk.inj (Option.some.inj (hthis.symm.trans hother))
      show some (String.ofList rest) = some qualifier
      rw [hrest, String.ofList_toList]

/-- A text that reads as a version is not empty. -/
theorem Reads.ne_nil {s : List Char} {v : Version} (h : Reads s v) : s ≠ [] := by
  cases h with
  | plain hne => exact hne
  | qualified => simp

/-- A version that a text reads as has a number. -/
theorem Reads.segments_ne_nil {s : List Char} {v : Version} (h : Reads s v) :
    v.segments ≠ [] := by
  -- There are as many numbers as fields, and there is a field.
  have hlength {text : String} {numbers : List Char} {segments : List Nat}
      (hsegments : parseSegments text (Text.fieldsOf '.' numbers) = .ok segments) :
      segments ≠ [] := by
    intro hnil
    have hfields := length_of_parseSegments hsegments
    rw [hnil] at hfields
    exact Text.fieldsOf_ne_nil '.' numbers (List.length_eq_zero_iff.mp hfields.symm)
  cases h with
  | plain _ _ hsegments => exact hlength hsegments
  | qualified _ _ hsegments => exact hlength hsegments

/-- A version that a text reads as has no empty qualifier. -/
theorem Reads.qualifier_ne_empty {s : List Char} {v : Version} (h : Reads s v) :
    v.qualifier ≠ some "" := by
  cases h with
  | plain => nofun
  | qualified hne =>
    intro heq
    exact hne (String.ofList_injective (Option.some.inj heq))

/-- All of a version that was parsed is told by its text. -/
theorem toldByText_of_parse {s : String} {v : Version} (h : parse s = .ok v) : ToldByText v := by
  have hreads : Reads (Text.trim s.toList) v := reads_of_ofTrimmed h
  -- The version keeps its text trimmed.
  have htext : v.text.toList = Text.trim s.toList := by
    rw [text_of_ofTrimmed h, String.toList_ofList]
  exact {
    parse_text := parse_text (.parsed h)
    text_ne_empty := fun hempty => hreads.ne_nil (by rw [← htext, hempty]; rfl)
    head := htext ▸ Text.isBlank_head?_trim s.toList
    last := htext ▸ Text.isBlank_getLast?_trim s.toList
    segments_ne_nil := hreads.segments_ne_nil
    qualifier_ne_empty := hreads.qualifier_ne_empty
    qualifier_iff := htext ▸ hreads.qualifier_iff }

/-- A bare number is the version that its digits are, so every version is one
that was read. -/
theorem toldByText_of_obtained {v : Version} (h : Obtained v) : ToldByText v := by
  cases h with
  | parsed h => exact toldByText_of_parse h
  | number h => exact toldByText_of_parse (parse_ofNat h)

/-! ### Versions in documents -/

/-- A version that was read from JSON is one the program can have. -/
theorem obtained_of_ofJson {s : List Char} {v : Version} (h : ofJson s = .ok v) : Obtained v := by
  unfold ofJson at h
  split at h
  · cases h
  next value hread =>
    split at h
    next hvalue =>
      cases h
      exact Manifest.obtained_of_ofValue (Json.loaded_of_read? hread) hvalue
    · cases h

/-- A version that was read from YAML is one the program can have. -/
theorem obtained_of_ofYaml {s : List Char} {v : Version} (h : ofYaml s = .ok v) : Obtained v := by
  unfold ofYaml at h
  split at h
  · cases h
  next document hdocument =>
    dsimp only at h
    split at h
    · cases h
    next value _ hvalue =>
      -- The value is the one of the document.
      have hread : Yaml.read s = .ok value := by
        rw [Yaml.read, hdocument]
        dsimp only
        rw [hvalue]
      split at h
      next hversion =>
        cases h
        exact Manifest.obtained_of_ofValue (Yaml.loaded_of_read hread) hversion
      · cases h
    · cases h

/-- A document holds no version but those that can be read from a text. -/
theorem obtained_of_ofDocument {format : Format} {text : String} {v : Version}
    (h : ofDocument format text = .ok v) : Obtained v := by
  cases format with
  | yaml => exact obtained_of_ofYaml h
  | json => exact obtained_of_ofJson h

/-- The version of a number in a document is that of the text of its digits. -/
theorem ofValue_digits (format : Format) {n : Nat} (hn : n < segmentLimit) :
    ofValue format (.int n) = .ok (ofNat n) ∧
      ofValue format (.text (String.ofList (Nat.toDigits 10 n))) = .ok (ofNat n) := by
  constructor
  · have hpositive : ¬ (n : Int) < 0 := by omega
    rw [ofValue, if_neg hpositive]
    rfl
  · rw [ofValue, parse_ofNat hn]

/-- The text of a version determines it.

* Every version that the program can hold is told by its text.
* The versions that documents and manifests give are such versions, and so are
  those that are read.
* A number in a document is the version that the text of its digits is.
* Two versions with the same text are the same, so whatever is asked of a version
  can be asked of its text. -/
theorem text_determines_version :
    (∀ v, Obtained v → ToldByText v) ∧
    (∀ s v, parse s = .ok v → Obtained v) ∧
    (∀ format text v, ofDocument format text = .ok v → Obtained v) ∧
    (∀ format text packages, Manifest.read format text = .ok packages →
      ∀ p ∈ packages, p.version.Obtained) ∧
    (∀ format n, n < segmentLimit →
      ofValue format (.int n) = .ok (ofNat n) ∧
      ofValue format (.text (String.ofList (Nat.toDigits 10 n))) = .ok (ofNat n)) ∧
    (∀ format v, Obtained v → ofValue format (.text v.text) = .ok v) ∧
    ∀ v w, Obtained v → Obtained w → v.text = w.text → v = w := by
  refine ⟨fun v => toldByText_of_obtained, fun s v => .parsed, fun format text v =>
    obtained_of_ofDocument, fun format text packages => Manifest.obtained_of_read,
    fun format n => ofValue_digits format, ?_, ?_⟩
  · intro format v hv
    rw [ofValue, parse_text hv]
  · -- One text is read as one version.
    intro v w hv hw htext
    have hread := parse_text hv
    rw [htext, parse_text hw] at hread
    exact (Except.ok.inj hread).symm

/-- The version `1.10-SNAPSHOT`, and the number `12` as a version. -/
theorem text_determines_version_snapshot :
    parse " 1.10-SNAPSHOT\n" = .ok ⟨[1, 10], some "SNAPSHOT", "1.10-SNAPSHOT"⟩ ∧
    ToldByText ⟨[1, 10], some "SNAPSHOT", "1.10-SNAPSHOT"⟩ ∧
    12 < segmentLimit ∧
    ofValue .yaml (.int 12) = ofValue .yaml (.text "12") := by
  have hparse : parse " 1.10-SNAPSHOT\n" = .ok ⟨[1, 10], some "SNAPSHOT", "1.10-SNAPSHOT"⟩ := by
    decide
  have hlimit : 12 < segmentLimit := by decide
  obtain ⟨htold, hobtained, -, -, hnumber, -, -⟩ := text_determines_version
  obtain ⟨hint, htext⟩ := hnumber .yaml 12 hlimit
  exact ⟨hparse, htold _ (hobtained _ _ hparse), hlimit, hint.trans htext.symm⟩

end Version

end Promotion
