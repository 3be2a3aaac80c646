import Promotion.Proofs.Manifest.Nodes
import Promotion.Proofs.Version.Marked

/-!
# `Promotion.Proofs.Manifest.PlainVersion`: versions that are written without quotes

A scalar without quotes may be a number, a truth value or nothing to YAML. As a
version, only a text and a whole number that is not negative are taken; a whole
number is shown by its digits. Where it was written as those digits, nothing was
changed, and the scalar might as well stand in quotes. A whole number may also be
written with a sign or in another base (`+2`, `0x10`): as a text that is no version,
but without quotes it is one, and is shown as something else than what was written.

* `parse_of_ofValue`: without such a mark, the version is that of the text.
* `quotesAs_of_ofValue`: the scalar may stand in quotes.
* `plain_version_reads`: both, for every document and every entry of it.
-/

set_option autoImplicit false

namespace Promotion.Manifest

open Yaml (Document Info Marked Node Token documentOf tokensOf)
open Yaml.Load (scalarValue QuotesAs)

variable {d : Document} {info : Info} {t text : String} {packages : List Package}

/-- A document is read as packages when it has a value and the value lists them. -/
theorem read_yaml_eq_ok_iff (hd : documentOf text.toList = .ok d) :
    read .yaml text = .ok packages ↔
      ∃ v, d.value? = some v ∧ packagesOf .yaml v = .ok packages := by
  cases hv : d.value? with
  | none => simp [read, valueOfText, Yaml.read, hd, hv, Except.mapError]
  | some v =>
    have hvalue : valueOfText .yaml text = .ok v := by
      simp [valueOfText, Yaml.read, hd, hv, Except.mapError]
    simp [read_eq_ok_iff hvalue]

/-- A plain scalar that is read as a version: its text is one, or it is a whole number
that is not negative. -/
theorem version_of_ofValue {w : Value} {version : Version}
    (hw : scalarValue info t .plain = some w) (hversion : Version.ofValue .yaml w = .ok version) :
    (w = .text t ∧ Version.parse t = .ok version) ∨
      ∃ n : Nat, w = .int n ∧ Yaml.intOf? t = some (.fits n) ∧ version = .ofNat n := by
  -- A plain scalar is what its text means, or has a tag of its own; only a text and a whole
  -- number are versions.
  rcases Yaml.Load.means_of_scalarValue hw with hmeans | ⟨tag, w, rfl, -⟩
  · cases hmeans with
    | text =>
      rw [Version.ofValue] at hversion
      split at hversion
      next hparse =>
        cases hversion
        exact .inl ⟨rfl, hparse⟩
      next => cases hversion
    | @int n hn =>
      rw [Version.ofValue] at hversion
      split at hversion
      · cases hversion
      next hpositive =>
        cases hversion
        obtain ⟨m, rfl⟩ := Int.eq_ofNat_of_zero_le (Int.not_lt.mp hpositive)
        exact .inr ⟨m, rfl, hn, rfl⟩
    | _ => cases hversion
  · cases hversion

/-- Without a mark, the version is the one that the text of the scalar is, and the
scalar is its text or has it for its digits. -/
theorem parse_of_ofValue {w : Value} {version : Version} (hmarked : ¬ Marked t.toList)
    (hw : scalarValue info t .plain = some w) (hversion : Version.ofValue .yaml w = .ok version) :
    Version.parse t = .ok version ∧ (w = .text t ∨ ∃ n : Nat, w = .int n ∧
      n < Version.segmentLimit ∧ t = String.ofList (Nat.toDigits 10 n)) := by
  obtain ⟨rfl, hparse⟩ | ⟨n, rfl, hint, rfl⟩ := version_of_ofValue hw hversion
  · exact ⟨hparse, .inl rfl⟩
  · obtain ⟨m, hm, hlt, rfl⟩ := Yaml.eq_digits_of_intOf? hmarked hint
    cases hm
    exact ⟨Version.parse_ofNat hlt, .inr ⟨n, rfl, hlt, rfl⟩⟩

/-- The number that a scalar is. -/
def numberOf? (info : Info) (t : String) : Option Nat :=
  match scalarValue info t .plain with
  | some (.int n) => some n.toNat
  | _ => none

/-- A scalar that is read as a version may be put in quotes. -/
theorem quotesAs_of_ofValue {w : Value} {version : Version} (hmarked : ¬ Marked t.toList)
    (hw : scalarValue info t .plain = some w) (hversion : Version.ofValue .yaml w = .ok version) :
    QuotesAs info t (numberOf? info t) := by
  intro i' style v hi hstyle hv
  obtain rfl := Option.some.inj (hw.symm.trans hv)
  -- A value inside a tag is no version, so the scalar has none of its own.
  have htagged : ∀ tag u, w ≠ .tagged tag u := by
    rintro tag u rfl
    cases hversion
  rw [Yaml.Load.scalarValue_eq hi]
  rcases Yaml.Load.scalarValue_quoted hstyle htagged hw with hquoted | hquoted
  · exact ⟨w, hquoted, .refl w⟩
  · refine ⟨_, hquoted, ?_⟩
    obtain ⟨-, rfl | ⟨n, rfl, -, rfl⟩⟩ := parse_of_ofValue hmarked hw hversion
    · exact .refl _
    · exact .digits (by rw [numberOf?, hw]; rfl)

/-- What becomes of a version that is written as the plain scalar `t`. -/
structure ReadsPlainly (text : String) (d : Document) (i : Nat) (info : Info) (t : String) :
    Prop where
  /-- The version is the one that the text `t` is, and is shown as that text without
  the white space at its ends. With a sign or the mark of a base the text is no
  version; only where it is a whole number there is one, shown by its digits. -/
  version : ∀ packages, read .yaml text = .ok packages → ∃ p, packages[i]? = some p ∧
    ((¬ Marked t.toList ∧ Version.parse t = .ok p.version ∧
        p.version.text = String.ofList (Text.trim t.toList)) ∨
      (Marked t.toList ∧ (∃ e, Version.parse t = .error e) ∧
        ∃ n : Nat, scalarValue info t .plain = some (.int n) ∧ p.version = .ofNat n))
  /-- A scalar with any other value than its text or a whole number that is not
  negative makes the manifest fail. -/
  refused : scalarValue info t .plain ≠ some (.text t) →
    (∀ n : Nat, scalarValue info t .plain ≠ some (.int n)) → ∃ e, read .yaml text = .error e
  /-- In quotes, the scalar gives the same packages. A number may come to be the same
  key as a text, so the document must still have a value, for which it is enough that
  the keys of its mappings are texts. -/
  quoted : ¬ Marked t.toList → ∀ packages, read .yaml text = .ok packages →
    ∀ text' d', documentOf text'.toList = .ok d' → d.Requoted info t d' →
      scalarValue info t .plain = some (.text t) ∨ (∃ v', d'.value? = some v') ∨
        (∀ v, d.value? = some v → v.TextKeyed) →
      read .yaml text' = .ok packages

/-- What is no success is an error. -/
theorem exists_error_of_forall_ne {r : Except DocumentError (List Package)}
    (h : ∀ packages, r ≠ .ok packages) : ∃ e, r = .error e := by
  cases r with
  | error e => exact ⟨e, rfl⟩
  | ok packages => exact absurd rfl (h packages)

/-- Plain versions are read as they are written. In every YAML document and for every
entry of it whose version is a plain scalar, directly or through an alias, that
scalar is read like its text, unless a sign or the mark of a base makes it a whole
number that the text is not. -/
theorem plain_version_reads (text : String) (d : Document) (i : Nat) (info : Info) (t : String)
    (hd : documentOf text.toList = .ok d) (hwritten : WrittenPlainly d i info t) :
    ReadsPlainly text d i info t := by
  constructor
  case version =>
    intro packages hread
    obtain ⟨v, hv, hpackages⟩ := (read_yaml_eq_ok_iff hd).mp hread
    obtain ⟨p, w, hp, hw, hversion⟩ := hwritten.exists_version hv hpackages
    refine ⟨p, hp, ?_⟩
    -- A marked text does not parse, so it can only have been read as a number.
    by_cases hmarked : Marked t.toList
    · obtain ⟨e, herror⟩ := Version.exists_parse_eq_error_of_marked hmarked
      obtain ⟨-, hparse⟩ | ⟨n, rfl, -, hnumber⟩ := version_of_ofValue hw hversion
      · cases herror.symm.trans hparse
      · exact .inr ⟨hmarked, ⟨e, herror⟩, n, hw, hnumber⟩
    · have hparse := (parse_of_ofValue hmarked hw hversion).1
      exact .inl ⟨hmarked, hparse, Version.text_of_ofTrimmed hparse⟩
  case refused =>
    intro htext hnumber
    refine exists_error_of_forall_ne fun packages hread => ?_
    obtain ⟨v, hv, hpackages⟩ := (read_yaml_eq_ok_iff hd).mp hread
    obtain ⟨p, w, -, hw, hversion⟩ := hwritten.exists_version hv hpackages
    obtain ⟨rfl, -⟩ | ⟨n, rfl, -⟩ := version_of_ofValue hw hversion
    · exact htext hw
    · exact hnumber n hw
  case quoted =>
    intro hmarked packages hread text' d' hd' hrequoted hkept
    obtain ⟨v, hv, hpackages⟩ := (read_yaml_eq_ok_iff hd).mp hread
    obtain ⟨p, w, -, hw, hversion⟩ := hwritten.exists_version hv hpackages
    have hquotes := quotesAs_of_ofValue hmarked hw hversion
    obtain ⟨hspelt, hsome⟩ := Document.value?_of_requoted hrequoted hquotes hv
    -- Each of the three conditions gives the other document a value.
    obtain ⟨v', hv'⟩ : ∃ v', d'.value? = some v' := by
      rcases hkept with htext | hvalue | hkeys
      · exact hsome (.inl (by rw [numberOf?, htext]))
      · exact hvalue
      · exact hsome (.inr (hkeys v hv))
    refine (read_yaml_eq_ok_iff hd').mpr ⟨v', hv', ?_⟩
    refine packagesOf_of_spelt (fun n hn => ?_) (hspelt v' hv') hpackages
    -- The number of the scalar, if it is one, is below the limit of a version.
    obtain ⟨-, rfl | ⟨m, rfl, hlt, -⟩⟩ := parse_of_ofValue hmarked hw hversion
    · rw [numberOf?, hw] at hn
      cases hn
    · rw [numberOf?, hw] at hn
      cases hn
      exact hlt

/-! ### A manifest with one entry -/

/-- A scalar at a place, without a tag. -/
def scalarAt (index line column : Nat) (text : String) (style : Yaml.Style) : Node :=
  .scalar (Yaml.Reader.plainInfo ⟨index, line, column⟩) text style

/-- Where the version of the only entry stands. -/
def versionInfo : Info := Yaml.Reader.plainInfo ⟨23, 1, 11⟩

/-- The document of a manifest whose only entry, `foo`, has the version `t`. -/
def oneEntry (t : String) (style : Yaml.Style) : Document :=
  ⟨some (.sequence (Yaml.Reader.plainInfo ⟨0, 0, 0⟩) [.mapping (Yaml.Reader.plainInfo ⟨2, 0, 2⟩)
    [(scalarAt 2 0 2 "name" .plain, scalarAt 8 0 8 "foo" .plain),
      (scalarAt 14 1 2 "version" .plain, .scalar versionInfo t style)]]), ⟨0, 0, 0⟩⟩

/-- The tokens of its text. The version ends at `stop`, and the text at `last`. -/
def oneEntryTokens (t : String) (style : Yaml.Style) (stop last : Yaml.Mark) : List Token :=
  [⟨.blockSequenceStart, ⟨0, 0, 0⟩, ⟨0, 0, 0⟩⟩, ⟨.blockEntry, ⟨0, 0, 0⟩, ⟨1, 0, 1⟩⟩,
    ⟨.blockMappingStart, ⟨2, 0, 2⟩, ⟨2, 0, 2⟩⟩, ⟨.key, ⟨2, 0, 2⟩, ⟨2, 0, 2⟩⟩,
    ⟨.scalar "name".toList .plain, ⟨2, 0, 2⟩, ⟨6, 0, 6⟩⟩, ⟨.value, ⟨6, 0, 6⟩, ⟨7, 0, 7⟩⟩,
    ⟨.scalar "foo".toList .plain, ⟨8, 0, 8⟩, ⟨14, 1, 2⟩⟩, ⟨.key, ⟨14, 1, 2⟩, ⟨14, 1, 2⟩⟩,
    ⟨.scalar "version".toList .plain, ⟨14, 1, 2⟩, ⟨21, 1, 9⟩⟩, ⟨.value, ⟨21, 1, 9⟩, ⟨22, 1, 10⟩⟩,
    ⟨.scalar t.toList style, ⟨23, 1, 11⟩, stop⟩, ⟨.blockEnd, last, last⟩, ⟨.blockEnd, last, last⟩,
    ⟨.streamEnd, last, last⟩]

/-- The document is read from these tokens, whatever the version is. -/
theorem documentOf_oneEntry {s : List Char} {t : String} {style : Yaml.Style}
    {stop last : Yaml.Mark} (h : tokensOf s = .ok (oneEntryTokens t style stop last)) :
    documentOf s = .ok (oneEntry t style) := by
  let tokens := oneEntryTokens t style stop last
  have hread : ((Yaml.Reader.readDocument (4 * tokens.length + 16)).run ⟨tokens, []⟩).map (·.1)
      = .ok (oneEntry (String.ofList t.toList) style) := by
    rfl
  rw [documentOf, h]
  simpa only [String.ofList_toList] using hread

/-- The version of the only entry is written plainly. -/
theorem writtenPlainly_oneEntry (t : String) :
    WrittenPlainly (oneEntry t .plain) 0 versionInfo t := by
  have hversion : scalarValue (Yaml.Reader.plainInfo ⟨14, 1, 2⟩) "version" .plain
      = some (.text "version") := Yaml.Load.scalarValue_word (by decide)
  exact .intro (.items rfl rfl) rfl rfl (List.mem_cons_of_mem _ List.mem_cons_self)
    ⟨_, _, _, rfl, hversion⟩ rfl rfl

/-- The entry as a record of texts. -/
def oneRecord (t : String) : List (String × Value) := [("name", .text "foo"), ("version", .text t)]

/-- The fields of the entry can be printed as a record. -/
theorem isEntry_oneRecord (t : String) : ∀ e ∈ oneRecord t, Yaml.IsEntry e := by
  have hname : Yaml.Lexer.IsKey "name".toList := ⟨by decide, by decide, by decide⟩
  have hversion : Yaml.Lexer.IsKey "version".toList := ⟨by decide, by decide, by decide⟩
  exact List.forall_mem_cons.mpr ⟨⟨hname, .text _⟩, List.forall_mem_singleton.mpr
    ⟨hversion, .text _⟩⟩

/-- A record whose version needs quotes is the entry with the version in quotes. -/
theorem exists_requoted_oneEntry {t : String} (hstyle : Yaml.Printer.styleOf t ≠ .plain) :
    ∃ d', documentOf (Yaml.Printer.records [oneRecord t]) = .ok d' ∧
      (oneEntry t .plain).Requoted versionInfo t d' := by
  have halike {m m' : Yaml.Mark} : (Yaml.Reader.plainInfo m).Alike (Yaml.Reader.plainInfo m') :=
    ⟨rfl, rfl⟩
  obtain ⟨m, ns, hd, hns⟩ := Yaml.documentOf_records (List.forall_mem_singleton.mpr
    ⟨List.cons_ne_nil _ _, isEntry_oneRecord t⟩)
  refine ⟨_, hd, ?_⟩
  -- The document has the same two entries, each at a place of its own.
  obtain _ | ⟨⟨m₁, entries, rfl, hentries⟩, ⟨⟩⟩ := hns
  obtain _ | @⟨_, first, _, _, ⟨⟨m₂, hname⟩, m₃, _, _, hfoo, hvalue⟩, hentries⟩ := hentries
  obtain _ | @⟨_, second, _, _, ⟨⟨m₄, hkey⟩, m₅, _, _, hkind, hversion⟩, ⟨⟩⟩ := hentries
  have hplain : Yaml.Printer.styleOf "foo" = .plain := by decide +kernel
  obtain ⟨rfl, rfl⟩ := Token.Kind.scalar.inj hfoo
  obtain ⟨rfl, rfl⟩ := Token.Kind.scalar.inj hkind
  rw [String.ofList_toList] at hvalue hversion
  refine .some (.sequence halike rfl fun p hp => ?_)
  cases List.mem_singleton.mp hp
  have hfields : List.Forall₂ (fun (e e' : Node × Node) =>
        e.1.Requoted versionInfo t e'.1 ∧ e.2.Requoted versionInfo t e'.2)
      [(scalarAt 2 0 2 "name" .plain, scalarAt 8 0 8 "foo" .plain),
        (scalarAt 14 1 2 "version" .plain, .scalar versionInfo t .plain)] [first, second] := by
    refine .cons ⟨?_, ?_⟩ (.cons ⟨?_, ?_⟩ .nil)
    · rw [hname]
      exact .scalar halike
    · rw [hvalue, hplain]
      exact .scalar halike
    · rw [hkey]
      exact .scalar halike
    · rw [hversion]
      exact .quoted halike hstyle
  obtain ⟨hlength, hfields⟩ := List.forall₂_iff_zip.mp hfields
  exact .mapping halike hlength (fun p hp => (hfields hp).1) fun p hp => (hfields hp).2

/-- The value of the document is a list of one mapping. -/
theorem value?_oneEntry {t : String} {style : Yaml.Style} {w : Value}
    (hw : scalarValue versionInfo t style = some w) :
    (oneEntry t style).value?
      = some (.list [.map [(.text "name", .text "foo"), (.text "version", w)]]) := by
  have hword {k index line column : Nat} {s : String} (hs : Yaml.Printer.isAmbiguous s = false) :
      (Yaml.Load.load (oneEntry t style) k (scalarAt index line column s .plain)).run 0
        = some (.text s, 0) := Yaml.Load.run_load_scalar (Yaml.Load.scalarValue_word hs)
  -- The nodes are loaded from the inside: the scalars, the two entries, the mapping, the list.
  have hname : (Yaml.Load.loadEntry (oneEntry t style) 126
      (scalarAt 2 0 2 "name" .plain, scalarAt 8 0 8 "foo" .plain)).run 0
        = some ((.text "name", .text "foo"), 0) :=
    Yaml.Load.run_loadEntry_of_run (hword (by decide)) (hword (by decide))
  have hversion : (Yaml.Load.loadEntry (oneEntry t style) 126
      (scalarAt 14 1 2 "version" .plain, .scalar versionInfo t style)).run 0
        = some ((.text "version", w), 0) :=
    Yaml.Load.run_loadEntry_of_run (hword (by decide)) (Yaml.Load.run_load_scalar hw)
  have hdistinct : Yaml.Load.mapping?.distinct
      [(.text "name", .text "foo"), (.text "version", w)] = true := by
    simp [Yaml.Load.mapping?.distinct, Value.same]
  have hentry (m : Yaml.Mark) :=
    Yaml.Load.run_load_mapping (m := m) (.cons hname (.cons hversion .nil)) hdistinct
  exact congrArg (Option.map Prod.fst) (Yaml.Load.run_load_sequence (.cons (hentry ⟨2, 0, 2⟩) .nil))

/-- The document is read as one package. -/
theorem read_oneEntry {t : String} {style : Yaml.Style} {w : Value} {version : Version}
    (hd : documentOf text.toList = .ok (oneEntry t style))
    (hw : scalarValue versionInfo t style = some w)
    (hversion : Version.ofValue .yaml w = .ok version) :
    read .yaml text = .ok [.ofEntry "foo" version none] := by
  refine (read_yaml_eq_ok_iff hd).mpr ⟨_, value?_oneEntry hw, ?_⟩
  simp [packagesOf_list, packagesOfList, packageOf, readEntries, readEntry, hversion, Except.map,
    Draft.package]
  rfl

/-- The version `2` stays what it is in quotes. -/
theorem plain_version_reads_two :
    documentOf "- name: foo\n  version: 2\n".toList = .ok (oneEntry "2" .plain) ∧
    WrittenPlainly (oneEntry "2" .plain) 0 versionInfo "2" ∧
    read .yaml "- name: foo\n  version: 2\n" = .ok [⟨"foo", .ofNat 2, false⟩] ∧
    read .yaml "- name: foo\n  version: '2'\n" = .ok [⟨"foo", .ofNat 2, false⟩] := by
  have htokens : tokensOf "- name: foo\n  version: 2\n".toList
      = .ok (oneEntryTokens "2" .plain ⟨25, 2, 0⟩ ⟨25, 2, 0⟩) := by
    decide +kernel
  have hd := documentOf_oneEntry htokens
  have hw : scalarValue versionInfo "2" .plain = some (.int 2) := by rfl
  have hprinted : "- name: foo\n  version: '2'\n".toList
      = Yaml.Printer.records [oneRecord "2"] := by
    decide +kernel
  obtain ⟨d', hd', hrequoted⟩ := exists_requoted_oneEntry (t := "2") (by decide +kernel)
  rw [← hprinted] at hd'
  -- The keys of the mapping are texts that quotes do not change.
  have hkeyed : ∀ v, (oneEntry "2" .plain).value? = some v → v.TextKeyed := by
    intro v hv
    cases (value?_oneEntry hw).symm.trans hv
    refine .list (List.forall_mem_singleton.mpr (.map ?_ ?_))
    · simp
    · simp [Value.TextKeyed.text, Value.TextKeyed.int]
  have hread := read_oneEntry hd hw rfl
  have hmarked : ¬ Marked ['2'] := by
    rintro (hsign | _)
    exact absurd hsign (by decide)
  refine ⟨hd, writtenPlainly_oneEntry "2", hread, ?_⟩
  refine (plain_version_reads _ _ 0 _ _ hd (writtenPlainly_oneEntry "2")).quoted hmarked _ hread
    _ _ hd' hrequoted (.inr (.inr hkeyed))

/-- The number `0x10` is shown as `16`, which is not what was written. -/
theorem not_forall_plain_version_shown :
    ¬ ∀ (text : String) (d : Document) (i : Nat) (info : Info) (t : String)
      (packages : List Package) (p : Package), documentOf text.toList = .ok d →
      WrittenPlainly d i info t → read .yaml text = .ok packages → packages[i]? = some p →
      p.version.text = t := by
  intro hall
  have htokens : tokensOf "- name: foo\n  version: 0x10\n".toList
      = .ok (oneEntryTokens "0x10" .plain ⟨28, 2, 0⟩ ⟨28, 2, 0⟩) := by
    decide +kernel
  have hd := documentOf_oneEntry htokens
  -- The scalar `0x10` is the number sixteen, whose version is shown in decimal digits.
  have hw : scalarValue versionInfo "0x10" .plain = some (.int 16) := by rfl
  have htext := hall _ _ 0 _ _ _ _ hd (writtenPlainly_oneEntry "0x10") (read_oneEntry hd hw rfl) rfl
  exact absurd htext (by decide)

end Promotion.Manifest
