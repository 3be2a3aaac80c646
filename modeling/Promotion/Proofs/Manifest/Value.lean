import Mathlib.Data.List.Forall2
import Mathlib.Tactic.Common
import Promotion.Manifest.Document
import Promotion.Proofs.Document.Loaded
import Promotion.Proofs.Except
import Promotion.Proofs.Version.Obtained

/-!
# `Promotion.Proofs.Manifest.Value`: packages and the values of manifests

* `packagesOf_valueOf`: the value that is written for packages holds them.
* `obtained_of_packagesOf`: the versions of packages that are read can be
  written and read again.
-/

set_option autoImplicit false

namespace Promotion.Manifest

variable {format : Format}

/-- Either format takes a text as it is. -/
@[simp] theorem plain_text (s : String) : plain format (.text s) = .text s := by cases format <;> rfl

/-- Either format takes a truth value as it is. -/
@[simp] theorem plain_bool (b : Bool) : plain format (.bool b) = .bool b := by cases format <;> rfl

/-- Either format takes a list as it is. -/
@[simp] theorem plain_list (items : List Value) : plain format (.list items) = .list items := by
  cases format <;> rfl

/-- Either format takes a mapping as it is. -/
@[simp] theorem plain_map (entries : List (Value × Value)) :
    plain format (.map entries) = .map entries := by cases format <;> rfl

/-! ### What is written is read -/

/-- Entries are read one by one, all of them or none. -/
theorem packagesOfList_eq_ok_iff {items : List Value} {packages : List Package} :
    packagesOfList format items = .ok packages ↔
      List.Forall₂ (fun v p => packageOf format v = .ok p) items packages := by
  -- By induction on the list: the first entry that fails decides, so success is success of each.
  induction items generalizing packages with
  | nil =>
    rw [packagesOfList, List.forall₂_nil_left_iff, Except.ok.injEq, eq_comm]
  | cons v items ih =>
    rw [packagesOfList]
    constructor
    · intro h
      split at h
      · cases h
      next p hp =>
        split at h
        · cases h
        next ps hps =>
          cases h
          exact .cons hp (ih.mp hps)
    · rintro (_ | ⟨hp, hps⟩)
      rw [hp]
      dsimp only
      rw [ih.mpr hps]

/-- The entries of packages, each with its keys in any order. -/
theorem packagesOfList_map {entry : Package → Value} {packages : List Package}
    (h : ∀ p ∈ packages, packageOf format (entry p) = .ok p) :
    packagesOfList format (packages.map entry) = .ok packages :=
  packagesOfList_eq_ok_iff.mpr (List.forall₂_map_left_iff.mpr (List.forall₂_same.mpr h))

/-- The packages of a list are those of its items. -/
theorem packagesOf_list (items : List Value) :
    packagesOf format (.list items) = packagesOfList format items := by
  simp [packagesOf, entriesOf]

/-- A text is read as a text. -/
@[simp] theorem text_text (s expected : String) : text format (.text s) expected = .ok s := by
  simp [text]

/-- A truth value is read as a flag that is set. -/
@[simp] theorem flag_bool (b : Bool) : flag format (.bool b) = .ok (some b) := by
  simp [flag]

/-- The entry of a package, with its keys in the order of the alphabet. -/
def sortedEntryOf (p : Package) : Value :=
  .map [(.text "name", .text p.name), (.text "snapshot", .bool p.snapshot),
    (.text "version", .text p.version.text)]

section Entry

variable {p : Package} (hversion : Version.parse p.version.text = .ok p.version)

include hversion

/-- An entry that was written for a package describes it. -/
theorem packageOf_entryOf : packageOf format (entryOf p) = .ok p := by
  have hread : readEntries format {} ((fieldsOf p).map fun f => (.text f.1, f.2))
      = .ok ⟨some p.name, some p.version, some (some p.snapshot)⟩ := by
    simp [fieldsOf, readEntries, readEntry, Version.ofValue, hversion, Except.map]
  simp [packageOf, entryOf, hread, Draft.package, Package.ofEntry]
  rfl

/-- An entry with its fields in the order of their names describes its package. -/
theorem packageOf_sortedEntryOf : packageOf format (sortedEntryOf p) = .ok p := by
  have hread : readEntries format {} [(.text "name", .text p.name),
      (.text "snapshot", .bool p.snapshot), (.text "version", .text p.version.text)]
      = .ok ⟨some p.name, some p.version, some (some p.snapshot)⟩ := by
    simp [readEntries, readEntry, Version.ofValue, hversion, Except.map]
  simp [packageOf, sortedEntryOf, hread, Draft.package, Package.ofEntry]
  rfl

end Entry

/-! ### What is read can be written -/

open Value (Loaded)

/-- The value inside tags may stand in a document. -/
theorem loaded_untagged {v : Value} (hv : v.Loaded) : v.untagged.Loaded := by
  induction hv with
  | tagged _ ih => exact ih
  | null => exact .null
  | bool b => exact .bool b
  | int h => exact .int h
  | float x => exact .float x
  | text s => exact .text s
  | list h _ => exact .list h
  | map hkeys h _ => exact .map hkeys h

/-- What a format makes of a value may stand in a document. -/
theorem loaded_plain (format : Format) {v : Value} (hv : v.Loaded) : (plain format v).Loaded := by
  cases format with
  | yaml => exact loaded_untagged hv
  | json => exact hv

/-- A version in a document can be written and read again. -/
theorem obtained_of_ofValue {v : Value} {w : Version} (hv : v.Loaded)
    (h : Version.ofValue format v = .ok w) : w.Obtained := by
  -- Only a text or a whole number is a version: the one was parsed, the other one is below the
  -- limit of a document.
  cases hv with
  | text s =>
    simp only [Version.ofValue] at h
    split at h
    next hparse =>
      cases h
      exact .parsed hparse
    next => cases h
  | @int n hn =>
    simp only [Version.ofValue] at h
    split at h
    · cases h
    · cases h
      have hlimit : Int.pow 2 64 = Version.segmentLimit := rfl
      have hpositive : 0 < Version.segmentLimit := by decide
      refine .number ?_
      omega
  | _ => cases h

/-- The version that a draft holds, if any, can be written and read again. -/
def Draft.Obtained (d : Draft) : Prop := ∀ w ∈ d.version, w.Obtained

/-- A draft keeps to versions the program can have, whatever entry it reads. -/
theorem obtained_of_readEntry {d d' : Draft} {key : String} {v : Value} (hv : v.Loaded)
    (hd : d.Obtained) (h : readEntry format d key v = .ok d') : d'.Obtained := by
  -- Only the field of the version changes the version of the draft.
  unfold readEntry at h
  split at h
  · split at h
    · cases h
    · obtain ⟨s, -, rfl⟩ := map_eq_ok_iff.mp h
      exact hd
  split at h
  · split at h
    · cases h
    · obtain ⟨w, hw, rfl⟩ := map_eq_ok_iff.mp h
      intro w' hw'
      cases Option.mem_some_iff.mp hw'
      exact obtained_of_ofValue hv hw
  split at h
  · split at h
    · cases h
    · obtain ⟨b, -, rfl⟩ := map_eq_ok_iff.mp h
      exact hd
  · cases h
    exact hd

/-- A draft keeps to versions the program can have over all entries. -/
theorem obtained_of_readEntries {d d' : Draft} {entries : List (Value × Value)}
    (hentries : ∀ e ∈ entries, e.2.Loaded) (hd : d.Obtained)
    (h : readEntries format d entries = .ok d') : d'.Obtained := by
  -- By induction on the entries, with the draft generalized.
  induction entries generalizing d with
  | nil =>
    cases h
    exact hd
  | cons e entries ih =>
    obtain ⟨k, v⟩ := e
    rw [List.forall_mem_cons] at hentries
    rw [readEntries] at h
    split at h
    · cases h
    split at h
    · cases h
    next hread => exact ih hentries.2 (obtained_of_readEntry hentries.1 hd hread) h

/-- A package has the version of its draft. -/
theorem obtained_of_package {d : Draft} {p : Package} (hd : d.Obtained) (h : d.package = .ok p) :
    p.version.Obtained := by
  unfold Draft.package at h
  split at h
  · cases h
  · cases h
  next hversion =>
    cases h
    exact hd _ hversion

/-- A package that is read from a list of fields has a version the program can have. -/
theorem obtained_of_ofFields {fields : List Value} {p : Package}
    (hfields : ∀ v ∈ fields, v.Loaded) (h : ofFields format fields = .ok p) :
    p.version.Obtained := by
  unfold ofFields at h
  -- The fields come in the order of the record; the third one may be missing.
  match fields with
  | [] => cases h
  | name :: rest =>
    obtain ⟨s, -, h⟩ := bind_eq_ok_iff.mp h
    match rest with
    | [] => cases h
    | version :: rest =>
      obtain ⟨w, hw, h⟩ := bind_eq_ok_iff.mp h
      have hobtained : w.Obtained := obtained_of_ofValue (hfields version (by simp)) hw
      match rest with
      | [] =>
        cases h
        exact hobtained
      | snapshot :: rest =>
        obtain ⟨b, -, h⟩ := bind_eq_ok_iff.mp h
        split at h
        · cases h
          exact hobtained
        · cases h

/-- A package that is read has a version the program can have. -/
theorem obtained_of_packageOf {v : Value} {p : Package} (hv : v.Loaded)
    (h : packageOf format v = .ok p) : p.version.Obtained := by
  have hplain := loaded_plain format hv
  unfold packageOf at h
  -- A package is a mapping or a list of its fields.
  split at h
  next entries heq =>
    obtain ⟨d, hread, h⟩ := bind_eq_ok_iff.mp h
    rw [heq] at hplain
    have hempty : Draft.Obtained {} := by
      intro w hw
      cases hw
    exact obtained_of_package (obtained_of_readEntries (fun _ => hplain.of_mem_map) hempty hread) h
  · cases h
  next fields heq =>
    rw [heq] at hplain
    exact obtained_of_ofFields (fun _ => hplain.of_mem_list) h
  · cases h

/-- All packages of a list have versions the program can have. -/
theorem obtained_of_packagesOfList {items : List Value} {packages : List Package}
    (hitems : ∀ v ∈ items, v.Loaded) (h : packagesOfList format items = .ok packages) :
    ∀ p ∈ packages, p.version.Obtained := by
  have hread := packagesOfList_eq_ok_iff.mp h
  clear h
  induction hread with
  | nil => nofun
  | cons hp _ ih =>
    rw [List.forall_mem_cons] at hitems ⊢
    exact ⟨obtained_of_packageOf hitems.1 hp, ih hitems.2⟩

/-- The entries of a manifest are part of its document. -/
theorem loaded_entriesOf (format : Format) {v : Value} (hv : v.Loaded) : (entriesOf format v).Loaded := by
  unfold entriesOf
  split
  next entries heq =>
    have hplain : Loaded (.map entries) := heq ▸ loaded_plain format hv
    cases hget : Value.get? entries "packages" with
    | none => exact hv
    | some w =>
      obtain ⟨e, hfind, rfl⟩ := Option.map_eq_some_iff.mp hget
      exact hplain.of_mem_map (List.mem_of_find?_eq_some hfind)
  · exact hv

/-- The versions of packages that are read can be written and read again. -/
theorem obtained_of_packagesOf {v : Value} {packages : List Package} (hv : v.Loaded)
    (h : packagesOf format v = .ok packages) : ∀ p ∈ packages, p.version.Obtained := by
  have hplain := loaded_plain format (loaded_entriesOf format hv)
  unfold packagesOf at h
  split at h
  next items heq =>
    rw [heq] at hplain
    exact obtained_of_packagesOfList (fun _ => hplain.of_mem_list) h
  · cases h
    nofun
  · cases h

end Promotion.Manifest
