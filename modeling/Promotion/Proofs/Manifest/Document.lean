import Promotion.Proofs.Json.Reader
import Promotion.Proofs.Manifest.Value
import Promotion.Proofs.Yaml.Load

/-!
# `Promotion.Proofs.Manifest.Document`: manifests are read back

A manifest that was written for packages holds the same packages, in the same
order, each with its name, its version down to the text, and its snapshot flag.

* `read_print`: packages whose versions the program can hold are read back.
* `manifests_read_back`: so are those of every document that was read, whichever
  format they are written in.
-/

set_option autoImplicit false

namespace Promotion.Manifest

/-! ### The value as JSON -/

/-- The entries can be written as JSON: they are not nested too deeply. -/
theorem writable_valueOf (packages : List Package) :
    Json.Writable Json.Reader.depthLimit (valueOf packages) := by
  refine .list fun v hv => ?_
  obtain ⟨p, -, rfl⟩ := List.mem_map.mp hv
  refine .map ?_ ?_
  · simp [fieldsOf]
  · simp [fieldsOf, Json.Writable.text, Json.Writable.bool]

/-- The keys of an entry come back in the order of the alphabet. -/
theorem ordered_entryOf (p : Package) : Json.ordered (entryOf p) = sortedEntryOf p := by
  have hsnapshot : ¬ "snapshot" < "name" := by decide
  have hversion : "snapshot" < "version" := by decide
  have hlast : ¬ "version" < "name" := by decide
  simp [entryOf, fieldsOf, sortedEntryOf, Json.ordered, Json.orderedEntries, Json.Reader.mapOf,
    Json.Reader.insertEntry, hsnapshot, hversion, hlast]

/-- JSON reads every entry with its fields in the order of their names. -/
theorem ordered_valueOf (packages : List Package) :
    Json.ordered (valueOf packages) = .list (packages.map sortedEntryOf) := by
  rw [valueOf, Json.ordered]
  congr 1
  induction packages with
  | nil => rfl
  | cons p packages ih => rw [List.map_cons, Json.orderedItems, ordered_entryOf, ih, List.map_cons]

/-! ### The value as YAML -/

/-- The fields of a package make up a record: the keys are plain words and differ. -/
theorem isRecord_fieldsOf (p : Package) : Yaml.Load.IsRecord (fieldsOf p) where
  nonempty := List.cons_ne_nil _ _
  entries := by
    have hname : Yaml.Lexer.IsKey "name".toList := ⟨by decide, by decide, by decide⟩
    have hversion : Yaml.Lexer.IsKey "version".toList := ⟨by decide, by decide, by decide⟩
    have hsnapshot : Yaml.Lexer.IsKey "snapshot".toList := ⟨by decide, by decide, by decide⟩
    intro e he
    simp only [fieldsOf, List.mem_cons, List.not_mem_nil, or_false] at he
    obtain rfl | rfl | rfl := he
    · exact ⟨hname, .text p.name⟩
    · exact ⟨hversion, .text p.version.text⟩
    · exact ⟨hsnapshot, .bool p.snapshot⟩
  keys := by
    have hkeys : ∀ key ∈ ["name", "version", "snapshot"],
        Yaml.Printer.isAmbiguous key = false := by decide
    exact fun e he => hkeys e.1 (List.mem_map_of_mem he)
  nodup := by
    have hkeys : ["name", "version", "snapshot"].Nodup := by decide
    exact hkeys

/-- The records that are written as YAML are read back. -/
theorem read_records_fieldsOf (packages : List Package) :
    Yaml.read (Yaml.Printer.records (packages.map fieldsOf)) = .ok (valueOf packages) := by
  have hrecords : ∀ r ∈ packages.map fieldsOf, Yaml.Load.IsRecord r := by
    intro r hr
    obtain ⟨p, -, rfl⟩ := List.mem_map.mp hr
    exact isRecord_fieldsOf p
  rw [Yaml.read_records hrecords, List.map_map]
  rfl

/-! ### Both formats -/

/-- A manifest that was written as YAML has the entries of its packages as its value. -/
theorem valueOfText_print_yaml (packages : List Package) :
    valueOfText .yaml (print .yaml packages) = .ok (valueOf packages) := by
  rw [print, valueOfText, String.toList_ofList, read_records_fieldsOf, Except.mapError]

/-- A manifest that was written as JSON has the entries with their fields in order. -/
theorem valueOfText_print_json (packages : List Package) :
    valueOfText .json (print .json packages) = .ok (.list (packages.map sortedEntryOf)) := by
  simp only [print, valueOfText, String.toList_ofList,
    Json.read?_lines (writable_valueOf packages), ordered_valueOf]

/-- Packages are read back from the manifest that was written for them. -/
theorem read_print {format : Format} {packages : List Package}
    (hversions : ∀ p ∈ packages, p.version.Obtained) :
    read format (print format packages) = .ok packages := by
  -- The text of a version that the program has is read as that version.
  have hparse : ∀ p ∈ packages, Version.parse p.version.text = .ok p.version :=
    fun p hp => Version.parse_text (hversions p hp)
  cases format with
  | yaml =>
    rw [read, valueOfText_print_yaml]
    simp only [valueOf, packagesOf_list,
      packagesOfList_map fun p hp => packageOf_entryOf (hparse p hp), Except.mapError]
  | json =>
    rw [read, valueOfText_print_json]
    simp only [packagesOf_list,
      packagesOfList_map fun p hp => packageOf_sortedEntryOf (hparse p hp), Except.mapError]

/-- The value of a manifest is that of a document, in both formats. -/
theorem loaded_of_valueOfText {format : Format} {text : String} {v : Value}
    (h : valueOfText format text = .ok v) : v.Loaded := by
  -- Each format has its own reader, and both keep to the values of documents.
  cases format with
  | yaml =>
    cases hread : Yaml.read text.toList with
    | error e => simp [valueOfText, hread, Except.mapError] at h
    | ok w =>
      simp only [valueOfText, hread, Except.mapError, Except.ok.injEq] at h
      exact h ▸ Yaml.loaded_of_read hread
  | json =>
    simp only [valueOfText] at h
    split at h
    next hread =>
      cases h
      exact Json.loaded_of_read? hread
    next => cases h

/-- A manifest holds the packages of its value. -/
theorem read_eq_ok_iff {format : Format} {text : String} {v : Value} {packages : List Package}
    (h : valueOfText format text = .ok v) :
    read format text = .ok packages ↔ packagesOf format v = .ok packages := by
  simp only [read, h]
  cases packagesOf format v with
  | error e => exact ⟨nofun, nofun⟩
  | ok packages' => simp [Except.mapError]

/-- The versions of a manifest that was read can be written and read again. -/
theorem obtained_of_read {format : Format} {text : String} {packages : List Package}
    (h : read format text = .ok packages) : ∀ p ∈ packages, p.version.Obtained := by
  cases hv : valueOfText format text with
  | error e =>
    rw [read, hv] at h
    cases h
  | ok v => exact obtained_of_packagesOf (loaded_of_valueOfText hv) ((read_eq_ok_iff hv).mp h)

/-- Manifests are read back. Any packages whose versions the program can hold
come back from either format as they were; in particular a document of one
format keeps its packages when it is converted to the other or written anew. -/
theorem manifests_read_back :
    (∀ (format : Format) (packages : List Package), (∀ p ∈ packages, p.version.Obtained) →
      read format (print format packages) = .ok packages) ∧
    ∀ (source format : Format) (text : String) (packages : List Package),
      read source text = .ok packages → read format (print format packages) = .ok packages :=
  ⟨fun _ _ => read_print, fun _ _ _ _ h => read_print (obtained_of_read h)⟩

/-- Two packages, the first one called like a truth value and flagged against the
qualifier of its version, the second one called by nothing but special
characters. -/
def oddPackages : List Package :=
  [⟨"true", ⟨[1, 10], some "SNAPSHOT", "1.10-SNAPSHOT"⟩, false⟩, ⟨"\"\\\n", .ofNat 12, true⟩]

/-- The odd packages have versions that the program can have. -/
theorem oddPackages_obtained : ∀ p ∈ oddPackages, p.version.Obtained := by
  have hfirst : Version.parse "1.10-SNAPSHOT" = .ok ⟨[1, 10], some "SNAPSHOT", "1.10-SNAPSHOT"⟩ := by
    decide
  have hsecond : 12 < Version.segmentLimit := by decide
  exact List.forall_mem_cons.mpr ⟨.parsed hfirst, List.forall_mem_cons.mpr
    ⟨.number hsecond, nofun⟩⟩

/-- The two packages are read back from YAML, and what was written is converted to
JSON. -/
theorem manifests_read_back_odd : (∀ p ∈ oddPackages, p.version.Obtained) ∧
    read .yaml (print .yaml oddPackages) = .ok oddPackages ∧
    read .json (print .json oddPackages) = .ok oddPackages :=
  have hread := manifests_read_back.1 .yaml oddPackages oddPackages_obtained
  ⟨oddPackages_obtained, hread, manifests_read_back.2 .yaml .json _ oddPackages hread⟩

end Promotion.Manifest
