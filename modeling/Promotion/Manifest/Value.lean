import Promotion.Package
import Promotion.Version.Value

/-!
# `Promotion.Manifest.Value`: manifests as values

A manifest is a list of entries, or a mapping with such a list under
`packages`. An entry has a name, a version and an optional snapshot flag;
other keys are passed over.

* `Manifest.packagesOf`: the packages of a value, or why it is no manifest.

JSON has two rules of its own: an entry may be a list of its fields, and
`null` is no list. In YAML tags around lists, mappings, texts and truth
values do not count.
-/

set_option autoImplicit false

namespace Promotion.Manifest

/-- The fields of an entry that have been read. -/
structure Draft where
  name : Option String := none
  version : Option Version := none
  snapshot : Option (Option Bool) := none
  deriving DecidableEq, Repr

/-- What is asked for where an entry should stand. -/
def entryExpected : String := "struct PackageEntry"

/-- The value that counts where a tag is passed over. -/
def plain (format : Format) (v : Value) : Value :=
  match format with
  | .yaml => v.untagged
  | .json => v

/-- A text. -/
def text (format : Format) (v : Value) (expected : String) : Except Misfit String :=
  match plain format v with
  | .text s => .ok s
  | v => .error (.wrongType (v.describe format) expected)

/-- A snapshot flag: a truth value, or nothing. -/
def flag (format : Format) (v : Value) : Except Misfit (Option Bool) :=
  match v with
  | .null => .ok none
  | v => match plain format v with
    | .bool b => .ok (some b)
    | v => .error (.wrongType (v.describe format) "a boolean")

/-- The draft with one more entry of a mapping read into it. -/
def readEntry (format : Format) (d : Draft) (key : String) (v : Value) : Except Misfit Draft :=
  if key = "name" then
    if d.name.isSome then .error (.duplicateField key)
    else (text format v "a string").map fun s => { d with name := some s }
  else if key = "version" then
    if d.version.isSome then .error (.duplicateField key)
    else (Version.ofValue format v).map fun w => { d with version := some w }
  else if key = "snapshot" then
    if d.snapshot.isSome then .error (.duplicateField key)
    else (flag format v).map fun b => { d with snapshot := some b }
  else .ok d

/-- The draft with the entries of a mapping read into it, in their order. -/
def readEntries (format : Format) (d : Draft) : List (Value × Value) → Except Misfit Draft
  | [] => .ok d
  | (k, v) :: rest =>
    match text format k "field identifier" with
    | .error e => .error e
    | .ok key =>
      match readEntry format d key v with
      | .error e => .error e
      | .ok d => readEntries format d rest

/-- The package of a draft that has a name and a version. -/
def Draft.package (d : Draft) : Except Misfit Package :=
  match d.name, d.version with
  | none, _ => .error (.missingField "name")
  | some _, none => .error (.missingField "version")
  | some name, some version => .ok (.ofEntry name version (d.snapshot.getD none))

/-- The package of an entry that lists its fields. -/
def ofFields (format : Format) (fields : List Value) : Except Misfit Package := do
  let short (n : Nat) : Misfit := .wrongLength n (entryExpected ++ " with 3 elements")
  match fields with
  | [] => throw (short 0)
  | name :: rest =>
    let name ← text format name "a string"
    match rest with
    | [] => throw (short 1)
    | version :: rest =>
      let version ← Version.ofValue format version
      match rest with
      | [] => return .ofEntry name version none
      | snapshot :: rest =>
        let snapshot ← flag format snapshot
        if rest.isEmpty then return .ofEntry name version snapshot
        else throw (.wrongLength fields.length "fewer elements in array")

/-- The package of an entry. -/
def packageOf (format : Format) (v : Value) : Except Misfit Package :=
  match format, plain format v with
  | _, .map entries => do (← readEntries format {} entries).package
  | .yaml, .null => Draft.package {}
  | .json, .list fields => ofFields format fields
  | _, v => .error (.wrongType (v.describe format) entryExpected)

/-- The packages of the entries of a list, or what is wrong with the first bad
one. -/
def packagesOfList (format : Format) : List Value → Except Misfit (List Package)
  | [] => .ok []
  | v :: rest =>
    match packageOf format v with
    | .error e => .error e
    | .ok p =>
      match packagesOfList format rest with
      | .error e => .error e
      | .ok ps => .ok (p :: ps)

/-- The value that should be the list of entries. -/
def entriesOf (format : Format) (v : Value) : Value :=
  match plain format v with
  | .map entries => (Value.get? entries "packages").getD v
  | _ => v

/-- The packages of a manifest. -/
def packagesOf (format : Format) (v : Value) : Except Misfit (List Package) :=
  match format, plain format (entriesOf format v) with
  | _, .list items => packagesOfList format items
  | .yaml, .null => .ok []
  | _, v => .error (.wrongType (v.describe format) "a sequence")

end Promotion.Manifest
