import Promotion.Document.Error
import Promotion.Json.Printer
import Promotion.Json.Reader
import Promotion.Manifest.Value
import Promotion.Path.Basic
import Promotion.Yaml.Load
import Promotion.Yaml.Printer

/-!
# `Promotion.Manifest.Document`: manifests as texts

* `Manifest.read`: the packages of a manifest in either format.
* `Manifest.print`: the manifest of packages in either format.
* `Manifest.formatOf`: the format that a path asks for.
-/

set_option autoImplicit false

namespace Promotion.Manifest

/-- The value of a text in a format. -/
def valueOfText (format : Format) (text : String) : Except DocumentError Value :=
  match format with
  | .yaml => (Yaml.read text.toList).mapError .malformed
  | .json =>
    match Json.read? text.toList with
    | some v => .ok v
    | none => .error (.malformed "the text is no JSON document")

/-- The packages of a manifest. -/
def read (format : Format) (text : String) : Except DocumentError (List Package) :=
  match valueOfText format text with
  | .error e => .error e
  | .ok v => (packagesOf format v).mapError fun e => .unfit e.message

/-- The fields of a package, in the order in which they are written. -/
def fieldsOf (p : Package) : List (String × Value) :=
  [("name", .text p.name), ("version", .text p.version.text), ("snapshot", .bool p.snapshot)]

/-- The value that is written for a package. -/
def entryOf (p : Package) : Value := .map ((fieldsOf p).map fun f => (.text f.1, f.2))

/-- The value that is written for packages. -/
def valueOf (packages : List Package) : Value := .list (packages.map entryOf)

/-- The manifest of packages. -/
def print (format : Format) (packages : List Package) : String :=
  match format with
  | .yaml => String.ofList (Yaml.Printer.records (packages.map fieldsOf))
  | .json => String.ofList (Json.lines 0 (valueOf packages) ++ ['\n'])

/-- A package on a single line, as JSON. -/
def compactEntry (p : Package) : String := String.ofList (Json.compact (entryOf p))

/-- The format that a path asks for: JSON if its extension is `json` in
letters of either case. -/
def formatOf (path : Path) : Format :=
  match path.extension?.bind Text.stringOf? with
  | some e => if e.toList.map Char.toLower = ['j', 's', 'o', 'n'] then .json else .yaml
  | none => .yaml

end Promotion.Manifest
