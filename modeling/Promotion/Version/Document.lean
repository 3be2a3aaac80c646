import Promotion.Document.Error
import Promotion.Json.Place
import Promotion.Json.Reader
import Promotion.Version.Value
import Promotion.Yaml.Typed

/-!
# `Promotion.Version.Document`: documents that are a version

A whole document may be a single version. When it is refused, the message
names the place of the value.
-/

set_option autoImplicit false

namespace Promotion.Version

/-- The version that a JSON text is. -/
def ofJson (s : List Char) : Except DocumentError Version :=
  match Json.read? s with
  | none => .error (.malformed "the text is no JSON document")
  | some v =>
    match ofValue .json v with
    | .ok version => .ok version
    | .error reason =>
      .error (.unfit s!"{reason.message} at {Json.displayEnd (Json.readPart s)}")

/-- The version that a YAML text is. -/
def ofYaml (s : List Char) : Except DocumentError Version :=
  match Yaml.documentOf s with
  | .error problem => .error (.malformed problem.message)
  | .ok document =>
    let refused (reason : Misfit) : Except DocumentError Version :=
      .error (.unfit (Yaml.Refusal.message ⟨[], document.mark, reason⟩))
    match document.root, document.value? with
    | none, _ => refused (.wrongType "Option value" expected)
    | some _, some v =>
      match ofValue .yaml v with
      | .ok version => .ok version
      | .error reason => refused reason
    | some _, none => .error (.malformed "the document cannot be loaded")

/-- The version that a text in a document format is. -/
def ofDocument (format : Format) (text : String) : Except DocumentError Version :=
  match format with
  | .yaml => ofYaml text.toList
  | .json => ofJson text.toList

end Promotion.Version
