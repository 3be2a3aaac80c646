import Promotion.Config.Basic
import Promotion.Yaml.Typed

/-!
# `Promotion.Config.Document`: configurations as texts

A configuration is a YAML document with the optional entries `strategy` and
`bundle`, and under `bundle` the optional entries `descriptor`, `payload`,
`extension` and `output`. Other entries are refused.
-/

set_option autoImplicit false

namespace Promotion.Config

open Promotion.Yaml

/-- The entries of `bundle` that have been read. -/
structure BundleDraft where
  descriptor : Option String := none
  payload : Option String := none
  extension : Option String := none
  output : Option Path := none

/-- The settings of a draft; what was not read is as it is by default. -/
def BundleDraft.settings (b : BundleDraft) : BundleSettings :=
  let standard : BundleSettings := {}
  { descriptor := b.descriptor.getD standard.descriptor
    payload := b.payload.getD standard.payload
    extension := b.extension.getD standard.extension
    output := b.output.getD standard.output }

/-- Reads one entry of `bundle`. -/
def readBundleEntry (d : Document) (b : BundleDraft) (path : List String) (key : String)
    (v : Node) : Except Refusal (Option BundleDraft) :=
  if key = "descriptor" then
    if b.descriptor.isSome then .ok none
    else (Typed.text d path "a string" v).map fun s => some { b with descriptor := some s }
  else if key = "payload" then
    if b.payload.isSome then .ok none
    else (Typed.text d path "a string" v).map fun s => some { b with payload := some s }
  else if key = "extension" then
    if b.extension.isSome then .ok none
    else (Typed.text d path "a string" v).map fun s => some { b with extension := some s }
  else if b.output.isSome then .ok none
  else (Typed.text d path "path string" v).map fun s => some { b with output := some (.ofString s) }

/-- Reads the settings under `bundle`. -/
def readBundle (d : Document) (path : List String) (n : Node) : Except Refusal BundleSettings :=
  (Typed.record d path "struct BundleSettings" ["descriptor", "payload", "extension", "output"]
    (readBundleEntry d) {} n).map BundleDraft.settings

/-- The entries of a configuration that have been read. -/
structure Draft where
  strategy : Option Strategy := none
  bundle : Option BundleSettings := none

/-- Reads one entry of a configuration. -/
def readEntry (d : Document) (c : Draft) (path : List String) (key : String) (v : Node) :
    Except Refusal (Option Draft) :=
  if key = "strategy" then
    if c.strategy.isSome then .ok none
    else (Typed.choice d path (Strategy.all.map Strategy.name) Strategy.ofName? v).map fun s =>
      some { c with strategy := some s }
  else if c.bundle.isSome then .ok none
  else (readBundle d path v).map fun b => some { c with bundle := some b }

/-- The configuration of a document; a document that holds nothing is the
standard one. -/
def ofDocument (d : Document) : Except Refusal Config :=
  match d.root with
  | none => .ok {}
  | some root =>
    (Typed.record d [] "struct PromoterConfig" ["strategy", "bundle"] (readEntry d) {} root).map
      fun c => ⟨c.strategy.getD .standard, c.bundle.getD {}⟩

/-- The configuration of a YAML text, whatever its names are. -/
def read (text : String) : Except DocumentError Config :=
  match documentOf text.toList with
  | .error problem => .error (.malformed problem.message)
  | .ok d =>
    match ofDocument d with
    | .ok config => .ok config
    | .error refusal =>
      match d.value? with
      | some _ => .error (.unfit refusal.message)
      | none => .error (.malformed "the document cannot be loaded")

/-- The configuration of a YAML text that can be used; `origin` names the text
in messages. -/
def ofYaml (text : String) (origin : Path) : Except Failure Config :=
  match read text with
  | .error reason => .error (.configParseFailed origin reason)
  | .ok config => config.bundle.check.map fun _ => config

end Promotion.Config
