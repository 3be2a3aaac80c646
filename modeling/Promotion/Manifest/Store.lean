import Promotion.Manifest.Document
import Promotion.Session

/-!
# `Promotion.Manifest.Store`: manifests in files

* `Manifest.load`: the packages of a manifest file.
* `Manifest.save`: writes packages to a manifest file.

The name of a file says which format it has.
-/

set_option autoImplicit false

namespace Promotion.Manifest

/-- The part of the program that the events come from. -/
def target : String := "promoter::config::manifest"

/-- The packages of a manifest file. -/
def load (path : Path) : Action (List Package) := do
  let text ← Action.reading (·.readText path) (.manifestReadFailed path)
  let packages ← Action.ofExcept
    ((read (formatOf path) text).mapError (.manifestParseFailed path))
  Action.tell (.debug target "Loaded package manifest"
    [("path", path.display), ("count", toString packages.length)])
  return packages

/-- Writes packages to a manifest file, in directories that are made where
they are missing. -/
def save (path : Path) (packages : List Package) : Action Unit := do
  let text := print (formatOf path) packages
  match path.parent? with
  | some parent =>
    if !parent.isEmpty then Action.makeDirectories parent (.fileWriteFailed parent)
  | none => pure ()
  Action.writing (·.write path (Text.bytesOf text)) (.fileWriteFailed path)
  Action.tell (.debug target "Wrote package manifest"
    [("path", path.display), ("count", toString packages.length)])

end Promotion.Manifest
