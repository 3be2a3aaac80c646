import Promotion.Bundle.Basic
import Promotion.Failure

/-!
# `Promotion.Config.Basic`: the configuration of a workspace

What a workspace can settle once and for all: the strategy, and how its
bundles are laid out and named.
-/

set_option autoImplicit false

namespace Promotion

/-- How bundles are built. The output directory is seen from the workspace. -/
structure BundleSettings where
  descriptor : String := "package.json"
  payload : String := "dist"
  extension : String := Bundle.standardExtension
  output : Path := .ofString "target"
  deriving DecidableEq, Repr

/-- The configuration of a workspace. -/
structure Config where
  strategy : Strategy := .standard
  bundle : BundleSettings := {}
  deriving DecidableEq, Repr

namespace BundleSettings

/-- The layout of the bundles. -/
def layout (s : BundleSettings) : Layout := ⟨s.descriptor, s.payload⟩

/-- Whether a name is that of an entry: not empty and without separators. -/
def isPlainName (name : String) : Bool :=
  !name.isEmpty && !name.toList.any fun c => c = '/' || c = '\\'

/-- Refuses a name that is not that of an entry. -/
def checkName (field name : String) : Except Failure Unit :=
  if isPlainName name then .ok ()
  else .error (.configInvalid
    s!"bundle.{field} must be a plain file or directory name, got '{name}'")

/-- Refuses settings that cannot be used. -/
def check (s : BundleSettings) : Except Failure Unit := do
  checkName "descriptor" s.descriptor
  checkName "payload" s.payload
  if (Bundle.bareExtension s.extension).isEmpty then
    throw (.configInvalid "bundle.extension must not be empty")

end BundleSettings

namespace Config

/-- The name of the configuration file in a workspace. -/
def fileName : String := "promoter.yaml"

end Config

end Promotion
