import Promotion.Bundle.Assembly

/-!
# `Promotion.Bundle.Build`: packing the bundles of a project

The bundles are packed one after the other. The last archive is the primary
one, those before it are its companions. The first failure ends the build;
archives that are finished stay.
-/

set_option autoImplicit false

namespace Promotion

/-- The archives of a build. -/
structure BuildOutput where
  companions : List Artifact
  primary : Artifact
  deriving DecidableEq, Repr

namespace BuildOutput

/-- All archives in the order in which they were made. -/
def artifacts (o : BuildOutput) : List Artifact := o.companions ++ [o.primary]

end BuildOutput

namespace Bundle

/-- The part of the program that the events come from. -/
def buildTarget : String := "promoter::bundle::build"

/-- Packs a bundle after telling which role it has. -/
def assembleAs (role : String) (output : Path) (extension : String) (b : Bundle) :
    Action Artifact := do
  Action.tell (.info buildTarget s!"Building {role} bundle" [("bundle", b.name)])
  b.assemble output extension

/-- Packs all bundles in order. -/
def build (bundles : List Bundle) (output : Path) (extension : String) : Action BuildOutput :=
  match bundles.getLast? with
  | none => throw (.noBundlesFound output)
  | some last => do
    let companions ← bundles.dropLast.mapM (assembleAs "companion" output extension)
    let primary ← assembleAs "primary" output extension last
    return ⟨companions, primary⟩

end Bundle

end Promotion
