import Promotion.Arguments.Invocation
import Promotion.Bundle.Build
import Promotion.Bundle.Discovery
import Promotion.Config.Store

/-!
# `Promotion.Command.Bundle`: packing what a project holds

The bundles of a project are found and packed into the output directory, or
only announced. Arguments come before the configuration of the workspace.
-/

set_option autoImplicit false

namespace Promotion

/-- What is going to be built: the bundles in order, and where to. -/
structure BuildPlan where
  bundles : List Bundle
  output : Path
  extension : String
  deriving DecidableEq, Repr

namespace BuildPlan

/-- The lines that announce one bundle. -/
def announcement (plan : BuildPlan) (b : Bundle) : List String :=
  [s!"  {b.name} {b.root.display}",
    s!"    -> {(b.archivePath plan.output plan.extension).display}"]

/-- The lines that announce all bundles. -/
def announcements (plan : BuildPlan) : List String :=
  s!"Bundles ({plan.bundles.length}):" :: plan.bundles.flatMap plan.announcement

/-- Builds what is planned. -/
def build (plan : BuildPlan) : Action BuildOutput :=
  Bundle.build plan.bundles plan.output plan.extension

end BuildPlan

namespace Artifact

/-- The lines that report an archive under a label. -/
def report (label : String) (a : Artifact) : List String :=
  ["".pushn ' ' (9 - label.length) ++ s!"{label} {a.path.display}",
    s!"          {a.files} files, {a.digest}"]

end Artifact

/-- The lines that report a build. -/
def BuildOutput.report (o : BuildOutput) : List String :=
  o.companions.flatMap (Artifact.report "Companion") ++ o.primary.report "Primary"

namespace BundleArguments

/-- The part of the program that the events come from. -/
def target : String := "promoter::commands::bundle"

/-- The layout of the bundles. -/
def layout (a : BundleArguments) (settings : BundleSettings) : Layout :=
  ⟨a.descriptor.getD settings.descriptor, a.payload.getD settings.payload⟩

/-- The directory that is searched. -/
def searchRoot (a : BundleArguments) (workspace : Path) : Path := a.root.getD workspace

/-- The directory that archives are written to. -/
def outputDirectory (a : BundleArguments) (workspace : Path) (settings : BundleSettings) : Path :=
  a.output.getD (workspace.join settings.output)

/-- The bundles that are found. -/
def search (a : BundleArguments) (listing : Listing) (root : Path) (layout : Layout) :
    Except Failure Discovery :=
  if a.direct then discover listing root a.name layout
  else discoverProject listing root a.name layout

/-- Plans the build: reads the configuration and finds the bundles. -/
def plan (a : BundleArguments) (workspace : Path) : Action BuildPlan := do
  let settings := (← Config.load workspace).bundle
  let root := a.searchRoot workspace
  let found ← Action.ofExcept
    (a.search (.ofTree (← Action.tree)) root (a.layout settings))
  Action.tellAll found.events
  if found.bundles.isEmpty then throw (.noBundlesFound root)
  Action.tell (.info target "Discovered bundles"
    [("root", root.display), ("count", toString found.bundles.length)])
  return ⟨found.bundles, a.outputDirectory workspace settings,
    a.extension.getD settings.extension⟩

/-- Carries out `bundle` in a workspace. -/
def run (a : BundleArguments) (workspace : Path) : Action Unit := do
  let plan ← a.plan workspace
  if a.dryRun then plan.announcements.forM Action.printLine
  else (← plan.build).report.forM Action.printLine

end BundleArguments

end Promotion
