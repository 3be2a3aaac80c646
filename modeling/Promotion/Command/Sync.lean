import Promotion.Arguments.Invocation
import Promotion.Config.Store
import Promotion.Manifest.Store

/-!
# `Promotion.Command.Sync`: which packages may be promoted

The packages of a source manifest are reviewed against those of a
destination manifest. What is cleared is printed, or written to a file and
summed up. Nothing is written unless the review succeeds.
-/

set_option autoImplicit false

namespace Promotion.SyncArguments

/-- The part of the program that the events come from. -/
def target : String := "promoter::commands::sync"

/-- The part of the program that the audit trail comes from. -/
def auditTarget : String := "promoter::audit"

/-- The part of the program that tells how a review ended. -/
def strategyTarget : String := "promoter::strategy"

/-- What is told before a review. -/
def announcement (strategy : Strategy) (source destination : List Package) : Event :=
  .info target "Evaluating packages" [("strategy", strategy.name),
    ("source", toString source.length), ("destination", toString destination.length)]

/-- Reviews packages, and logs the audit trail. -/
def clear (strategy : Strategy) (source destination : List Package) : Action (List Package) := do
  let review := strategy.review source destination
  Action.tellAll (review.trail.map fun line => .info auditTarget line [])
  match review.outcome with
  | .error regression => throw (.regression regression)
  | .ok cleared =>
    Action.tell (.debug strategyTarget "Strategy finished"
      [("evaluated", toString source.length), ("cleared", toString cleared.length)])
    return cleared

/-- What is printed when the cleared packages were written to a file. -/
def summary (strategy : Strategy) (cleared : List Package) (total : Nat) (path : Path) :
    List String :=
  s!"Cleared {cleared.length} of {total} packages ({strategy.name})"
    :: cleared.map (fun p => s!"  {p.display}") ++ [s!"Written to {path.display}"]

/-- Hands out the cleared packages: to a file, or to the printed text. -/
def deliver (a : SyncArguments) (strategy : Strategy) (total : Nat) (cleared : List Package) :
    Action Unit :=
  match a.output with
  | some path => do
    Manifest.save path cleared
    (summary strategy cleared total path).forM Action.printLine
  | none => Action.print (Manifest.print a.format cleared)

/-- Carries out `sync` in a workspace. -/
def run (a : SyncArguments) (workspace : Path) : Action Unit := do
  let config ← Config.load workspace
  let strategy := a.strategy.getD config.strategy
  let source ← Manifest.load a.source
  let destination ← Manifest.load a.destination
  Action.tell (announcement strategy source destination)
  let cleared ← clear strategy source destination
  a.deliver strategy source.length cleared

end Promotion.SyncArguments
