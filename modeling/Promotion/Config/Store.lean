import Promotion.Config.Document
import Promotion.Session

/-!
# `Promotion.Config.Store`: the configuration of a workspace

`Config.load` reads the configuration file of a workspace; a workspace
without one has the standard configuration.
-/

set_option autoImplicit false

namespace Promotion.Config

/-- The part of the program that the events come from. -/
def target : String := "promoter::config"

/-- The configuration of a workspace. -/
def load (workspace : Path) : Action Config := do
  let path := workspace.join (.ofString fileName)
  if !(← Action.tree).isFile path then
    Action.tell (.debug target "No configuration file, using defaults" [("path", path.display)])
    return {}
  let text ← Action.reading (·.readText path) (.configReadFailed path)
  let config ← Action.ofExcept (ofYaml text path)
  Action.tell (.debug target "Loaded configuration" [("path", path.display)])
  return config

end Promotion.Config
