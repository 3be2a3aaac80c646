/-!
# `Promotion.Strategy`: what happens to a package that is not newer

Both strategies let through the packages that move the destination
forward. They differ in what a package that does not does to the batch.
-/

set_option autoImplicit false

namespace Promotion

/-- What becomes of a package that would not move the destination forward. -/
inductive FailurePolicy where
  /-- It is left out. -/
  | skip
  /-- It stops the whole batch. -/
  | abort
  deriving DecidableEq, Repr

/-- The strategies a user can choose from. -/
inductive Strategy where
  | skipOldVersions
  | forceLatestVersions
  deriving DecidableEq, Repr, Inhabited

namespace Strategy

/-- The strategy in force when none is chosen. -/
def standard : Strategy := .skipOldVersions

/-- All strategies, in the order they are offered. -/
def all : List Strategy := [.skipOldVersions, .forceLatestVersions]

/-- The policy behind a strategy. -/
def policy : Strategy → FailurePolicy
  | .skipOldVersions => .skip
  | .forceLatestVersions => .abort

/-- The name that a strategy has on the command line and in a configuration. -/
def name : Strategy → String
  | .skipOldVersions => "skip-old-versions"
  | .forceLatestVersions => "force-latest-versions"

/-- The strategy of a name. -/
def ofName? (name : String) : Option Strategy :=
  all.find? fun s => s.name = name

/-- What a configuration that names another strategy is told. The names are
set in backquotes. -/
def unknownMessage (name : String) : String :=
  let quoted (s : String) : String := s!"`{s}`"
  s!"unknown variant {quoted name}, expected " ++ " or ".intercalate (all.map fun s => quoted s.name)

end Strategy

end Promotion
