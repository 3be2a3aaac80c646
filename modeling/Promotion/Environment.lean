import Promotion.Review

/-!
# `Promotion.Environment`: environments and the steps that change them

An environment is a list of packages. A run takes it through steps:
packages are withdrawn, installed as they are, or promoted, which installs
what a strategy clears against the environment as it then is.
-/

set_option autoImplicit false

namespace Promotion

/-- The packages of one environment, in the order they were installed. -/
abbrev Environment := List Package

namespace Environment

/-- One change to an environment. -/
inductive Step where
  /-- All packages of a name are withdrawn. -/
  | withdraw (name : String)
  /-- Packages are installed without a review. -/
  | install (packages : List Package)
  /-- What the strategy clears of the source is installed; a regression
  changes nothing. -/
  | promote (strategy : Strategy) (source : List Package)
  deriving DecidableEq, Repr

/-- The packages that a step adds to the environment. -/
def added (environment : Environment) : Step → List Package
  | .withdraw _ => []
  | .install packages => packages
  | .promote strategy source =>
    match strategy.clear source environment with
    | .ok cleared => cleared
    | .error _ => []

/-- The environment after one step. -/
def step (environment : Environment) : Step → Environment
  | .withdraw name => environment.filter fun p => p.name != name
  | s => environment ++ environment.added s

/-- The environment after a run of steps. -/
def run (environment : Environment) (steps : List Step) : Environment :=
  steps.foldl step environment

end Environment

end Promotion
