import Promotion.Audit
import Promotion.Latest
import Promotion.Strategy

/-!
# `Promotion.Review`: which packages may be promoted

A source package is cleared when the destination holds no package of its
name, or when it may overwrite the latest one there. `review` goes through
the source packages in order and returns the decisions together with the
outcome; under the policy `abort` the first package that is not cleared
ends the review.
-/

set_option autoImplicit false

namespace Promotion

/-- Whether `source` may take the place of `latest`, the destination's latest
package of its name: it is newer, or `latest` is a snapshot of its number. -/
def mayOverwrite (source latest : Package) : Bool :=
  match latest.compareVersion source with
  | .eq => latest.snapshot
  | order => order == .lt

/-- A source package that would take the destination back, or publish a
finished version again. -/
structure Regression where
  name : String
  sourceVersion : Version
  destinationVersion : Version
  deriving DecidableEq, Repr

namespace Regression

/-- The regression that `source` is against the destination's `latest`. -/
def ofPackages (source latest : Package) : Regression :=
  ⟨source.name, source.version, latest.version⟩

/-- The regression in one sentence. -/
def message (r : Regression) : String :=
  s!"package '{r.name}' version {r.sourceVersion.text} is not newer than destination version {r.destinationVersion.text}"

end Regression

/-- The outcome of a review: the decisions in order, and the cleared packages
or the regression that ended it. -/
structure Review where
  evaluations : List Evaluation
  outcome : Except Regression (List Package)

namespace Review

/-- The review that starts with one more decision, on a package that is
cleared. -/
def passing (latest? : Option Package) (source : Package) (rest : Review) : Review where
  evaluations := ⟨.pass, source, latest?⟩ :: rest.evaluations
  outcome := rest.outcome.map (source :: ·)

/-- The review that starts with one more decision, on a package that is left
out. -/
def skipping (latest source : Package) (rest : Review) : Review where
  evaluations := ⟨.skip, source, some latest⟩ :: rest.evaluations
  outcome := rest.outcome

/-- The review that a regression ends at once. -/
def failing (latest source : Package) : Review where
  evaluations := [⟨.fail, source, some latest⟩]
  outcome := .error (.ofPackages source latest)

/-- Reviews the source packages in order against the latest packages of the
destination. -/
def against (policy : FailurePolicy) (latest : List Package) : List Package → Review
  | [] => ⟨[], .ok []⟩
  | source :: rest =>
    match Latest.find? latest source.name with
    | none => passing none source (against policy latest rest)
    | some current =>
      if mayOverwrite source current then
        passing (some current) source (against policy latest rest)
      else match policy with
        | .skip => skipping current source (against policy latest rest)
        | .abort => failing current source

/-- The audit trail of the review. -/
def trail (r : Review) : List String := Audit.trail r.evaluations

end Review

/-- Reviews the packages of a source environment against a destination. -/
def review (policy : FailurePolicy) (source destination : List Package) : Review :=
  Review.against policy (latestPerName destination) source

/-- The review that a strategy asks for. -/
def Strategy.review (strategy : Strategy) (source destination : List Package) : Review :=
  Promotion.review strategy.policy source destination

/-- The packages that a strategy clears, or the regression that it stops at. -/
def Strategy.clear (strategy : Strategy) (source destination : List Package) :
    Except Regression (List Package) :=
  (strategy.review source destination).outcome

end Promotion
