import Promotion.Package

/-!
# `Promotion.Audit`: the audit trail of a promotion

Every package that is looked at leaves one line, below a header line.
-/

set_option autoImplicit false

namespace Promotion

/-- What was decided about one package. -/
inductive Verdict where
  | pass
  | skip
  | fail
  deriving DecidableEq, Repr

/-- The word for a verdict in the trail. -/
def Verdict.word : Verdict → String
  | .pass => "PASS"
  | .skip => "SKIP"
  | .fail => "FAIL"

/-- One decision: the verdict on a source package, and the latest package of
its name in the destination, when there is one. -/
structure Evaluation where
  verdict : Verdict
  source : Package
  destination : Option Package
  deriving DecidableEq, Repr

namespace Evaluation

/-- The destination's version as the trail shows it. -/
def destinationText (e : Evaluation) : String :=
  match e.destination with
  | none => "missing"
  | some p => p.version.text

/-- The line that a decision leaves in the trail. -/
def line (e : Evaluation) : String :=
  s!"PACKAGE | {e.verdict.word} | {e.source.name} ({e.source.version.text}) > ({e.destinationText})"

end Evaluation

namespace Audit

/-- The line above a batch of decisions. -/
def header : String := "STRATEGY | PASS | Source.Version > Destination.Version"

/-- The trail of a batch: the header, then one line for each decision. -/
def trail (evaluations : List Evaluation) : List String :=
  header :: evaluations.map Evaluation.line

end Audit

end Promotion
