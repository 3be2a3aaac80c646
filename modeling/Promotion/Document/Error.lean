/-!
# `Promotion.Document.Error`: why a document cannot be used
-/

set_option autoImplicit false

namespace Promotion

/-- Why a manifest, a configuration or a version document is refused. -/
inductive DocumentError where
  /-- The text is no document of its format. -/
  | malformed (reason : String)
  /-- The document does not hold what is asked of it. -/
  | unfit (reason : String)
  deriving DecidableEq, Repr

/-- The reason as it is shown to the user. -/
def DocumentError.message : DocumentError → String
  | malformed reason => reason
  | unfit reason => reason

end Promotion
