import Promotion.Document.Misfit
import Promotion.Document.Value

/-!
# `Promotion.Version.Value`: versions in documents

A version stands in a document as a text or as a whole number. A
floating-point number is refused: `1.10` would come back as `1.1`.
-/

set_option autoImplicit false

namespace Promotion.Version

/-- What is asked for where a version should stand. -/
def expected : String := "a version string such as \"1.2.0\""

/-- The version that a value stands for. -/
def ofValue (format : Format) (v : Value) : Except Misfit Version :=
  match v with
  | .text s =>
    match parse s with
    | .ok version => .ok version
    | .error reason => .error (.badVersion reason)
  | .int n => if n < 0 then .error (.negativeVersion n) else .ok (ofNat n.toNat)
  | .float x => .error (.numberVersion x.plain)
  | v => .error (.wrongType (v.describe format) expected)

end Promotion.Version
