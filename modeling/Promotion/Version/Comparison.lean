import Promotion.Version.Order

/-!
# `Promotion.Version.Comparison`: how two versions are told apart

Two versions are shown with the sign of their order. A remark follows when
they have the same numbers and different qualifiers.
-/

set_option autoImplicit false

namespace Promotion.Version

/-- The sign of an order. -/
def sign : Ordering → String
  | .lt => "<"
  | .eq => "="
  | .gt => ">"

/-- The remark on versions of which one is a snapshot of the other. -/
def replaceableRemark : String :=
  "(same version number; the snapshot is replaceable by its release)"

/-- The remark on other versions with different qualifiers. -/
def unorderedRemark : String := "(same version number; qualifiers are not ordered)"

/-- The remark on two versions, if there is one. -/
def remark? (v w : Version) : Option String :=
  if v.sameNumber w && v.qualifier ≠ w.qualifier then
    some (if v.isSnapshot ≠ w.isSnapshot then replaceableRemark else unorderedRemark)
  else none

/-- The lines that tell how two versions compare. -/
def comparison (v w : Version) : List String :=
  s!"{v.text} {sign (compare v w)} {w.text}" :: (remark? v w).toList

end Promotion.Version
