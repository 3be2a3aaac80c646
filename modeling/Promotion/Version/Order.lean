import Promotion.Version.Basic

/-!
# `Promotion.Version.Order`: the order of versions

Versions are compared number by number from the left; a version with fewer
numbers counts as padded with zeros. Qualifier and text do not take part,
so `1.2` and `1.2.0-SNAPSHOT` are equal in this order.
-/

set_option autoImplicit false

namespace Promotion.Version

/-- Compares two rows of numbers, the shorter one padded with zeros. -/
def compareSegments : List Nat → List Nat → Ordering
  | [], [] => .eq
  | [], y :: ys => (compare 0 y).then (compareSegments [] ys)
  | x :: xs, [] => (compare x 0).then (compareSegments xs [])
  | x :: xs, y :: ys => (compare x y).then (compareSegments xs ys)

instance : Ord Version where
  compare v w := compareSegments v.segments w.segments

/-- Whether two versions have the same numbers. -/
def sameNumber (v w : Version) : Bool := compare v w == .eq

/-- Versions from the lowest to the highest; equal ones keep their order. -/
def sort (versions : List Version) : List Version :=
  versions.mergeSort fun v w => compare v w != .gt

/-- Keeps the first of each run of versions with the same numbers. -/
def firstOfRuns : List Version → List Version
  | [] => []
  | v :: rest => v :: firstOfRuns (rest.dropWhile v.sameNumber)
  termination_by versions => versions.length
  decreasing_by
    exact Nat.lt_succ_of_le (List.dropWhile_sublist _).length_le

/-- The versions in order, each number once. -/
def distinct (versions : List Version) : List Version := firstOfRuns (sort versions)

end Promotion.Version
