import Mathlib.Data.List.TakeDrop
import Promotion.Version.Order

/-!
# `Promotion.Proofs.Version.Order`: versions form a total preorder

`compareSegments` pads the shorter row of numbers with zeros while it walks
both. Padding first and comparing after gives the same answer:

* `compareSegments_eq_compareLex`: on rows of at most `n` numbers the order
  is the lexicographic order of the rows brought to `n` numbers.
* the instance `TransOrd Version`: the order is oriented and transitive. It
  is carried over from the lexicographic order of lists, so every law of
  `Std.TransCmp` applies to versions.
-/

set_option autoImplicit false

namespace Promotion.Version

/-- One step of the walk over two rows; an exhausted row gives a zero and
stays exhausted. -/
theorem compareSegments_step (xs ys : List Nat) :
    compareSegments xs ys
      = (compare (xs.head?.getD 0) (ys.head?.getD 0)).then (compareSegments xs.tail ys.tail) := by
  cases xs with
  | nil => cases ys <;> simp [compareSegments]
  | cons x xs => cases ys <;> simp [compareSegments]

/-- Two rows of at most `n` numbers compare as their extensions by zeros to
exactly `n` numbers do in the lexicographic order. -/
theorem compareSegments_eq_compareLex (n : Nat) (xs ys : List Nat)
    (hx : xs.length ≤ n) (hy : ys.length ≤ n) :
    compareSegments xs ys = List.compareLex compare (xs.takeD n 0) (ys.takeD n 0) := by
  -- The induction is on `n` and not on the rows: in each step both lose a
  -- number, and an exhausted one stays as it is.
  induction n generalizing xs ys with
  | zero =>
    obtain rfl := List.length_eq_zero_iff.mp (Nat.le_zero.mp hx)
    obtain rfl := List.length_eq_zero_iff.mp (Nat.le_zero.mp hy)
    simp [compareSegments, List.compareLex_nil_nil]
  | succ n ih =>
    have hx' : xs.tail.length ≤ n := by
      rw [List.length_tail]
      omega
    have hy' : ys.tail.length ≤ n := by
      rw [List.length_tail]
      omega
    rw [compareSegments_step, ih xs.tail ys.tail hx' hy', List.takeD_succ, List.takeD_succ,
      List.compareLex_cons_cons]

/-- Swapping two rows swaps the outcome. -/
theorem compareSegments_eq_swap (xs ys : List Nat) :
    compareSegments xs ys = (compareSegments ys xs).swap := by
  have hx : xs.length ≤ max xs.length ys.length := Nat.le_max_left _ _
  have hy : ys.length ≤ max xs.length ys.length := Nat.le_max_right _ _
  rw [compareSegments_eq_compareLex _ xs ys hx hy, compareSegments_eq_compareLex _ ys xs hy hx]
  exact Std.OrientedCmp.eq_swap

/-- A row that is at most a second one is at most whatever the second is at
most. -/
theorem compareSegments_isLE_trans (xs ys zs : List Nat)
    (hxy : (compareSegments xs ys).isLE) (hyz : (compareSegments ys zs).isLE) :
    (compareSegments xs zs).isLE := by
  -- One length for all three rows, so that the extensions of `ys` in the two
  -- hypotheses are the same list.
  let n := max xs.length (max ys.length zs.length)
  have hx : xs.length ≤ n := Nat.le_max_left _ _
  have hy : ys.length ≤ n := Nat.le_trans (Nat.le_max_left _ _) (Nat.le_max_right _ _)
  have hz : zs.length ≤ n := Nat.le_trans (Nat.le_max_right _ _) (Nat.le_max_right _ _)
  rw [compareSegments_eq_compareLex n xs ys hx hy] at hxy
  rw [compareSegments_eq_compareLex n ys zs hy hz] at hyz
  rw [compareSegments_eq_compareLex n xs zs hx hz]
  exact Std.TransCmp.isLE_trans hxy hyz

/-- Versions are totally preordered by their numbers. -/
instance : Std.TransOrd Version where
  eq_swap := compareSegments_eq_swap _ _
  isLE_trans := compareSegments_isLE_trans _ _ _

end Promotion.Version
