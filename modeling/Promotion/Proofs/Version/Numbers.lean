import Mathlib.Data.List.DropRight
import Mathlib.Data.List.GetD
import Mathlib.Order.Compare
import Mathlib.Order.PiLex
import Promotion.Proofs.Version.Order

/-!
# `Promotion.Proofs.Version.Numbers`: versions compare by their numbers alone

The numbers of a version, extended by zeros without end, are a sequence
(`numberAt`). The order of versions is the lexicographic order of these
sequences, and nothing but the sequence matters to it.

* `compareSegments_compares`: the walk over two rows decides the lexicographic
  order of their extensions.
* `extended_inj_iff`: two rows have one extension exactly when they are the
  same without their trailing zeros.
* `compare_sees_numbers`: the laws of the order, all together.
-/

set_option autoImplicit false

namespace Promotion.Version

/-- A row of numbers, extended by zeros without end. -/
def extended (row : List Nat) (i : Nat) : Nat := row.getD i 0

/-- The numbers of a version, extended by zeros without end. -/
def numberAt (v : Version) : Nat → Nat := extended v.segments

/-! ### The lexicographic order -/

/-- The lexicographic order of two sequences is decided by their first numbers
and, where these are equal, by what comes after them. -/
theorem compares_then {f g : Nat → Nat} {o : Ordering}
    (h : o.Compares (toLex fun i => f (i + 1)) (toLex fun i => g (i + 1))) :
    ((compare (f 0) (g 0)).then o).Compares (toLex f) (toLex g) := by
  -- A first difference further on is a first difference of the whole.
  have hlater {f g : Nat → Nat} (hfirst : f 0 = g 0)
      (hlt : toLex (fun i => f (i + 1)) < toLex fun i => g (i + 1)) : toLex f < toLex g := by
    obtain ⟨i, hbefore, hi⟩ := hlt
    refine ⟨i + 1, fun j hj => ?_, hi⟩
    cases j with
    | zero => exact hfirst
    | succ j => exact hbefore j (Nat.lt_of_succ_lt_succ hj)
  cases hcompare : compare (f 0) (g 0) with
  | lt => exact ⟨0, fun j hj => absurd hj (Nat.not_lt_zero j), Nat.compare_eq_lt.mp hcompare⟩
  | gt => exact ⟨0, fun j hj => absurd hj (Nat.not_lt_zero j), Nat.compare_eq_gt.mp hcompare⟩
  | eq =>
    have hfirst : f 0 = g 0 := Nat.compare_eq_eq.mp hcompare
    cases o with
    | lt => exact hlater hfirst h
    | gt => exact hlater hfirst.symm h
    | eq =>
      refine congrArg toLex (funext fun i => ?_)
      cases i with
      | zero => exact hfirst
      | succ i => exact congrFun (toLex_inj.mp h) i

/-- The walk over two rows decides the lexicographic order of their extensions
by zeros. -/
theorem compareSegments_compares (xs ys : List Nat) :
    (compareSegments xs ys).Compares (toLex (extended xs)) (toLex (extended ys)) := by
  fun_induction compareSegments xs ys with
  | case1 => rfl
  | case2 y ys ih => exact compares_then (f := extended []) (g := extended (y :: ys)) ih
  | case3 x xs ih => exact compares_then (f := extended (x :: xs)) (g := extended []) ih
  | case4 x xs y ys ih =>
    exact compares_then (f := extended (x :: xs)) (g := extended (y :: ys)) ih

/-! ### Trailing zeros -/

/-- Trailing zeros are part of the extension. -/
theorem extended_rdropWhile (row : List Nat) :
    extended (row.rdropWhile (· == 0)) = extended row := by
  -- By induction from the end, where the zeros are.
  induction row using List.reverseRecOn with
  | nil => rfl
  | append_singleton row n ih =>
    by_cases hn : n = 0
    · subst hn
      rw [List.rdropWhile_concat_pos _ _ _ rfl, ih]
      funext i
      rcases Nat.lt_trichotomy i row.length with hi | rfl | hi
      · simp [extended, List.getElem?_append_left hi]
      · simp [extended]
      · have hlong : (row ++ [0]).length ≤ i := by
          rw [List.length_append, List.length_singleton]
          omega
        rw [extended, extended, List.getD_eq_default _ _ (Nat.le_of_lt hi),
          List.getD_eq_default _ _ hlong]
    · rw [List.rdropWhile_concat_neg _ _ _ (by simpa using hn)]

/-- Of two rows with one extension, one that does not end in a zero is not the
longer one. -/
theorem length_le_of_extended_eq {xs ys : List Nat} (h : extended xs = extended ys)
    (hlast : ∀ hne : xs ≠ [], xs.getLast hne ≠ 0) : xs.length ≤ ys.length := by
  by_contra hlt
  have hne : xs ≠ [] := by
    rintro rfl
    exact hlt (Nat.zero_le _)
  have hend : extended xs (xs.length - 1) = 0 := by
    rw [h, extended, List.getD_eq_default _ _ (by omega)]
  apply hlast hne
  rw [List.getLast_eq_getElem, ← hend, extended, List.getD_eq_getElem]

/-- Two rows have one extension exactly when they are the same without their
trailing zeros. -/
theorem extended_inj_iff (xs ys : List Nat) :
    extended xs = extended ys ↔ xs.rdropWhile (· == 0) = ys.rdropWhile (· == 0) := by
  -- Without the zeros at its end, a row ends where its last number is.
  have hlast (row : List Nat) (hne : row.rdropWhile (· == 0) ≠ []) :
      (row.rdropWhile (· == 0)).getLast hne ≠ 0 := by
    simpa using List.rdropWhile_last_not (· == 0) row hne
  constructor
  · intro h
    rw [← extended_rdropWhile xs, ← extended_rdropWhile ys] at h
    refine List.ext_getElem ?_ fun i hx hy => ?_
    · exact Nat.le_antisymm (length_le_of_extended_eq h (hlast xs))
        (length_le_of_extended_eq h.symm (hlast ys))
    · have hi := congrFun h i
      rwa [extended, extended, List.getD_eq_getElem _ _ hx, List.getD_eq_getElem _ _ hy] at hi
  · intro h
    rw [← extended_rdropWhile xs, ← extended_rdropWhile ys, h]

/-! ### The order of versions -/

/-- The order of versions is the lexicographic order of their numbers. -/
theorem compare_compares (v w : Version) :
    (compare v w).Compares (toLex v.numberAt) (toLex w.numberAt) :=
  compareSegments_compares v.segments w.segments

/-- Versions with the same number compare as equal. -/
theorem sameNumber_iff (v w : Version) : v.sameNumber w = true ↔ compare v w = .eq :=
  beq_iff_eq

/-- Versions with the same number have the same numbers in all places. -/
theorem sameNumber_iff_numberAt (v w : Version) :
    v.sameNumber w = true ↔ v.numberAt = w.numberAt := by
  rw [sameNumber_iff, (compare_compares v w).eq_eq]
  exact toLex_inj

/-- Comparing versions is a total preorder that sees exactly their numbers.

* It is oriented and transitive, strictly if one of the two steps is strict.
* It is the lexicographic order of the numbers, extended by zeros.
* Versions are equal exactly when their numbers are the same but for trailing
  zeros; this is an equivalence, and equal versions compare alike.
* Neither the qualifier nor the text has any influence. -/
theorem compare_sees_numbers (a b c : Version) :
    compare a b = (compare b a).swap ∧
    ((compare a b).isLE → (compare b c).isLE → (compare a c).isLE ∧
      (compare a b = .lt ∨ compare b c = .lt → compare a c = .lt)) ∧
    (compare a b).Compares (toLex a.numberAt) (toLex b.numberAt) ∧
    (a.sameNumber b = true ↔
      a.segments.rdropWhile (· == 0) = b.segments.rdropWhile (· == 0)) ∧
    Equivalence (fun v w : Version => v.sameNumber w = true) ∧
    (a.sameNumber b = true → compare a c = compare b c) ∧
    ∀ v w : Version, v.segments = a.segments → w.segments = b.segments →
      compare v w = compare a b := by
  -- The laws of the order, and what it sees of a version, part by part.
  refine ⟨Std.OrientedCmp.eq_swap, fun hab hbc => ⟨Std.TransCmp.isLE_trans hab hbc, ?_⟩,
    compare_compares a b, ?_, ⟨?_, ?_, ?_⟩, fun hab => ?_, fun v w hv hw => ?_⟩
  · rintro (hlt | hlt)
    · exact Std.TransCmp.lt_of_lt_of_isLE hlt hbc
    · exact Std.TransCmp.lt_of_isLE_of_lt hab hlt
  · rw [sameNumber_iff_numberAt]
    exact extended_inj_iff a.segments b.segments
  · intro v
    rw [sameNumber_iff_numberAt]
  · intro v w
    rw [sameNumber_iff_numberAt, sameNumber_iff_numberAt]
    exact Eq.symm
  · intro u v w
    rw [sameNumber_iff_numberAt, sameNumber_iff_numberAt, sameNumber_iff_numberAt]
    exact Eq.trans
  · exact Std.TransCmp.congr_left ((sameNumber_iff a b).mp hab)
  · show compareSegments v.segments w.segments = compareSegments a.segments b.segments
    rw [hv, hw]

/-- `1.2` and `1.2.0-SNAPSHOT` are equal, so they compare alike with `1.10`,
which is above both. -/
theorem compare_sees_numbers_padded :
    let a : Version := ⟨[1, 2], none, "1.2"⟩
    let b : Version := ⟨[1, 2, 0], some "SNAPSHOT", "1.2.0-SNAPSHOT"⟩
    let c : Version := ⟨[1, 10], none, "1.10"⟩
    a.sameNumber b = true ∧ compare a c = compare b c ∧ compare a c = .lt := by
  intro a b c
  obtain ⟨-, htrans, -, hsame, -, halike, -⟩ := compare_sees_numbers a b c
  have hab : a.sameNumber b = true := hsame.mpr rfl
  have hlt := (htrans (by cbv) (by cbv)).2 (.inr (by cbv))
  exact ⟨hab, halike hab, hlt⟩

end Promotion.Version
