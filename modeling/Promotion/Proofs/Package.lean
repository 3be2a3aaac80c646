import Promotion.Latest
import Promotion.Proofs.Version.Order
import Promotion.Review

/-!
# `Promotion.Proofs.Package`: the rank of packages of one name

`Package.supersedes` and `mayOverwrite` are two readings of one order. The
rank of a package is its version number, and of one number a release ranks
above a snapshot (`compareRank`).

* `supersedes_iff`: a package supersedes exactly the packages of lower rank.
* `mayOverwrite_iff`: a package may overwrite exactly those that yield to it
  (`YieldsTo`): the older ones, and the snapshots of its number.
* `yieldsTo_iff_compareRank`: to yield to a package is to rank below its
  release. What yields and what is superseded can therefore be compared:
  `YieldsTo` passes down the rank (`YieldsTo.of_isLE`), and a package that
  another one does not yield to ranks no higher (`isLE_of_not_yieldsTo`).
-/

set_option autoImplicit false

namespace Promotion.Package

instance : Std.TransCmp compareVersion :=
  inferInstanceAs (Std.TransCmp (compareOn Package.version))

/-- The rank of two packages of one name: by version number, and of one
number a release above a snapshot. -/
def compareRank : Package → Package → Ordering :=
  compareLex compareVersion fun p q => compare q.snapshot p.snapshot

instance : Std.TransCmp compareRank :=
  -- The flags are compared the other way round: a release has the flag `false`.
  have : Std.TransCmp fun p q : Package => compare q.snapshot p.snapshot :=
    inferInstanceAs (Std.TransCmp fun p q : Package => compareOn Package.snapshot q p)
  inferInstanceAs (Std.TransCmp (compareLex compareVersion _))

/-- `p` gives way to `q`: it is older, or a snapshot of the same number. -/
def YieldsTo (p q : Package) : Prop :=
  compare p.version q.version = .lt ∨ compare p.version q.version = .eq ∧ p.snapshot = true

instance (p q : Package) : Decidable (p.YieldsTo q) :=
  inferInstanceAs (Decidable (_ ∨ _))

/-- Lower rank, spelled out. -/
theorem compareRank_eq_lt_iff (p q : Package) :
    p.compareRank q = .lt ↔
      compare p.version q.version = .lt ∨
        compare p.version q.version = .eq ∧ p.snapshot = true ∧ q.snapshot = false := by
  have hflags : compare q.snapshot p.snapshot = .lt ↔ p.snapshot = true ∧ q.snapshot = false := by
    cases p.snapshot <;> cases q.snapshot <;> decide
  rw [compareRank, compareLex, Ordering.then_eq_lt, hflags]
  rfl

/-- No higher rank, spelled out. -/
theorem compareRank_isLE_iff (p q : Package) :
    (p.compareRank q).isLE ↔
      (compare p.version q.version).isLE ∧
        (compare p.version q.version = .eq → p.snapshot = false → q.snapshot = false) := by
  have hflags :
      (compare q.snapshot p.snapshot).isLE ↔ (p.snapshot = false → q.snapshot = false) := by
    cases p.snapshot <;> cases q.snapshot <;> decide
  rw [compareRank, compareLex, Ordering.isLE_then_iff_and, hflags]
  show (compare p.version q.version).isLE ∧ (compare p.version q.version = .lt ∨ _) ↔ _
  cases compare p.version q.version <;> simp

/-- A package supersedes exactly the packages of lower rank. -/
theorem supersedes_iff (p q : Package) : p.supersedes q = true ↔ q.compareRank p = .lt := by
  -- `supersedes` compares with the candidate on the left, the rank with it on
  -- the right.
  rw [compareRank_eq_lt_iff, supersedes, compareVersion,
    Std.OrientedOrd.eq_swap (a := q.version)]
  cases compare p.version q.version <;> simp

/-- A package that does not supersede another one ranks no higher. -/
theorem supersedes_eq_false_iff (p q : Package) :
    p.supersedes q = false ↔ (p.compareRank q).isLE := by
  rw [← Bool.not_eq_true, supersedes_iff]
  constructor
  · intro h
    by_contra hgt
    exact h (Std.OrientedCmp.lt_of_not_isLE hgt)
  · exact Std.OrientedCmp.not_lt_of_isLE

/-- A package may overwrite exactly what yields to it. -/
theorem mayOverwrite_iff (source latest : Package) :
    mayOverwrite source latest = true ↔ latest.YieldsTo source := by
  rw [mayOverwrite, YieldsTo, compareVersion]
  cases compare latest.version source.version <;> simp

/-- A package yields to another one when it ranks below the release of it. -/
theorem yieldsTo_iff_compareRank (p q : Package) :
    p.YieldsTo q ↔ p.compareRank { q with snapshot := false } = .lt := by
  rw [compareRank_eq_lt_iff, YieldsTo]
  simp

/-- No package ranks above its release. -/
theorem compareRank_release_isLE (p : Package) :
    (p.compareRank { p with snapshot := false }).isLE := by
  rw [compareRank_isLE_iff]
  exact ⟨Std.ReflOrd.isLE_rfl, fun _ _ => rfl⟩

/-- What ranks no higher than a package that yields also yields. -/
theorem YieldsTo.of_isLE {p q r : Package} (hqr : q.YieldsTo r) (hpq : (p.compareRank q).isLE) :
    p.YieldsTo r := by
  rw [yieldsTo_iff_compareRank] at hqr ⊢
  exact Std.TransCmp.lt_of_isLE_of_lt hpq hqr

/-- A package yields to every package of higher rank. -/
theorem yieldsTo_of_lt {p q : Package} (hpq : p.compareRank q = .lt) : p.YieldsTo q := by
  rw [yieldsTo_iff_compareRank]
  exact Std.TransCmp.lt_of_lt_of_isLE hpq (compareRank_release_isLE q)

/-- A package that another one does not yield to ranks no higher than it. -/
theorem isLE_of_not_yieldsTo {p q : Package} (h : ¬ p.YieldsTo q) : (q.compareRank p).isLE := by
  by_contra hgt
  exact h (yieldsTo_of_lt (Std.OrientedCmp.lt_of_not_isLE hgt))

end Promotion.Package
