import Mathlib.Order.Compare
import Promotion.Path.Basic

/-!
# `Promotion.Proofs.Path.Order`: paths are totally ordered

Rows of components are compared like words, with the components as letters, so
the laws of the order of paths are those of the lexicographic order:

* `Component.order_eq`: components are compared by their kind, and then by
  their text.
* `compareComponents_eq_compareLex`: the order of rows is lexicographic.
* the instance `TransCmp order` and `order_eq_eq_iff`: paths are totally
  ordered, up to having the same components.
-/

set_option autoImplicit false

namespace Promotion

open Promotion.Text (Bytes)

namespace Component

/-- The text of a component that is a name. -/
def text : Component → Bytes
  | name bytes => bytes
  | _ => []

/-- Components are ordered by their kind, and names by their bytes. -/
theorem order_eq (a b : Component) :
    a.order b = compareLex (compareOn rank) (compareOn text) a b := by
  cases a <;> cases b <;> rfl

instance : Std.TransCmp order := by
  have h : order = compareLex (compareOn rank) (compareOn text) :=
    funext fun a => funext fun b => order_eq a b
  rw [h]
  infer_instance

instance : Std.LawfulEqCmp order where
  compare_self := Std.ReflCmp.compare_self
  eq_of_compare {a b} h := by
    cases a <;> cases b <;> simp_all [order, rank]

end Component

namespace Path

/-- Lists of components are compared component by component. -/
theorem compareComponents_eq_compareLex (as bs : List Component) :
    compareComponents as bs = List.compareLex Component.order as bs := by
  induction as generalizing bs with
  | nil => cases bs <;> rfl
  | cons a as ih =>
    cases bs with
    | nil => rfl
    | cons b bs => rw [compareComponents, ih, List.compareLex_cons_cons]

/-- The order of paths is that of their components, one by one. -/
theorem order_eq (p q : Path) :
    p.order q = List.compareLex Component.order p.components q.components :=
  compareComponents_eq_compareLex _ _

instance : Std.TransCmp order where
  eq_swap {p q} := by
    rw [order_eq, order_eq]
    exact Std.OrientedCmp.eq_swap
  isLE_trans {p q r} hpq hqr := by
    rw [order_eq] at hpq hqr ⊢
    exact Std.TransCmp.isLE_trans hpq hqr

/-- Paths that the order does not tell apart are the same path. -/
theorem order_eq_eq_iff (p q : Path) : p.order q = .eq ↔ p.same q = true := by
  rw [order_eq, Std.LawfulEqCmp.compare_eq_iff_eq, same, beq_iff_eq]

/-- The order of two paths turns around with them. -/
theorem order_swap (p q : Path) : p.order q = (q.order p).swap := Std.OrientedCmp.eq_swap

/-- A path is as great as itself. -/
theorem order_self (p : Path) : p.order p = .eq := by
  rw [order_eq]
  exact Std.ReflCmp.compare_self

/-- Of two paths that are not the same, one is before the other. -/
theorem order_eq_lt_of_isLE {p q : Path} (hle : (p.order q).isLE) (hne : p.same q = false) :
    p.order q = .lt := by
  have hne : p.order q ≠ .eq := fun h =>
    Bool.false_ne_true (hne.symm.trans ((order_eq_eq_iff p q).mp h))
  cases h : p.order q with
  | lt => rfl
  | eq => exact absurd h hne
  | gt => simp [h] at hle

/-- Rows that ascend strictly by a path of their members are told by their
members. -/
theorem eq_of_perm_of_ascending {α : Type} (path : α → Path) {xs ys : List α} (hperm : xs.Perm ys)
    (hxs : xs.Pairwise fun a b => (path a).order (path b) = .lt)
    (hys : ys.Pairwise fun a b => (path a).order (path b) = .lt) : xs = ys := by
  refine hperm.eq_of_pairwise (fun a b _ _ hlt hgt => ?_) hxs hys
  -- Nothing is before and behind the same path.
  rw [order_swap, hgt] at hlt
  cases hlt

/-- What is in ascending order has nothing twice. -/
theorem nodup_of_ascending {α : Type} (path : α → Path) {xs : List α}
    (hxs : xs.Pairwise fun a b => (path a).order (path b) = .lt) : xs.Nodup := by
  refine hxs.imp fun {a b} hlt heq => ?_
  rw [heq, order_self] at hlt
  cases hlt

/-! ### Sorting -/

/-- Paths in the order of paths. -/
def sorted (paths : List Path) : List Path := paths.mergeSort fun p q => p.order q != .gt

/-- Sorting keeps the paths. -/
theorem perm_sorted (paths : List Path) : (sorted paths).Perm paths := List.mergeSort_perm _ _

/-- Sorting puts the paths in order. -/
theorem pairwise_sorted (paths : List Path) :
    (sorted paths).Pairwise fun p q => (p.order q).isLE := by
  have hle (p q : Path) : (p.order q != .gt) = (p.order q).isLE := by
    cases p.order q <;> rfl
  simp only [sorted, hle]
  refine List.pairwise_mergeSort (fun p q r => Std.TransCmp.isLE_trans) (fun p q => ?_) paths
  rw [order_swap q p]
  cases p.order q <;> rfl

/-- Two paths are the same in both directions. -/
theorem same_comm (p q : Path) : p.same q = q.same p := Bool.beq_comm

/-- Where no path stands twice, each one is before the next. -/
theorem ascending_sorted {paths : List Path} (h : paths.Pairwise fun p q => p.same q = false) :
    (sorted paths).Pairwise fun p q => p.order q = .lt := by
  have hne : (sorted paths).Pairwise fun p q => p.same q = false :=
    (perm_sorted paths).symm.pairwise h fun {p q} hpq => by rwa [same_comm]
  exact (pairwise_sorted paths).imp₂ (fun _ _ => order_eq_lt_of_isLE) hne

/-- Sorting forgets the order in which the paths came. -/
theorem sorted_eq_of_perm {paths others : List Path} (hperm : paths.Perm others)
    (h : paths.Pairwise fun p q => p.same q = false) : sorted paths = sorted others := by
  have hothers : others.Pairwise fun p q => p.same q = false :=
    hperm.pairwise h fun {p q} hpq => by rwa [same_comm]
  have hperm' : (sorted paths).Perm (sorted others) :=
    ((perm_sorted paths).trans hperm).trans (perm_sorted others).symm
  exact eq_of_perm_of_ascending id hperm' (ascending_sorted h) (ascending_sorted hothers)

end Path

end Promotion
