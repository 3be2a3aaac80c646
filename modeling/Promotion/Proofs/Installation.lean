import Promotion.Proofs.Review

/-!
# `Promotion.Proofs.Installation`: installing what was cleared, one by one

A review judges every source package against the destination as it was before
the batch. When the cleared packages are then installed one after the other,
each one also meets those of its own batch that came before it.

* `installs_iff`: a row of packages can be installed over an environment
  (`Installs`) exactly when each of its packages may overwrite those of its
  name there, and the row by itself is in order (`InOrder`).
* `clear_installs`: a review answers for the first half. The second is up to
  the source: a source in order gives a batch in order.
* `not_forall_clear_installs`: a source that names the newer version first
  takes the destination back.
-/

set_option autoImplicit false

namespace Promotion

/-- Installing packages one by one, each over the environment and over those
installed before it, overwrites only what may be overwritten. -/
def Installs (environment packages : List Package) : Prop :=
  ∀ (i : Nat) (q : Package), packages[i]? = some q →
    ∀ p ∈ environment ++ packages.take i, p.name = q.name → mayOverwrite q p = true

/-- Each package may overwrite the packages of its name that come before it. -/
def InOrder (packages : List Package) : Prop :=
  packages.Pairwise fun p q => p.name = q.name → mayOverwrite q p = true

/-- In order means in order up to every index. -/
theorem inOrder_iff (packages : List Package) :
    InOrder packages ↔ ∀ (i : Nat) (q : Package), packages[i]? = some q →
      ∀ p ∈ packages.take i, p.name = q.name → mayOverwrite q p = true := by
  rw [InOrder, List.pairwise_iff_getElem]
  -- The pairs of the list, once by both places and once by the later one.
  constructor
  · intro h i q hq p hp
    obtain ⟨hi, rfl⟩ := List.getElem?_eq_some_iff.mp hq
    obtain ⟨j, hj, rfl⟩ := List.mem_take_iff_getElem.mp hp
    exact h j i (by omega) hi (by omega)
  · intro h j i hj hi hlt
    refine h i packages[i] (List.getElem?_eq_getElem hi) packages[j] ?_
    exact List.mem_take_iff_getElem.mpr ⟨j, by omega, rfl⟩

/-- What the environment asks of a row of packages and what the row asks of
itself. -/
theorem installs_iff (environment packages : List Package) :
    Installs environment packages ↔
      (∀ q ∈ packages, ∀ p ∈ environment, p.name = q.name → mayOverwrite q p = true) ∧
        InOrder packages := by
  rw [inOrder_iff]
  -- What is there before a package comes from the environment or was installed before it.
  constructor
  · intro h
    refine ⟨fun q hq p hp => ?_, fun i q hi p hp => h i q hi p (List.mem_append_right _ hp)⟩
    obtain ⟨i, hi⟩ := List.mem_iff_getElem?.mp hq
    exact h i q hi p (List.mem_append_left _ hp)
  · rintro ⟨hover, horder⟩ i q hi p hp
    rcases List.mem_append.mp hp with hp | hp
    · exact hover q (List.mem_of_getElem? hi) p hp
    · exact horder i q hi p hp

/-- Packages with different names are in order. -/
theorem inOrder_of_nodup {packages : List Package}
    (h : (packages.map Package.name).Nodup) : InOrder packages := by
  rw [List.nodup_iff_pairwise_ne, List.pairwise_map] at h
  exact h.imp fun hne hname => absurd hname hne

/-- What a review clears, and what may be said of installing it in the order
in which it is returned.

* Each cleared package may overwrite every package of its name in the
  destination.
* Packages of one batch are not judged against each other: the batch can be
  installed one by one exactly when it is in order.
* It is in order when the source is, and so when no name comes twice. -/
theorem clear_installs (strategy : Strategy) (source destination cleared : List Package)
    (h : strategy.clear source destination = .ok cleared) :
    (∀ q ∈ cleared, ∀ p ∈ destination, p.name = q.name → mayOverwrite q p = true) ∧
      (Installs destination cleared ↔ InOrder cleared) ∧
      (InOrder source → Installs destination cleared) ∧
      ((source.map Package.name).Nodup → Installs destination cleared) := by
  have hcleared := Strategy.eq_filter_of_clear h
  have hover : ∀ q ∈ cleared, ∀ p ∈ destination, p.name = q.name → mayOverwrite q p = true := by
    intro q hq p hp hname
    rw [hcleared, List.mem_filter] at hq
    exact (Package.mayOverwrite_iff q p).mpr (of_decide_eq_true hq.2 p hp hname)
  have hiff : Installs destination cleared ↔ InOrder cleared := by
    rw [installs_iff, and_iff_right hover]
  -- A batch keeps the order of the source.
  have hsource (horder : InOrder source) : Installs destination cleared := by
    rw [hiff, hcleared]
    exact horder.sublist List.filter_sublist
  exact ⟨hover, hiff, hsource, fun hnodup => hsource (inOrder_of_nodup hnodup)⟩

/-- A snapshot of `foo` and then its release, over an older one: both are
cleared, and can be installed in this order. -/
theorem clear_installs_foo :
    let old : Package := ⟨"foo", ⟨[1, 1], none, "1.1"⟩, false⟩
    let snapshot : Package := ⟨"foo", ⟨[1, 2], some "SNAPSHOT", "1.2-SNAPSHOT"⟩, true⟩
    let release : Package := ⟨"foo", ⟨[1, 2, 0], none, "1.2.0"⟩, false⟩
    Strategy.forceLatestVersions.clear [snapshot, release] [old] = .ok [snapshot, release] ∧
      Installs [old] [snapshot, release] := by
  intro old snapshot release
  have h : Strategy.forceLatestVersions.clear [snapshot, release] [old]
      = .ok [snapshot, release] := by cbv
  -- The release comes after the snapshot of its own number.
  have horder : InOrder [snapshot, release] := by
    rw [InOrder, List.pairwise_pair]
    exact fun _ => by cbv
  exact ⟨h, (clear_installs _ _ _ _ h).2.2.1 horder⟩

/-- Not every batch can be installed in the order in which it is returned:
with nothing in the destination both `2.0` and `1.0` of `foo` are cleared, and
installing `1.0` last takes `foo` back. -/
theorem not_forall_clear_installs :
    ¬ ∀ (strategy : Strategy) (source destination cleared : List Package),
      strategy.clear source destination = .ok cleared → Installs destination cleared := by
  intro hall
  let newer : Package := ⟨"foo", ⟨[2, 0], none, "2.0"⟩, false⟩
  let older : Package := ⟨"foo", ⟨[1, 0], none, "1.0"⟩, false⟩
  have hclear : Strategy.skipOldVersions.clear [newer, older] [] = .ok [newer, older] := by cbv
  have hinstalls := hall _ _ _ _ hclear 1 older rfl newer (by simp) rfl
  have hmay : mayOverwrite older newer = false := by cbv
  rw [hmay] at hinstalls
  exact Bool.false_ne_true hinstalls

end Promotion
