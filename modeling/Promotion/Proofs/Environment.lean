import Promotion.Environment
import Promotion.Proofs.Review

/-!
# `Promotion.Proofs.Environment`: promotions as an environment grows

`Environment.run` takes an environment through any number of steps. Only a
withdrawal takes packages away; an installation adds what it is given, and a
promotion what its strategy clears.

* `latestPerName_append_cleared`: to add what was cleared gives the same
  latest packages as to add the whole source.
* `review_skip_repeated`: a second promotion of the same source adds only
  snapshots that stay replaceable, and a third one adds the same.
* `mem_run_of_mem`: packages stay unless their name is withdrawn.
* `run_keeps_releases`: a promotion adds no package that something of its
  name does not yield to. A release therefore stays the last word on its
  number and the numbers below, and the latest package of a name never loses
  rank.
-/

set_option autoImplicit false

namespace Promotion

/-- Adding only what a strategy cleared gives the latest packages that adding
the whole source gives. So none of them was left out; and each source
package has in the end a latest package of its name that is at least as new,
and is a release if it has the number of a source package that is one. -/
theorem latestPerName_append_cleared (strategy : Strategy) (source destination : List Package)
    (cleared : List Package) (h : strategy.clear source destination = .ok cleared) :
    latestPerName (destination ++ cleared) = latestPerName (destination ++ source) ∧
      (∀ name p, Latest.find? (latestPerName (destination ++ source)) name = some p →
        p ∈ destination ++ cleared) ∧
      ∀ s ∈ source, ∃ p,
        Latest.find? (latestPerName (destination ++ cleared)) s.name = some p ∧
        (compare s.version p.version).isLE ∧
        (compare s.version p.version = .eq → s.snapshot = false → p.snapshot = false) := by
  have hsame : latestPerName (destination ++ cleared) = latestPerName (destination ++ source) := by
    rw [Strategy.eq_filter_of_clear h]
    apply latestPerName_append_filter
    -- A package that was left out met one that does not yield to it.
    intro s _ hout
    have henter : ¬ s.MayEnter destination := of_decide_eq_false hout
    simp only [Package.MayEnter, not_forall] at henter
    obtain ⟨d, hd, hname, hyields⟩ := henter
    exact ⟨d, hd, hname, Package.isLE_of_not_yieldsTo hyields⟩
  refine ⟨hsame, fun name p hfind => ?_, fun s hs => ?_⟩
  · rw [← hsame] at hfind
    exact (isLatest_of_find? hfind).mem
  · obtain ⟨p, hfind, hle⟩ := exists_find?_of_mem (List.mem_append_right destination hs)
    rw [Package.compareRank_isLE_iff] at hle
    exact ⟨p, by rw [hsame, hfind], hle⟩

/-- A release of `foo` turns away a snapshot of its number, a snapshot of `bar`
gives way to its release, and `foo` moves on: the latest packages are as if
all had been added. -/
theorem latestPerName_append_cleared_foo_bar :
    let destination : List Package :=
      [⟨"foo", ⟨[1, 2], none, "1.2"⟩, false⟩, ⟨"bar", ⟨[2], some "SNAPSHOT", "2-SNAPSHOT"⟩, true⟩]
    let cleared : List Package :=
      [⟨"bar", ⟨[2, 0], none, "2.0"⟩, false⟩, ⟨"foo", ⟨[1, 10], none, "1.10"⟩, false⟩]
    let source : List Package :=
      ⟨"foo", ⟨[1, 2, 0], some "SNAPSHOT", "1.2.0-SNAPSHOT"⟩, true⟩ :: cleared
    Strategy.skipOldVersions.clear source destination = .ok cleared ∧
      latestPerName (destination ++ cleared) = latestPerName (destination ++ source) := by
  intro destination cleared source
  -- The first package is an old snapshot; the two others are cleared.
  have h : Strategy.skipOldVersions.clear source destination = .ok cleared := by cbv
  exact ⟨h, (latestPerName_append_cleared _ source destination cleared h).1⟩

/-- Promoting the same source again adds only what stays replaceable. A second
review clears, of what the first one cleared, the snapshots that have the
number of the latest package of their name, where that one is a snapshot as
well. So it clears nothing when the source holds no snapshot. Installing them
moves no latest package, and every further review clears them again. -/
theorem review_skip_repeated (source destination : List Package) :
    ∃ first second,
      (review .skip source destination).outcome = .ok first ∧
      (review .skip source (destination ++ first)).outcome = .ok second ∧
      second = first.filter (fun s => s.snapshot &&
        (Latest.find? (latestPerName (destination ++ first)) s.name).any fun latest =>
          latest.snapshot && s.version.sameNumber latest.version) ∧
      ((∀ s ∈ source, s.snapshot = false) → second = []) ∧
      latestPerName (destination ++ first ++ second) = latestPerName (destination ++ first) ∧
      (review .skip source (destination ++ first ++ second)).outcome = .ok second := by
  let first := source.filter fun s => s.MayEnter destination
  let second := source.filter fun s => s.MayEnter (destination ++ first)
  have hmem : ∀ s ∈ source, s.MayEnter destination → s ∈ destination ++ first := by
    intro s hs henter
    exact List.mem_append_right _ (List.mem_filter.mpr ⟨hs, decide_eq_true henter⟩)
  have hsecond : second = first.filter fun s => s.snapshot &&
      (Latest.find? (latestPerName (destination ++ first)) s.name).any fun latest =>
        latest.snapshot && s.version.sameNumber latest.version := by
    rw [List.filter_filter]
    refine List.filter_congr fun s hs => ?_
    rw [Bool.eq_iff_iff, decide_eq_true_iff, Bool.and_eq_true, decide_eq_true_iff]
    constructor
    · intro henter
      have hthere := hmem s hs henter.of_append
      exact ⟨(Package.mayEnter_iff_of_mem hthere).mp henter, henter.of_append⟩
    · rintro ⟨htie, henter⟩
      exact (Package.mayEnter_iff_of_mem (hmem s hs henter)).mpr htie
  have hlatest : latestPerName (destination ++ first ++ second)
      = latestPerName (destination ++ first) := by
    apply latestPerName_append_outranked
    intro s hs
    rw [hsecond] at hs
    exact ⟨s, List.mem_append_right _ (List.mem_filter.mp hs).1, rfl, Std.ReflCmp.isLE_rfl⟩
  refine ⟨first, second, ?_, ?_, hsecond, fun hreleases => ?_, hlatest, ?_⟩
  · rw [Review.review_skip, Review.clears_latestPerName]
  · rw [Review.review_skip, Review.clears_latestPerName]
  · rw [hsecond, List.filter_eq_nil_iff]
    intro s hs
    simp [hreleases s (List.mem_filter.mp hs).1]
  · -- A review looks at the latest packages only.
    rw [Review.review_skip, hlatest, Review.clears_latestPerName]

namespace Environment

/-- A run may be cut anywhere. -/
theorem run_append (environment : Environment) (past later : List Step) :
    environment.run (past ++ later) = (environment.run past).run later :=
  List.foldl_append

/-- A package is still there after a step that does not withdraw its name. -/
theorem mem_step_of_mem {environment : Environment} {p : Package} {s : Step}
    (hp : p ∈ environment) (hs : s ≠ .withdraw p.name) : p ∈ environment.step s := by
  cases s with
  | withdraw name =>
    have hname : p.name ≠ name := fun h => hs (by rw [h])
    simpa [step, hname] using hp
  | install packages => exact List.mem_append_left _ hp
  | promote strategy source => exact List.mem_append_left _ hp

/-- A package is still there after a run that does not withdraw its name. -/
theorem mem_run_of_mem {environment : Environment} {p : Package} {steps : List Step}
    (hp : p ∈ environment) (hsteps : .withdraw p.name ∉ steps) : p ∈ environment.run steps := by
  induction steps generalizing environment with
  | nil => exact hp
  | cons s rest ih =>
    rw [List.mem_cons, not_or] at hsteps
    exact ih (mem_step_of_mem hp (Ne.symm hsteps.1)) hsteps.2

/-- What a promotion adds may enter the environment as it is before it. -/
theorem mayEnter_of_mem_added {environment : Environment} {strategy : Strategy}
    {source : List Package} {q : Package}
    (hq : q ∈ environment.added (.promote strategy source)) : q.MayEnter environment := by
  cases hclear : strategy.clear source environment with
  | error regression => simp [added, hclear] at hq
  | ok cleared =>
    rw [added, hclear, Strategy.eq_filter_of_clear hclear, List.mem_filter] at hq
    exact of_decide_eq_true hq.2

/-- Over a run that does not withdraw a name, the latest package of the name
never loses rank. -/
theorem exists_find?_run {environment : Environment} {name : String} {p : Package}
    {steps : List Step} (hfind : Latest.find? (latestPerName environment) name = some p)
    (hsteps : .withdraw name ∉ steps) :
    ∃ q, Latest.find? (latestPerName (environment.run steps)) name = some q ∧
      (p.compareRank q).isLE := by
  obtain ⟨hmem, rfl, -⟩ := isLatest_of_find? hfind
  exact exists_find?_of_mem (mem_run_of_mem hmem hsteps)

/-- Promotions over whole runs. `past` are the steps so far and `later` any
steps after them that do not withdraw the name.

* A promotion adds only packages that everything of their name in the
  environment is older than, or has the number of and is a snapshot.
* Once a release is in the environment, no later promotion adds a package of
  its name with the same number or a lower one.
* The latest package of the name never moves to a lower number, nor from a
  release to a snapshot of the same number. -/
theorem run_keeps_releases (start : Environment) (past later : List Step)
    (strategy : Strategy) (source : List Package) (name : String)
    (hlater : .withdraw name ∉ later) :
    (∀ q ∈ (start.run past).added (.promote strategy source),
      ∀ p ∈ start.run past, p.name = q.name →
        compare p.version q.version = .lt ∨
          compare p.version q.version = .eq ∧ p.snapshot = true) ∧
    (∀ p ∈ start.run past, p.name = name → p.snapshot = false →
      ∀ q ∈ (start.run (past ++ later)).added (.promote strategy source), q.name = name →
        compare p.version q.version = .lt) ∧
    ∀ p, Latest.find? (latestPerName (start.run past)) name = some p →
      ∃ q, Latest.find? (latestPerName (start.run (past ++ later))) name = some q ∧
        (compare p.version q.version).isLE ∧
        (compare p.version q.version = .eq → p.snapshot = false → q.snapshot = false) := by
  refine ⟨fun q hq => mayEnter_of_mem_added hq, ?_, ?_⟩
  · -- The release is still there at the promotion, and a release yields to
    -- higher numbers only.
    rintro p hp rfl hrelease q hq hname
    have hthere : p ∈ start.run (past ++ later) := by
      rw [run_append]
      exact mem_run_of_mem hp hlater
    rcases mayEnter_of_mem_added hq p hthere hname.symm with hlt | ⟨-, hsnapshot⟩
    · exact hlt
    · exact absurd hsnapshot (by simp [hrelease])
  · intro p hfind
    rw [run_append]
    obtain ⟨q, hq, hle⟩ := exists_find?_run hfind hlater
    exact ⟨q, hq, (p.compareRank_isLE_iff q).mp hle⟩

/-- The release `1.0` of `foo` outlives a promotion of its snapshot and an
installation; what the strict strategy then adds is newer. -/
theorem run_keeps_releases_foo :
    let release : Package := ⟨"foo", ⟨[1, 0], none, "1.0"⟩, false⟩
    let snapshot : Package := ⟨"foo", ⟨[1], some "SNAPSHOT", "1-SNAPSHOT"⟩, true⟩
    let next : Package := ⟨"foo", ⟨[1, 1], none, "1.1"⟩, false⟩
    let past : List Step := [.promote .skipOldVersions [release]]
    let later : List Step :=
      [.withdraw "bar", .install [snapshot], .promote .skipOldVersions [snapshot]]
    .withdraw "foo" ∉ later ∧
      (run [] (past ++ later)).added (.promote .forceLatestVersions [next]) = [next] ∧
      compare release.version next.version = .lt := by
  intro release snapshot next past later
  have hlater : .withdraw "foo" ∉ later := by decide
  -- The later steps do not take the release away, so only a higher one is added.
  have hadded : (run [] (past ++ later)).added (.promote .forceLatestVersions [next]) = [next] := by
    cbv
  have hrelease : release ∈ run [] past := by
    have hrun : run [] past = [release] := by cbv
    simp [hrun]
  refine ⟨hlater, hadded, ?_⟩
  obtain ⟨-, hkeeps, -⟩ := run_keeps_releases [] past later .forceLatestVersions [next] "foo" hlater
  exact hkeeps release hrelease rfl rfl next (by simp [hadded]) rfl

end Environment
end Promotion
