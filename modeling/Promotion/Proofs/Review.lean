import Promotion.Proofs.Latest
import Promotion.Review

/-!
# `Promotion.Proofs.Review`: what a review clears, and how it ends

A review walks through the source packages and looks at each one's latest
counterpart in the destination. The walk is opened here once, one lemma for
each way a step can go (`against_cons_of_clears`,
`against_skip_cons_of_not_clears`, `against_abort_cons_of_not_clears`), and
summed up for whole lists (`against_skip`, `against_abort_of_forall`,
`against_abort_of_first`).

* `clears_latestPerName_iff`: a package is cleared exactly when every
  package of its name in the destination yields to it (`MayEnter`), although
  the review looks at only one of them.
* `Package.mayEnter_iff_of_mem`: what is there already may enter once more only
  as a snapshot on a par with the latest package.
* `review_skip_outcome_eq_filter`: the packages cleared under the policy
  `skip`, without the reduction to the latest ones.
* `review_abort_lockstep`: the review under `abort` is the one under `skip`
  up to the first package left out, in its outcome and in its trail.
-/

set_option autoImplicit false

namespace Promotion

/-- Every package of the name of `p` in an environment yields to `p`. -/
def Package.MayEnter (p : Package) (environment : List Package) : Prop :=
  ∀ q ∈ environment, q.name = p.name → q.YieldsTo p

instance (p : Package) (environment : List Package) : Decidable (p.MayEnter environment) :=
  inferInstanceAs (Decidable (∀ q ∈ environment, q.name = p.name → q.YieldsTo p))

namespace Review

section Walk
variable (latest : List Package)

/-- Whether the latest packages let a source package through: there is none
of its name, or it may overwrite the one there is. -/
def clears (source : Package) : Bool :=
  (Latest.find? latest source.name).all (mayOverwrite source)

/-- The decision on a source package when none ends the review. -/
def evaluate (source : Package) : Evaluation where
  verdict := if clears latest source then .pass else .skip
  source := source
  destination := Latest.find? latest source.name

variable {latest}

/-- A package that is not cleared has a latest counterpart that it may not
overwrite. -/
theorem exists_find?_of_not_clears {source : Package} (h : clears latest source = false) :
    ∃ current, Latest.find? latest source.name = some current ∧
      mayOverwrite source current = false := by
  cases hfind : Latest.find? latest source.name with
  | none => simp [clears, hfind] at h
  | some current => exact ⟨current, rfl, by simpa [clears, hfind] using h⟩

/-- The decision on a package that is not cleared. -/
theorem evaluate_of_not_clears {source current : Package}
    (hfind : Latest.find? latest source.name = some current)
    (hmay : mayOverwrite source current = false) :
    evaluate latest source = ⟨.skip, source, some current⟩ := by
  have hclears : clears latest source = false := by simp [clears, hfind, hmay]
  rw [evaluate, hclears, hfind]
  rfl

/-- The step over a package that is cleared. -/
theorem against_cons_of_clears (policy : FailurePolicy) {source : Package} (rest : List Package)
    (h : clears latest source = true) :
    against policy latest (source :: rest)
      = passing (Latest.find? latest source.name) source (against policy latest rest) := by
  rw [against]
  cases hfind : Latest.find? latest source.name with
  | none => rfl
  | some current =>
    have hmay : mayOverwrite source current = true := by simpa [clears, hfind] using h
    simp [hmay]

/-- The step over a package that is left out. -/
theorem against_skip_cons_of_not_clears {source current : Package} (rest : List Package)
    (hfind : Latest.find? latest source.name = some current)
    (hmay : mayOverwrite source current = false) :
    against .skip latest (source :: rest)
      = skipping current source (against .skip latest rest) := by
  simp [against, hfind, hmay]

/-- The step that ends a review under `abort`. -/
theorem against_abort_cons_of_not_clears {source current : Package} (rest : List Package)
    (hfind : Latest.find? latest source.name = some current)
    (hmay : mayOverwrite source current = false) :
    against .abort latest (source :: rest) = failing current source := by
  simp [against, hfind, hmay]

/-- A whole review under `skip`: every package is decided upon by itself, and
those that are cleared are handed out. -/
theorem against_skip (sources : List Package) :
    against .skip latest sources
      = ⟨sources.map (evaluate latest), .ok (sources.filter (clears latest))⟩ := by
  -- By induction on the sources: each is cleared or left out, and the rest goes on in both cases.
  induction sources with
  | nil => rfl
  | cons source rest ih =>
    cases h : clears latest source with
    | true =>
      rw [against_cons_of_clears .skip rest h, ih]
      simp [passing, evaluate, h, Except.map]
    | false =>
      obtain ⟨current, hfind, hmay⟩ := exists_find?_of_not_clears h
      rw [against_skip_cons_of_not_clears rest hfind hmay, ih]
      simp [skipping, evaluate, h, hfind]

/-- Under `abort` the packages in front that are cleared are decided upon as
under `skip`, and the rest of the review follows. -/
theorem against_abort_append {before : List Package} (after : List Package)
    (h : ∀ source ∈ before, clears latest source = true) :
    against .abort latest (before ++ after)
      = ⟨before.map (evaluate latest) ++ (against .abort latest after).evaluations,
          (against .abort latest after).outcome.map (before ++ ·)⟩ := by
  -- By induction on the packages in front, all of which are cleared.
  induction before with
  | nil =>
    rw [List.nil_append, List.map_nil, List.nil_append]
    cases against .abort latest after with
    | mk evaluations outcome => cases outcome <;> rfl
  | cons source rest ih =>
    have hsource := h source List.mem_cons_self
    rw [List.cons_append, against_cons_of_clears .abort _ hsource,
      ih fun s hs => h s (List.mem_cons_of_mem source hs)]
    cases hout : (against .abort latest after).outcome <;>
      simp [passing, evaluate, hsource, Except.map]

/-- A review under `abort` of packages that are all cleared is the one under
`skip`. -/
theorem against_abort_of_forall {sources : List Package}
    (h : ∀ source ∈ sources, clears latest source = true) :
    against .abort latest sources = ⟨sources.map (evaluate latest), .ok sources⟩ := by
  simpa [against, Except.map] using against_abort_append [] h

/-- A review under `abort` that succeeds has cleared every package. -/
theorem forall_clears_of_against_abort {sources cleared : List Package}
    (h : (against .abort latest sources).outcome = .ok cleared) :
    cleared = sources ∧ ∀ source ∈ sources, clears latest source = true := by
  induction sources generalizing cleared with
  | nil =>
    obtain rfl : [] = cleared := Except.ok.inj h
    exact ⟨rfl, fun _ hs => nomatch hs⟩
  | cons source rest ih =>
    cases hsource : clears latest source with
    | true =>
      -- The rest must have succeeded too, for this step only adds in front.
      rw [against_cons_of_clears .abort rest hsource, passing] at h
      cases hrest : (against .abort latest rest).outcome with
      | error regression => simp [hrest, Except.map] at h
      | ok clearedRest =>
        obtain ⟨rfl, hall⟩ := ih hrest
        rw [hrest] at h
        exact ⟨(Except.ok.inj h).symm, List.forall_mem_cons.mpr ⟨hsource, hall⟩⟩
    | false =>
      obtain ⟨current, hfind, hmay⟩ := exists_find?_of_not_clears hsource
      rw [against_abort_cons_of_not_clears rest hfind hmay] at h
      exact nomatch h

/-- A review under `abort` ends at the first package that is not cleared. -/
theorem against_abort_of_first {before : List Package} {source current : Package}
    (after : List Package) (h : ∀ s ∈ before, clears latest s = true)
    (hfind : Latest.find? latest source.name = some current)
    (hmay : mayOverwrite source current = false) :
    against .abort latest (before ++ source :: after)
      = ⟨before.map (evaluate latest) ++ [⟨.fail, source, some current⟩],
          .error (.ofPackages source current)⟩ := by
  rw [against_abort_append _ h, against_abort_cons_of_not_clears after hfind hmay]
  rfl

end Walk

/-- A source package is among the cleared ones exactly when the latest packages
let it through. -/
theorem mem_filter_clears_iff {latest source : List Package} {s : Package} (hs : s ∈ source) :
    s ∈ source.filter (clears latest) ↔ clears latest s = true := by
  rw [List.mem_filter, and_iff_right hs]

/-- The first source package that is not among the cleared ones: those in
front of it are let through, and it is not. -/
theorem exists_first_left_out {latest source : List Package} {r : Package}
    (hfirst : (source.find? fun s => s ∉ source.filter (clears latest)) = some r) :
    ∃ before after, source = before ++ r :: after ∧
      (∀ s ∈ before, clears latest s = true) ∧ clears latest r = false := by
  obtain ⟨hr, before, after, hsource, hbefore⟩ := List.find?_eq_some_iff_append.mp hfirst
  -- `find?` speaks of `decide`d non-membership on both sides of the split.
  have hr' : r ∉ source.filter (clears latest) := of_decide_eq_true hr
  refine ⟨before, after, hsource, fun s hs => ?_, ?_⟩
  · have hs' : s ∈ source.filter (clears latest) := by simpa using hbefore s hs
    exact (List.mem_filter.mp hs').2
  · rw [mem_filter_clears_iff (by simp [hsource])] at hr'
    exact Bool.eq_false_iff.mpr hr'

/-- A whole review under `skip` against a destination. -/
theorem review_skip (source destination : List Package) :
    review .skip source destination
      = ⟨source.map (evaluate (latestPerName destination)),
          .ok (source.filter (clears (latestPerName destination)))⟩ :=
  against_skip source

/-- A review clears exactly the packages that everything of their name in the
destination yields to. The latest package of the name decides for all: it
has the highest rank, and what ranks no higher yields as well. -/
theorem clears_latestPerName_iff (destination : List Package) (source : Package) :
    clears (latestPerName destination) source = true ↔ source.MayEnter destination := by
  cases hfind : Latest.find? (latestPerName destination) source.name with
  | none =>
    rw [find?_latestPerName_eq_none_iff] at hfind
    have henter : source.MayEnter destination := fun q hq hname => absurd hname (hfind q hq)
    simp [clears, (find?_latestPerName_eq_none_iff _ _).mpr hfind, henter]
  | some current =>
    have hlatest := isLatest_of_find? hfind
    rw [clears, hfind, Option.all_some, Package.mayOverwrite_iff]
    constructor
    -- What yields to `source` is `current`, and all the others rank no higher.
    · intro hyields q hq hname
      exact hyields.of_isLE (hlatest.isLE q hq hname)
    · intro henter
      exact henter current hlatest.mem hlatest.name_eq

/-- The test of a review against a destination, without the reduction to its
latest packages. -/
theorem clears_latestPerName (destination : List Package) :
    clears (latestPerName destination) = fun s => decide (s.MayEnter destination) := by
  funext s
  rw [Bool.eq_iff_iff, clears_latestPerName_iff, decide_eq_true_iff]

end Review

/-- What may enter an environment may enter any part of it. -/
theorem Package.MayEnter.of_append {p : Package} {environment added : List Package}
    (h : p.MayEnter (environment ++ added)) : p.MayEnter environment :=
  fun q hq => h q (List.mem_append_left added hq)

/-- A package that is there already may enter once more exactly when it is a
snapshot and the latest package of its name is a snapshot of its number. -/
theorem Package.mayEnter_iff_of_mem {p : Package} {environment : List Package}
    (hp : p ∈ environment) :
    p.MayEnter environment ↔
      (p.snapshot && (Latest.find? (latestPerName environment) p.name).any fun latest =>
        latest.snapshot && p.version.sameNumber latest.version) = true := by
  obtain ⟨latest, hfind, hle⟩ := exists_find?_of_mem hp
  rw [Package.compareRank_isLE_iff] at hle
  rw [← Review.clears_latestPerName_iff, Review.clears, hfind, Option.all_some, Option.any_some,
    Package.mayOverwrite_iff, Package.YieldsTo, Std.OrientedOrd.eq_swap (a := latest.version),
    Version.sameNumber]
  -- The latest package is no older than `p`, so that it yields to `p` only as
  -- a snapshot of the same number; and then `p` is no release.
  obtain ⟨hversion, hrelease⟩ := hle
  cases hcompare : compare p.version latest.version with
  | lt => simp
  | gt => simp [hcompare] at hversion
  | eq =>
    cases hsnapshot : p.snapshot with
    | true => simp
    | false => simp [hrelease hcompare hsnapshot]

/-- What a strategy clears are the source packages that may enter the
destination, under either strategy. -/
theorem Strategy.eq_filter_of_clear {strategy : Strategy} {source destination : List Package}
    {cleared : List Package} (h : strategy.clear source destination = .ok cleared) :
    cleared = source.filter fun s => s.MayEnter destination := by
  rw [← Review.clears_latestPerName]
  cases strategy with
  | skipOldVersions =>
    rw [clear, Strategy.review, policy, Review.review_skip] at h
    exact (Except.ok.inj h).symm
  | forceLatestVersions =>
    obtain ⟨rfl, hall⟩ := Review.forall_clears_of_against_abort h
    exact (List.filter_eq_self.mpr hall).symm

/-- A review under `skip` never fails. It hands out, in order, exactly those
source packages that every package of their name in the destination is older
than, or has the number of and is a snapshot. That is: the source packages
that may overwrite each of them, and not only the latest one. -/
theorem review_skip_outcome_eq_filter (source destination : List Package) :
    (review .skip source destination).outcome
        = .ok (source.filter fun s => ∀ d ∈ destination, d.name = s.name →
            compare d.version s.version = .lt ∨
              compare d.version s.version = .eq ∧ d.snapshot = true) ∧
      (review .skip source destination).outcome
        = .ok (source.filter fun s => ∀ d ∈ destination, d.name = s.name →
            mayOverwrite s d = true) := by
  -- The two conditions on the pairs are the same.
  have hpairs : (fun s : Package => decide (s.MayEnter destination))
      = fun s => decide (∀ d ∈ destination, d.name = s.name → mayOverwrite s d = true) := by
    funext s
    rw [decide_eq_decide]
    simp only [Package.MayEnter, Package.mayOverwrite_iff]
  rw [Review.review_skip, Review.clears_latestPerName]
  exact ⟨rfl, by rw [hpairs]⟩

/-- Reviews under the two policies run in lock step.

Under `skip` the trail has, below the header, one line for each source
package in order: `PASS` for the cleared ones and `SKIP` for the others, with
the destination's latest version. What `abort` does depends on the first
source package `r` that is left out under `skip`. If there is none, both
reviews clear the whole source and leave the same trail. Else `abort` ends
with the regression of `r` against the latest package of its name. Its trail
is the one under `skip` cut before the line of `r`, and closed with the same
line as a `FAIL`. -/
theorem review_abort_lockstep (source destination : List Package) :
    ∃ cleared,
      (review .skip source destination).outcome = .ok cleared ∧
      (review .skip source destination).trail
        = Audit.header :: source.map (fun s => Evaluation.line
            ⟨if s ∈ cleared then .pass else .skip, s,
              Latest.find? (latestPerName destination) s.name⟩) ∧
      match source.find? fun s => s ∉ cleared with
      | none =>
        cleared = source ∧
        (review .abort source destination).outcome = .ok source ∧
        (review .abort source destination).trail = (review .skip source destination).trail
      | some r =>
        ∃ before after latest,
          source = before ++ r :: after ∧ (∀ s ∈ before, s ∈ cleared) ∧
          Latest.find? (latestPerName destination) r.name = some latest ∧
          (review .abort source destination).outcome
            = .error ⟨r.name, r.version, latest.version⟩ ∧
          (review .skip source destination).trail[before.length + 1]?
            = some (Evaluation.line ⟨.skip, r, some latest⟩) ∧
          (review .abort source destination).trail
            = (review .skip source destination).trail.take (before.length + 1)
                ++ [Evaluation.line ⟨.fail, r, some latest⟩] := by
  rw [Review.review_skip]
  refine ⟨source.filter (Review.clears (latestPerName destination)), rfl, ?_, ?_⟩
  · rw [Review.trail, Audit.trail, List.map_map]
    refine congrArg _ (List.map_congr_left fun s hs => ?_)
    simp only [Function.comp_apply, Review.evaluate, Review.mem_filter_clears_iff hs]
  · split
    · -- Nothing is left out, so the two reviews take the same steps.
      rename_i hnone
      have hall : ∀ s ∈ source, Review.clears (latestPerName destination) s = true := by
        intro s hs
        rw [← Review.mem_filter_clears_iff hs]
        simpa using List.find?_eq_none.mp hnone s hs
      rw [review, Review.against_abort_of_forall hall]
      exact ⟨List.filter_eq_self.mpr hall, rfl, rfl⟩
    · -- `abort` follows `skip` up to `r` and stops there.
      rename_i r hfirst
      obtain ⟨before, after, hsource, hbefore, hr⟩ := Review.exists_first_left_out hfirst
      obtain ⟨latest, hfind, hmay⟩ := Review.exists_find?_of_not_clears hr
      have habort : review .abort source destination
          = ⟨before.map (Review.evaluate (latestPerName destination))
                ++ [⟨.fail, r, some latest⟩], .error (.ofPackages r latest)⟩ := by
        rw [hsource]
        exact Review.against_abort_of_first after hbefore hfind hmay
      have hline := Review.evaluate_of_not_clears hfind hmay
      refine ⟨before, after, latest, hsource, fun s hs => ?_, hfind, ?_, ?_, ?_⟩
      · rw [Review.mem_filter_clears_iff (by simp [hsource, hs])]
        exact hbefore s hs
      · rw [habort]
        rfl
      · rw [Review.trail, Audit.trail, hsource]
        simp [hline]
      · rw [habort, Review.trail, Review.trail, Audit.trail, Audit.trail, hsource]
        simp

example :
    let fresh : Package := ⟨"new", ⟨[3], none, "3"⟩, false⟩
    let source : Package := ⟨"foo", ⟨[1, 0], none, "1.0"⟩, false⟩
    let latest : Package := ⟨"foo", ⟨[1, 1], some "SNAPSHOT", "1.1-SNAPSHOT"⟩, true⟩
    (review .abort [fresh, source, fresh] [latest]).evaluations
      = [⟨.pass, fresh, none⟩, ⟨.fail, source, some latest⟩] := by
  cbv

end Promotion
