import Mathlib.Data.List.Forall2
import Promotion.Proofs.Review

/-!
# `Promotion.Proofs.Agreement`: what a review takes notice of

Packages agree when they have the same name, version number and snapshot
flag (`Package.agrees`); that is, when they have one name and one rank. The
spelling of a version is left to the texts that are shown. Two environments
hold the same packages (`SamePackages`) when each package of the one agrees
with a package of the other, in any order and any number of times.

* `find?_latestPerName_agrees`: such environments have latest packages that
  agree, name by name.
* `Review.against_alike`: reviews against latest packages that agree are
  alike in every decision and in the outcome.
* `review_alike_of_samePackages`: both together.
-/

set_option autoImplicit false

namespace Promotion

/-- Packages agree when they have one name and one rank. -/
theorem Package.agrees_iff (p q : Package) :
    p.agrees q = true ↔ p.name = q.name ∧ p.compareRank q = .eq := by
  have hflags : compare q.snapshot p.snapshot = .eq ↔ p.snapshot = q.snapshot := by
    cases p.snapshot <;> cases q.snapshot <;> decide
  rw [agrees, compareRank, compareLex, Ordering.then_eq_eq, hflags, Bool.and_eq_true,
    Bool.and_eq_true, Version.sameNumber, beq_iff_eq, beq_iff_eq, beq_iff_eq, and_assoc]
  rfl

/-- Packages that agree may be overwritten by the same packages. -/
theorem Package.mayOverwrite_congr {p q : Package} (source : Package) (h : p.agrees q = true) :
    mayOverwrite source p = mayOverwrite source q := by
  have hrank := ((p.agrees_iff q).mp h).2
  rw [Bool.eq_iff_iff, mayOverwrite_iff, mayOverwrite_iff]
  constructor
  · intro hyields
    exact hyields.of_isLE (Ordering.isLE_of_eq_eq (Std.OrientedCmp.eq_symm hrank))
  · intro hyields
    exact hyields.of_isLE (Ordering.isLE_of_eq_eq hrank)

/-- The package kept under a name is the same one in two lists of latest
packages, up to the spelling of its version; or there is none in both. -/
def Latest.Agree (latest latest' : List Package) : Prop :=
  ∀ name, Option.Rel (fun p q => p.agrees q = true) (find? latest name) (find? latest' name)

/-- Two environments hold the same packages, up to order, repetition and the
spelling of versions. -/
structure SamePackages (environment environment' : List Package) : Prop where
  left : ∀ p ∈ environment, ∃ q ∈ environment', p.agrees q = true
  right : ∀ q ∈ environment', ∃ p ∈ environment, p.agrees q = true

/-- A latest package ranks no higher than a latest package of its name in an
environment that has an agreeing package. -/
theorem IsLatest.isLE_of_agrees {environment environment' : List Package} {name : String}
    {p p' : Package} (hp : IsLatest environment name p) (hp' : IsLatest environment' name p')
    (h : ∃ q ∈ environment', p.agrees q = true) : (p.compareRank p').isLE := by
  obtain ⟨q, hq, hagrees⟩ := h
  obtain ⟨hname, hrank⟩ := (p.agrees_iff q).mp hagrees
  have hqname : q.name = name := by rw [← hname, hp.name_eq]
  exact Std.TransCmp.isLE_trans (Ordering.isLE_of_eq_eq hrank) (hp'.isLE q hq hqname)

/-- Environments that hold the same packages have latest packages that agree. -/
theorem find?_latestPerName_agrees {environment environment' : List Package}
    (h : SamePackages environment environment') :
    Latest.Agree (latestPerName environment) (latestPerName environment') := by
  intro name
  cases hp : Latest.find? (latestPerName environment) name with
  | none =>
    rw [find?_latestPerName_eq_none_iff] at hp
    have hq : Latest.find? (latestPerName environment') name = none := by
      rw [find?_latestPerName_eq_none_iff]
      intro q hq hname
      obtain ⟨p, hmem, hagrees⟩ := h.right q hq
      exact hp p hmem (((p.agrees_iff q).mp hagrees).1.trans hname)
    rw [hq]
    exact .none
  | some p =>
    have hlatest := isLatest_of_find? hp
    obtain ⟨q, hq, hagrees⟩ := h.left p hlatest.mem
    obtain ⟨p', hp', -⟩ := exists_find?_of_mem hq
    rw [← ((p.agrees_iff q).mp hagrees).1, hlatest.name_eq] at hp'
    have hlatest' := isLatest_of_find? hp'
    obtain ⟨r, hr, hr'⟩ := h.right p' hlatest'.mem
    -- Each of the two ranks no higher than the other.
    have hle : (p.compareRank p').isLE := hlatest.isLE_of_agrees hlatest' ⟨q, hq, hagrees⟩
    have hge : (p'.compareRank p).isLE := by
      obtain ⟨hname, hrank⟩ := (r.agrees_iff p').mp hr'
      exact hlatest'.isLE_of_agrees hlatest
        ⟨r, hr, (p'.agrees_iff r).mpr ⟨hname.symm, Std.OrientedCmp.eq_symm hrank⟩⟩
    rw [hp']
    refine .some ((p.agrees_iff p').mpr ⟨?_, Std.OrientedCmp.isLE_antisymm hle hge⟩)
    rw [hlatest.name_eq, hlatest'.name_eq]

/-- Two regressions are of the same source package, against versions of one
number. -/
structure Regression.Alike (r r' : Regression) : Prop where
  name : r.name = r'.name
  sourceVersion : r.sourceVersion = r'.sourceVersion
  destinationVersion : r.destinationVersion.sameNumber r'.destinationVersion = true

/-- Two decisions are the same one on the same source package, against packages
that agree. -/
structure Evaluation.Alike (e e' : Evaluation) : Prop where
  verdict : e.verdict = e'.verdict
  source : e.source = e'.source
  destination : Option.Rel (fun p q => p.agrees q = true) e.destination e'.destination

/-- Two outcomes clear the very same packages, or stop at regressions that are
alike. -/
inductive SameOutcome :
    Except Regression (List Package) → Except Regression (List Package) → Prop where
  | cleared (packages : List Package) : SameOutcome (.ok packages) (.ok packages)
  | stopped {r r' : Regression} (h : r.Alike r') : SameOutcome (.error r) (.error r')

/-- One more package is cleared in front of outcomes that are the same. -/
theorem SameOutcome.map_cons {o o' : Except Regression (List Package)} (source : Package)
    (h : SameOutcome o o') : SameOutcome (o.map (source :: ·)) (o'.map (source :: ·)) := by
  cases h with
  | cleared packages => exact .cleared (source :: packages)
  | stopped h => exact .stopped h

/-- Two reviews differ at most in how the destination's versions are spelled. -/
structure Review.Alike (r r' : Review) : Prop where
  evaluations : List.Forall₂ Evaluation.Alike r.evaluations r'.evaluations
  outcome : SameOutcome r.outcome r'.outcome

/-- The regressions of a package against packages that agree are alike. -/
theorem Regression.ofPackages_alike {p q : Package} (source : Package)
    (h : p.agrees q = true) : (ofPackages source p).Alike (ofPackages source q) := by
  rw [Package.agrees, Bool.and_eq_true, Bool.and_eq_true] at h
  exact ⟨rfl, rfl, h.1.2⟩

/-- Reviews of the same packages against latest packages that agree are alike,
under either policy. -/
theorem Review.against_alike (policy : FailurePolicy) {latest latest' : List Package}
    (h : Latest.Agree latest latest') (sources : List Package) :
    (against policy latest sources).Alike (against policy latest' sources) := by
  -- Induction on the packages under review: on each of them both reviews decide the same.
  induction sources with
  | nil => exact ⟨.nil, .cleared []⟩
  | cons source rest ih =>
    have hfind := h source.name
    rw [against, against]
    cases hp : Latest.find? latest source.name with
    | none =>
      cases hq : Latest.find? latest' source.name with
      | some q => rw [hp, hq] at hfind; cases hfind
      | none => exact ⟨.cons ⟨rfl, rfl, .none⟩ ih.evaluations, ih.outcome.map_cons source⟩
    | some p =>
      cases hq : Latest.find? latest' source.name with
      | none => rw [hp, hq] at hfind; cases hfind
      | some q =>
        rw [hp, hq, Option.rel_some_some] at hfind
        simp only [← Package.mayOverwrite_congr source hfind]
        cases mayOverwrite source p with
        | true =>
          exact ⟨.cons ⟨rfl, rfl, .some hfind⟩ ih.evaluations, ih.outcome.map_cons source⟩
        | false =>
          cases policy with
          | skip => exact ⟨.cons ⟨rfl, rfl, .some hfind⟩ ih.evaluations, ih.outcome⟩
          | abort =>
            -- Both reviews stop here.
            have hstopped := Regression.ofPackages_alike source hfind
            exact ⟨.cons ⟨rfl, rfl, .some hfind⟩ .nil, .stopped hstopped⟩

/-- A review depends on the destination only as a set of names, version numbers
and snapshot flags. Against destinations that hold the same packages in this
sense, in any order, repeated or spelled in another way, the latest packages
agree name by name, and every strategy takes the same decisions: it clears
the very same packages, or stops at a regression of the same package and
source version against a destination version of the same number. -/
theorem review_alike_of_samePackages (strategy : Strategy) (source : List Package)
    {destination destination' : List Package} (h : SamePackages destination destination') :
    Latest.Agree (latestPerName destination) (latestPerName destination') ∧
      (strategy.review source destination).Alike (strategy.review source destination') := by
  have hlatest := find?_latestPerName_agrees h
  exact ⟨hlatest, Review.against_alike strategy.policy hlatest source⟩

/-- Another order, a repetition and another spelling of a destination: the
strict strategy stops at the same regression. -/
theorem review_alike_of_samePackages_foo_bar :
    let source : List Package := [⟨"foo", ⟨[1, 2], some "SNAPSHOT", "1.2-SNAPSHOT"⟩, true⟩]
    let foo : Package := ⟨"foo", ⟨[1, 2], none, "1.2"⟩, false⟩
    let foo' : Package := ⟨"foo", ⟨[1, 2, 0], some "rc1", "1.2.0-rc1"⟩, false⟩
    let bar : Package := ⟨"bar", ⟨[2], some "SNAPSHOT", "2-SNAPSHOT"⟩, true⟩
    SamePackages [foo, bar] [bar, foo', bar] ∧
      Strategy.forceLatestVersions.clear source [bar, foo', bar]
        = .error ⟨"foo", ⟨[1, 2], some "SNAPSHOT", "1.2-SNAPSHOT"⟩, foo'.version⟩ ∧
      SameOutcome (Strategy.forceLatestVersions.clear source [foo, bar])
        (Strategy.forceLatestVersions.clear source [bar, foo', bar]) := by
  intro source foo foo' bar
  have hfoo : foo.agrees foo' = true := by cbv
  have hbar : bar.agrees bar = true := by cbv
  -- The two lists differ in order, in number and in how a version is written.
  have hsame : SamePackages [foo, bar] [bar, foo', bar] :=
    ⟨by simp [hfoo, hbar], by simp [hfoo, hbar]⟩
  refine ⟨hsame, by cbv, ?_⟩
  exact (review_alike_of_samePackages .forceLatestVersions source hsame).2.outcome

end Promotion
