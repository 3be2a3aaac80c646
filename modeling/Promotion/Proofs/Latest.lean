import Mathlib.Data.List.Induction
import Promotion.Proofs.Package

/-!
# `Promotion.Proofs.Latest`: what the latest package of a name is

`latestPerName` enters the packages of an environment one by one into a list
with one package per name. The lemmas look at that list through
`Latest.find?`, one name at a time.

* `find?_enter`: entering a package changes what is found under its own name
  and nothing else.
* `find?_latestPerName_eq_none_iff`, `isLatest_of_find?`: nothing is found
  under a name that no package has; what is found is a package of that name
  in the environment that no other one outranks (`IsLatest`).
* `exists_find?_of_mem`: every package has a latest one of its name that ranks
  at least as high.
* `latestPerName_append_filter`, `latestPerName_append_outranked`: packages
  that the environment outranks can be left out of an addition without any
  effect.
-/

set_option autoImplicit false

namespace Promotion

namespace Latest

/-- The package kept under its name when `package` is entered where
`current?` was kept. -/
def kept (package : Package) : Option Package → Package
  | none => package
  | some current => if package.supersedes current then package else current

/-- Entering a package changes only what is found under its name. -/
theorem find?_enter (package : Package) (latest : List Package) (name : String) :
    find? (enter package latest) name
      = if package.name = name then some (kept package (find? latest name))
        else find? latest name := by
  induction latest with
  | nil =>
    by_cases hname : package.name = name <;> simp [find?, enter, kept, hname]
  | cons current rest ih =>
    by_cases hcur : current.name = package.name
    · -- The package takes part in the place of `current`; both have one name.
      by_cases hname : package.name = name
      · by_cases hsup : package.supersedes current = true <;>
          simp [find?, enter, kept, hcur, hname, hsup]
      · by_cases hsup : package.supersedes current = true <;>
          simp [find?, enter, hcur, hname, hsup]
    · by_cases hname : current.name = name
      · subst hname
        simp [find?, enter, hcur, Ne.symm hcur]
      · simpa [find?, enter, hcur, hname] using ih

/-- A package that does not supersede the one kept under its name leaves the
list as it is. -/
theorem enter_eq_self (package current : Package) (latest : List Package)
    (hfind : find? latest package.name = some current)
    (hsup : package.supersedes current = false) : enter package latest = latest := by
  -- By induction on the entries, up to the one with the name.
  induction latest with
  | nil => simp [find?] at hfind
  | cons first rest ih =>
    by_cases hname : first.name = package.name
    · obtain rfl : first = current := by simpa [find?, hname] using hfind
      simp [enter, hname, hsup]
    · have hrest : find? rest package.name = some current := by
        simpa [find?, hname] using hfind
      simp [enter, hname, ih hrest]

end Latest

/-- `p` is a latest package of a name in an environment: it is there under
that name, and no package of the name has a higher rank. -/
structure IsLatest (environment : List Package) (name : String) (p : Package) : Prop where
  mem : p ∈ environment
  name_eq : p.name = name
  isLE : ∀ q ∈ environment, q.name = name → (q.compareRank p).isLE

/-- One more package is entered last. -/
theorem latestPerName_concat (environment : List Package) (p : Package) :
    latestPerName (environment ++ [p]) = Latest.enter p (latestPerName environment) := by
  simp [latestPerName]

/-- Nothing is found under a name exactly when no package has it. -/
theorem find?_latestPerName_eq_none_iff (environment : List Package) (name : String) :
    Latest.find? (latestPerName environment) name = none ↔
      ∀ p ∈ environment, p.name ≠ name := by
  induction environment using List.reverseRecOn with
  | nil => simp [latestPerName, Latest.find?]
  | append_singleton environment p ih =>
    rw [latestPerName_concat, Latest.find?_enter, List.forall_mem_append, ← ih]
    by_cases hname : p.name = name <;> simp [hname]

/-- A package that no package of its name outranks is the latest one when it
comes last. -/
theorem IsLatest.concat_self {environment : List Package} {name : String} {p : Package}
    (hname : p.name = name)
    (h : ∀ q ∈ environment, q.name = name → (q.compareRank p).isLE) :
    IsLatest (environment ++ [p]) name p where
  mem := by simp
  name_eq := hname
  isLE := by
    rw [List.forall_mem_append, List.forall_mem_singleton]
    exact ⟨h, fun _ => Std.ReflCmp.isLE_rfl⟩

/-- A latest package stays one when a package comes last that does not
outrank it, or has another name. -/
theorem IsLatest.concat {environment : List Package} {name : String} {current p : Package}
    (h : IsLatest environment name current)
    (hp : p.name = name → (p.compareRank current).isLE) :
    IsLatest (environment ++ [p]) name current where
  mem := List.mem_append_left _ h.mem
  name_eq := h.name_eq
  isLE := by
    rw [List.forall_mem_append, List.forall_mem_singleton]
    exact ⟨h.isLE, hp⟩

/-- What is found under a name is a latest package of that name. -/
theorem isLatest_of_find? {environment : List Package} {name : String} {p : Package}
    (hfind : Latest.find? (latestPerName environment) name = some p) :
    IsLatest environment name p := by
  induction environment using List.reverseRecOn generalizing p with
  | nil => simp [latestPerName, Latest.find?] at hfind
  | append_singleton environment q ih =>
    rw [latestPerName_concat, Latest.find?_enter] at hfind
    by_cases hname : q.name = name
    · rw [if_pos hname, Option.some.injEq] at hfind
      subst hfind
      cases hbefore : Latest.find? (latestPerName environment) name with
      | none =>
        -- `q` is the first package of the name.
        rw [find?_latestPerName_eq_none_iff] at hbefore
        exact IsLatest.concat_self hname fun r hr hrname => absurd hrname (hbefore r hr)
      | some current =>
        have hcurrent := ih hbefore
        rw [Latest.kept]
        cases hsup : q.supersedes current with
        | true =>
          have hlt : current.compareRank q = .lt := (q.supersedes_iff current).mp hsup
          -- What did not outrank `current` does not outrank `q` either.
          exact IsLatest.concat_self hname fun r hr hrname =>
            Std.TransCmp.isLE_trans (hcurrent.isLE r hr hrname) (Ordering.isLE_of_eq_lt hlt)
        | false => exact hcurrent.concat fun _ => (q.supersedes_eq_false_iff current).mp hsup
    · rw [if_neg hname] at hfind
      exact (ih hfind).concat fun h => absurd h hname

/-- Every package of an environment has a latest one of its name, which ranks
at least as high. -/
theorem exists_find?_of_mem {environment : List Package} {p : Package} (hp : p ∈ environment) :
    ∃ q, Latest.find? (latestPerName environment) p.name = some q ∧ (p.compareRank q).isLE := by
  cases hfind : Latest.find? (latestPerName environment) p.name with
  | none =>
    rw [find?_latestPerName_eq_none_iff] at hfind
    exact absurd rfl (hfind p hp)
  | some q => exact ⟨q, rfl, (isLatest_of_find? hfind).isLE p hp rfl⟩

/-- Packages that an environment holds an equal or a better one of can be
left out of an addition: the latest packages are the same. -/
theorem latestPerName_append_filter (environment added : List Package) (keep : Package → Bool)
    (h : ∀ p ∈ added, keep p = false →
      ∃ q ∈ environment, q.name = p.name ∧ (p.compareRank q).isLE) :
    latestPerName (environment ++ added.filter keep) = latestPerName (environment ++ added) := by
  induction added using List.reverseRecOn with
  | nil => rfl
  | append_singleton added p ih =>
    have ih := ih fun q hq => h q (List.mem_append_left _ hq)
    rw [← List.append_assoc, latestPerName_concat, ← ih]
    cases hkeep : keep p with
    | true =>
      have hfilter : (added ++ [p]).filter keep = added.filter keep ++ [p] := by
        simp [List.filter_append, hkeep]
      rw [hfilter, ← List.append_assoc, latestPerName_concat]
    | false =>
      -- The better package `q` is there from the start, so that `p` finds one
      -- it does not supersede.
      obtain ⟨q, hq, hname, hle⟩ := h p (by simp) hkeep
      obtain ⟨r, hfind, hqr⟩ :=
        exists_find?_of_mem (List.mem_append_left (added.filter keep) hq)
      rw [hname] at hfind
      have hsup : p.supersedes r = false :=
        (p.supersedes_eq_false_iff r).mpr (Std.TransCmp.isLE_trans hle hqr)
      have hfilter : (added ++ [p]).filter keep = added.filter keep := by
        simp [List.filter_append, hkeep]
      rw [hfilter, Latest.enter_eq_self p r _ hfind hsup]

/-- What an environment holds an equal or a better one of changes none of its
latest packages. -/
theorem latestPerName_append_outranked (environment added : List Package)
    (h : ∀ p ∈ added, ∃ q ∈ environment, q.name = p.name ∧ (p.compareRank q).isLE) :
    latestPerName (environment ++ added) = latestPerName environment := by
  have hnone : added.filter (fun _ => false) = [] := List.filter_eq_nil_iff.mpr (by simp)
  rw [← latestPerName_append_filter environment added (fun _ => false) fun p hp _ => h p hp,
    hnone, List.append_nil]

end Promotion
