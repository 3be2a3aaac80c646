import Promotion.Proofs.Agreement

/-!
# `Promotion.Proofs.Latest.First`: the first of the best is kept

The latest packages are made by entering one package after the other. A package
takes the place of the one that is kept under its name only when it outranks it,
so of several best packages the first one stays.

* `nodup_map_name_latestPerName`, `mem_map_name_latestPerName_iff`: one package
  for each name of the environment.
* `FirstBestAt`: the earliest package of a name that no other one is better than.
* `exists_split_of_find?`: the invariant, with the place of the kept package.
  What is in front of it is outranked by it, what is behind it does not outrank it.
* `find?_latestPerName_eq_some_iff`: so the first of the best is what is found.
-/

set_option autoImplicit false

namespace Promotion

/-! ### One package per name -/

namespace Latest

/-- Entering a package adds its name at the end, unless it is there. -/
theorem map_name_enter (package : Package) (latest : List Package) :
    (enter package latest).map Package.name
      = if package.name ∈ latest.map Package.name then latest.map Package.name
        else latest.map Package.name ++ [package.name] := by
  induction latest with
  | nil => rfl
  | cons current rest ih =>
    by_cases hname : current.name = package.name
    · -- Whichever of the two is kept, it has the name that was there.
      have hkept : (if package.supersedes current then package else current).name = current.name := by
        split
        · exact hname.symm
        · rfl
      simp [enter, hname, hkept]
    · by_cases hrest : package.name ∈ rest.map Package.name
      · rw [if_pos hrest] at ih
        simp [enter, hname, ih, List.mem_cons_of_mem _ hrest]
      · rw [if_neg hrest] at ih
        have hnotMem : package.name ∉ (current :: rest).map Package.name := by
          rw [List.map_cons, List.mem_cons, not_or]
          exact ⟨Ne.symm hname, hrest⟩
        rw [if_neg hnotMem]
        simp [enter, hname, ih]

end Latest

/-- No two of the latest packages have one name. -/
theorem nodup_map_name_latestPerName (environment : List Package) :
    ((latestPerName environment).map Package.name).Nodup := by
  -- By induction from the end, since a package is entered after those before it.
  induction environment using List.reverseRecOn with
  | nil => exact List.nodup_nil
  | append_singleton environment p ih =>
    rw [latestPerName_concat, Latest.map_name_enter]
    split
    · exact ih
    next hname =>
      rw [List.nodup_append]
      refine ⟨ih, by simp, fun other hother b hb heq => hname ?_⟩
      rwa [← List.mem_singleton.mp hb, ← heq]

/-- The latest packages have the names of the environment. -/
theorem mem_map_name_latestPerName_iff (environment : List Package) (name : String) :
    name ∈ (latestPerName environment).map Package.name ↔ name ∈ environment.map Package.name := by
  have hnone := find?_latestPerName_eq_none_iff environment name
  simp only [Latest.find?, List.find?_eq_none, decide_eq_true_eq] at hnone
  rw [List.mem_map, List.mem_map, ← not_iff_not, not_exists, not_exists]
  simpa only [not_and] using hnone

/-! ### The first of the best -/

/-- `p` is no better than `q`: it is older, or it has the same number, and then
it is a snapshot or `q` is a release. -/
def Package.NoBetterThan (p q : Package) : Prop :=
  compare p.version q.version = .lt ∨
    compare p.version q.version = .eq ∧ (p.snapshot = true ∨ q.snapshot = false)

/-- A package is no better than those of at least its rank. -/
theorem Package.noBetterThan_iff (p q : Package) : p.NoBetterThan q ↔ (p.compareRank q).isLE := by
  rw [compareRank_isLE_iff, NoBetterThan]
  cases compare p.version q.version <;> cases p.snapshot <;> simp

/-- `p` stands between `before` and `after` in an environment and has a name, and
no other package of that name is better. -/
structure BestAt (environment : List Package) (name : String) (before : List Package)
    (p : Package) (after : List Package) : Prop where
  environment_eq : environment = before ++ p :: after
  name_eq : p.name = name
  noBetter : ∀ q ∈ before ++ after, q.name = name → q.NoBetterThan p

/-- `p` is the earliest package of its name that no other one is better than. -/
structure FirstBestAt (environment : List Package) (name : String) (before : List Package)
    (p : Package) (after : List Package) : Prop extends
    BestAt environment name before p after where
  first : ∀ before' p' after', BestAt environment name before' p' after' →
    before.length ≤ before'.length

/-- Of two packages that stand in one list, the one further to the front is in
front of the other, which is behind it. -/
theorem mem_of_append_cons_eq {α : Type} {before before' after after' : List α} {a a' : α}
    (h : before ++ a :: after = before' ++ a' :: after') (hlt : before'.length < before.length) :
    a' ∈ before ∧ a ∈ after' := by
  obtain ⟨middle, rfl, -⟩ | ⟨middle, rfl, hrest⟩ := List.append_eq_append_iff.mp h
  · rw [List.length_append] at hlt
    omega
  · cases middle with
    | nil => simp at hlt
    | cons first middle =>
      cases hrest
      simp

/-- What is found under a name outranks what stands in front of it under that
name, and nothing behind it outranks it. -/
theorem exists_split_of_find? {environment : List Package} {name : String} {p : Package}
    (hfind : Latest.find? (latestPerName environment) name = some p) :
    ∃ before after, environment = before ++ p :: after ∧
      (∀ q ∈ before, q.name = name → q.compareRank p = .lt) ∧
      ∀ q ∈ after, q.name = name → (q.compareRank p).isLE := by
  induction environment using List.reverseRecOn generalizing p with
  | nil => simp [latestPerName, Latest.find?] at hfind
  | append_singleton environment q ih =>
    rw [latestPerName_concat, Latest.find?_enter] at hfind
    -- A package that was kept and is kept on has one more behind it.
    have hkeep (hfound : Latest.find? (latestPerName environment) name = some p)
        (hq : q.name = name → (q.compareRank p).isLE) :
        ∃ before after, environment ++ [q] = before ++ p :: after ∧
          (∀ r ∈ before, r.name = name → r.compareRank p = .lt) ∧
          ∀ r ∈ after, r.name = name → (r.compareRank p).isLE := by
      obtain ⟨before, after, rfl, hbefore, hafter⟩ := ih hfound
      refine ⟨before, after ++ [q], by simp, hbefore, ?_⟩
      rw [List.forall_mem_append, List.forall_mem_singleton]
      exact ⟨hafter, hq⟩
    by_cases hname : q.name = name
    · rw [if_pos hname, Option.some.injEq] at hfind
      cases hfound : Latest.find? (latestPerName environment) name with
      | none =>
        -- `q` is the first package of the name.
        rw [hfound, Latest.kept] at hfind
        subst hfind
        rw [find?_latestPerName_eq_none_iff] at hfound
        exact ⟨environment, [], rfl, fun r hr hrname => absurd hrname (hfound r hr),
          List.forall_mem_nil _⟩
      | some current =>
        rw [hfound, Latest.kept] at hfind
        cases hsup : q.supersedes current with
        | true =>
          rw [hsup, if_pos rfl] at hfind
          subst hfind
          -- What does not outrank `current` is outranked by `q`.
          exact ⟨environment, [], rfl, fun r hr hrname => Std.TransCmp.lt_of_isLE_of_lt
            ((isLatest_of_find? hfound).isLE r hr hrname) ((q.supersedes_iff current).mp hsup),
            List.forall_mem_nil _⟩
        | false =>
          rw [hsup, if_neg Bool.false_ne_true] at hfind
          subst hfind
          exact hkeep hfound fun _ => (q.supersedes_eq_false_iff current).mp hsup
    · rw [if_neg hname] at hfind
      exact hkeep hfind fun h => absurd h hname

/-- What is found under a name is the first of the best of that name. -/
theorem exists_firstBestAt_of_find? {environment : List Package} {name : String} {p : Package}
    (hfind : Latest.find? (latestPerName environment) name = some p) :
    ∃ before after, FirstBestAt environment name before p after := by
  have hname := (isLatest_of_find? hfind).name_eq
  obtain ⟨before, after, heq, hbefore, hafter⟩ := exists_split_of_find? hfind
  refine ⟨before, after, ⟨heq, hname, fun q hq hqname => ?_⟩, fun before' q after' hbest => ?_⟩
  · rw [Package.noBetterThan_iff]
    rcases List.mem_append.mp hq with hq | hq
    · exact Ordering.isLE_of_eq_lt (hbefore q hq hqname)
    · exact hafter q hq hqname
  · -- Further to the front `q` would be outranked by `p`.
    by_contra hlt
    obtain ⟨hq, hp⟩ := mem_of_append_cons_eq (heq.symm.trans hbest.environment_eq)
      (Nat.lt_of_not_le hlt)
    have hle : (p.compareRank q).isLE :=
      (p.noBetterThan_iff q).mp (hbest.noBetter p (List.mem_append_right _ hp) hname)
    exact Std.OrientedCmp.not_lt_of_isLE hle (hbefore q hq hbest.name_eq)

/-- There is one first of the best of a name. -/
theorem FirstBestAt.unique {environment : List Package} {name : String}
    {before before' after after' : List Package} {p p' : Package}
    (h : FirstBestAt environment name before p after)
    (h' : FirstBestAt environment name before' p' after') :
    before = before' ∧ p = p' ∧ after = after' := by
  have hlength : before.length = before'.length :=
    Nat.le_antisymm (h.first before' p' after' h'.toBestAt) (h'.first before p after h.toBestAt)
  obtain ⟨hbefore, hrest⟩ :=
    List.append_inj (h.environment_eq.symm.trans h'.environment_eq) hlength
  exact ⟨hbefore, List.cons.inj hrest⟩

/-- What is found under a name is the first of its best packages. -/
theorem find?_latestPerName_eq_some_iff {environment : List Package} {name : String} {p : Package} :
    Latest.find? (latestPerName environment) name = some p ↔
      ∃ before after, FirstBestAt environment name before p after := by
  refine ⟨exists_firstBestAt_of_find?, ?_⟩
  rintro ⟨before, after, h⟩
  have hmem : p ∈ environment := by simp [h.environment_eq]
  obtain ⟨q, hfind, -⟩ := exists_find?_of_mem hmem
  rw [h.name_eq] at hfind
  obtain ⟨before', after', h'⟩ := exists_firstBestAt_of_find? hfind
  rw [hfind, (h.unique h').2.1]

namespace FirstBestAt

variable {environment : List Package} {name : String} {before after : List Package} {p : Package}

/-- No package of the name is better, the first of the best included. -/
theorem noBetter_of_mem (h : FirstBestAt environment name before p after) {q : Package}
    (hq : q ∈ environment) (hname : q.name = name) : q.NoBetterThan p := by
  rw [h.environment_eq, List.mem_append, List.mem_cons] at hq
  rcases hq with hq | rfl | hq
  · exact h.noBetter q (List.mem_append_left _ hq) hname
  · exact (q.noBetterThan_iff q).mpr Std.ReflCmp.isLE_rfl
  · exact h.noBetter q (List.mem_append_right _ hq) hname

/-- Nothing in front of the first of the best has its name, number and flag. -/
theorem agrees_eq_false_of_mem (h : FirstBestAt environment name before p after) {q : Package}
    (hq : q ∈ before) : q.agrees p = false := by
  rw [← Bool.not_eq_true]
  intro hagrees
  obtain ⟨hname, hrank⟩ := (q.agrees_iff p).mp hagrees
  obtain ⟨front, back, rfl⟩ := List.append_of_mem hq
  have heq : environment = front ++ q :: (back ++ p :: after) := by simp [h.environment_eq]
  -- A package that agrees with a best one is a best one itself.
  have hbest : BestAt environment name front q (back ++ p :: after) := by
    refine ⟨heq, hname.trans h.name_eq, fun r hr hrname => ?_⟩
    have hmem : r ∈ environment := by
      rw [heq, List.mem_append, List.mem_cons]
      rcases List.mem_append.mp hr with hr | hr
      · exact .inl hr
      · exact .inr (.inr hr)
    have hle := (r.noBetterThan_iff p).mp (h.noBetter_of_mem hmem hrname)
    rw [Package.noBetterThan_iff]
    exact Std.TransCmp.isLE_trans hle (Ordering.isLE_of_eq_eq (Std.OrientedCmp.eq_symm hrank))
  have hlength := h.first front q _ hbest
  rw [List.length_append, List.length_cons] at hlength
  omega

end FirstBestAt

/-- The latest packages of an environment are the first of the best of each name.

* There is one latest package for each name of the environment and for no other
  name.
* Under a name the earliest package is kept that no other package of the name is
  better than.
* So it is at least as new as every package of the name, it is a snapshot only if
  all those of its number are, and none in front of it has its number and flag. -/
theorem latestPerName_keeps_first_of_best (environment : List Package) :
    ((latestPerName environment).map Package.name).Nodup ∧
    (∀ name, name ∈ (latestPerName environment).map Package.name ↔
      name ∈ environment.map Package.name) ∧
    (∀ name p, Latest.find? (latestPerName environment) name = some p ↔
      ∃ before after, FirstBestAt environment name before p after) ∧
    ∀ name before p after, FirstBestAt environment name before p after →
      (∀ q ∈ environment, q.name = name → (compare q.version p.version).isLE) ∧
      (p.snapshot = true → ∀ q ∈ environment, q.name = name →
        compare q.version p.version = .eq → q.snapshot = true) ∧
      ∀ q ∈ before, q.agrees p = false := by
  refine ⟨nodup_map_name_latestPerName environment, mem_map_name_latestPerName_iff environment,
    fun name p => find?_latestPerName_eq_some_iff, fun name before p after h => ⟨?_, ?_, ?_⟩⟩
  · -- No package of the name is better, which says something of its version and of its kind.
    intro q hq hname
    rcases h.noBetter_of_mem hq hname with hlt | ⟨heq, -⟩
    · exact Ordering.isLE_of_eq_lt hlt
    · exact Ordering.isLE_of_eq_eq heq
  · intro hp q hq hname heq
    rcases h.noBetter_of_mem hq hname with hlt | ⟨-, hq | hrelease⟩
    · rw [heq] at hlt
      cases hlt
    · exact hq
    · rw [hp] at hrelease
      cases hrelease
  · intro q hq
    exact h.agrees_eq_false_of_mem hq

/-- Of two releases of one number the one that comes first is kept, behind a
snapshot of that number and a package of another name. -/
theorem latestPerName_keeps_first_of_best_foo :
    let snapshot : Package := ⟨"foo", ⟨[1, 2], some "SNAPSHOT", "1.2-SNAPSHOT"⟩, true⟩
    let bar : Package := ⟨"bar", ⟨[3], none, "3"⟩, false⟩
    let first : Package := ⟨"foo", ⟨[1, 2, 0], none, "1.2.0"⟩, false⟩
    let second : Package := ⟨"foo", ⟨[1, 2], none, "1.2"⟩, false⟩
    let environment := [snapshot, bar, first, second]
    FirstBestAt environment "foo" [snapshot, bar] first [second] ∧
      ∀ q ∈ environment, q.name = "foo" → (compare q.version first.version).isLE := by
  intro snapshot bar first second environment
  obtain ⟨-, -, hfound, hbest⟩ := latestPerName_keeps_first_of_best environment
  have hfind : Latest.find? (latestPerName environment) "foo" = some first := by cbv
  obtain ⟨before, after, h⟩ := (hfound "foo" first).mp hfind
  -- The package stands in one place only.
  obtain ⟨rfl, rfl⟩ : before = [snapshot, bar] ∧ after = [second] := by
    have heq := h.environment_eq
    rcases before with _ | ⟨a, _ | ⟨b, _ | ⟨c, _ | ⟨d, rest⟩⟩⟩⟩ <;>
      simp [environment, snapshot, bar, first, second] at heq
    obtain ⟨rfl, rfl, rfl⟩ := heq
    exact ⟨rfl, rfl⟩
  exact ⟨h, (hbest "foo" _ first _ h).1⟩

end Promotion
