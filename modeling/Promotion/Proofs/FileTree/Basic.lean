import Mathlib.Data.List.Basic
import Promotion.Proofs.Path

/-!
# `Promotion.Proofs.FileTree.Basic`: file systems as maps

A file system is a list of entries with their locations; the lemmas look at it
through `FileTree.get?`, one location at a time.

* `get?_insert_of_ne`, `get?_erase_of_ne`: a change at a location is seen there
  only.
* `mem_childNames_iff`, `pairwise_childNames`: the names in a directory are
  those that have an entry there, in strictly rising order.
* `FileTree.WellFormed`: what holds of every state of a real file system.
-/

set_option autoImplicit false

namespace Promotion.FileTree

variable {t : FileTree}

/-! ### Looking up entries -/

/-- The root is always there, and it is a directory. -/
@[simp] theorem get?_nil (t : FileTree) : t.get? [] = some .directory := rfl

/-- Any other place is looked up among the entries. -/
theorem get?_of_ne_nil {loc : Location} (h : loc ≠ []) :
    t.get? loc = (t.entries.find? fun e => e.1 = loc).map (·.2) := by
  rw [get?, if_neg h]

/-- An entry that was put into a place is found there. -/
theorem get?_insert_self {loc : Location} (h : loc ≠ []) (entry : Entry) :
    (t.insert loc entry).get? loc = some entry := by
  rw [get?_of_ne_nil h]
  simp [insert]

/-- A place that was cleared has nothing. -/
theorem get?_erase_self {loc : Location} (h : loc ≠ []) : (t.erase loc).get? loc = none := by
  rw [get?_of_ne_nil h]
  simp [erase]

/-- Clearing one place leaves all others. -/
theorem get?_erase_of_ne {loc other : Location} (h : other ≠ loc) :
    (t.erase loc).get? other = t.get? other := by
  by_cases hnil : other = []
  · rw [hnil, get?_nil, get?_nil]
  · rw [get?_of_ne_nil hnil, get?_of_ne_nil hnil, erase, List.find?_filter]
    congr 2
    funext e
    by_cases he : e.1 = other
    · simp [he, h]
    · simp [he]

/-- Putting an entry into one place leaves all others. -/
theorem get?_insert_of_ne {loc other : Location} (h : other ≠ loc) (entry : Entry) :
    (t.insert loc entry).get? other = t.get? other := by
  have herase : t.get? other = (t.erase loc).get? other := (get?_erase_of_ne h).symm
  rw [herase]
  by_cases hnil : other = []
  · rw [hnil, get?_nil, get?_nil]
  · rw [get?_of_ne_nil hnil, get?_of_ne_nil hnil]
    simp [insert, Ne.symm h]

/-- The two cases of a lookup after an entry was put in. -/
theorem get?_insert {loc other : Location} (hloc : loc ≠ []) (entry : Entry) :
    (t.insert loc entry).get? other = if other = loc then some entry else t.get? other := by
  split
  · rename_i h
    rw [h, get?_insert_self hloc]
  · rename_i h
    exact get?_insert_of_ne h entry

/-- The working directory stays the same. -/
@[simp] theorem current_insert (loc : Location) (entry : Entry) :
    (t.insert loc entry).current = t.current := rfl

/-! ### The names in a directory -/

/-- A location has a name in a directory when it is that name below it. -/
theorem nameIn?_eq_some_iff {dir loc : Location} {name : Name} :
    nameIn? dir loc = some name ↔ loc = dir ++ [name] := by
  unfold nameIn?
  -- The root has no name; any other location has its last one.
  cases hlast : loc.getLast? with
  | none =>
    obtain rfl := List.getLast?_eq_none_iff.mp hlast
    simp
  | some last =>
    constructor
    · intro h
      by_cases hloc : loc = dir ++ [last]
      · obtain rfl : last = name := by simpa [hloc] using h
        exact hloc
      · simp [hloc] at h
    · rintro rfl
      obtain rfl : name = last := by simpa using hlast
      simp

/-- The names in a directory are those under which there is an entry. -/
theorem mem_childNames_iff {dir : Location} {name : Name} :
    name ∈ t.childNames dir ↔ ∃ entry, t.get? (dir ++ [name]) = some entry := by
  have hne : dir ++ [name] ≠ [] := by simp
  rw [childNames, (List.mergeSort_perm _ _).mem_iff, List.mem_eraseDups, List.mem_filterMap,
    get?_of_ne_nil hne]
  simp only [nameIn?_eq_some_iff, Option.map_eq_some_iff]
  constructor
  · -- The entry that is found need not be this one, but there is one.
    rintro ⟨e, he, hloc⟩
    cases hfind : t.entries.find? fun e => e.1 = dir ++ [name] with
    | none =>
      rw [List.find?_eq_none] at hfind
      simpa [hloc] using hfind e he
    | some e' => exact ⟨e'.2, e', rfl, rfl⟩
  · rintro ⟨entry, e, hfind, -⟩
    exact ⟨e, List.mem_of_find?_eq_some hfind, by simpa using List.find?_some hfind⟩

/-- Without the repetitions no name comes twice. -/
theorem nodup_eraseDups (names : List Name) : names.eraseDups.Nodup := by
  match names with
  | [] => simp
  | name :: rest =>
    rw [List.eraseDups_cons, List.nodup_cons, List.mem_eraseDups]
    exact ⟨by simp, nodup_eraseDups _⟩
  termination_by names.length
  decreasing_by exact Nat.lt_succ_of_le (List.length_filter_le _ rest)

/-- The order of names is that of their bytes. -/
theorem nameLe_eq_isLE (a b : Name) : nameLe a b = (compare a b).isLE := by
  rw [nameLe]
  cases compare a b <;> rfl

/-- Names come in strictly rising order. -/
theorem pairwise_childNames (t : FileTree) (dir : Location) :
    (t.childNames dir).Pairwise fun a b => compare a b = .lt := by
  have hle : (t.childNames dir).Pairwise fun a b => nameLe a b = true := by
    apply List.pairwise_mergeSort
    · intro a b c hab hbc
      rw [nameLe_eq_isLE] at *
      exact Std.TransCmp.isLE_trans hab hbc
    · intro a b
      rw [nameLe_eq_isLE, nameLe_eq_isLE, Std.OrientedOrd.eq_swap (a := b)]
      cases compare a b <;> rfl
  have hne : (t.childNames dir).Pairwise (· ≠ ·) :=
    (List.mergeSort_perm _ _).nodup_iff.mpr (nodup_eraseDups _)
  -- In order and without repetition is strictly in order.
  refine hle.imp₂ (fun a b hab hne => ?_) hne
  rw [nameLe_eq_isLE] at hab
  exact (Ordering.isLE_iff_eq_lt_or_eq_eq.mp hab).resolve_right fun heq =>
    hne (Std.LawfulEqOrd.eq_of_compare heq)

/-! ### States of a real file system -/

/-- Every entry lies in a directory, and so does the work of the program. -/
structure Rooted (t : FileTree) : Prop where
  parent : ∀ dir name entry, t.get? (dir ++ [name]) = some entry → t.get? dir = some .directory
  current : t.get? t.current = some .directory

/-- Everything on the way to an entry is a directory. -/
theorem Rooted.get?_of_append (ht : t.Rooted) {dir names : Location}
    (h : t.get? (dir ++ names) = some .directory) : t.get? dir = some .directory := by
  induction names generalizing dir with
  | nil => simpa using h
  | cons name names ih =>
    rw [List.append_cons] at h
    exact ht.parent _ _ _ (ih h)

/-- The directory above a directory is one too. -/
theorem Rooted.dropLast (ht : t.Rooted) {dir : Location} (h : t.get? dir = some .directory) :
    t.get? dir.dropLast = some .directory := by
  by_cases hdir : dir = []
  · rw [hdir]
    rfl
  · rw [← List.dropLast_concat_getLast hdir] at h
    exact ht.parent _ _ _ h

/-- A path starts in a directory when it starts from one. -/
theorem get?_origin {dir : Location} (h : t.get? dir = some .directory) (p : Path) :
    t.get? (p.origin dir) = some .directory := by
  unfold Path.origin
  split
  · rfl
  · exact h

/-- A state that a file system can have: entries lie in directories and have
proper names, and the size of a file is a number of 64 bits. -/
structure WellFormed (t : FileTree) : Prop extends t.Rooted where
  proper : ∀ dir name entry, t.get? (dir ++ [name]) = some entry → ProperName name
  size : ∀ loc content executable, t.get? loc = some (.file content executable) →
    content.length < Nat.pow 2 64

/-- How many bytes an entry holds. -/
def entrySize : Entry → Nat
  | .file content _ => content.length
  | _ => 0

/-- An entry that is found is in the list. -/
theorem exists_mem_of_get? {loc : Location} {entry : Entry} (hloc : loc ≠ [])
    (h : t.get? loc = some entry) : ∃ e ∈ t.entries, e.1 = loc ∧ e.2 = entry := by
  rw [get?_of_ne_nil hloc, Option.map_eq_some_iff] at h
  obtain ⟨e, hfind, he⟩ := h
  exact ⟨e, List.mem_of_find?_eq_some hfind, by simpa using List.find?_some hfind, he⟩

/-- Whether a state is well-formed can be told from its list of entries. -/
theorem wellFormed_of_entries (hcurrent : t.get? t.current = some .directory)
    (h : ∀ e ∈ t.entries, t.get? e.1.dropLast = some .directory ∧
      (∀ n ∈ e.1.getLast?, ProperName n) ∧ entrySize e.2 < Nat.pow 2 64) : t.WellFormed where
  parent dir name entry hget := by
    -- What is found in a place is one of the entries, of which all conditions hold.
    obtain ⟨e, he, hloc, -⟩ := exists_mem_of_get? (by simp) hget
    simpa [hloc] using (h e he).1
  current := hcurrent
  proper dir name entry hget := by
    obtain ⟨e, he, hloc, -⟩ := exists_mem_of_get? (by simp) hget
    exact (h e he).2.1 name (by simp [hloc])
  size loc content executable hget := by
    have hloc : loc ≠ [] := by
      rintro rfl
      cases hget
    obtain ⟨e, he, -, hentry⟩ := exists_mem_of_get? hloc hget
    simpa [hentry, entrySize] using (h e he).2.2

end Promotion.FileTree
