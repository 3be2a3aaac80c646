import Mathlib.Data.List.Induction
import Promotion.Proofs.FileTree.Unfolding

/-!
# `Promotion.Proofs.FileTree.Link`: where links below a directory lead

* `FileTree.LinksTo`: a link below a path leads to a location or above it.
* `prefix_or_linksTo`: whatever a path below a directory leads to is in that
  directory, unless a link leads there.
* `keepsOff_of_not_linksTo`: so the paths below a directory keep off a place
  outside if no link leads there.
-/

set_option autoImplicit false

namespace Promotion.FileTree

variable {t : FileTree} {path : Path} {home loc place : Location} {names : List Name}
  {entry : Entry}

/-- A link below a path leads to a location, or to a directory that it lies in. -/
def LinksTo (t : FileTree) (path : Path) (loc : Location) : Prop :=
  ∃ names origin target goal, names ≠ [] ∧ (∀ n ∈ names, ProperName n) ∧
    t.place false (path.descend names) = .ok (.entry origin (.link target)) ∧
    t.locate (path.descend names) = .ok goal ∧ goal <+: loc

/-- A link that leads to a place leads to all places below it. -/
theorem LinksTo.mono {inner : Location} (h : t.LinksTo path loc) (hbelow : loc <+: inner) :
    t.LinksTo path inner := by
  obtain ⟨names, origin, target, goal, hne, hproper, hlink, hgoal, habove⟩ := h
  exact ⟨names, origin, target, goal, hne, hproper, hlink, hgoal, habove.trans hbelow⟩

/-- What a path below a directory leads to lies in the directory, unless a link
leads there or above it. -/
theorem prefix_or_linksTo (hpath : t.place true path = .ok (.entry home .directory))
    (hproper : ∀ n ∈ names, ProperName n)
    (h : t.place true (path.descend names) = .ok (.entry loc entry)) :
    home <+: loc ∨ t.LinksTo path loc := by
  -- From the last name up: what is above it is a directory, for which the same holds.
  induction names using List.reverseRecOn generalizing loc entry with
  | nil =>
    rw [Path.descend_nil, hpath] at h
    cases h
    exact .inl (List.prefix_refl home)
  | append_singleton names name ih =>
    have hproper' := hproper
    rw [List.forall_mem_append, List.forall_mem_singleton] at hproper
    have hcheck := (place_eq_entry_iff.mp h).1
    have hbytes : path.bytes ≠ [] :=
      ((Path.check_eq_ok_iff path).mp (place_eq_entry_iff.mp hpath).1).2.2
    rw [Path.descend_append] at h hcheck
    have hname : ∀ n ∈ [name], ProperName n := List.forall_mem_singleton.mpr hproper.2
    obtain ⟨dir, hdir⟩ := exists_directory_of_place_descend
      (Path.bytes_descend_ne_nil hbytes hproper.1) (by simp) hname h
    obtain ⟨first, hget⟩ := exists_get?_of_place_descend hdir hname h
    by_cases hlink : ∃ target, first = .link target
    · -- The last name is the link.
      obtain ⟨target, rfl⟩ := hlink
      obtain ⟨left, hdescend⟩ := place_descend hdir
      have hitself : t.place false (path.descend (names ++ [name]))
          = .ok (.entry (dir ++ [name]) (.link target)) := by
        rw [Path.descend_append, hdescend false [name] (by simp) hname hcheck]
        exact follow_eq_entry_iff.mpr (.linkItself hproper.2.length_le hget rfl)
      rw [← Path.descend_append] at h
      exact .inr ⟨names ++ [name], dir ++ [name], target, loc, by simp, hproper', hitself,
        locate_eq_ok_iff.mpr ⟨entry, h⟩, List.prefix_refl loc⟩
    · have hchild : t.place true ((path.descend names).child name)
          = .ok (.entry (dir ++ [name]) first) :=
        place_child hdir hproper.2 hcheck hget fun target hfirst => hlink ⟨target, hfirst⟩
      rw [Path.descend_cons, Path.descend_nil, hchild] at h
      cases h
      have hbelow : dir <+: dir ++ [name] := List.prefix_append dir [name]
      exact (ih hproper.1 hdir).imp (·.trans hbelow) (·.mono hbelow)

/-- Without links to a file or above it, and with the directory of the file
outside, no path leads to either. -/
theorem keepsOff_of_not_linksTo {dir : Location} {name : Name} (ht : t.Rooted)
    (hpath : t.place true path = .ok (.entry home .directory)) (houtside : ¬ home <+: dir)
    (hfile : t.get? (dir ++ [name]) ≠ some .directory)
    (hlinks : ¬ t.LinksTo path (dir ++ [name])) : t.KeepsOff path (dir ++ [name]) := by
  intro names loc hproper hlocate
  obtain ⟨entry, hplace⟩ := locate_eq_ok_iff.mp hlocate
  rw [List.dropLast_concat]
  -- Below the payload itself the place would have to be inside it; anywhere else a link leads
  -- there.
  rcases prefix_or_linksTo hpath hproper hplace with hinside | hlink
  · refine ⟨?_, ?_⟩
    · rintro rfl
      rcases List.prefix_concat_iff.mp hinside with rfl | hinside
      · exact hfile (get?_of_place ht hpath)
      · exact houtside hinside
    · rintro rfl
      exact houtside hinside
  · refine ⟨?_, ?_⟩
    · rintro rfl
      exact hlinks hlink
    · rintro rfl
      exact hlinks (hlink.mono (List.prefix_append _ _))

/-- Everything above an entry is a directory. -/
theorem Rooted.get?_of_prefix (ht : t.Rooted) (hget : t.get? place = some entry)
    (habove : loc <+: place) (hne : loc ≠ place) : t.get? loc = some .directory := by
  obtain ⟨below, rfl⟩ := habove
  rcases List.eq_nil_or_concat below with rfl | ⟨init, last, rfl⟩
  · simp at hne
  · rw [List.concat_eq_append, ← List.append_assoc] at hget
    exact ht.get?_of_append (ht.parent _ _ _ hget)

/-- It is enough to look at the nodes below the path. -/
theorem not_linksTo_of_unfolding {nodes : List Node} (ht : t.Rooted) (h : t.Unfolding path nodes)
    (hplace : t.get? place = some entry) (hspecial : entry ≠ .special)
    (hnodes : ∀ n ∈ nodes, ∃ loc, t.locate (path.descend n.names) = .ok loc ∧ ¬ loc <+: place) :
    ¬ t.LinksTo path place := by
  rintro ⟨names, origin, target, goal, hne, hproper, -, hgoal, habove⟩
  obtain ⟨found, hfound⟩ := locate_eq_ok_iff.mp hgoal
  have hget := get?_of_place ht hfound
  by_cases hnode : found = .special
  · -- Neither the entry at the place is special nor a directory above it.
    subst hnode
    by_cases hsame : goal = place
    · subst hsame
      rw [hplace] at hget
      exact hspecial (Option.some.inj hget)
    · rw [ht.get?_of_prefix hplace habove hsame] at hget
      cases hget
  · have hentry := entryAt_eq_ok_iff.mpr ⟨goal, hfound⟩
    have hmem := (h.mem_iff names found).mpr ⟨hne, hproper, hentry, hnode⟩
    obtain ⟨loc, hlocate, hoff⟩ := hnodes _ hmem
    obtain rfl := Except.ok.inj (hlocate.symm.trans hgoal)
    exact hoff habove

end Promotion.FileTree
