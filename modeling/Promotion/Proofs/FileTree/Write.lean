import Promotion.Proofs.FileTree.Resolve
import Promotion.FileTree.Edit

/-!
# `Promotion.Proofs.FileTree.Write`: what is written is read

Writing puts a file where a path leads to a file, or to a vacant place. The
steps of the path go through directories and links only before they come to
that place, so they lead to the new file as well. A special file may take what is
written too, and then there is nothing to read.

* `write_eq_ok`: the two ways in which writing succeeds.
* `read_of_write`: the path that was written to has the content written, where it
  does not lead to a special file.
-/

set_option autoImplicit false

namespace Promotion.FileTree

open Promotion.Text (Bytes)

/-- Whether a path leads to a socket, a device or the like. -/
def isSpecial (t : FileTree) (p : Path) : Bool :=
  match t.entryAt p with
  | .ok .special => true
  | _ => false

/-- The location of the file that is written at a place. -/
def Place.fileLocation? : Place → Option Location
  | .entry loc (.file _ _) => some loc
  | .vacant dir name false => some (dir ++ [name])
  | _ => none

variable {t t' : FileTree} {links : Nat} {dir loc : Location} {steps : List Step} {place : Place}
  {p : Path} {content : Bytes}

/-- A file goes into a free place when nothing follows the name. -/
theorem eq_of_fileLocation?_vacant {name : Name} {rest : List Step}
    (h : (Place.vacant dir name (rest ≠ [])).fileLocation? = some loc) :
    rest = [] ∧ dir ++ [name] = loc := by
  cases rest with
  | nil => exact ⟨rfl, Option.some.inj h⟩
  | cons => cases h

/-- A file goes where the path leads when something stands there. -/
theorem eq_of_fileLocation?_entry {loc' : Location} {entry : Entry}
    (h : (Place.entry loc' entry).fileLocation? = some loc) : loc' = loc := by
  cases entry with
  | file => exact Option.some.inj h
  | _ => cases h

/-- At a location where a file is written there is at most a file. -/
theorem get?_of_fileLocation? (h : t.follow true links dir steps = .ok place)
    (hloc : place.fileLocation? = some loc) :
    loc ≠ [] ∧ ∀ entry, t.get? loc = some entry →
      entry ≠ .directory ∧ ∀ target, entry ≠ .link target := by
  -- As for `reaches_of_follow`, the cases that answer with a fault are closed by `cases h`.
  fun_induction follow t true links dir steps with
  | case1 =>
    cases h
    cases hloc
  | case2 _ _ _ ih => exact ih h
  | case3 _ _ _ ih => exact ih h
  | case4 _ _ _ ih => exact ih h
  | case5 => cases h
  | case6 _ _ _ _ _ hget =>
    cases h
    obtain ⟨rfl, rfl⟩ := eq_of_fileLocation?_vacant hloc
    exact ⟨by simp, by simp [hget]⟩
  | case7 => cases h
  | case8 _ _ _ _ _ _ ih => exact ih h
  | case9 =>
    cases h
    cases hloc
  | case10 => cases h
  | case11 => cases h
  | case12 _ _ _ _ _ _ _ _ _ ih => exact ih h
  | case13 _ _ _ _ _ hdirectory hlink hget =>
    cases h
    obtain rfl := eq_of_fileLocation?_entry hloc
    refine ⟨by simp, fun entry hentry => ?_⟩
    cases hget.symm.trans hentry
    exact ⟨hdirectory, hlink⟩
  | case14 => cases h

/-- Where steps led to a file, or to the place of one, they lead to the file that
is put there. -/
theorem follow_insert_file (content : Bytes) (executable : Bool)
    (h : t.follow true links dir steps = .ok place)
    (hloc : place.fileLocation? = some loc) :
    (t.insert loc (.file content executable)).follow true links dir steps
      = .ok (.entry loc (.file content executable)) := by
  obtain ⟨hne, hfree⟩ := get?_of_fileLocation? h hloc
  -- Directories and links on the way are elsewhere, so they are as before.
  have hkeep {loc' : Location} {entry : Entry} (hget : t.get? loc' = some entry)
      (hentry : entry = .directory ∨ ∃ target, entry = .link target) :
      (t.insert loc (.file content executable)).get? loc' = some entry := by
    rw [get?_insert_of_ne, hget]
    rintro rfl
    rcases hentry with rfl | ⟨target, rfl⟩
    · exact (hfree _ hget).1 rfl
    · exact (hfree _ hget).2 target rfl
  fun_induction follow t true links dir steps with
  | case1 =>
    cases h
    cases hloc
  | case2 _ _ _ ih =>
    rw [follow]
    exact ih h
  | case3 _ _ _ ih =>
    rw [follow]
    exact ih h
  | case4 _ _ _ ih =>
    rw [follow]
    exact ih h
  | case5 => cases h
  | case6 _ _ _ _ hname _ =>
    cases h
    obtain ⟨rfl, rfl⟩ := eq_of_fileLocation?_vacant hloc
    exact follow_name (Nat.le_of_not_lt hname) (get?_insert_self hne _) (by simp)
  | case7 => cases h
  | case8 _ _ _ _ hname hget ih =>
    rw [follow, if_neg hname, hkeep hget (.inl rfl)]
    exact ih h
  | case9 =>
    cases h
    cases hloc
  | case10 => cases h
  | case11 => cases h
  | case12 _ _ _ hname target hget hstop _ htarget ih =>
    rw [follow, if_neg hname, hkeep hget (.inr ⟨target, rfl⟩)]
    simp only [hstop, htarget]
    exact ih h
  | case13 _ _ _ hname =>
    cases h
    obtain rfl := eq_of_fileLocation?_entry hloc
    exact follow_name (Nat.le_of_not_lt hname) (get?_insert_self hne _) (by simp)
  | case14 => cases h

/-- The path that was written to leads to the new file. -/
theorem entryAt_of_write {executable : Bool} (hplace : t.place true p = .ok place)
    (hloc : place.fileLocation? = some loc) :
    (t.insert loc (.file content executable)).entryAt p = .ok (.file content executable) := by
  unfold FileTree.place at hplace
  split at hplace
  · cases hplace
  next hcheck =>
    refine entryAt_eq_ok_iff.mpr ⟨loc, ?_⟩
    rw [FileTree.place, hcheck]
    exact follow_insert_file content executable hplace hloc

/-- Writing puts a file with the content where the path leads, unless that is a special
file that takes what is written: then nothing changes. -/
theorem write_eq_ok (h : t.write p content = .ok t') :
    (∃ place loc executable, t.place true p = .ok place ∧ place.fileLocation? = some loc ∧
      t' = t.insert loc (.file content executable)) ∨
    t.isSpecial p = true ∧ t' = t := by
  unfold write at h
  split at h
  · split at h <;> cases h
  · split at h
    · cases h
    next loc _ executable hplace =>
      exact .inl ⟨_, loc, executable, hplace, rfl, (Except.ok.inj h).symm⟩
    · cases h
    next loc hplace =>
      -- A special file that does not take what is written is refused.
      split at h
      · exact .inr ⟨by simp [isSpecial, entryAt, hplace], (Except.ok.inj h).symm⟩
      · cases h
    · cases h
    · cases h
    next dir name hplace =>
      exact .inl ⟨_, dir ++ [name], false, hplace, rfl, (Except.ok.inj h).symm⟩

/-- What was written under a path is read under it, where the path does not lead to a
special file. -/
theorem read_of_write (h : t.write p content = .ok t') (hspecial : t'.isSpecial p = false) :
    t'.read p = .ok content := by
  rcases write_eq_ok h with ⟨place, loc, executable, hplace, hloc, rfl⟩ | ⟨hspecial', rfl⟩
  · exact read_of_entryAt (entryAt_of_write hplace hloc)
  · rw [hspecial'] at hspecial
    cases hspecial

end Promotion.FileTree
