import Promotion.Proofs.FileTree.Edit

/-!
# `Promotion.Proofs.FileTree.Fill`: files put in place

Packing changes a file system in one way only: a file comes to stand at a
place, in place of nothing, of a file or of a link, but never of a directory.
`FileTree.Fills` says this of any number of files, so that it can be carried
along a row of changes.

* `Fills.insert`: one more file.
* `Fills.targetLocation`: a new entry gets no other place than before.
* `Fills.place`, `Fills.place_of_target`: a path leads where it led, and to the
  file that was put there, unless a link on the way was replaced.
* `Fills.makeDirectories`: directories that were there are not made again, even
  if they cannot be reached any more.
* `erase_insert`: a file that is removed again leaves no trace.
* `delivers_of_rename`: what renaming a new file comes to (`FileTree.Delivers`).
-/

set_option autoImplicit false

namespace Promotion.FileTree

open Promotion.Text (Bytes)

variable {t t' : FileTree} {places : Location → Prop} {last : Bool} {links : Nat} {p : Path}
  {whole : Fault} {dir loc : Location} {name : Name} {entry : Entry} {steps : List Step}
  {content : Bytes} {executable : Bool}

/-- Nothing has changed but that files stand at some of the places, and there
was no directory where one of them stands. -/
structure Fills (t t' : FileTree) (places : Location → Prop) : Prop where
  current : t'.current = t.current
  get?_eq : ∀ loc, t'.get? loc = t.get? loc ∨ places loc ∧ t.get? loc ≠ some .directory ∧
    ∃ content executable, t'.get? loc = some (.file content executable)

namespace Fills

/-- A tree fills itself. -/
theorem refl (t : FileTree) (places : Location → Prop) : t.Fills t places :=
  ⟨rfl, fun _ => .inl rfl⟩

/-- Filling places changes no directory. -/
theorem get?_eq_directory_iff (h : t.Fills t' places) :
    t'.get? loc = some .directory ↔ t.get? loc = some .directory := by
  rcases h.get?_eq loc with heq | ⟨-, hfree, content, executable, hfile⟩
  · rw [heq]
  · simp [hfile, hfree]

/-- Links are old ones. -/
theorem get?_link {target : Path} (h : t.Fills t' places)
    (hget : t'.get? loc = some (.link target)) : t.get? loc = some (.link target) := by
  rcases h.get?_eq loc with heq | ⟨-, -, content, executable, hfile⟩
  · exact heq ▸ hget
  · rw [hfile] at hget
    cases hget

/-- One more file. -/
theorem insert (h : t.Fills t' places) (hplace : places loc)
    (hfree : t'.get? loc ≠ some .directory) :
    t.Fills (t'.insert loc (.file content executable)) places where
  current := h.current
  get?_eq other := by
    have hloc : loc ≠ [] := by
      rintro rfl
      exact hfree rfl
    -- The new place has a file now; all others are as they were.
    by_cases hother : other = loc
    · subst hother
      refine .inr ⟨hplace, fun hdir => ?_, content, executable, get?_insert_self hloc _⟩
      exact hfree (h.get?_eq_directory_iff.mpr hdir)
    · rw [get?_insert_of_ne hother]
      exact h.get?_eq other

/-! ### Where paths lead -/

/-- A directory that can be reached could be reached before. -/
theorem reaches_directory (h : t.Fills t' places)
    (hreaches : t'.Reaches true links dir steps loc .directory) :
    t.Reaches true links dir steps loc .directory := by
  refine hreaches.transfer fun loc' entry' hget hkept => ?_
  rcases hkept with rfl | ⟨target, rfl⟩ | ⟨-, rfl⟩
  · exact h.get?_eq_directory_iff.mp hget
  · exact h.get?_link hget
  · exact h.get?_eq_directory_iff.mp hget

/-- A path gives a new entry the place that it gave one before. -/
theorem targetLocation (h : t.Fills t' places) (htarget : t'.targetLocation p whole = .ok loc) :
    t.targetLocation p whole = .ok loc := by
  obtain ⟨dir, name, hname, hlength, rfl⟩ := targetLocation_eq_ok_iff.mp htarget
  obtain ⟨hcheck, front, hfront, hreaches⟩ := target_eq_ok_iff.mp hname
  rw [h.current] at hreaches
  exact targetLocation_eq_ok_iff.mpr ⟨dir, name,
    target_eq_ok_iff.mpr ⟨hcheck, front, hfront, h.reaches_directory hreaches⟩, hlength, rfl⟩

/-- Where no link was replaced, a path leads where it led. -/
theorem place (h : t.Fills t' places)
    (hlinks : ∀ loc target, places loc → t.get? loc ≠ some (.link target))
    (hplace : t.place last p = .ok (.entry loc entry)) (hkept : t'.get? loc = t.get? loc) :
    t'.place last p = .ok (.entry loc entry) := by
  refine place_transfer h.current hplace fun loc' entry' hget hway => ?_
  rcases hway with rfl | ⟨target, rfl⟩ | ⟨rfl, rfl⟩
  · exact h.get?_eq_directory_iff.mpr hget
  · rcases h.get?_eq loc' with heq | ⟨hfilled, -⟩
    · rw [heq, hget]
    · exact absurd hget (hlinks loc' target hfilled)
  · rw [hkept, hget]

/-- A path that gave a new entry its place leads to the file that stands there
now, where no link was replaced. -/
theorem place_of_target (h : t.Fills t' places)
    (hlinks : ∀ loc target, places loc → t.get? loc ≠ some (.link target))
    (htarget : t.targetLocation p whole = .ok loc) (hslash : p.endsInSlash = false)
    (hfile : t'.get? loc = some (.file content executable)) :
    t'.place true p = .ok (.entry loc (.file content executable)) := by
  obtain ⟨dir, name, hname, hlength, rfl⟩ := targetLocation_eq_ok_iff.mp htarget
  obtain ⟨hcheck, front, hfront, hreaches⟩ := target_eq_ok_iff.mp hname
  -- The steps before the name lead to the directory as they did.
  have hreaches' : t'.Reaches true linkLimit (p.origin t.current) front dir .directory := by
    refine hreaches.transfer fun loc' entry hget hkept => ?_
    rcases hkept with rfl | ⟨target, rfl⟩ | ⟨-, rfl⟩
    · exact h.get?_eq_directory_iff.mpr hget
    · rcases h.get?_eq loc' with heq | ⟨hfilled, -⟩
      · rw [heq, hget]
      · exact absurd hget (hlinks loc' target hfilled)
    · exact h.get?_eq_directory_iff.mpr hget
  rw [← h.current] at hreaches'
  exact place_of_bareSteps hcheck hslash hfront hreaches' hlength hfile nofun

/-! ### Directories that are there -/

/-- Steps to a directory still lead there, or come to a file that took the
place of a link. -/
theorem follow_directory (h : t.Fills t' places)
    (hreaches : t.Reaches true links dir steps loc .directory) :
    t'.follow true links dir steps = .ok (.entry loc .directory) ∨
      t'.follow true links dir steps = .error .notDirectory ∨ ∃ loc' content executable,
        t'.follow true links dir steps = .ok (.entry loc' (.file content executable)) := by
  generalize hlast : true = last, hentry : Entry.directory = entry at hreaches
  -- Along the way that the steps took before.
  induction hreaches with
  | done => exact .inl (by rw [follow])
  | here _ ih =>
    rw [follow]
    exact ih hentry
  | slash _ ih =>
    rw [follow]
    exact ih hentry
  | up _ ih =>
    rw [follow]
    exact ih hentry
  | enter hname hget _ ih =>
    rw [follow, if_neg (Nat.not_lt_of_le hname), h.get?_eq_directory_iff.mpr hget]
    exact ih hentry
  | @link links dir _ name target rest _ hname hget hgoes htarget _ ih =>
    -- The link is still there, or a file is, which may be the end of the way or not.
    rcases h.get?_eq (dir ++ [name]) with heq | ⟨-, -, content, executable, hfile⟩
    · have hlink : t'.follow last (links + 1) dir (.name name :: rest)
          = t'.follow last links (target.origin dir) (target.steps ++ rest) := by
        rw [follow, if_neg (Nat.not_lt_of_le hname), heq, hget]
        simp [stops_eq_false_iff.mpr hgoes, htarget]
      rw [hlink]
      exact ih hentry
    · rw [follow, if_neg (Nat.not_lt_of_le hname), hfile]
      by_cases hrest : rest = []
      · exact .inr (.inr ⟨dir ++ [name], content, executable, by simp [hrest]⟩)
      · exact .inr (.inl (by simp [hrest]))
  | linkItself _ _ hfalse => cases hlast.trans hfalse
  | leaf _ _ hdirectory _ => exact absurd hentry.symm hdirectory

/-- A way to a directory leads there still, or breaks off at a file. -/
theorem directoryAt (h : t.Fills t' places)
    (hreaches : t.Reaches true linkLimit dir steps loc .directory) :
    t'.directoryAt dir steps = .ok loc ∨ t'.directoryAt dir steps = .error .notDirectory := by
  unfold FileTree.directoryAt
  rcases h.follow_directory hreaches with hfollow | hfollow | ⟨loc', content, executable, hfollow⟩
  · exact .inl (by rw [hfollow])
  · exact .inr (by rw [hfollow])
  · exact .inr (by rw [hfollow])

/-- Where there was something, there is something. -/
theorem get?_ne_none (h : t.Fills t' places) (hget : t.get? loc ≠ none) : t'.get? loc ≠ none := by
  rcases h.get?_eq loc with heq | ⟨-, -, content, executable, hfile⟩
  · rw [heq]
    exact hget
  · simp [hfile]

/-- A directory that was there is not made, and not for want of those above. -/
theorem makeDirectory (h : t.Fills t' places)
    (hplace : t.place true p = .ok (.entry loc .directory)) :
    t'.makeDirectory p = .error .alreadyThere ∨ t'.makeDirectory p = .error .notDirectory := by
  obtain ⟨hcheck, hreaches⟩ := place_eq_entry_iff.mp hplace
  rw [← h.current] at hreaches
  obtain ⟨left, dir, hdir, hname⟩ := hreaches.exists_directory
  rcases h.directoryAt hdir with hdir' | hdir'
  · -- The directory above can still be reached, and in it the name is taken.
    refine .inl (makeDirectory_of_taken hcheck hdir' fun name hlast => ?_)
    have hstep := hname name hlast
    obtain ⟨entry, hget⟩ := exists_get?_of_reaches hstep
    have hsome : t.get? (dir ++ [name]) ≠ none := by simp [hget]
    exact ⟨hstep.length_le (by simp), Option.ne_none_iff_exists'.mp (h.get?_ne_none hsome)⟩
  · exact .inr (makeDirectory_of_directoryAt hcheck hdir')

/-- So nothing is made where the directories of a path are there. -/
theorem makeDirectories (h : t.Fills t' places)
    (hplace : t.place true p = .ok (.entry loc .directory)) :
    (t'.makeDirectories p).tree = t' := by
  rcases h.makeDirectory hplace with hmade | hmade
  · exact makeDirectoriesFrom_of_error _ hmade nofun
  · exact makeDirectoriesFrom_of_error _ hmade nofun

end Fills

/-! ### One file -/

/-- A file that is removed again leaves no trace. -/
theorem erase_insert (hloc : loc ≠ []) (hvacant : t.get? loc = none) (entry : Entry) :
    (t.insert loc entry).erase loc = t := by
  have hkept : t.entries.filter (fun e => e.1 ≠ loc) = t.entries := by
    rw [get?_of_ne_nil hloc, Option.map_eq_none_iff, List.find?_eq_none] at hvacant
    exact List.filter_eq_self.mpr fun e he => by simpa using hvacant e he
  have herase : t.erase loc = t := by rw [erase, hkept]
  have hinsert : (t.insert loc entry).erase loc = (t.erase loc).erase loc := by
    simp [insert, erase]
  rw [hinsert, herase, herase]

/-- A file has taken the name that a path says, where no directory was. -/
structure Delivers (t : FileTree) (p : Path) (content : Bytes) (loc : Location)
    (after : FileTree) : Prop where
  target : t.targetLocation p .busy = .ok loc
  endsInSlash : p.endsInSlash = false
  free : t.get? loc ≠ some .directory
  eq_insert : after = t.insert loc (.file content false)

/-- A file that was delivered fills its own place only. -/
theorem Delivers.fills {after : FileTree} (h : t.Delivers p content loc after) :
    t.Fills after (· = loc) := by
  rw [h.eq_insert]
  exact (Fills.refl t _).insert rfl h.free

/-- A file that was delivered stands in its place. -/
theorem Delivers.get?_self {after : FileTree} (h : t.Delivers p content loc after) :
    after.get? loc = some (.file content false) := by
  obtain ⟨dir, name, -, -, hloc⟩ := targetLocation_eq_ok_iff.mp h.target
  rw [h.eq_insert, get?_insert_self (by simp [hloc])]

/-- Everywhere else the file system is as it was. -/
theorem Delivers.get?_of_ne {after : FileTree} {other : Location}
    (h : t.Delivers p content loc after) (hne : other ≠ loc) : after.get? other = t.get? other := by
  rw [h.eq_insert, get?_insert_of_ne hne]

/-- The path then leads to the file, unless it goes through a link that the
file replaced. -/
theorem Delivers.place {after : FileTree} (h : t.Delivers p content loc after)
    (hlink : ∀ target, t.get? loc ≠ some (.link target)) :
    after.place true p = .ok (.entry loc (.file content false)) := by
  refine h.fills.place_of_target ?_ h.target h.endsInSlash h.get?_self
  rintro _ target rfl
  exact hlink target

/-- A file that was delivered is read at its path, unless a link was in its place. -/
theorem Delivers.read {after : FileTree} (h : t.Delivers p content loc after)
    (hlink : ∀ target, t.get? loc ≠ some (.link target)) : after.read p = .ok content :=
  read_of_entryAt (entryAt_eq_ok_iff.mpr ⟨loc, h.place hlink⟩)

/-- Whatever the path then leads to is the file, also where it replaced a link. -/
theorem Delivers.eq_file {after : FileTree} (h : t.Delivers p content loc after)
    (hentry : after.entryAt p = .ok entry) : entry = .file content false := by
  refine eq_file_of_target (by rw [h.eq_insert]; rfl) ?_ h.target h.endsInSlash
    h.get?_self hentry
  intro loc' entry' hget hpassed
  by_cases heq : loc' = loc
  · rw [heq, h.get?_self] at hget
    cases hget
    simp at hpassed
  · rwa [h.get?_of_ne heq] at hget

/-- So where the path can be read at all, it leads to a file. -/
theorem Delivers.isFile_of_read {after : FileTree} {bytes : Bytes}
    (h : t.Delivers p content loc after) (hread : after.read p = .ok bytes) :
    after.isFile p = true := by
  obtain ⟨_, entry, hplace, -⟩ := read_eq_ok_iff.mp hread
  have hentry := entryAt_eq_ok_iff.mpr ⟨_, hplace⟩
  obtain rfl := h.eq_file hentry
  exact isFile_iff.mpr ⟨content, false, hentry⟩

/-- Renaming a new file has no effect but that the file has its name. -/
theorem delivers_of_rename {new : Location} {old : Bytes} {after : FileTree} (hnew : new ≠ [])
    (hvacant : t.get? new = none)
    (h : (t.insert new (.file old executable)).rename new p content = .ok after) :
    ∃ loc, t.Delivers p content loc after := by
  -- The file had its own place before, so the target is the same without it.
  have hfills : t.Fills (t.insert new (.file old executable)) (· = new) :=
    (Fills.refl t _).insert rfl (by simp [hvacant])
  unfold rename at h
  split at h
  · cases h
  next loc htarget =>
  split at h
  · cases h
  next hslash =>
  split at h
  · cases h
  next hfree =>
  rw [erase_insert hnew hvacant] at h
  refine ⟨loc, hfills.targetLocation htarget, eq_false_of_ne_true hslash, ?_,
    (Except.ok.inj h).symm⟩
  exact fun hdir => hfree (hfills.get?_eq_directory_iff.mpr hdir)

end Promotion.FileTree
