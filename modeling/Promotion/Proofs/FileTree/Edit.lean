import Promotion.FileTree.Edit
import Promotion.Proofs.FileTree.Resolve

/-!
# `Promotion.Proofs.FileTree.Edit`: what changes keep

* `target_eq_ok_iff`, `targetLocation_eq_ok_iff`: the directory and the name of
  a new entry.
* `FileTree.Extends`: nothing is lost and only directories are new.
* `makes_makeDirectories`: making a directory and those above it extends the
  tree, keeps it well-formed, and the directory is there afterwards.
* `makeDirectories_of_isDirectory`: what is there already is not made again.
* `eq_file_of_target`: a path that gave a file its place leads to nothing else.
* `read_of_rename`: a file that took a name by renaming is what is read under
  that name.
-/

set_option autoImplicit false

namespace Promotion.FileTree

open Promotion.Text (Bytes)

variable {t t' t'' : FileTree} {last : Bool} {p : Path} {whole : Fault} {dir loc : Location}
  {name : Name} {entry : Entry} {content : Bytes}

/-! ### The place of a new entry -/

/-- Finding a directory is resolving to one. -/
theorem directoryAt_eq_ok_iff {start : Location} {steps : List Step} :
    t.directoryAt start steps = .ok loc ↔ t.Reaches true linkLimit start steps loc .directory := by
  rw [← follow_eq_entry_iff, directoryAt]
  split <;> simp_all

/-- A path gives a new entry the directory that all its steps but the last one
lead to, and the name that the last one says. -/
theorem target_eq_ok_iff :
    t.target p whole = .ok (dir, name) ↔ p.check = .ok () ∧ ∃ front,
      p.bareSteps = front ++ [.name name] ∧
      t.Reaches true linkLimit (p.origin t.current) front dir .directory := by
  simp only [← directoryAt_eq_ok_iff]
  -- The last step has to be a name, and the steps in front of it have to lead to a directory.
  constructor
  · intro h
    unfold target at h
    split at h
    · cases h
    next hcheck =>
      refine ⟨hcheck, ?_⟩
      dsimp only at h
      split at h
      next hlast =>
        obtain ⟨front, hfront⟩ := List.getLast?_eq_some_iff.mp hlast
        split at h
        · cases h
        next hdir =>
          cases h
          rw [hfront, List.dropLast_concat] at hdir
          exact ⟨front, hfront, hdir⟩
      · split at h <;> cases h
  · rintro ⟨hcheck, front, hfront, hdir⟩
    simp [target, hcheck, hfront, hdir]

/-- The place a path names is a name in a directory, and the name is short enough. -/
theorem targetLocation_eq_ok_iff :
    t.targetLocation p whole = .ok loc ↔ ∃ dir name, t.target p whole = .ok (dir, name) ∧
      name.length ≤ Path.nameLimit ∧ loc = dir ++ [name] := by
  unfold targetLocation
  -- There is no target, its name is too long, or it is the place.
  split
  · simp_all
  next dir name htarget =>
    simp only [htarget, Except.ok.injEq, Prod.mk.injEq]
    split
    next hlong =>
      simp only [reduceCtorEq, false_iff]
      rintro ⟨_, _, ⟨rfl, rfl⟩, hshort, -⟩
      omega
    next hshort =>
      constructor
      · intro h
        exact ⟨dir, name, ⟨rfl, rfl⟩, Nat.le_of_not_lt hshort, (Except.ok.inj h).symm⟩
      · rintro ⟨_, _, ⟨rfl, rfl⟩, -, rfl⟩
        rfl

/-- A new entry gets a proper name, in a directory. -/
theorem proper_of_targetLocation (ht : t.Rooted) (h : t.targetLocation p whole = .ok loc) :
    ∃ dir name, loc = dir ++ [name] ∧ t.get? dir = some .directory ∧ ProperName name := by
  obtain ⟨dir, name, htarget, hlength, rfl⟩ := targetLocation_eq_ok_iff.mp h
  obtain ⟨hcheck, front, hfront, hreaches⟩ := target_eq_ok_iff.mp htarget
  have hmem : .name name ∈ p.bareSteps := by simp [hfront]
  exact ⟨dir, name, rfl, hreaches.get?_eq ht (get?_origin ht.current p),
    Path.proper_of_mem_bareSteps hcheck hmem hlength⟩

/-! ### New entries -/

/-- An entry that is put into a directory, though not in place of one, keeps
the tree rooted. -/
theorem Rooted.insert (ht : t.Rooted) (hdir : t.get? dir = some .directory)
    (hplace : t.get? (dir ++ [name]) ≠ some .directory) (entry : Entry) :
    (t.insert (dir ++ [name]) entry).Rooted where
  parent dir' name' entry' h := by
    have hne : dir ++ [name] ≠ [] := by simp
    rw [get?_insert hne] at h
    -- The directory above is the one of the new entry or of an old one.
    have hdir' : t.get? dir' = some .directory := by
      split at h
      next heq =>
        obtain ⟨rfl, -⟩ := List.append_inj' heq rfl
        exact hdir
      · exact ht.parent dir' name' entry' h
    rw [get?_insert_of_ne, hdir']
    rintro rfl
    exact hplace hdir'
  current := by
    rw [current_insert, get?_insert_of_ne, ht.current]
    intro hcurrent
    exact hplace (hcurrent ▸ ht.current)

/-- A file or directory with a proper name leaves the tree well-formed. -/
theorem WellFormed.insert (ht : t.WellFormed) (hdir : t.get? dir = some .directory)
    (hplace : t.get? (dir ++ [name]) ≠ some .directory) (hname : ProperName name)
    (hsize : ∀ content executable, entry = .file content executable →
      content.length < Nat.pow 2 64) :
    (t.insert (dir ++ [name]) entry).WellFormed where
  toRooted := ht.toRooted.insert hdir hplace entry
  proper dir' name' entry' h := by
    rw [get?_insert (by simp)] at h
    -- A proper name is needed at the new place only.
    split at h
    next heq =>
      obtain ⟨-, heq⟩ := List.append_inj' heq rfl
      obtain rfl : name' = name := by simpa using heq
      exact hname
    · exact ht.proper dir' name' entry' h
  size loc content executable h := by
    rw [get?_insert (by simp)] at h
    split at h
    · exact hsize content executable (Option.some.inj h)
    · exact ht.size loc content executable h

/-! ### Making directories -/

/-- Nothing is lost, and only directories are new. -/
structure Extends (t t' : FileTree) : Prop where
  current : t'.current = t.current
  get?_eq : ∀ loc entry, t.get? loc = some entry → t'.get? loc = some entry
  new : ∀ loc entry, t'.get? loc = some entry → t.get? loc = some entry ∨ entry = .directory

/-- A tree extends itself. -/
theorem Extends.refl (t : FileTree) : t.Extends t := ⟨rfl, fun _ _ h => h, fun _ _ h => .inl h⟩

/-- A tree that extends an extension of a tree extends that tree. -/
theorem Extends.trans (h : t.Extends t') (h' : t'.Extends t'') : t.Extends t'' where
  current := h'.current.trans h.current
  get?_eq loc entry hget := h'.get?_eq loc entry (h.get?_eq loc entry hget)
  new loc entry hget := by
    rcases h'.new loc entry hget with hget | hdir
    · exact h.new loc entry hget
    · exact .inr hdir

/-- A path goes on leading where it led. -/
theorem Extends.place (h : t.Extends t') (hplace : t.place last p = .ok (.entry loc entry)) :
    t'.place last p = .ok (.entry loc entry) :=
  place_transfer h.current hplace fun loc' entry' hget _ => h.get?_eq loc' entry' hget

/-- What a path leads to is still there in a tree that extends the first one. -/
theorem Extends.entryAt (h : t.Extends t') (hentry : t.entryAt p = .ok entry) :
    t'.entryAt p = .ok entry := by
  obtain ⟨loc, hplace⟩ := entryAt_eq_ok_iff.mp hentry
  exact entryAt_eq_ok_iff.mpr ⟨loc, h.place hplace⟩

/-- What making the directory at a path does, whether it succeeds or not. -/
structure Makes (t : FileTree) (p : Path) (change : Change) : Prop where
  grows : t.Extends change.tree
  wellFormed : t.WellFormed → change.tree.WellFormed
  isDirectory : change.fault = none → p.isEmpty = true ∨ change.tree.isDirectory p = true

/-- A step that is not taken makes nothing. -/
theorem makes_refl {fault : Option Fault}
    (h : fault = none → p.isEmpty = true ∨ t.isDirectory p = true) : t.Makes p ⟨t, fault⟩ :=
  ⟨.refl t, id, h⟩

/-- A directory is made where nothing is, in a directory that is there. -/
theorem makeDirectory_eq_ok (h : t.makeDirectory p = .ok t') : ∃ dir name,
    t.target p .alreadyThere = .ok (dir, name) ∧ name.length ≤ Path.nameLimit ∧
      t.get? (dir ++ [name]) = none ∧ t' = t.insert (dir ++ [name]) .directory := by
  -- Three things have to go well: the target, its place, and that nothing is there.
  unfold makeDirectory addNew at h
  split at h
  · cases h
  next htarget =>
  split at h
  · cases h
  next hvacant =>
  cases h
  obtain ⟨dir, name, hname, hlength, rfl⟩ := targetLocation_eq_ok_iff.mp htarget
  exact ⟨dir, name, hname, hlength, hvacant, rfl⟩

/-- A new directory at a vacant place. -/
theorem Extends.insert (hvacant : t.get? loc = none) : t.Extends (t.insert loc .directory) := by
  -- The root is a directory, so a free place is not the root.
  have hloc : loc ≠ [] := by
    rintro rfl
    cases hvacant
  refine ⟨rfl, fun other entry hget => ?_, fun other entry hget => ?_⟩
  · rw [get?_insert_of_ne, hget]
    rintro rfl
    rw [hvacant] at hget
    cases hget
  · rw [get?_insert hloc] at hget
    split at hget
    · exact .inr (Option.some.inj hget).symm
    · exact .inl hget

/-- The path of a new directory leads to it. -/
theorem place_of_makeDirectory (hname : t.target p whole = .ok (dir, name))
    (hlength : name.length ≤ Path.nameLimit) (hvacant : t.get? (dir ++ [name]) = none) :
    (t.insert (dir ++ [name]) .directory).place true p
      = .ok (.entry (dir ++ [name]) .directory) := by
  obtain ⟨hcheck, front, hfront, hreaches⟩ := target_eq_ok_iff.mp hname
  -- The steps to the new directory are those to the one above and its name.
  have hreaches' : (t.insert (dir ++ [name]) .directory).Reaches true linkLimit
      (p.origin t.current) front dir .directory :=
    hreaches.transfer fun loc entry hget _ => (Extends.insert hvacant).get?_eq loc entry hget
  obtain ⟨left, happend⟩ := hreaches'.follow_append
  have hfollow := (happend true [.name name] (by simp)).trans
    (follow_name hlength (get?_insert_self (by simp) .directory) (by simp))
  refine place_eq_directory_iff.mpr ⟨hcheck, ?_⟩
  rw [hfront]
  exact follow_eq_entry_iff.mp hfollow

/-- A directory that was made makes the tree larger by itself. -/
theorem makes_of_makeDirectory (h : t.makeDirectory p = .ok t') : t.Makes p ⟨t', none⟩ := by
  obtain ⟨dir, name, hname, hlength, hvacant, rfl⟩ := makeDirectory_eq_ok h
  refine ⟨.insert hvacant, fun ht => ?_, fun _ => .inr ?_⟩
  · have htarget : t.targetLocation p .alreadyThere = .ok (dir ++ [name]) :=
      targetLocation_eq_ok_iff.mpr ⟨dir, name, hname, hlength, rfl⟩
    obtain ⟨dir', name', heq, hdir, hproper⟩ := proper_of_targetLocation ht.toRooted htarget
    rw [heq] at hvacant ⊢
    exact ht.insert hdir (by simp [hvacant]) hproper (by simp)
  · exact isDirectory_iff.mpr ⟨_, place_of_makeDirectory hname hlength hvacant⟩

/-- A directory that has to be there is made, or it is there. -/
theorem makes_ensureDirectory (t : FileTree) (p : Path) : t.Makes p (t.ensureDirectory p) := by
  unfold ensureDirectory
  split
  next h => exact makes_of_makeDirectory h
  · split
    next h => exact makes_refl fun _ => .inr h
    · exact makes_refl nofun

/-- Making directories only ever adds directories. -/
theorem makes_makeDirectoriesFrom (fuel : Nat) (t : FileTree) (p : Path) :
    t.Makes p (makeDirectoriesFrom fuel t p) := by
  -- Along the recursion to the directory above; each level adds what its own step makes.
  induction fuel generalizing t p with
  | zero =>
    rw [makeDirectoriesFrom]
    split
    next h => exact makes_refl fun _ => .inl h
    · exact makes_ensureDirectory t p
  | succ fuel ih =>
    rw [makeDirectoriesFrom]
    split
    next h => exact makes_refl fun _ => .inl h
    · split
      next parent _ _ =>
        have hparent := ih t parent
        split
        next t' hmade =>
          -- The directory above is there; the one at the path comes into it.
          rw [hmade] at hparent
          have hself := makes_ensureDirectory t' p
          constructor
          case grows => exact hparent.grows.trans hself.grows
          case wellFormed => exact fun ht => hself.wellFormed (hparent.wellFormed ht)
          case isDirectory => exact hself.isDirectory
        next hfailed =>
          refine ⟨hparent.grows, hparent.wellFormed, fun hnone => ?_⟩
          exact (hfailed _ (by rw [← hnone])).elim
      · exact makes_ensureDirectory t p

/-- Making a directory and those above it. -/
theorem makes_makeDirectories (t : FileTree) (p : Path) : t.Makes p (t.makeDirectories p) :=
  makes_makeDirectoriesFrom _ t p

/-- Steps that lead somewhere lead by way of the directory before their last name. -/
theorem Reaches.exists_directory {links : Nat} {steps rest : List Step}
    (h : t.Reaches true links dir (steps ++ rest) loc entry) :
    ∃ left dir', t.Reaches true links dir steps.dropLast dir' .directory ∧
      ∀ name, steps.getLast? = some (.name name) →
        t.Reaches true left dir' (.name name :: rest) loc entry := by
  -- Only a last step that is a name goes further; all others end in the directory.
  rcases List.eq_nil_or_concat steps with rfl | ⟨front, step, rfl⟩
  · exact ⟨links, dir, .done _ _, by simp⟩
  · rw [List.concat_eq_append, List.append_assoc] at h
    obtain ⟨left, dir', hfront, hlast⟩ := h.directory_of_append (by simp)
    refine ⟨left, dir', by simpa using hfront, fun name hname => ?_⟩
    obtain rfl : step = .name name := by simpa using hname
    exact hlast

/-- No directory is made when the one that it would be in cannot be reached. -/
theorem makeDirectory_of_directoryAt {fault : Fault} (hcheck : p.check = .ok ())
    (h : t.directoryAt (p.origin t.current) p.bareSteps.dropLast = .error fault) :
    t.makeDirectory p = .error fault := by
  have htarget : t.target p .alreadyThere = .error fault := by
    simp only [target, hcheck, h]
    split <;> rfl
  simp [makeDirectory, addNew, targetLocation, htarget]

/-- No directory is made when its name is taken or the path ends in no name. -/
theorem makeDirectory_of_taken (hcheck : p.check = .ok ())
    (h : t.directoryAt (p.origin t.current) p.bareSteps.dropLast = .ok dir)
    (htaken : ∀ name, p.bareSteps.getLast? = some (.name name) →
      name.length ≤ Path.nameLimit ∧ ∃ entry, t.get? (dir ++ [name]) = some entry) :
    t.makeDirectory p = .error .alreadyThere := by
  -- With a name at the end the place is taken; any other end is a directory that is there.
  by_cases hlast : ∃ name, p.bareSteps.getLast? = some (.name name)
  · obtain ⟨name, hlast⟩ := hlast
    obtain ⟨hlength, entry, hget⟩ := htaken name hlast
    simp [makeDirectory, addNew, targetLocation, target, hcheck, h, hlast,
      Nat.not_lt_of_le hlength, hget]
  · have htarget : t.target p .alreadyThere = .error .alreadyThere := by
      simp only [target, hcheck, h]
      split
      next name hname => exact absurd ⟨name, hname⟩ hlast
      · rfl
    simp [makeDirectory, addNew, targetLocation, htarget]

/-- Where a path leads to something, no directory is made. -/
theorem makeDirectory_of_place (h : t.place true p = .ok (.entry loc entry)) :
    t.makeDirectory p = .error .alreadyThere := by
  obtain ⟨hcheck, hreaches⟩ := place_eq_entry_iff.mp h
  obtain ⟨left, dir, hdir, hname⟩ := hreaches.exists_directory
  refine makeDirectory_of_taken hcheck (directoryAt_eq_ok_iff.mpr hdir) fun name hlast => ?_
  have hstep := hname name hlast
  exact ⟨hstep.length_le (by simp), exists_get?_of_reaches hstep⟩

/-- For an empty path there is nothing to make. -/
theorem makeDirectoriesFrom_of_isEmpty (fuel : Nat) (t : FileTree) (h : p.isEmpty = true) :
    makeDirectoriesFrom fuel t p = ⟨t, none⟩ := by
  cases fuel <;> simp [makeDirectoriesFrom, h]

/-- Only for want of those above are more directories tried than the last one. -/
theorem makeDirectoriesFrom_eq_ensureDirectory (fuel : Nat) (hempty : p.isEmpty = false)
    (h : t.makeDirectory p ≠ .error .notFound) :
    makeDirectoriesFrom fuel t p = t.ensureDirectory p := by
  cases fuel with
  | zero => simp [makeDirectoriesFrom, hempty]
  | succ fuel =>
    rw [makeDirectoriesFrom, hempty, if_neg Bool.false_ne_true]
    split
    next hmade _ => exact absurd hmade h
    · rfl

/-- Nothing is made when the first attempt fails for another reason than a missing
directory. -/
theorem makeDirectoriesFrom_of_error {fault : Fault} (fuel : Nat)
    (h : t.makeDirectory p = .error fault) (hfault : fault ≠ .notFound) :
    (makeDirectoriesFrom fuel t p).tree = t := by
  cases hempty : p.isEmpty with
  | true => rw [makeDirectoriesFrom_of_isEmpty fuel t hempty]
  | false =>
    rw [makeDirectoriesFrom_eq_ensureDirectory fuel hempty (by simp [h, hfault])]
    simp only [ensureDirectory, h]
    split <;> rfl

/-- Where a path leads to something, none of the directories above it is made either. -/
theorem makeDirectoriesFrom_of_place (fuel : Nat)
    (h : t.place true p = .ok (.entry loc entry)) :
    (makeDirectoriesFrom fuel t p).tree = t :=
  makeDirectoriesFrom_of_error fuel (makeDirectory_of_place h) nofun

/-- A directory that is there is not made. -/
theorem makeDirectories_of_isDirectory (h : t.isDirectory p = true) :
    t.makeDirectories p = ⟨t, none⟩ := by
  obtain ⟨loc, hplace⟩ := isDirectory_iff.mp h
  have hmade := makeDirectory_of_place hplace
  cases hempty : p.isEmpty with
  | true => exact makeDirectoriesFrom_of_isEmpty _ t hempty
  | false =>
    rw [makeDirectories, makeDirectoriesFrom_eq_ensureDirectory _ hempty (by simp [hmade])]
    simp [ensureDirectory, hmade, h]

/-! ### Giving a file its name -/

/-- Where a path gave a new entry its place and a file stands there now, the path
leads to nothing else than this file. It may lead nowhere: a link that the steps
went through can have made way for the file. -/
theorem eq_file_of_target {executable : Bool} (hcurrent : t'.current = t.current)
    (hkept : ∀ loc' entry', t'.get? loc' = some entry' →
      entry' = .directory ∨ (∃ target, entry' = .link target) → t.get? loc' = some entry')
    (htarget : t.targetLocation p whole = .ok loc) (hslash : p.endsInSlash = false)
    (hfile : t'.get? loc = some (.file content executable))
    (hentry : t'.entryAt p = .ok entry) : entry = .file content executable := by
  obtain ⟨dir, name, hname, hlength, rfl⟩ := targetLocation_eq_ok_iff.mp htarget
  obtain ⟨-, front, hfront, hreaches⟩ := target_eq_ok_iff.mp hname
  obtain ⟨loc', hplace⟩ := entryAt_eq_ok_iff.mp hentry
  have hsteps := (place_eq_entry_iff.mp hplace).2
  rw [Path.steps, hfront, hslash, hcurrent] at hsteps
  simp only [Bool.false_eq_true, if_false, List.append_nil] at hsteps
  obtain ⟨left, middle, hmiddle, hlast⟩ := hsteps.directory_of_append (by simp)
  -- Directories and links were there before, so the steps led to this directory then.
  have hmiddle' : t.Reaches true linkLimit (p.origin t.current) front middle .directory := by
    refine hmiddle.transfer fun loc'' entry'' hget hpassed => hkept loc'' entry'' hget ?_
    rcases hpassed with hdirectory | hlink | ⟨-, hdirectory⟩
    · exact .inl hdirectory
    · exact .inr hlink
    · exact .inl hdirectory
  obtain rfl : middle = dir := (hmiddle'.unique hreaches).1
  have hfollow : t'.follow true left middle [.name name]
      = .ok (.entry (middle ++ [name]) (.file content executable)) :=
    follow_name hlength hfile (by simp)
  rw [hlast.follow_eq] at hfollow
  cases hfollow
  rfl

/-- Where anything is found under the name that a file was given by renaming, it is
that file. -/
theorem entryAt_of_rename {executable : Bool} {old : Bytes}
    (hold : t.get? loc = some (.file old executable)) (h : t.rename loc p content = .ok t')
    (hentry : t'.entryAt p = .ok entry) : entry = .file content false := by
  have hloc : loc ≠ [] := by
    rintro rfl
    cases hold
  unfold rename at h
  split at h
  · cases h
  next new htarget =>
  split at h
  · cases h
  next hslash =>
  obtain ⟨dir, name, -, -, hnew⟩ := targetLocation_eq_ok_iff.mp htarget
  have hne : new ≠ [] := by simp [hnew]
  -- The file leaves its old place and stands in the new one, with the new content.
  have hafter : t' = (t.erase loc).insert new (.file content false) := by
    split at h
    · cases h
    · exact (Except.ok.inj h).symm
  have hfile : t'.get? new = some (.file content false) := by rw [hafter, get?_insert_self hne]
  refine eq_file_of_target (by rw [hafter]; rfl) ?_ htarget (eq_false_of_ne_true hslash)
    hfile hentry
  -- Everything on the way there was there before: it is neither the new file nor in the old
  -- place.
  intro loc' entry' hget hpassed
  rw [hafter, get?_insert hne] at hget
  split at hget
  · cases hget
    simp at hpassed
  · by_cases hgone : loc' = loc
    · rw [hgone, get?_erase_self hloc] at hget
      cases hget
    · rwa [get?_erase_of_ne hgone] at hget

/-- What is read under the name that a file was given by renaming is what was
in the file. -/
theorem read_of_rename {executable : Bool} {old bytes : Bytes}
    (hold : t.get? loc = some (.file old executable)) (h : t.rename loc p content = .ok t')
    (hread : t'.read p = .ok bytes) : bytes = content := by
  obtain ⟨_, entry, hplace, hcontent⟩ := read_eq_ok_iff.mp hread
  obtain rfl := entryAt_of_rename hold h (entryAt_eq_ok_iff.mpr ⟨_, hplace⟩)
  exact (Except.ok.inj hcontent).symm

end Promotion.FileTree
