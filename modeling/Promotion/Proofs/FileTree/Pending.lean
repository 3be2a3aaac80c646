import Mathlib.Data.List.Induction
import Promotion.FileTree.Pending
import Promotion.Proofs.FileTree.Edit
import Promotion.Proofs.Path.Pending

/-!
# `Promotion.Proofs.FileTree.Pending`: where directories will be made

The location that a path has or will have (`FileTree.Awaits`) is told from the
longest leading part that leads somewhere. Making the directories of the path
follows the same leading parts, so an induction over the relation shows that
the prediction comes true.

* `Reaches.of_filter_eq`, `place_eq_directory_iff_moves`: a `.` in a path to a
  directory makes no difference.
* `exists_awaits_of_pending`: what `pending` finds is the path of an awaited
  location.
* `FileTree.Paves`: nothing is new but directories on the way to a location.
* `fulfils_makeDirectories`: making the directories of a path makes none but
  those on the way to the awaited location, and when it succeeds the path leads
  there (`FileTree.Fulfils`).
-/

set_option autoImplicit false

namespace Promotion.FileTree

open Promotion.Path (IsAbove PlainName)

variable {t t' : FileTree} {last : Bool} {links : Nat} {p parent q : Path} {whole : Fault}
  {dir loc out : Location} {name : Name} {entry : Entry} {steps steps' rest : List Step}

/-! ### Moves to a directory -/

/-- Steps that stay where they are. -/
theorem Reaches.stay {stays : List Step} (hstays : ∀ step ∈ stays, step = .here)
    (h : t.Reaches last links dir steps loc entry) :
    t.Reaches last links dir (stays ++ steps) loc entry := by
  induction stays with
  | nil => exact h
  | cons step stays ih =>
    rw [List.forall_mem_cons] at hstays
    obtain ⟨rfl, hstays⟩ := hstays
    exact .here (ih hstays)

/-- The first move of some steps, with the steps before it that stay. -/
theorem exists_stays_of_filter {step : Step} {moves : List Step}
    (h : steps.filter (· ≠ .here) = step :: moves) :
    ∃ stays after, steps = stays ++ step :: after ∧ (∀ step ∈ stays, step = .here) ∧
      after.filter (· ≠ .here) = moves := by
  obtain ⟨stays, after, rfl, hstays, -, hafter⟩ := List.filter_eq_cons_iff.mp h
  exact ⟨stays, after, rfl, fun step hstep => by simpa using hstays step hstep, hafter⟩

/-- Steps with the same moves lead to the same directory. -/
theorem Reaches.of_filter_eq (h : t.Reaches true links dir steps loc .directory)
    (heq : steps'.filter (· ≠ .here) = steps.filter (· ≠ .here)) :
    t.Reaches true links dir steps' loc .directory := by
  generalize htrue : true = last, hentry : Entry.directory = entry at h
  -- Along the steps that lead there; the other ones may stay before each move.
  induction h generalizing steps' with
  | done links dir =>
    have hstays : ∀ step ∈ steps', step = .here := by
      simpa [List.filter_eq_nil_iff] using heq
    have hdone : t.Reaches last links dir (steps' ++ []) dir .directory := .stay hstays (.done _ _)
    rwa [List.append_nil] at hdone
  | here _ ih =>
    rw [List.filter_cons_of_neg (by simp)] at heq
    exact ih heq hentry
  | slash _ ih =>
    rw [List.filter_cons_of_pos (by simp)] at heq
    obtain ⟨stays, after, rfl, hstays, hafter⟩ := exists_stays_of_filter heq
    exact .stay hstays (.slash (ih hafter hentry))
  | up _ ih =>
    rw [List.filter_cons_of_pos (by simp)] at heq
    obtain ⟨stays, after, rfl, hstays, hafter⟩ := exists_stays_of_filter heq
    exact .stay hstays (.up (ih hafter hentry))
  | enter hname hget _ ih =>
    rw [List.filter_cons_of_pos (by simp)] at heq
    obtain ⟨stays, after, rfl, hstays, hafter⟩ := exists_stays_of_filter heq
    exact .stay hstays (.enter hname hget (ih hafter hentry))
  | link hname hget _ htarget _ ih =>
    rw [List.filter_cons_of_pos (by simp)] at heq
    obtain ⟨stays, after, rfl, hstays, hafter⟩ := exists_stays_of_filter heq
    refine .stay hstays (.link hname hget (.inr htrue.symm) htarget (ih ?_ hentry))
    rw [List.filter_append, List.filter_append, hafter]
  | linkItself _ _ hlast => cases htrue.trans hlast
  | leaf _ _ hdirectory _ => exact absurd hentry.symm hdirectory

/-- Where a directory is concerned, the moves of a path say all of it. -/
theorem place_eq_directory_iff_moves :
    t.place true p = .ok (.entry loc .directory) ↔ p.check = .ok () ∧
      t.Reaches true linkLimit (p.origin t.current) p.moves loc .directory := by
  rw [place_eq_directory_iff]
  refine and_congr_right fun _ => ⟨fun h => h.of_filter_eq ?_, fun h => h.of_filter_eq ?_⟩
  · rw [Path.moves, List.filter_filter]
    simp
  · rw [Path.moves, List.filter_filter]
    simp

/-! ### The directory above -/

/-- A path leads to a directory only by way of the directory above. -/
theorem exists_place_of_isAbove (habove : IsAbove parent p name)
    (h : t.place true p = .ok (.entry loc .directory)) :
    ∃ dir left, t.place true parent = .ok (.entry dir .directory) ∧
      t.Reaches true left dir [.name name] loc .directory := by
  obtain ⟨hcheck, hreaches⟩ := place_eq_directory_iff_moves.mp h
  rw [habove.moves] at hreaches
  obtain ⟨left, dir, hparent, hname⟩ := hreaches.directory_of_append (by simp)
  refine ⟨dir, left, place_eq_directory_iff_moves.mpr ⟨habove.check hcheck, ?_⟩, hname⟩
  rwa [Path.origin, habove.absolute]

/-- From the directory above, a path leads on to the directory that has the name. -/
theorem place_of_isAbove (habove : IsAbove parent p name) (hcheck : p.check = .ok ())
    (hparent : t.place true parent = .ok (.entry dir .directory))
    (hlength : name.length ≤ Path.nameLimit) (hget : t.get? (dir ++ [name]) = some .directory) :
    t.place true p = .ok (.entry (dir ++ [name]) .directory) := by
  obtain ⟨-, hreaches⟩ := place_eq_directory_iff_moves.mp hparent
  rw [Path.origin, habove.absolute] at hreaches
  obtain ⟨left, happend⟩ := hreaches.follow_append
  have hfollow := (happend true [.name name] (by simp)).trans (follow_name hlength hget (by simp))
  refine place_eq_directory_iff_moves.mpr ⟨hcheck, ?_⟩
  rw [habove.moves]
  exact follow_eq_entry_iff.mp hfollow

/-- A path gives a new entry the directory above and the name in it. -/
theorem place_of_target {name' : Name} (habove : IsAbove parent p name)
    (h : t.target p whole = .ok (dir, name')) :
    name' = name ∧ t.place true parent = .ok (.entry dir .directory) := by
  obtain ⟨hcheck, front, hfront, hreaches⟩ := target_eq_ok_iff.mp h
  have hmoves : front.filter (· ≠ .here) ++ [.name name'] = parent.moves ++ [.name name] := by
    rw [← habove.moves, Path.moves, hfront, List.filter_append]
    rfl
  obtain ⟨hparent, hname⟩ := List.append_inj' hmoves rfl
  refine ⟨by simpa using hname, place_eq_directory_iff_moves.mpr ⟨habove.check hcheck, ?_⟩⟩
  rw [← hparent, Path.origin, habove.absolute]
  exact hreaches.of_filter_eq (by rw [List.filter_filter]; simp)

/-! ### Awaited locations -/

/-- Where a path leads, or will lead once the directories that are missing are
made: the location of its longest leading part that leads somewhere, with the
names behind that. -/
inductive Awaits (t : FileTree) : Path → Location → Prop
  | there {p : Path} {loc : Location} (h : t.locate p = .ok loc) : Awaits t p loc
  | missing {p parent : Path} {dir : Location} {name : Name} {fault : Fault}
      (h : t.locate p = .error fault) (habove : p.above? = some (parent, name))
      (hparent : Awaits t parent dir) : Awaits t p (dir ++ [name])

/-- Every name on the way to an entry is proper. -/
theorem WellFormed.proper_of_get? (ht : t.WellFormed) (h : t.get? loc = some entry) :
    ∀ n ∈ loc, ProperName n := by
  induction loc using List.reverseRecOn generalizing entry with
  | nil => simp
  | append_singleton dir name ih =>
    have hdir := ih (ht.parent dir name entry h)
    have hname := ht.proper dir name entry h
    rw [List.forall_mem_append, List.forall_mem_singleton]
    exact ⟨hdir, hname⟩

/-- What a path leads to is there. -/
theorem exists_get?_of_locate (ht : t.Rooted) (h : t.locate p = .ok loc) :
    ∃ entry, t.get? loc = some entry := by
  obtain ⟨entry, hplace⟩ := locate_eq_ok_iff.mp h
  exact ⟨entry, get?_of_place ht hplace⟩

/-- The names of an awaited location are plain, though perhaps too long. -/
theorem Awaits.plain (ht : t.WellFormed) (h : t.Awaits p out) : ∀ n ∈ out, PlainName n := by
  induction h with
  | there h =>
    obtain ⟨entry, hget⟩ := exists_get?_of_locate ht.toRooted h
    exact fun n hn => (ht.proper_of_get? hget n hn).plain
  | missing _ habove _ ih =>
    rw [List.forall_mem_append, List.forall_mem_singleton]
    exact ⟨ih, (Path.isAbove_of_above? habove).plain⟩

/-- The canonical path is that of the location. -/
theorem canonical_eq_ok_iff :
    t.canonical p = .ok q ↔ ∃ loc, t.locate p = .ok loc ∧ pathOf loc = q := by
  unfold canonical
  cases t.locate p <;> simp [Except.map]

/-- The canonical path cannot be found for the reason the location cannot. -/
theorem canonical_eq_error_iff {fault : Fault} :
    t.canonical p = .error fault ↔ t.locate p = .error fault := by
  unfold canonical
  cases t.locate p <;> simp [Except.map]

/-- A path that leads somewhere awaits no other location. -/
theorem Awaits.eq_of_locate (h : t.Awaits p out) (hlocate : t.locate p = .ok loc) : out = loc := by
  cases h with
  | there h => exact Except.ok.inj (h.symm.trans hlocate)
  | missing h _ _ => cases h.symm.trans hlocate

/-- A prediction is the path of an awaited location, with the names below it that
were found to be missing. -/
theorem exists_awaits (ht : t.WellFormed) {fuel : Nat} {missing : List Name}
    (h : Path.pendingFrom t.canonical fuel p missing = .ok q) :
    ∃ out, t.Awaits p out ∧ q = (pathOf out).descend missing := by
  -- By induction on the loop: the path leads somewhere, or the directory above it is looked at.
  fun_induction Path.pendingFrom t.canonical fuel p missing with
  | case1 fuel p missing q' hcanonical =>
    cases h
    obtain ⟨loc, hlocate, rfl⟩ := canonical_eq_ok_iff.mp hcanonical
    exact ⟨loc, .there hlocate, rfl⟩
  | case2 p missing fault hcanonical fuel parent name habove ih =>
    obtain ⟨dir, hdir, rfl⟩ := ih h
    have hlocate := canonical_eq_error_iff.mp hcanonical
    have hname := (Path.isAbove_of_above? habove).plain
    refine ⟨dir ++ [name], .missing hlocate habove hdir, ?_⟩
    rw [Path.descend_cons, Path.pathOf_concat (hdir.plain ht) hname]
  | case3 => cases h

/-- The path that is predicted is that of a place the path awaits. -/
theorem exists_awaits_of_pending (ht : t.WellFormed) (h : t.pending p = .ok q) :
    ∃ out, t.Awaits p out ∧ q = pathOf out :=
  exists_awaits ht h

/-- An awaited location that is a directory already is where the path leads, so
nothing was missing. -/
theorem Awaits.place_of_directory (ht : t.WellFormed) (h : t.Awaits p out)
    (hcheck : p.check = .ok ()) (hget : t.get? out = some .directory) :
    t.place true p = .ok (.entry out .directory) := by
  -- By induction on the missing directories: the one above has to be there first.
  induction h with
  | there h =>
    obtain ⟨entry, hplace⟩ := locate_eq_ok_iff.mp h
    rw [get?_of_place ht.toRooted hplace] at hget
    cases hget
    exact hplace
  | @missing p parent dir name _ _ habove _ ih =>
    have habove := Path.isAbove_of_above? habove
    have hparent := ih (habove.check hcheck) (ht.parent dir name _ hget)
    exact place_of_isAbove habove hcheck hparent (ht.proper dir name _ hget).length_le hget

/-! ### Making what is missing -/

/-- Nothing is new but directories on the way to a location. -/
structure Paves (t t' : FileTree) (out : Location) : Prop extends t.Extends t' where
  way : ∀ loc, t.get? loc = none → t'.get? loc ≠ none → loc <+: out

/-- Where nothing was made, no directory is new. -/
theorem Paves.refl (t : FileTree) (out : Location) : t.Paves t out :=
  ⟨.refl t, fun _ hnone hsome => absurd hnone hsome⟩

/-- What paves the way to a directory paves part of the way to a place below it. -/
theorem Paves.mono (h : t.Paves t' dir) (hbelow : dir <+: out) : t.Paves t' out :=
  ⟨h.toExtends, fun loc hnone hsome => (h.way loc hnone hsome).trans hbelow⟩

/-- Off the way nothing has changed. -/
theorem Paves.get?_eq_of_not_prefix (h : t.Paves t' out) (hoff : ¬ loc <+: out) :
    t'.get? loc = t.get? loc := by
  cases hget : t.get? loc with
  | some entry => exact h.get?_eq loc entry hget
  | none =>
    by_contra hsome
    exact hoff (h.way loc hget hsome)

/-- After directories on the way, the one at the end. -/
theorem Paves.insert (h : t.Paves t' dir) (hvacant : t'.get? (dir ++ [name]) = none) :
    t.Paves (t'.insert (dir ++ [name]) .directory) (dir ++ [name]) where
  toExtends := h.toExtends.trans (.insert hvacant)
  way loc hnone hsome := by
    rw [get?_insert (by simp)] at hsome
    split at hsome
    next heq => rw [heq]
    · exact (h.way loc hnone hsome).trans (List.prefix_append _ _)

/-- What is done for one directory. -/
theorem ensureDirectory_cases (t : FileTree) (p : Path) :
    (∃ t', t.makeDirectory p = .ok t' ∧ t.ensureDirectory p = ⟨t', none⟩) ∨
      ∃ fault, t.makeDirectory p = .error fault ∧ (t.ensureDirectory p).tree = t ∧
        ((t.ensureDirectory p).fault = none → t.isDirectory p = true) := by
  unfold ensureDirectory
  cases hmade : t.makeDirectory p with
  | ok t' => exact .inl ⟨t', rfl, rfl⟩
  | error fault =>
    refine .inr ⟨fault, rfl, ?_⟩
    cases hdirectory : t.isDirectory p <;> simp

/-- Making the directories of a path makes the one at its end, and before that
those above when it is missing for want of them. -/
theorem makeDirectoriesFrom_cases (fuel : Nat) (t : FileTree) (hempty : p.isEmpty = false) :
    makeDirectoriesFrom fuel t p = t.ensureDirectory p ∨
      t.makeDirectory p = .error .notFound ∧ ∃ fuel' parent, p.parent? = some parent ∧
        ((∃ fault, (makeDirectoriesFrom fuel' t parent).fault = some fault ∧
            makeDirectoriesFrom fuel t p = makeDirectoriesFrom fuel' t parent) ∨
          (makeDirectoriesFrom fuel' t parent).fault = none ∧
            makeDirectoriesFrom fuel t p
              = (makeDirectoriesFrom fuel' t parent).tree.ensureDirectory p) := by
  -- The directory above is made first, and only when that one is missing.
  cases fuel with
  | zero =>
    left
    simp [makeDirectoriesFrom, hempty]
  | succ fuel =>
    rw [makeDirectoriesFrom, hempty, if_neg Bool.false_ne_true]
    split
    next parent hmade hparent =>
      refine .inr ⟨hmade, fuel, parent, hparent, ?_⟩
      rcases makeDirectoriesFrom fuel t parent with ⟨t', _ | fault⟩
      · exact .inr ⟨rfl, rfl⟩
      · exact .inl ⟨fault, rfl, rfl⟩
    · exact .inl rfl

/-- A path that awaits a place is not empty. -/
theorem Awaits.isEmpty (h : t.Awaits p out) : p.isEmpty = false := by
  cases hbytes : p.isEmpty with
  | false => rfl
  | true =>
    obtain ⟨bytes⟩ := p
    obtain rfl : bytes = [] := by simpa [Path.isEmpty] using hbytes
    cases h with
    | there h =>
      obtain ⟨entry, hplace⟩ := locate_eq_ok_iff.mp h
      cases (place_eq_entry_iff.mp hplace).1
    | missing _ habove _ => cases habove

/-- A prediction has come true as far as directories could be made. -/
structure Fulfils (t : FileTree) (p : Path) (out : Location) (change : Change) : Prop where
  paves : t.Paves change.tree out
  place : change.fault = none → change.tree.place true p = .ok (.entry out .directory)

/-- The last step: above the path there is nothing but the awaited directory,
and if that was there from the start, nothing has been made. -/
theorem fulfils_ensureDirectory {fault : Fault} (ht : t.WellFormed)
    (habove : IsAbove parent p name) (hlocate : t.locate p = .error fault)
    (hawaits : t.Awaits parent dir) (hpaves : t.Paves t' dir)
    (hparent : ∀ dir', t'.place true parent = .ok (.entry dir' .directory) → dir' = dir)
    (hstart : t.place true parent = .ok (.entry dir .directory) → t' = t) :
    t.Fulfils p (dir ++ [name]) (t'.ensureDirectory p) := by
  rcases ensureDirectory_cases t' p with ⟨t'', hmade, hensure⟩ | ⟨fault', -, htree, hdirectory⟩
  · -- The directory is made.
    obtain ⟨dir', name', hname, hlength, hvacant, rfl⟩ := makeDirectory_eq_ok hmade
    obtain ⟨rfl, hplace⟩ := place_of_target habove hname
    obtain rfl := hparent dir' hplace
    rw [hensure]
    exact ⟨hpaves.insert hvacant, fun _ => place_of_makeDirectory hname hlength hvacant⟩
  · refine ⟨?_, fun hnone => ?_⟩
    · rw [htree]
      exact hpaves.mono (List.prefix_append _ _)
    · -- The directory is found; it could be behind a link.
      obtain ⟨loc, hplace⟩ := isDirectory_iff.mp (hdirectory hnone)
      obtain ⟨dir', left, habove', hname⟩ := exists_place_of_isAbove habove hplace
      obtain rfl := hparent dir' habove'
      rw [htree]
      cases hname with
      | enter hlength hget hdone =>
        cases hdone
        exact hplace
      | link hlength hget =>
        -- An old link in an old directory, which was therefore there from the start.
        have hold : t.get? (dir' ++ [name]) = some (.link _) :=
          (hpaves.new _ _ hget).resolve_right (by simp)
        have hcheck := (place_eq_entry_iff.mp hplace).1
        have hplace' := hawaits.place_of_directory ht (habove.check hcheck)
          (ht.parent dir' name _ hold)
        obtain rfl := hstart hplace'
        cases hlocate.symm.trans (locate_eq_ok_iff.mpr ⟨_, hplace⟩)
      | leaf _ _ hdirectory => exact absurd rfl hdirectory

/-- Making the directories of a path fulfils what was predicted of it. -/
theorem fulfils_makeDirectoriesFrom (ht : t.WellFormed) (h : t.Awaits p out) (fuel : Nat) :
    t.Fulfils p out (makeDirectoriesFrom fuel t p) := by
  induction h generalizing fuel with
  | @there p out h =>
    obtain ⟨entry, hplace⟩ := locate_eq_ok_iff.mp h
    have htree := makeDirectoriesFrom_of_place fuel hplace
    refine ⟨by rw [htree]; exact .refl t out, fun hnone => ?_⟩
    have hempty := (Awaits.there h).isEmpty
    have hdirectory := (makes_makeDirectoriesFrom fuel t p).isDirectory hnone
    rw [htree, hempty] at hdirectory
    obtain ⟨loc, hloc⟩ := isDirectory_iff.mp (hdirectory.resolve_left Bool.false_ne_true)
    rw [htree, hloc]
    rw [hplace] at hloc
    cases hloc
    rfl
  | @missing p parent dir name fault h habove hparent ih =>
    have hempty := (Awaits.missing h habove hparent).isEmpty
    have hisAbove := Path.isAbove_of_above? habove
    -- When nothing above is made, what is above is where it was.
    have hself : t.Fulfils p (dir ++ [name]) (t.ensureDirectory p) :=
      fulfils_ensureDirectory ht hisAbove h hparent (.refl t dir)
        (fun _ hplace => (hparent.eq_of_locate (locate_eq_ok_iff.mpr ⟨_, hplace⟩)).symm)
        fun _ => rfl
    rcases makeDirectoriesFrom_cases fuel t hempty with hsingle | ⟨-, fuel', q, hq, hmade⟩
    · rw [hsingle]
      exact hself
    obtain ⟨q', hq', -, rfl⟩ := Path.above?_eq_some_iff.mp habove
    obtain rfl := Option.some.inj (hq'.symm.trans hq)
    cases hnone : q'.isEmpty with
    | true =>
      rw [makeDirectoriesFrom_of_isEmpty fuel' t hnone] at hmade
      rcases hmade with ⟨fault', hfault, -⟩ | ⟨-, hmade⟩
      · cases hfault
      · rw [hmade]
        exact hself
    | false =>
      rw [hnone, if_neg Bool.false_ne_true] at ih hparent hisAbove
      have hbefore := ih fuel'
      rcases hmade with ⟨fault', hfault, hmade⟩ | ⟨hfault, hmade⟩
      · -- A directory above could not be made.
        rw [hmade]
        refine ⟨hbefore.paves.mono (List.prefix_append _ _), fun hnone => ?_⟩
        cases hfault.symm.trans hnone
      · have hplace := hbefore.place hfault
        rw [hmade]
        refine fulfils_ensureDirectory ht hisAbove h hparent hbefore.paves (fun dir' hdir' => ?_)
          fun hstart => makeDirectoriesFrom_of_place fuel' hstart
        rw [hplace] at hdir'
        cases hdir'
        rfl

/-- Making the directories of a path fulfils what it awaits. -/
theorem fulfils_makeDirectories (ht : t.WellFormed) (h : t.Awaits p out) :
    t.Fulfils p out (t.makeDirectories p) :=
  fulfils_makeDirectoriesFrom ht h _

end Promotion.FileTree
