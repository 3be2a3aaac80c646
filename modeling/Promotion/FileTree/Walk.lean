import Promotion.FileTree.Resolve

/-!
# `Promotion.FileTree.Walk`: everything below a directory

A walk meets every entry below a directory: the names of a directory in
order, and what is in a directory right after the directory itself. Links
count as what they lead to. The walk breaks off at a link that leads nowhere
and at a link to a directory that the walk is in.

* `FileTree.meet`: what a name stands for during a walk.
* `FileTree.walk`: the visits of a walk, and why it broke off if it did.

A walk ends because a link is entered only when it leads to a directory that
is not yet open, and because real directories are only so deep.
-/

set_option autoImplicit false

namespace Promotion

/-- A directory that a walk is in, and the path by which it came there. -/
structure Opened where
  path : Path
  loc : Location
  deriving DecidableEq, Repr

/-- An entry that a walk came to: the path by which it came, the names that
lead there from where the walk started, and what is there. -/
structure Visit where
  path : Path
  names : List Name
  entry : Entry
  deriving DecidableEq, Repr

/-- The visits of a walk in their order, and why it broke off if it did. -/
structure Walk where
  visits : List Visit
  breakage : Option String
  deriving DecidableEq, Repr

namespace Walk

/-- The walk that meets nothing. -/
def empty : Walk := ⟨[], none⟩

/-- The walk that breaks off at once. -/
def broken (reason : String) : Walk := ⟨[], some reason⟩

/-- The walk that makes one visit first. -/
def cons (visit : Visit) (w : Walk) : Walk := ⟨visit :: w.visits, w.breakage⟩

/-- One walk after another; the second is not made when the first breaks off. -/
def andThen (w later : Walk) : Walk :=
  match w.breakage with
  | some _ => w
  | none => ⟨w.visits ++ later.visits, later.breakage⟩

end Walk

/-- What a name stands for during a walk. -/
inductive Meeting where
  | leaf (entry : Entry)
  | directory (loc : Location)
  | broken (reason : String)
  deriving DecidableEq, Repr

namespace FileTree

/-- A fault at a path, as it is told. -/
def faultAt (path : Path) (fault : Fault) : String :=
  s!"IO error for operation on {path.display}: {fault.message}"

/-- A file that cannot be opened by its path, as it is told. -/
def unreadableAt (path : Path) (fault : Fault) : String :=
  s!"could not add {path.display}: {fault.message} when getting metadata for {path.display}"

/-- A link back to a directory that the walk is in, as it is told. -/
def loopAt (path ancestor : Path) : String :=
  s!"File system loop found: {path.display} points to an ancestor {ancestor.display}"

/-- What the entry at a location, reached by a path, stands for. -/
def meet (t : FileTree) (opened : List Opened) (path : Path) (loc : Location) : Meeting :=
  match t.get? loc with
  | none => .broken (faultAt path .notFound)
  | some .directory =>
    match path.check with
    | .error fault => .broken fault.message
    | .ok () => .directory loc
  | some (.link _) =>
    match t.locate path with
    | .error fault => .broken (faultAt path fault)
    | .ok target =>
      match t.get? target with
      | none => .broken (faultAt path .notFound)
      | some .directory =>
        match opened.find? fun d => d.loc = target with
        | some ancestor => .broken (loopAt path ancestor.path)
        | none => .directory target
      | some entry => .leaf entry
  | some .special => .leaf .special
  | some entry =>
    match path.check with
    | .error fault => .broken (unreadableAt path fault)
    | .ok () => .leaf entry

/-- How many directories are not open. -/
def closedCount (t : FileTree) (opened : List Opened) : Nat :=
  (t.directories.filter fun loc => opened.all fun d => d.loc ≠ loc).length

/-- The greatest length of a location. -/
def depth (t : FileTree) : Nat := t.entries.foldr (fun e d => max e.1.length d) 0

/-- A filter by a stronger condition keeps no more. -/
theorem length_filter_le_of_imp {α : Type} {p q : α → Bool} (h : ∀ a, p a → q a) (xs : List α) :
    (xs.filter p).length ≤ (xs.filter q).length := by
  rw [← List.countP_eq_length_filter, ← List.countP_eq_length_filter]
  exact List.countP_mono_left fun a _ => h a

/-- A filter that drops a member kept by a weaker one keeps less. -/
theorem length_filter_lt_of_imp {α : Type} {p q : α → Bool} (h : ∀ a, p a → q a) {xs : List α}
    {x : α} (hx : x ∈ xs) (hq : q x) (hp : ¬ p x) :
    (xs.filter p).length < (xs.filter q).length := by
  induction xs with
  | nil => cases hx
  | cons y ys ih =>
    rcases List.mem_cons.1 hx with rfl | hx
    · have := length_filter_le_of_imp h ys
      simp [hq, hp]
      omega
    · have := ih hx
      by_cases hpy : p y
      · simp [hpy, h y hpy, this]
      · by_cases hqy : q y
        · simp [hpy, hqy]
          omega
        · simp [hpy, hqy, this]

/-- Opening a directory leaves no more directories closed. -/
theorem closedCount_cons_le (t : FileTree) (opened : List Opened) (d : Opened) :
    t.closedCount (d :: opened) ≤ t.closedCount opened :=
  length_filter_le_of_imp (fun loc h => by simp at h ⊢; exact h.2) _

/-- Opening a closed directory leaves fewer directories closed. -/
theorem closedCount_cons_lt (t : FileTree) (opened : List Opened) (d : Opened)
    (hd : d.loc ∈ t.directories) (h : opened.find? (fun o => o.loc = d.loc) = none) :
    t.closedCount (d :: opened) < t.closedCount opened := by
  refine length_filter_lt_of_imp (fun loc h => by simp at h ⊢; exact h.2) hd ?_ (by simp)
  simpa [List.find?_eq_none] using h

/-- A directory is among the directories. -/
theorem mem_directories {t : FileTree} {loc : Location} (h : t.get? loc = some .directory) :
    loc ∈ t.directories := by
  unfold get? at h
  split at h
  · simp [directories, *]
  · obtain ⟨e, he, hdir⟩ := Option.map_eq_some_iff.1 h
    have hmem := List.mem_of_find?_eq_some he
    have hloc := List.find?_some he
    simp only [decide_eq_true_eq] at hloc
    exact List.mem_cons_of_mem _ (List.mem_map.2 ⟨e, by simp [hmem, hdir], hloc⟩)

/-- A location in a list is no longer than the longest. -/
theorem length_le_foldr_max {entries : List (Location × Entry)} {e : Location × Entry}
    (h : e ∈ entries) : e.1.length ≤ entries.foldr (fun e d => max e.1.length d) 0 := by
  induction entries with
  | nil => cases h
  | cons x xs ih =>
    simp only [List.foldr_cons]
    rcases List.mem_cons.1 h with rfl | h
    · omega
    · have := ih h
      omega

/-- No entry lies deeper than the depth. -/
theorem length_le_depth {t : FileTree} {loc : Location} {entry : Entry}
    (h : t.get? loc = some entry) : loc.length ≤ t.depth := by
  unfold get? at h
  split at h
  · simp [*]
  · obtain ⟨e, he, -⟩ := Option.map_eq_some_iff.1 h
    have hmem := List.mem_of_find?_eq_some he
    have hloc := List.find?_some he
    simp only [decide_eq_true_eq] at hloc
    subst hloc
    exact length_le_foldr_max hmem

/-- A directory that is entered is the entry itself, or was not open. -/
theorem meet_eq_directory {t : FileTree} {opened : List Opened} {path : Path}
    {loc target : Location} (h : t.meet opened path loc = .directory target) :
    t.get? target = some .directory
      ∧ (target = loc ∨ opened.find? (fun d => d.loc = target) = none) := by
  unfold meet at h
  split at h
  · cases h
  · split at h
    · cases h
    · cases h; exact ⟨by assumption, .inl rfl⟩
  · split at h
    · cases h
    · split at h
      · cases h
      · split at h
        · cases h
        · cases h; exact ⟨by assumption, .inr (by assumption)⟩
      · cases h
  · cases h
  · split at h <;> cases h

/-- The walk over some of the names of the directory `dir`, reached by `path`
and by the names `above` from the start. -/
def walkNames (t : FileTree) (opened : List Opened) (path : Path) (dir : Location)
    (above : List Name) (names : List Name) : Walk :=
  match names with
  | [] => .empty
  | name :: rest =>
    match _h : t.meet opened (path.child name) (dir ++ [name]) with
    | .broken reason => .broken reason
    | .leaf entry =>
      (walkNames t opened path dir above rest).cons ⟨path.child name, above ++ [name], entry⟩
    | .directory loc =>
      ((walkNames t (⟨path.child name, loc⟩ :: opened) (path.child name) loc (above ++ [name])
          (t.childNames loc)).cons ⟨path.child name, above ++ [name], .directory⟩).andThen
        (walkNames t opened path dir above rest)
  termination_by (t.closedCount opened, t.depth - dir.length, names.length)
  decreasing_by
    · exact .right _ (.right _ (by simp))
    · obtain ⟨hdir, rfl | hfresh⟩ := meet_eq_directory _h
      · have hle := closedCount_cons_le t opened ⟨path.child name, dir ++ [name]⟩
        have hdepth := length_le_depth hdir
        simp only [List.length_append, List.length_cons, List.length_nil] at hdepth
        rcases Nat.lt_or_eq_of_le hle with hlt | heq
        · exact .left _ _ hlt
        · rw [heq]
          refine .right _ (.left _ _ ?_)
          simp only [List.length_append, List.length_cons, List.length_nil]
          omega
      · exact .left _ _ (closedCount_cons_lt t opened ⟨path.child name, loc⟩
          (mem_directories hdir) hfresh)
    · exact .right _ (.right _ (by simp))

/-- The walk over everything below the directory that a path leads to. -/
def walk (t : FileTree) (path : Path) : Walk :=
  match t.locate path with
  | .error fault => .broken (faultAt path fault)
  | .ok dir => t.walkNames [⟨path, dir⟩] path dir [] (t.childNames dir)

end FileTree

end Promotion
