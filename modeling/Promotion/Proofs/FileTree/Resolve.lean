import Promotion.Proofs.FileTree.Basic
import Promotion.Proofs.Path.Components

/-!
# `Promotion.Proofs.FileTree.Resolve`: where paths lead

`FileTree.follow` answers with a fault as soon as one step fails. What matters
of a run that does not fail is the relation `FileTree.Reaches`, one rule for
each way to take a step; every fact on resolved paths is an induction over it.

* `follow_eq_entry_iff`: the relation is what `follow` computes.
* `Reaches.get?_eq`: a path leads to what stands at the location it leads to.
* `Reaches.transfer`: a path leads to the same place in another file system
  that has the same directories and links on the way.
* `Reaches.follow_append`, `Reaches.directory_of_append`: a path leads on from
  the directory that its first steps lead to, and only from a directory.
* `place_descend`, `exists_directory_of_place_descend`: the same for paths
  below a directory.
-/

set_option autoImplicit false

namespace Promotion.FileTree

variable {t : FileTree} {last : Bool} {links : Nat} {dir loc : Location} {entry : Entry}
  {steps rest : List Step}

/-! ### Resolution as a relation -/

/-- From the directory `dir`, with `links` links still allowed, steps lead to
an entry at a location. -/
inductive Reaches (t : FileTree) (last : Bool) :
    Nat → Location → List Step → Location → Entry → Prop
  | done (links : Nat) (dir : Location) : Reaches t last links dir [] dir .directory
  | here {links : Nat} {dir loc : Location} {rest : List Step} {entry : Entry}
      (h : Reaches t last links dir rest loc entry) :
      Reaches t last links dir (.here :: rest) loc entry
  | slash {links : Nat} {dir loc : Location} {rest : List Step} {entry : Entry}
      (h : Reaches t last links dir rest loc entry) :
      Reaches t last links dir (.slash :: rest) loc entry
  | up {links : Nat} {dir loc : Location} {rest : List Step} {entry : Entry}
      (h : Reaches t last links dir.dropLast rest loc entry) :
      Reaches t last links dir (.up :: rest) loc entry
  | enter {links : Nat} {dir loc : Location} {name : Name} {rest : List Step} {entry : Entry}
      (hname : name.length ≤ Path.nameLimit)
      (hget : t.get? (dir ++ [name]) = some .directory)
      (h : Reaches t last links (dir ++ [name]) rest loc entry) :
      Reaches t last links dir (.name name :: rest) loc entry
  | link {links : Nat} {dir loc : Location} {name : Name} {target : Path} {rest : List Step}
      {entry : Entry} (hname : name.length ≤ Path.nameLimit)
      (hget : t.get? (dir ++ [name]) = some (.link target))
      (hgoes : rest ≠ [] ∨ last = true) (htarget : target.isEmpty = false)
      (h : Reaches t last links (target.origin dir) (target.steps ++ rest) loc entry) :
      Reaches t last (links + 1) dir (.name name :: rest) loc entry
  /-- A link at the end that is not followed. -/
  | linkItself {links : Nat} {dir : Location} {name : Name} {target : Path}
      (hname : name.length ≤ Path.nameLimit)
      (hget : t.get? (dir ++ [name]) = some (.link target)) (hlast : last = false) :
      Reaches t last links dir [.name name] (dir ++ [name]) (.link target)
  /-- Whatever no step leads on from. -/
  | leaf {links : Nat} {dir : Location} {name : Name} {entry : Entry}
      (hname : name.length ≤ Path.nameLimit)
      (hget : t.get? (dir ++ [name]) = some entry) (hdirectory : entry ≠ .directory)
      (hlink : ∀ target, entry ≠ .link target) :
      Reaches t last links dir [.name name] (dir ++ [name]) entry

/-- A link is followed when steps come after it, or when even the last one is. -/
theorem stops_eq_false_iff :
    (decide (rest = []) && !last) = false ↔ rest ≠ [] ∨ last = true := by
  cases last <;> simp

/-- What the resolution finds is reached. -/
theorem reaches_of_follow (h : t.follow last links dir steps = .ok (.entry loc entry)) :
    t.Reaches last links dir steps loc entry := by
  -- The cases that answer with a fault or a vacant place are closed by `cases h`.
  fun_induction follow t last links dir steps with
  | case1 =>
    cases h
    exact .done _ _
  | case2 _ _ _ ih => exact .here (ih h)
  | case3 _ _ _ ih => exact .slash (ih h)
  | case4 _ _ _ ih => exact .up (ih h)
  | case5 => cases h
  | case6 => cases h
  | case7 => cases h
  | case8 _ _ _ _ hname hget ih => exact .enter (Nat.le_of_not_lt hname) hget (ih h)
  | case9 _ _ _ _ hname target hget hstop =>
    cases h
    simp only [Bool.and_eq_true, decide_eq_true_eq, Bool.not_eq_true'] at hstop
    obtain ⟨rfl, hlast⟩ := hstop
    exact .linkItself (Nat.le_of_not_lt hname) hget hlast
  | case10 => cases h
  | case11 => cases h
  | case12 _ _ _ hname target hget hstop _ htarget ih =>
    exact .link (Nat.le_of_not_lt hname) hget (stops_eq_false_iff.mp (eq_false_of_ne_true hstop))
      (eq_false_of_ne_true htarget) (ih h)
  | case13 _ _ _ hname entry' hdirectory hlink hget =>
    cases h
    exact .leaf (Nat.le_of_not_lt hname) hget hdirectory hlink
  | case14 => cases h

/-- What is reached is what the resolution finds. -/
theorem Reaches.follow_eq (h : t.Reaches last links dir steps loc entry) :
    t.follow last links dir steps = .ok (.entry loc entry) := by
  -- By induction on the way, with one case for each kind of step.
  induction h with
  | done => rw [follow]
  | here _ ih => rw [follow, ih]
  | slash _ ih => rw [follow, ih]
  | up _ ih => rw [follow, ih]
  | enter hname hget _ ih => rw [follow, if_neg (Nat.not_lt_of_le hname), hget, ih]
  | link hname hget hgoes htarget _ ih =>
    rw [follow, if_neg (Nat.not_lt_of_le hname), hget]
    simp [stops_eq_false_iff.mpr hgoes, htarget, ih]
  | linkItself hname hget hlast =>
    rw [follow, if_neg (Nat.not_lt_of_le hname), hget]
    simp [hlast]
  | leaf hname hget hdirectory hlink =>
    rw [follow, if_neg (Nat.not_lt_of_le hname), hget]
    simp

/-- The relation is what `follow` computes when it leads to an entry. -/
theorem follow_eq_entry_iff :
    t.follow last links dir steps = .ok (.entry loc entry)
      ↔ t.Reaches last links dir steps loc entry :=
  ⟨reaches_of_follow, Reaches.follow_eq⟩

/-- Steps lead to one entry only. -/
theorem Reaches.unique {loc' : Location} {entry' : Entry}
    (h : t.Reaches last links dir steps loc entry)
    (h' : t.Reaches last links dir steps loc' entry') : loc = loc' ∧ entry = entry' := by
  have heq := h.follow_eq.symm.trans h'.follow_eq
  cases heq
  exact ⟨rfl, rfl⟩

/-! ### What is reached -/

/-- A path leads to what stands at the location that it leads to. -/
theorem Reaches.get?_eq (ht : t.Rooted) (hdir : t.get? dir = some .directory)
    (h : t.Reaches last links dir steps loc entry) : t.get? loc = some entry := by
  induction h with
  | done => exact hdir
  | here _ ih => exact ih hdir
  | slash _ ih => exact ih hdir
  | up _ ih => exact ih (ht.dropLast hdir)
  | enter _ hget _ ih => exact ih hget
  | link _ _ _ _ _ ih => exact ih (get?_origin hdir _)
  | linkItself _ hget _ => exact hget
  | leaf _ hget _ _ => exact hget

/-- Names that are too long lead nowhere. -/
theorem Reaches.length_le {name : Name} (h : t.Reaches last links dir steps loc entry)
    (hname : .name name ∈ steps) : name.length ≤ Path.nameLimit := by
  -- By induction on the way; behind a link its own steps come before the rest.
  induction h with
  | done => cases hname
  | here _ ih => exact ih (by simpa using hname)
  | slash _ ih => exact ih (by simpa using hname)
  | up _ ih => exact ih (by simpa using hname)
  | enter hlength _ _ ih =>
    rcases List.mem_cons.mp hname with heq | hname
    · exact Step.name.inj heq ▸ hlength
    · exact ih hname
  | link hlength _ _ _ _ ih =>
    rcases List.mem_cons.mp hname with heq | hname
    · exact Step.name.inj heq ▸ hlength
    · exact ih (List.mem_append_right _ hname)
  | linkItself hlength _ _ =>
    exact Step.name.inj (List.mem_singleton.mp hname) ▸ hlength
  | leaf hlength _ _ _ =>
    exact Step.name.inj (List.mem_singleton.mp hname) ▸ hlength

/-- A link is never reached when links at the end are followed. -/
theorem Reaches.ne_link (h : t.Reaches true links dir steps loc entry) (target : Path) :
    entry ≠ .link target := by
  -- By induction on the way. Only a way that does not follow its last link ends at one.
  generalize hlast : true = last at h
  induction h with
  | done => simp
  | here _ ih => exact ih
  | slash _ ih => exact ih
  | up _ ih => exact ih
  | enter _ _ _ ih => exact ih
  | link _ _ _ _ _ ih => exact ih
  | linkItself _ _ hfalse => cases hlast.trans hfalse
  | leaf _ _ _ hlink => exact hlink target

/-- A path leads to the same place in a file system that has the directories
and links of this one, and at the end of the path the same entry. -/
theorem Reaches.transfer {t' : FileTree} (h : t.Reaches last links dir steps loc entry)
    (hkeep : ∀ loc' entry', t.get? loc' = some entry' →
      entry' = .directory ∨ (∃ target, entry' = .link target) ∨ loc' = loc ∧ entry' = entry →
      t'.get? loc' = some entry') :
    t'.Reaches last links dir steps loc entry := by
  -- By induction on the way: it passes directories and links, and ends at its entry.
  induction h with
  | done => exact .done _ _
  | here _ ih => exact .here (ih hkeep)
  | slash _ ih => exact .slash (ih hkeep)
  | up _ ih => exact .up (ih hkeep)
  | enter hname hget _ ih => exact .enter hname (hkeep _ _ hget (.inl rfl)) (ih hkeep)
  | link hname hget hgoes htarget _ ih =>
    exact .link hname (hkeep _ _ hget (.inr (.inl ⟨_, rfl⟩))) hgoes htarget (ih hkeep)
  | linkItself hname hget hlast =>
    exact .linkItself hname (hkeep _ _ hget (.inr (.inr ⟨rfl, rfl⟩))) hlast
  | leaf hname hget hdirectory hlink =>
    exact .leaf hname (hkeep _ _ hget (.inr (.inr ⟨rfl, rfl⟩))) hdirectory hlink

/-! ### Paths in two parts -/

/-- Steps lead on from the directory that the steps before them lead to, with
the links that those have left. -/
theorem Reaches.follow_append (h : t.Reaches true links dir steps loc .directory) :
    ∃ left, ∀ last rest, rest ≠ [] →
      t.follow last links dir (steps ++ rest) = t.follow last left loc rest := by
  -- Along the way to the directory: each step of it is the first one of both runs.
  generalize hlast : true = last, hentry : Entry.directory = entry at h
  induction h with
  | done links dir => exact ⟨links, fun _ _ _ => rfl⟩
  | here _ ih =>
    obtain ⟨left, ih⟩ := ih hentry
    exact ⟨left, fun last rest hrest => by rw [List.cons_append, follow, ih last rest hrest]⟩
  | slash _ ih =>
    obtain ⟨left, ih⟩ := ih hentry
    exact ⟨left, fun last rest hrest => by rw [List.cons_append, follow, ih last rest hrest]⟩
  | up _ ih =>
    obtain ⟨left, ih⟩ := ih hentry
    exact ⟨left, fun last rest hrest => by rw [List.cons_append, follow, ih last rest hrest]⟩
  | enter hname hget _ ih =>
    obtain ⟨left, ih⟩ := ih hentry
    refine ⟨left, fun last rest hrest => ?_⟩
    rw [List.cons_append, follow, if_neg (Nat.not_lt_of_le hname), hget, ih last rest hrest]
  | link hname hget _ htarget _ ih =>
    obtain ⟨left, ih⟩ := ih hentry
    refine ⟨left, fun last rest hrest => ?_⟩
    have ih := ih last rest hrest
    rw [List.append_assoc] at ih
    rw [List.cons_append, follow, if_neg (Nat.not_lt_of_le hname), hget, ← ih]
    simp [hrest, htarget]
  | linkItself => cases hentry
  | leaf _ _ hdirectory _ => exact absurd hentry.symm hdirectory

/-- A single step is not made of two parts. -/
theorem steps_eq_nil_of_append_singleton {step : Step} (hrest : rest ≠ [])
    (h : steps ++ rest = [step]) : steps = [] := by
  rcases List.append_eq_singleton_iff.mp h with ⟨hsteps, -⟩ | ⟨-, hnil⟩
  · exact hsteps
  · exact absurd hnil hrest

/-- A path in two parts leads somewhere only if its first part leads to a
directory. -/
theorem Reaches.directory_of_append (hrest : rest ≠ [])
    (h : t.Reaches last links dir (steps ++ rest) loc entry) :
    ∃ left middle, t.Reaches true links dir steps middle .directory ∧
      t.Reaches last left middle rest loc entry := by
  generalize hall : steps ++ rest = all at h
  -- Without a first part there is nothing to do; else it starts with the step that was taken.
  induction h generalizing steps with
  | done => exact absurd (List.append_eq_nil_iff.mp hall).2 hrest
  | here h ih =>
    cases steps with
    | nil =>
      obtain rfl : rest = _ := hall
      exact ⟨_, _, .done _ _, .here h⟩
    | cons step steps =>
      obtain ⟨rfl, hsteps⟩ := List.cons.inj hall
      obtain ⟨left, middle, hfront, hback⟩ := ih hsteps
      exact ⟨left, middle, .here hfront, hback⟩
  | slash h ih =>
    cases steps with
    | nil =>
      obtain rfl : rest = _ := hall
      exact ⟨_, _, .done _ _, .slash h⟩
    | cons step steps =>
      obtain ⟨rfl, hsteps⟩ := List.cons.inj hall
      obtain ⟨left, middle, hfront, hback⟩ := ih hsteps
      exact ⟨left, middle, .slash hfront, hback⟩
  | up h ih =>
    cases steps with
    | nil =>
      obtain rfl : rest = _ := hall
      exact ⟨_, _, .done _ _, .up h⟩
    | cons step steps =>
      obtain ⟨rfl, hsteps⟩ := List.cons.inj hall
      obtain ⟨left, middle, hfront, hback⟩ := ih hsteps
      exact ⟨left, middle, .up hfront, hback⟩
  | enter hname hget h ih =>
    cases steps with
    | nil =>
      obtain rfl : rest = _ := hall
      exact ⟨_, _, .done _ _, .enter hname hget h⟩
    | cons step steps =>
      obtain ⟨rfl, hsteps⟩ := List.cons.inj hall
      obtain ⟨left, middle, hfront, hback⟩ := ih hsteps
      exact ⟨left, middle, .enter hname hget hfront, hback⟩
  | @link _ _ _ _ target tail _ hname hget hgoes htarget h ih =>
    cases steps with
    | nil =>
      obtain rfl : rest = _ := hall
      exact ⟨_, _, .done _ _, .link hname hget hgoes htarget h⟩
    | cons step steps =>
      obtain ⟨rfl, hsteps⟩ := List.cons.inj hall
      have htail : target.steps ++ steps ++ rest = target.steps ++ tail := by
        rw [List.append_assoc]
        exact congrArg _ hsteps
      obtain ⟨left, middle, hfront, hback⟩ := ih htail
      exact ⟨left, middle, .link hname hget (.inr rfl) htarget hfront, hback⟩
  | linkItself hname hget hlast =>
    obtain rfl := steps_eq_nil_of_append_singleton hrest hall
    obtain rfl : rest = _ := hall
    exact ⟨0, _, .done _ _, .linkItself hname hget hlast⟩
  | leaf hname hget hdirectory hlink =>
    obtain rfl := steps_eq_nil_of_append_singleton hrest hall
    obtain rfl : rest = _ := hall
    exact ⟨0, _, .done _ _, .leaf hname hget hdirectory hlink⟩

/-! ### A single name -/

section Name

variable {name : Name}

/-- A name leads to the entry that has it, unless that is a link. -/
theorem follow_name (hname : name.length ≤ Path.nameLimit)
    (hget : t.get? (dir ++ [name]) = some entry) (hlink : ∀ target, entry ≠ .link target) :
    t.follow last links dir [.name name] = .ok (.entry (dir ++ [name]) entry) := by
  rw [follow_eq_entry_iff]
  by_cases hdirectory : entry = .directory
  · subst hdirectory
    exact .enter hname hget (.done _ _)
  · exact .leaf hname hget hdirectory hlink

/-- A name that no entry has leads to its vacant place. -/
theorem follow_vacant (hname : name.length ≤ Path.nameLimit)
    (hget : t.get? (dir ++ [name]) = none) :
    t.follow last links dir [.name name] = .ok (.vacant dir name false) := by
  rw [follow, if_neg (Nat.not_lt_of_le hname), hget]
  rfl

/-- The names of directories lead down to the last of them. -/
theorem reaches_names {names : List Name} (ht : t.Rooted) (hnames : ∀ n ∈ names, ProperName n)
    (hget : t.get? (dir ++ names) = some .directory) :
    t.Reaches last links dir (names.map .name) (dir ++ names) .directory := by
  induction names generalizing dir with
  | nil =>
    rw [List.append_nil]
    exact .done _ _
  | cons name names ih =>
    rw [List.forall_mem_cons] at hnames
    rw [List.append_cons] at hget ⊢
    exact .enter hnames.1.length_le (ht.get?_of_append hget) (ih hnames.2 hget)

/-- A name at the start is the name of something. -/
theorem exists_get?_of_reaches (h : t.Reaches last links dir (.name name :: rest) loc entry) :
    ∃ first, t.get? (dir ++ [name]) = some first := by
  cases h with
  | enter _ hget _ => exact ⟨_, hget⟩
  | link _ hget _ _ _ => exact ⟨_, hget⟩
  | linkItself _ hget _ => exact ⟨_, hget⟩
  | leaf _ hget _ _ => exact ⟨_, hget⟩

end Name

/-! ### The place of a path -/

section Place

variable {p : Path}

/-- A path leads to an entry when its steps do. -/
theorem place_eq_entry_iff :
    t.place last p = .ok (.entry loc entry)
      ↔ p.check = .ok () ∧ t.Reaches last linkLimit (p.origin t.current) p.steps loc entry := by
  rw [place, ← follow_eq_entry_iff]
  cases p.check <;> simp

/-- The location of a path is where it leads. -/
theorem locate_eq_ok_iff :
    t.locate p = .ok loc ↔ ∃ entry, t.place true p = .ok (.entry loc entry) := by
  unfold locate
  split <;> simp_all

/-- The entry of a path is what stands where it leads. -/
theorem entryAt_eq_ok_iff :
    t.entryAt p = .ok entry ↔ ∃ loc, t.place true p = .ok (.entry loc entry) := by
  unfold entryAt
  split <;> simp_all

/-- A path is a directory when it leads to one. -/
theorem isDirectory_iff :
    t.isDirectory p = true ↔ ∃ loc, t.place true p = .ok (.entry loc .directory) := by
  rw [← entryAt_eq_ok_iff]
  unfold isDirectory
  split <;> simp_all

/-- A path is a file when it leads to one. -/
theorem isFile_iff :
    t.isFile p = true ↔ ∃ content executable, t.entryAt p = .ok (.file content executable) := by
  unfold isFile
  split <;> simp_all

/-- What is read under a path is what the entry there brings. -/
theorem read_eq_ok_iff {content : Text.Bytes} :
    t.read p = .ok content ↔ ∃ loc entry,
      t.place true p = .ok (.entry loc entry) ∧ t.contentAt loc entry = .ok content := by
  unfold read
  split <;> simp_all

/-- A file brings its content. -/
theorem read_of_entryAt {content : Text.Bytes} {executable : Bool}
    (h : t.entryAt p = .ok (.file content executable)) : t.read p = .ok content := by
  obtain ⟨loc, hplace⟩ := entryAt_eq_ok_iff.mp h
  exact read_eq_ok_iff.mpr ⟨loc, _, hplace, rfl⟩

/-- A path leads to what stands at the location that it leads to. -/
theorem get?_of_place (ht : t.Rooted) (h : t.place last p = .ok (.entry loc entry)) :
    t.get? loc = some entry :=
  (place_eq_entry_iff.mp h).2.get?_eq ht (get?_origin ht.current p)

/-- The file name of a path that leads somewhere is proper. -/
theorem proper_of_fileName? {name : Name} (hname : p.fileName? = some name)
    (h : t.place last p = .ok (.entry loc entry)) : ProperName name := by
  obtain ⟨hcheck, hreaches⟩ := place_eq_entry_iff.mp h
  have hmem := Path.name_mem_bareSteps_of_fileName? hname
  exact Path.proper_of_mem_bareSteps hcheck hmem (hreaches.length_le (List.mem_append_left _ hmem))

/-- A path that is followed to its end does not lead to a link. -/
theorem entryAt_ne_link (target : Path) : t.entryAt p ≠ .ok (.link target) := by
  intro h
  obtain ⟨loc, hplace⟩ := entryAt_eq_ok_iff.mp h
  exact (place_eq_entry_iff.mp hplace).2.ne_link target rfl

/-- A path leads to the same place in a file system that has the directories
and links of this one, and at the end of the path the same entry. -/
theorem place_transfer {t' : FileTree} (hcurrent : t'.current = t.current)
    (h : t.place last p = .ok (.entry loc entry))
    (hkeep : ∀ loc' entry', t.get? loc' = some entry' →
      entry' = .directory ∨ (∃ target, entry' = .link target) ∨ loc' = loc ∧ entry' = entry →
      t'.get? loc' = some entry') :
    t'.place last p = .ok (.entry loc entry) := by
  rw [place_eq_entry_iff] at h ⊢
  rw [hcurrent]
  exact ⟨h.1, h.2.transfer hkeep⟩

/-- A separator at the end of a path to a directory makes no difference. -/
theorem place_eq_directory_iff :
    t.place true p = .ok (.entry loc .directory)
      ↔ p.check = .ok () ∧
        t.Reaches true linkLimit (p.origin t.current) p.bareSteps loc .directory := by
  rw [place_eq_entry_iff, Path.steps]
  refine and_congr_right fun _ => ?_
  -- A slash at the end asks for a directory, which is what the steps lead to.
  cases p.endsInSlash
  · simp
  constructor
  · intro h
    obtain ⟨left, middle, hbare, hslash⟩ := h.directory_of_append (by simp)
    cases hslash with
    | slash hdone =>
      cases hdone
      exact hbare
  · intro h
    obtain ⟨left, happend⟩ := h.follow_append
    rw [← follow_eq_entry_iff]
    refine (happend true [.slash] (by simp)).trans ?_
    rw [follow, follow]

/-- A path whose last step is a name leads to the entry that has the name in the
directory that the steps before it lead to, unless that is a link. -/
theorem place_of_bareSteps {front : List Step} {name : Name} (hcheck : p.check = .ok ())
    (hslash : p.endsInSlash = false) (hfront : p.bareSteps = front ++ [.name name])
    (hdir : t.Reaches true linkLimit (p.origin t.current) front dir .directory)
    (hname : name.length ≤ Path.nameLimit) (hget : t.get? (dir ++ [name]) = some entry)
    (hlink : ∀ target, entry ≠ .link target) :
    t.place true p = .ok (.entry (dir ++ [name]) entry) := by
  obtain ⟨left, happend⟩ := hdir.follow_append
  have hfollow := (happend true [.name name] (by simp)).trans (follow_name hname hget hlink)
  refine place_eq_entry_iff.mpr ⟨hcheck, ?_⟩
  rw [Path.steps, hfront, hslash, if_neg Bool.false_ne_true, List.append_nil]
  exact follow_eq_entry_iff.mp hfollow

/-- Below a directory, the names lead on from its location. -/
theorem place_descend (h : t.place true p = .ok (.entry dir .directory)) :
    ∃ left, ∀ last names, names ≠ [] → (∀ n ∈ names, ProperName n) →
      (p.descend names).check = .ok () →
      t.place last (p.descend names) = t.follow last left dir (names.map .name) := by
  obtain ⟨left, happend⟩ := (place_eq_directory_iff.mp h).2.follow_append
  refine ⟨left, fun last names hne hproper hcheck => ?_⟩
  rw [place, hcheck, Path.origin_descend hproper, Path.steps_descend hne hproper]
  exact happend last _ (by simpa using hne)

/-- Only below a directory does a path lead somewhere. -/
theorem exists_directory_of_place_descend {names : List Name} (hp : p.bytes ≠ [])
    (hne : names ≠ []) (hproper : ∀ n ∈ names, ProperName n)
    (h : t.place last (p.descend names) = .ok (.entry loc entry)) :
    ∃ dir, t.place true p = .ok (.entry dir .directory) := by
  obtain ⟨hcheck, hreaches⟩ := place_eq_entry_iff.mp h
  rw [Path.origin_descend hproper, Path.steps_descend hne hproper] at hreaches
  obtain ⟨left, dir, hdir, -⟩ := hreaches.directory_of_append (by simpa using hne)
  exact ⟨dir, place_eq_directory_iff.mpr ⟨Path.check_of_check_descend hproper hp hcheck, hdir⟩⟩

section Child

variable {name : Name}

/-- The path of a name in a directory leads to the entry that has it, unless
that is a link. -/
theorem place_child (hp : t.place true p = .ok (.entry dir .directory)) (hname : ProperName name)
    (hcheck : (p.child name).check = .ok ()) (hget : t.get? (dir ++ [name]) = some entry)
    (hlink : ∀ target, entry ≠ .link target) :
    t.place last (p.child name) = .ok (.entry (dir ++ [name]) entry) := by
  obtain ⟨left, hdescend⟩ := place_descend hp
  exact (hdescend last [name] (by simp) (by simpa using hname) hcheck).trans
    (follow_name hname.length_le hget hlink)

/-- A path below a directory leads somewhere only if its first name is there. -/
theorem exists_get?_of_place_descend {names : List Name}
    (hp : t.place true p = .ok (.entry dir .directory))
    (hproper : ∀ n ∈ name :: names, ProperName n)
    (h : t.place last (p.descend (name :: names)) = .ok (.entry loc entry)) :
    ∃ first, t.get? (dir ++ [name]) = some first := by
  obtain ⟨left, hdescend⟩ := place_descend hp
  rw [hdescend last (name :: names) (by simp) hproper (place_eq_entry_iff.mp h).1] at h
  exact exists_get?_of_reaches (follow_eq_entry_iff.mp h)

/-- Where a path to a child ends at a link, the child is that link. -/
theorem get?_of_place_child_link {target : Path}
    (hp : t.place true p = .ok (.entry dir .directory)) (hname : ProperName name)
    (h : t.place false (p.child name) = .ok (.entry loc (.link target))) :
    ∃ target', t.get? (dir ++ [name]) = some (.link target') := by
  have hproper : ∀ n ∈ [name], ProperName n := by simpa using hname
  obtain ⟨first, hget⟩ := exists_get?_of_place_descend hp hproper h
  -- Otherwise the path would lead to that entry, and not to the link.
  by_contra hlink
  have hplace : t.place false (p.child name) = .ok (.entry (dir ++ [name]) first) :=
    place_child hp hname (place_eq_entry_iff.mp h).1 hget
      fun target' hfirst => hlink ⟨target', hfirst ▸ hget⟩
  rw [h] at hplace
  cases hplace
  exact hlink ⟨target, hget⟩

end Child

end Place

end Promotion.FileTree
