import Promotion.FileTree.Walk
import Promotion.Proofs.FileTree.Resolve

/-!
# `Promotion.Proofs.FileTree.Walk`: what a walk visits

A walk that does not break off visits what the paths below its directory lead
to, and nothing else. The rows of names that lead there from the directory
come in lexicographic order, in which a directory stands before its contents
and siblings stand by the bytes of their names.

* `place_of_meet_directory`, `entryAt_of_meet_leaf`, `locate_of_meet_link`:
  what a walk makes of one name is what the path to it leads to.
* `FileTree.Covers`: what the visits over some names of a directory have to
  do with the paths that start with those names.
* `walkNames_covers`, `walk_covers`: the visits of a walk cover them.
-/

set_option autoImplicit false

namespace Promotion.FileTree

variable {t : FileTree} {opened : List Opened} {path : Path} {dir loc : Location} {entry : Entry}
  {name : Name} {above row names rest : List Name} {visits later : List Visit}

/-! ### One name -/

/-- A directory that a walk enters is what the path to it leads to. -/
theorem place_of_meet_directory (ht : t.Rooted)
    (hpath : t.place true path = .ok (.entry dir .directory)) (hname : ProperName name)
    (h : t.meet opened (path.child name) (dir ++ [name]) = .directory loc) :
    t.place true (path.child name) = .ok (.entry loc .directory) := by
  unfold meet at h
  split at h
  · cases h
  next hget =>
    -- A directory of the tree itself.
    split at h
    · cases h
    next hcheck =>
      cases h
      exact place_child hpath hname hcheck hget (by simp)
  next =>
    -- A link, which is entered when it leads to a directory.
    split at h
    · cases h
    next hlocate =>
      obtain ⟨entry, hplace⟩ := locate_eq_ok_iff.mp hlocate
      have hentry := get?_of_place ht hplace
      split at h
      · cases h
      next hdirectory =>
        split at h
        · cases h
        · cases h
          rw [hentry] at hdirectory
          cases hdirectory
          exact hplace
      · cases h
  · cases h
  next =>
    split at h <;> cases h

/-- An entry that a walk visits without entering it is what the path to it
leads to. A special one may have a path that nothing can be opened by. -/
theorem entryAt_of_meet_leaf (ht : t.Rooted)
    (hpath : t.place true path = .ok (.entry dir .directory)) (hname : ProperName name)
    (h : t.meet opened (path.child name) (dir ++ [name]) = .leaf entry) :
    entry ≠ .directory ∧
      (entry = .special ∧ t.get? (dir ++ [name]) = some .special ∨
        t.entryAt (path.child name) = .ok entry) ∧
      ∀ entry', t.entryAt (path.child name) = .ok entry' → entry' = entry := by
  unfold meet at h
  split at h
  · cases h
  · split at h <;> cases h
  next =>
    -- A link to what is no directory; it is visited as that.
    split at h
    · cases h
    next hlocate =>
      obtain ⟨entry', hplace⟩ := locate_eq_ok_iff.mp hlocate
      have hentry := get?_of_place ht hplace
      split at h
      · cases h
      · split at h <;> cases h
      next entry'' hdirectory hget =>
        cases h
        rw [hentry] at hget
        cases hget
        have hat : t.entryAt (path.child name) = .ok entry := entryAt_eq_ok_iff.mpr ⟨_, hplace⟩
        refine ⟨hdirectory, .inr hat, fun entry' h => ?_⟩
        rw [hat] at h
        exact (Except.ok.inj h).symm
  next hget =>
    -- Something special, which is visited without being opened.
    cases h
    refine ⟨by simp, .inl ⟨rfl, hget⟩, fun entry' h => ?_⟩
    obtain ⟨loc, hplace⟩ := entryAt_eq_ok_iff.mp h
    have hchild : t.place true (path.child name) = .ok (.entry (dir ++ [name]) .special) :=
      place_child hpath hname (place_eq_entry_iff.mp hplace).1 hget (by simp)
    rw [hplace] at hchild
    cases hchild
    rfl
  next entry' hdirectory hlink hspecial hget =>
    -- A file, which is opened by its path.
    split at h
    · cases h
    next hcheck =>
      cases h
      have hat : t.entryAt (path.child name) = .ok entry :=
        entryAt_eq_ok_iff.mpr ⟨_, place_child hpath hname hcheck hget hlink⟩
      refine ⟨hdirectory, .inr hat, fun entry' h => ?_⟩
      rw [hat] at h
      exact (Except.ok.inj h).symm

/-- A link that does not break a walk leads somewhere, and not to a directory
that the walk is in. -/
theorem locate_of_meet_link {target : Path}
    (hopened : ∀ d ∈ opened, t.get? d.loc = some .directory)
    (hget : t.get? (dir ++ [name]) = some (.link target))
    (h : ∀ reason, t.meet opened (path.child name) (dir ++ [name]) ≠ .broken reason) :
    ∃ loc, t.locate (path.child name) = .ok loc ∧ ∀ d ∈ opened, d.loc ≠ loc := by
  unfold meet at h
  simp only [hget] at h
  split at h
  · exact absurd rfl (h _)
  next loc hlocate =>
    refine ⟨loc, hlocate, fun d hd hloc => ?_⟩
    -- A link to the location of `d` would be found among the opened ones.
    subst hloc
    simp only [hopened d hd] at h
    split at h
    · exact absurd rfl (h _)
    next hfind =>
      simpa using List.find?_eq_none.mp hfind d hd

/-! ### Rows of names -/

/-- A row of proper names that starts with one of `names`. -/
structure StartsIn (names row : List Name) : Prop where
  proper : ∀ n ∈ row, ProperName n
  first : ∃ name ∈ names, ∃ below, row = name :: below

/-- A row that starts with one of several names is not empty. -/
theorem StartsIn.ne_nil (h : StartsIn names row) : row ≠ [] := by
  obtain ⟨_, _, _, rfl⟩ := h.first
  simp

/-- With more names there are more rows. -/
theorem StartsIn.mono (h : StartsIn names row) (hsub : names ⊆ rest) : StartsIn rest row := by
  obtain ⟨name, hname, hrow⟩ := h.first
  exact ⟨h.proper, name, hsub hname, hrow⟩

/-- A row starts with the first name or with a later one. -/
theorem startsIn_cons_iff :
    StartsIn (name :: rest) row ↔ StartsIn [name] row ∨ StartsIn rest row := by
  constructor
  · intro h
    obtain ⟨first, hfirst, below, hrow⟩ := h.first
    rcases List.mem_cons.mp hfirst with rfl | hfirst
    · exact .inl ⟨h.proper, first, by simp, below, hrow⟩
    · exact .inr ⟨h.proper, first, hfirst, below, hrow⟩
  · rintro (h | h)
    · exact h.mono (by simp)
    · exact h.mono (List.subset_cons_self _ _)

/-- Of two rows under the same names, the one goes first whose next name does. -/
theorem compare_append_cons_eq_lt {a b : Name} {below below' : List Name}
    (h : compare a b = .lt) : compare (above ++ a :: below) (above ++ b :: below') = .lt := by
  -- The names above are the same in both, so they are passed over.
  induction above with
  | nil =>
    show List.compareLex compare (a :: below) (b :: below') = .lt
    rw [List.compareLex_cons_cons, h]
    rfl
  | cons first above ih =>
    show List.compareLex compare (first :: (above ++ a :: below))
      (first :: (above ++ b :: below')) = .lt
    rw [List.compareLex_cons_cons, Std.ReflOrd.compare_self]
    exact ih

/-- A row goes before every longer row that starts with it. -/
theorem compare_append_eq_lt (hrow : row ≠ []) : compare above (above ++ row) = .lt := by
  induction above with
  | nil =>
    obtain ⟨first, below, rfl⟩ := List.exists_cons_of_ne_nil hrow
    exact List.compareLex_nil_cons
  | cons first above ih =>
    show List.compareLex compare (first :: above) (first :: (above ++ row)) = .lt
    rw [List.compareLex_cons_cons, Std.ReflOrd.compare_self]
    exact ih

/-! ### Visits and paths -/

/-- The visits are those of the paths from the directory at `path`, itself
reached by `above`, that start with one of `names`; the walk is in the
directories of `opened`. -/
structure Covers (t : FileTree) (opened : List Opened) (path : Path) (above names : List Name)
    (visits : List Visit) : Prop where
  sorted : visits.Pairwise fun v w => compare v.names w.names = .lt
  sound : ∀ v ∈ visits, ∃ row, StartsIn names row ∧ v.names = above ++ row ∧
    (v.entry = .special ∨ t.entryAt (path.descend row) = .ok v.entry)
  complete : ∀ row entry, StartsIn names row → t.entryAt (path.descend row) = .ok entry →
    entry ≠ .special → ∃ v ∈ visits, v.names = above ++ row ∧ v.entry = entry
  links : ∀ row loc target, StartsIn names row →
    t.place false (path.descend row) = .ok (.entry loc (.link target)) →
    ∃ loc', t.locate (path.descend row) = .ok loc' ∧ (∀ d ∈ opened, d.loc ≠ loc') ∧
      ∀ higher, higher <+: row → higher ≠ [] → higher ≠ row →
        t.locate (path.descend higher) ≠ .ok loc'
  whole : ∀ row name dir entry, StartsIn names (row ++ [name]) →
    t.place true (path.descend row) = .ok (.entry dir .directory) →
    t.get? (dir ++ [name]) = some entry →
    entry = .special ∨ ∃ entry', t.entryAt (path.descend (row ++ [name])) = .ok entry'

/-- Without names there is nothing to visit. -/
theorem covers_nil : t.Covers opened path above [] [] where
  sorted := .nil
  sound := by simp
  -- No row starts with one of no names.
  complete := by
    rintro row entry ⟨-, name, hname, -⟩
    cases hname
  links := by
    rintro row loc target ⟨-, name, hname, -⟩
    cases hname
  whole := by
    rintro row name dir entry ⟨-, first, hfirst, -⟩
    cases hfirst

/-- Visits of the first name come before those of the other names. -/
theorem Covers.cons (hfirst : t.Covers opened path above [name] visits)
    (hrest : t.Covers opened path above rest later)
    (hlt : ∀ n ∈ rest, compare name n = .lt) :
    t.Covers opened path above (name :: rest) (visits ++ later) where
  -- A row below an earlier name comes before every row below a later one.
  sorted := by
    refine List.pairwise_append.mpr ⟨hfirst.sorted, hrest.sorted, fun v hv w hw => ?_⟩
    obtain ⟨row, ⟨-, a, ha, below, rfl⟩, hv, -⟩ := hfirst.sound v hv
    obtain ⟨row', ⟨-, b, hb, below', rfl⟩, hw, -⟩ := hrest.sound w hw
    obtain rfl := List.mem_singleton.mp ha
    rw [hv, hw]
    exact compare_append_cons_eq_lt (hlt b hb)
  sound := by
    intro v hv
    rcases List.mem_append.mp hv with hv | hv
    · obtain ⟨row, hrow, h⟩ := hfirst.sound v hv
      exact ⟨row, startsIn_cons_iff.mpr (.inl hrow), h⟩
    · obtain ⟨row, hrow, h⟩ := hrest.sound v hv
      exact ⟨row, startsIn_cons_iff.mpr (.inr hrow), h⟩
  complete := by
    intro row entry hrow hentry hspecial
    rcases startsIn_cons_iff.mp hrow with hrow | hrow
    · obtain ⟨v, hv, h⟩ := hfirst.complete row entry hrow hentry hspecial
      exact ⟨v, List.mem_append_left _ hv, h⟩
    · obtain ⟨v, hv, h⟩ := hrest.complete row entry hrow hentry hspecial
      exact ⟨v, List.mem_append_right _ hv, h⟩
  links := by
    intro row loc target hrow
    rcases startsIn_cons_iff.mp hrow with hrow | hrow
    · exact hfirst.links row loc target hrow
    · exact hrest.links row loc target hrow
  whole := by
    intro row name dir entry hrow
    rcases startsIn_cons_iff.mp hrow with hrow | hrow
    · exact hfirst.whole row name dir entry hrow
    · exact hrest.whole row name dir entry hrow

/-- A row that starts with one name goes on below it. -/
theorem startsIn_singleton_iff :
    StartsIn [name] row ↔ ∃ below, row = name :: below ∧ ∀ n ∈ name :: below, ProperName n := by
  constructor
  · rintro ⟨hproper, first, hfirst, below, rfl⟩
    obtain rfl := List.mem_singleton.mp hfirst
    exact ⟨below, rfl, hproper⟩
  · rintro ⟨below, rfl, hproper⟩
    exact ⟨hproper, name, by simp, below, rfl⟩

/-- A row of names that leads somewhere starts with a name in the directory. -/
theorem startsIn_of_place {last : Bool} (hpath : t.place true path = .ok (.entry dir .directory))
    (hne : row ≠ []) (hproper : ∀ n ∈ row, ProperName n)
    (h : t.place last (path.descend row) = .ok (.entry loc entry)) :
    StartsIn (t.childNames dir) row := by
  obtain ⟨first, below, rfl⟩ := List.exists_cons_of_ne_nil hne
  have hget := exists_get?_of_place_descend hpath hproper h
  exact ⟨hproper, first, mem_childNames_iff.mpr hget, below, rfl⟩

/-- So does one that leads to a directory and on to a name in that. -/
theorem startsIn_append_of_place (hpath : t.place true path = .ok (.entry dir .directory))
    (hproper : ∀ n ∈ row ++ [name], ProperName n)
    (h : t.place true (path.descend row) = .ok (.entry loc .directory))
    (hget : t.get? (loc ++ [name]) = some entry) :
    StartsIn (t.childNames dir) (row ++ [name]) := by
  -- The name is in the directory itself, or below the first name of the row.
  cases row with
  | nil =>
    rw [Path.descend_nil, hpath] at h
    cases h
    exact ⟨hproper, name, mem_childNames_iff.mpr ⟨entry, hget⟩, [], rfl⟩
  | cons first row =>
    have hproper' : ∀ n ∈ first :: row, ProperName n := fun n hn =>
      hproper n (List.mem_append_left _ hn)
    obtain ⟨-, first', hfirst', below, hbelow⟩ := startsIn_of_place hpath (by simp) hproper' h
    exact ⟨hproper, first', hfirst', below ++ [name], by rw [hbelow]; rfl⟩

/-- What is a leaf to the walk has nothing below it. -/
theorem eq_nil_of_meet_leaf {last : Bool} {below : List Name} {entry' : Entry} (ht : t.Rooted)
    (hpath : t.place true path = .ok (.entry dir .directory))
    (hproper : ∀ n ∈ name :: below, ProperName n)
    (hmeet : t.meet opened (path.child name) (dir ++ [name]) = .leaf entry)
    (h : t.place last (path.descend (name :: below)) = .ok (.entry loc entry')) : below = [] := by
  rw [List.forall_mem_cons] at hproper
  obtain ⟨hdirectory, -, hunique⟩ := entryAt_of_meet_leaf ht hpath hproper.1 hmeet
  by_contra hbelow
  obtain ⟨dir', hchild⟩ :=
    exists_directory_of_place_descend (Path.bytes_child_ne_nil hproper.1) hbelow hproper.2 h
  exact hdirectory (hunique _ (entryAt_eq_ok_iff.mpr ⟨dir', hchild⟩)).symm

section Child

variable (hpath : t.place true path = .ok (.entry dir .directory))
  (hopened : ∀ d ∈ opened, t.get? d.loc = some .directory) (hname : ProperName name)

include hpath hopened hname

/-- A link in a directory is no link back when the walk did not break off at it. -/
theorem locate_of_met_child {target : Path}
    (hmeet : ∀ reason, t.meet opened (path.child name) (dir ++ [name]) ≠ .broken reason)
    (h : t.place false (path.child name) = .ok (.entry loc (.link target))) :
    ∃ loc', t.locate (path.child name) = .ok loc' ∧ (∀ d ∈ opened, d.loc ≠ loc') ∧
      ∀ higher, higher <+: [name] → higher ≠ [] → higher ≠ [name] →
        t.locate (path.descend higher) ≠ .ok loc' := by
  obtain ⟨target', hget⟩ := get?_of_place_child_link hpath hname h
  obtain ⟨loc', hlocate, hfresh⟩ := locate_of_meet_link hopened hget hmeet
  refine ⟨loc', hlocate, hfresh, fun higher hhigher hne hne' => ?_⟩
  -- Above a child there is only the directory itself, which was opened.
  rcases List.prefix_cons_iff.mp hhigher with rfl | ⟨higher', rfl, hhigher'⟩
  · exact absurd rfl hne
  · exact absurd (by rw [List.prefix_nil.mp hhigher']) hne'

/-- An entry that is not a directory is visited once, and nothing below it. -/
theorem covers_leaf (ht : t.Rooted)
    (h : t.meet opened (path.child name) (dir ++ [name]) = .leaf entry) :
    t.Covers opened path above [name] [⟨path.child name, above ++ [name], entry⟩] := by
  obtain ⟨hdirectory, hentry, hunique⟩ := entryAt_of_meet_leaf ht hpath hname h
  constructor
  case sorted => exact List.pairwise_singleton _ _
  case sound =>
    intro v hv
    obtain rfl := List.mem_singleton.mp hv
    exact ⟨[name], startsIn_singleton_iff.mpr ⟨[], rfl, by simpa using hname⟩, rfl,
      hentry.imp_left And.left⟩
  case complete =>
    intro row entry' hrow hentry' _
    obtain ⟨below, rfl, hproper⟩ := startsIn_singleton_iff.mp hrow
    obtain ⟨loc, hplace⟩ := entryAt_eq_ok_iff.mp hentry'
    obtain rfl := eq_nil_of_meet_leaf ht hpath hproper h hplace
    exact ⟨_, List.mem_singleton_self _, rfl, (hunique entry' hentry').symm⟩
  case links =>
    intro row loc target hrow hplace
    obtain ⟨below, rfl, hproper⟩ := startsIn_singleton_iff.mp hrow
    obtain rfl := eq_nil_of_meet_leaf ht hpath hproper h hplace
    exact locate_of_met_child hpath hopened hname (by simp [h]) hplace
  case whole =>
    intro row last dir' entry' hrow hplace hget
    obtain ⟨below, hrow, hproper⟩ := startsIn_singleton_iff.mp hrow
    cases row with
    | nil =>
      obtain rfl : last = name := (List.cons.inj hrow).1
      obtain rfl : dir' = dir := by
        rw [Path.descend_nil, hpath] at hplace
        cases hplace
        rfl
      refine hentry.imp (fun hspecial => ?_) fun hentry => ⟨entry, hentry⟩
      exact Option.some.inj (hget.symm.trans hspecial.2)
    | cons first row =>
      -- A leaf is no directory, so no row goes on below it.
      obtain ⟨rfl, rfl⟩ : first = name ∧ row ++ [last] = below := List.cons.inj hrow
      have hproper' : ∀ n ∈ first :: row, ProperName n := fun n hn =>
        hproper n (List.mem_cons.mpr ((List.mem_cons.mp hn).imp_right (List.mem_append_left _)))
      obtain rfl := eq_nil_of_meet_leaf ht hpath hproper' h hplace
      exact absurd (hunique _ (entryAt_eq_ok_iff.mpr ⟨dir', hplace⟩)).symm hdirectory

/-- A directory is visited before everything below it, and while the walk is
below it the directory is open. -/
theorem covers_directory
    (h : t.meet opened (path.child name) (dir ++ [name]) = .directory loc)
    (hchild : t.place true (path.child name) = .ok (.entry loc .directory))
    (hbelow : t.Covers (⟨path.child name, loc⟩ :: opened) (path.child name) (above ++ [name])
      (t.childNames loc) visits) :
    t.Covers opened path above [name]
      (⟨path.child name, above ++ [name], .directory⟩ :: visits) := by
  have hentry : t.entryAt (path.child name) = .ok .directory := entryAt_eq_ok_iff.mpr ⟨loc, hchild⟩
  -- A path that goes on below the directory goes on by one of the names in it, so each part
  -- is about the directory itself or, by `hbelow`, about what lies below it.
  constructor
  case sorted =>
    refine List.pairwise_cons.mpr ⟨fun w hw => ?_, hbelow.sorted⟩
    obtain ⟨row, ⟨-, first, -, below, rfl⟩, hnames, -⟩ := hbelow.sound w hw
    rw [hnames]
    exact compare_append_eq_lt (by simp)
  case sound =>
    intro v hv
    rcases List.mem_cons.mp hv with rfl | hv
    · exact ⟨[name], startsIn_singleton_iff.mpr ⟨[], rfl, by simpa using hname⟩, rfl, .inr hentry⟩
    · obtain ⟨row, hrow, hnames, hv⟩ := hbelow.sound v hv
      have hproper : ∀ n ∈ name :: row, ProperName n :=
        List.forall_mem_cons.mpr ⟨hname, hrow.proper⟩
      exact ⟨name :: row, startsIn_singleton_iff.mpr ⟨row, rfl, hproper⟩, by simp [hnames], hv⟩
  case complete =>
    intro row entry hrow hentry' hspecial
    obtain ⟨below, rfl, hproper⟩ := startsIn_singleton_iff.mp hrow
    cases below with
    | nil =>
      refine ⟨_, List.mem_cons_self, rfl, ?_⟩
      exact Except.ok.inj (hentry.symm.trans hentry')
    | cons first below =>
      obtain ⟨loc', hplace⟩ := entryAt_eq_ok_iff.mp hentry'
      have hrow' :=
        startsIn_of_place hchild (by simp) (List.forall_mem_cons.mp hproper).2 hplace
      obtain ⟨v, hv, hnames, hv'⟩ := hbelow.complete _ entry hrow' hentry' hspecial
      exact ⟨v, List.mem_cons_of_mem _ hv, by simp [hnames], hv'⟩
  case links =>
    intro row loc' target hrow hplace
    obtain ⟨below, rfl, hproper⟩ := startsIn_singleton_iff.mp hrow
    cases below with
    | nil =>
      exact locate_of_met_child hpath hopened hname (by simp [h]) hplace
    | cons first below =>
      have hrow' :=
        startsIn_of_place hchild (by simp) (List.forall_mem_cons.mp hproper).2 hplace
      obtain ⟨loc'', hlocate, hfresh, hhigher⟩ := hbelow.links _ loc' target hrow' hplace
      rw [List.forall_mem_cons] at hfresh
      refine ⟨loc'', hlocate, hfresh.2, fun higher hprefix hne hne' => ?_⟩
      rcases List.prefix_cons_iff.mp hprefix with rfl | ⟨higher', rfl, hprefix'⟩
      · exact absurd rfl hne
      by_cases hnil : higher' = []
      · subst hnil
        intro hlocate'
        rw [Path.descend_cons, Path.descend_nil, locate_eq_ok_iff.mpr ⟨_, hchild⟩] at hlocate'
        exact hfresh.1 (Except.ok.inj hlocate')
      · exact hhigher higher' hprefix' hnil fun heq => hne' (heq ▸ rfl)
  case whole =>
    intro row last dir' entry hrow hplace hget
    obtain ⟨below, hrow, hproper⟩ := startsIn_singleton_iff.mp hrow
    cases row with
    | nil =>
      obtain rfl : last = name := (List.cons.inj hrow).1
      exact .inr ⟨_, hentry⟩
    | cons first row =>
      obtain ⟨rfl, rfl⟩ : first = name ∧ row ++ [last] = below := List.cons.inj hrow
      have hproper' : ∀ n ∈ row ++ [last], ProperName n := (List.forall_mem_cons.mp hproper).2
      have hrow' := startsIn_append_of_place hchild hproper' hplace hget
      exact hbelow.whole row last dir' entry hrow' hplace hget

end Child

/-! ### The walk -/

/-- The names of all entries below a directory are proper. -/
def ProperBelow (t : FileTree) (path : Path) : Prop :=
  ∀ row dir, (∀ n ∈ row, ProperName n) →
    t.place true (path.descend row) = .ok (.entry dir .directory) →
    ∀ n ∈ t.childNames dir, ProperName n

/-- What is below a child has proper names as well. -/
theorem ProperBelow.child (h : t.ProperBelow path) (hname : ProperName name) :
    t.ProperBelow (path.child name) := fun row dir hrow =>
  h (name :: row) dir (List.forall_mem_cons.mpr ⟨hname, hrow⟩)

/-- What a walk does at a name, without the proof that it will end. -/
theorem walkNames_cons : t.walkNames opened path dir above (name :: rest) =
    match t.meet opened (path.child name) (dir ++ [name]) with
    | .broken reason => .broken reason
    | .leaf entry =>
      (t.walkNames opened path dir above rest).cons ⟨path.child name, above ++ [name], entry⟩
    | .directory loc =>
      ((t.walkNames (⟨path.child name, loc⟩ :: opened) (path.child name) loc (above ++ [name])
        (t.childNames loc)).cons ⟨path.child name, above ++ [name], .directory⟩).andThen
        (t.walkNames opened path dir above rest) := by
  -- The definition carries the equation of its cases for the termination; without it the cases
  -- are the same.
  rw [walkNames]
  split
  next h => rw [h]
  next h => rw [h]
  next h => rw [h]

/-- Two walks in a row are whole when both are. -/
theorem breakage_andThen_eq_none_iff {w v : Walk} :
    (w.andThen v).breakage = none ↔ w.breakage = none ∧ v.breakage = none := by
  unfold Walk.andThen
  split <;> simp_all

/-- The visits of two walks follow each other when the first walk is whole. -/
theorem visits_andThen {w v : Walk} (h : w.breakage = none) :
    (w.andThen v).visits = w.visits ++ v.visits := by
  simp [Walk.andThen, h]

/-- A walk over some names of a directory that does not break off covers the
paths that start with those names. -/
theorem walkNames_covers (ht : t.Rooted)
    (hpath : t.place true path = .ok (.entry dir .directory)) (hbelow : t.ProperBelow path)
    (hopened : ∀ d ∈ opened, t.get? d.loc = some .directory)
    (hsorted : names.Pairwise fun a b => compare a b = .lt)
    (hmem : ∀ n ∈ names, n ∈ t.childNames dir)
    (hwhole : (t.walkNames opened path dir above names).breakage = none) :
    t.Covers opened path above names (t.walkNames opened path dir above names).visits := by
  -- Along the recursion of the walk: a directory is walked with itself open, and
  -- `hopened` is kept because what is entered is a directory.
  fun_induction walkNames t opened path dir above names with
  | case1 => exact covers_nil
  | case2 => simp [Walk.broken] at hwhole
  | case3 opened path dir above name rest entry hmeet ih =>
    rw [List.pairwise_cons] at hsorted
    rw [List.forall_mem_cons] at hmem
    have hname : ProperName name := hbelow [] dir (by simp) hpath name hmem.1
    have hrest := ih hpath hbelow hopened hsorted.2 hmem.2 hwhole
    exact (covers_leaf hpath hopened hname ht hmeet).cons hrest hsorted.1
  | case4 opened path dir above name rest loc hmeet ihbelow ihrest =>
    rw [List.pairwise_cons] at hsorted
    rw [List.forall_mem_cons] at hmem
    rw [breakage_andThen_eq_none_iff] at hwhole
    have hname : ProperName name := hbelow [] dir (by simp) hpath name hmem.1
    have hchild := place_of_meet_directory ht hpath hname hmeet
    have hopened' : ∀ d ∈ ⟨path.child name, loc⟩ :: opened, t.get? d.loc = some .directory :=
      List.forall_mem_cons.mpr ⟨get?_of_place ht hchild, hopened⟩
    have hinner := ihbelow hchild (hbelow.child hname) hopened' (pairwise_childNames t loc)
      (fun _ hn => hn) hwhole.1
    have hrest := ihrest hpath hbelow hopened hsorted.2 hmem.2 hwhole.2
    rw [visits_andThen hwhole.1]
    exact (covers_directory hpath hopened hname hmeet hchild hinner).cons hrest hsorted.1

/-- A walk starts with the names in the directory that its path leads to. -/
theorem walk_eq {names : List Name} (hlocate : t.locate path = .ok dir)
    (hnames : t.childNames dir = names) :
    t.walk path = t.walkNames [⟨path, dir⟩] path dir [] names := by
  rw [walk, hlocate, ← hnames]

/-- A walk over a directory that does not break off covers everything below. -/
theorem walk_covers (ht : t.Rooted) (hpath : t.isDirectory path = true)
    (hbelow : t.ProperBelow path) (hwhole : (t.walk path).breakage = none) :
    ∃ dir, t.place true path = .ok (.entry dir .directory) ∧
      t.Covers [⟨path, dir⟩] path [] (t.childNames dir) (t.walk path).visits := by
  obtain ⟨dir, hplace⟩ := isDirectory_iff.mp hpath
  have hlocate : t.locate path = .ok dir := locate_eq_ok_iff.mpr ⟨_, hplace⟩
  have hopened : ∀ d ∈ [(⟨path, dir⟩ : Opened)], t.get? d.loc = some .directory :=
    List.forall_mem_singleton.mpr (get?_of_place ht hplace)
  rw [walk_eq hlocate rfl] at hwhole ⊢
  exact ⟨dir, hplace, walkNames_covers ht hplace hbelow hopened (pairwise_childNames t dir)
    (fun _ hn => hn) hwhole⟩

end Promotion.FileTree
