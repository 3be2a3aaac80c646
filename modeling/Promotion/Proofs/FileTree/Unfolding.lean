import Promotion.Proofs.FileTree.Edit
import Promotion.Proofs.FileTree.Walk

/-!
# `Promotion.Proofs.FileTree.Unfolding`: the tree below a path, links resolved

With every link replaced by what it leads to, what lies below a directory is a
tree, whose nodes are the rows of names that lead somewhere. It is given as
the list of its nodes in lexicographic order: depth first, a directory before
its contents, siblings by the bytes of their names.

* `FileTree.Unfolding`: the list of nodes; `Unfolding.unique`: there is one
  such list only.
* `FileTree.Unbroken`: every link leads somewhere, and none to a directory on
  the way to it.
* `walk_unfolding`, `walk_unbroken`: a walk that does not break off finds them.
* `unfolding_of_insert`, `unbroken_of_insert`: a new file that no path below
  leads to, or to its directory, does not count.
* `walk_of_insert`: a walk with such a file there finds what was there before.
-/

set_option autoImplicit false

namespace Promotion.FileTree

variable {t : FileTree} {last : Bool} {path : Path} {dir loc place : Location} {entry : Entry}
  {names : List Name}

/-- The names that lead to an entry below a directory, and what is there. -/
structure Node where
  names : List Name
  entry : Entry
  deriving DecidableEq, Repr

/-- The nodes are what the paths below `path` lead to; sockets and the like
are no nodes. -/
structure Unfolding (t : FileTree) (path : Path) (nodes : List Node) : Prop where
  sorted : nodes.Pairwise fun a b => compare a.names b.names = .lt
  mem_iff : ∀ names entry, ⟨names, entry⟩ ∈ nodes ↔
    names ≠ [] ∧ (∀ n ∈ names, ProperName n) ∧
      t.entryAt (path.descend names) = .ok entry ∧ entry ≠ .special

/-- Whatever is in a directory below `path` can be reached, and no link below
`path` leads back to a directory that one passes on the way to the link. -/
structure Unbroken (t : FileTree) (path : Path) : Prop where
  whole : ∀ names dir name entry, (∀ n ∈ names, ProperName n) →
    t.place true (path.descend names) = .ok (.entry dir .directory) →
    t.get? (dir ++ [name]) = some entry →
    entry = .special ∨ ∃ entry', t.entryAt (path.descend (names ++ [name])) = .ok entry'
  links : ∀ names loc target, names ≠ [] → (∀ n ∈ names, ProperName n) →
    t.place false (path.descend names) = .ok (.entry loc (.link target)) →
    ∃ loc', t.locate (path.descend names) = .ok loc' ∧
      ∀ above, above <+: names → above ≠ names → t.locate (path.descend above) ≠ .ok loc'

/-- The members of an unfolding determine it. -/
theorem Unfolding.unique {nodes nodes' : List Node} (h : t.Unfolding path nodes)
    (h' : t.Unfolding path nodes') : nodes = nodes' := by
  have hnodup {l : List Node} (hl : l.Pairwise fun a b => compare a.names b.names = .lt) :
      l.Nodup := hl.imp fun {a b} hab heq => by
    rw [heq, Std.ReflOrd.compare_self] at hab
    cases hab
  refine List.Perm.eq_of_pairwise (fun a b _ _ hab hba => ?_) h.sorted h'.sorted ?_
  · -- No two nodes stand before each other.
    rw [Std.OrientedOrd.eq_swap, hba] at hab
    cases hab
  · rw [List.perm_ext_iff_of_nodup (hnodup h.sorted) (hnodup h'.sorted)]
    rintro ⟨names, entry⟩
    rw [h.mem_iff, h'.mem_iff]

/-! ### What a walk finds -/

/-- The nodes among visits. -/
def nodesOf (visits : List Visit) : List Node :=
  (visits.filter fun v => v.entry ≠ .special).map fun v => ⟨v.names, v.entry⟩

/-- The nodes are the entries that were visited, without the special ones. -/
theorem mem_nodesOf_iff {visits : List Visit} :
    ⟨names, entry⟩ ∈ nodesOf visits ↔
      ∃ v ∈ visits, v.names = names ∧ v.entry = entry ∧ entry ≠ .special := by
  simp only [nodesOf, List.mem_map, List.mem_filter, decide_eq_true_eq, Node.mk.injEq]
  constructor
  · rintro ⟨v, ⟨hv, hspecial⟩, rfl, rfl⟩
    exact ⟨v, hv, rfl, rfl, hspecial⟩
  · rintro ⟨v, hv, rfl, rfl, hspecial⟩
    exact ⟨v, ⟨hv, hspecial⟩, rfl, rfl⟩

section Walk

variable (ht : t.Rooted) (hpath : t.isDirectory path = true) (hbelow : t.ProperBelow path)
  (hwhole : (t.walk path).breakage = none)

include ht hpath hbelow hwhole

/-- A walk that does not break off visits the unfolding of its directory. -/
theorem walk_unfolding : t.Unfolding path (nodesOf (t.walk path).visits) := by
  obtain ⟨dir, hpath, hcovers⟩ := walk_covers ht hpath hbelow hwhole
  constructor
  case sorted => exact List.pairwise_map.mpr (hcovers.sorted.sublist List.filter_sublist)
  case mem_iff =>
    intro names entry
    rw [mem_nodesOf_iff]
    constructor
    · -- A visit is of an entry below the path, whose names are proper.
      rintro ⟨v, hv, rfl, rfl, hspecial⟩
      obtain ⟨row, hrow, hnames, hentry⟩ := hcovers.sound v hv
      rw [List.nil_append] at hnames
      rw [hnames]
      exact ⟨hrow.ne_nil, hrow.proper, hentry.resolve_left hspecial, hspecial⟩
    · rintro ⟨hne, hproper, hentry, hspecial⟩
      obtain ⟨loc, hplace⟩ := entryAt_eq_ok_iff.mp hentry
      have hrow := startsIn_of_place hpath hne hproper hplace
      obtain ⟨v, hv, hnames, hv'⟩ := hcovers.complete names entry hrow hentry hspecial
      exact ⟨v, hv, by simpa using hnames, hv', hspecial⟩

/-- A walk that does not break off visits no links, but what they lead to. -/
theorem ne_link_of_mem_walk :
    ∀ v ∈ (t.walk path).visits, ∀ target, v.entry ≠ .link target := by
  obtain ⟨dir, -, hcovers⟩ := walk_covers ht hpath hbelow hwhole
  intro v hv target hlink
  obtain ⟨row, -, -, hentry⟩ := hcovers.sound v hv
  rw [hlink] at hentry
  rcases hentry with hspecial | hentry
  · cases hspecial
  · exact entryAt_ne_link target hentry

/-- A walk that does not break off meets no link that leads nowhere or back. -/
theorem walk_unbroken : t.Unbroken path := by
  obtain ⟨dir, hpath, hcovers⟩ := walk_covers ht hpath hbelow hwhole
  constructor
  case whole =>
    intro names dir' name entry hproper hplace hget
    have hname : ProperName name :=
      hbelow names dir' hproper hplace name (mem_childNames_iff.mpr ⟨entry, hget⟩)
    have hproper' : ∀ n ∈ names ++ [name], ProperName n := by
      simpa [or_imp, forall_and] using ⟨hproper, hname⟩
    have hrow := startsIn_append_of_place hpath hproper' hplace hget
    exact hcovers.whole names name dir' entry hrow hplace hget
  case links =>
    intro names loc target hne hproper hplace
    have hrow := startsIn_of_place hpath hne hproper hplace
    obtain ⟨loc', hlocate, hopened, habove⟩ := hcovers.links names loc target hrow hplace
    refine ⟨loc', hlocate, fun above hprefix hne' hlocate' => ?_⟩
    -- The path itself was opened first, and every directory above the link after it.
    by_cases hnil : above = []
    · rw [hnil, Path.descend_nil, locate_eq_ok_iff.mpr ⟨_, hpath⟩] at hlocate'
      exact hopened _ (List.mem_singleton_self _) (Except.ok.inj hlocate')
    · exact habove above hprefix hnil hne' hlocate'

end Walk

/-! ### A file put next to the tree -/

section Insert

variable {content : Text.Bytes} {executable : Bool} {nodes : List Node}

/-- No path below `path` leads to the place or to the directory that it is in. -/
def KeepsOff (t : FileTree) (path : Path) (place : Location) : Prop :=
  ∀ names loc, (∀ n ∈ names, ProperName n) → t.locate (path.descend names) = .ok loc →
    loc ≠ place ∧ loc ≠ place.dropLast

/-- In a well-formed tree all names are proper. -/
theorem WellFormed.properBelow (ht : t.WellFormed) (path : Path) : t.ProperBelow path := by
  intro row dir _ _ n hn
  obtain ⟨entry, hget⟩ := mem_childNames_iff.mp hn
  exact ht.proper dir n entry hget

/-- It is enough to look at the nodes, of which there are finitely many. -/
theorem keepsOff_of_unfolding (ht : t.Rooted) (h : t.Unfolding path nodes)
    (hplace : t.get? place = some (.file content executable))
    (hself : ∃ loc, t.locate path = .ok loc ∧ loc ≠ place ∧ loc ≠ place.dropLast)
    (hnodes : ∀ n ∈ nodes, ∃ loc, t.locate (path.descend n.names) = .ok loc ∧
      loc ≠ place ∧ loc ≠ place.dropLast) : t.KeepsOff path place := by
  intro names loc hproper hlocate
  obtain ⟨entry, hentry⟩ := locate_eq_ok_iff.mp hlocate
  have hget := get?_of_place ht hentry
  by_cases hnames : names = []
  · obtain ⟨loc', hlocate', hoff⟩ := hself
    rw [hnames, Path.descend_nil, hlocate'] at hlocate
    exact Except.ok.inj hlocate ▸ hoff
  by_cases hspecial : entry = .special
  · -- At the place there is a file, and above it a directory.
    subst hspecial
    refine ⟨fun heq => ?_, fun heq => ?_⟩
    · rw [heq, hplace] at hget
      cases hget
    · by_cases hnil : place = []
      · rw [heq, hnil] at hget
        cases hget
      · rw [← List.dropLast_concat_getLast hnil] at hplace
        rw [heq, ht.parent _ _ _ hplace] at hget
        cases hget
  · have hmem := (h.mem_iff names entry).mpr
      ⟨hnames, hproper, entryAt_eq_ok_iff.mpr ⟨loc, hentry⟩, hspecial⟩
    obtain ⟨loc', hlocate', hoff⟩ := hnodes _ hmem
    rw [hlocate'] at hlocate
    exact Except.ok.inj hlocate ▸ hoff

/-- What a path leads to before a new file is made, it leads to after that. -/
theorem place_insert_of_place (hvacant : t.get? place = none)
    (h : t.place last path = .ok (.entry loc entry)) :
    (t.insert place (.file content executable)).place last path = .ok (.entry loc entry) := by
  refine place_transfer (current_insert _ _) h fun loc' entry' hget _ => ?_
  have hne : loc' ≠ place := by
    rintro rfl
    rw [hvacant] at hget
    cases hget
  rw [get?_insert_of_ne hne, hget]

/-- A new file changes nothing about what a path leads to. -/
theorem entryAt_insert_of_entryAt (hvacant : t.get? place = none)
    (h : t.entryAt path = .ok entry) :
    (t.insert place (.file content executable)).entryAt path = .ok entry := by
  obtain ⟨loc, hplace⟩ := entryAt_eq_ok_iff.mp h
  exact entryAt_eq_ok_iff.mpr ⟨loc, place_insert_of_place hvacant hplace⟩

/-- What a path leads to after a new file is made, it led to before that,
unless it is the new file. -/
theorem place_of_place_insert (hplace : place ≠ []) (hne : loc ≠ place)
    (h : (t.insert place (.file content executable)).place last path = .ok (.entry loc entry)) :
    t.place last path = .ok (.entry loc entry) := by
  refine place_transfer (current_insert _ _).symm h fun loc' entry' hget hkept => ?_
  rw [get?_insert hplace] at hget
  split at hget
  · -- The new file is neither a directory nor a link.
    rcases hkept with rfl | ⟨target, rfl⟩ | ⟨rfl, -⟩
    · cases hget
    · cases hget
    · contradiction
  · exact hget

/-- Names below a directory stay proper when a file is put elsewhere. -/
theorem properBelow_of_insert (ht : t.WellFormed) (hplace : place ≠ [])
    (hoff : (t.insert place (.file content executable)).KeepsOff path place) :
    (t.insert place (.file content executable)).ProperBelow path := by
  intro row dir hrow hdir n hn
  obtain ⟨entry, hget⟩ := mem_childNames_iff.mp hn
  have hne : dir ++ [n] ≠ place := by
    rintro rfl
    exact (hoff row dir hrow (locate_eq_ok_iff.mpr ⟨_, hdir⟩)).2 List.dropLast_concat.symm
  rw [get?_insert_of_ne hne] at hget
  exact ht.proper dir n entry hget

section Tree

variable (hvacant : t.get? place = none) (hplace : place ≠ [])
  (hoff : (t.insert place (.file content executable)).KeepsOff path place)

include hvacant hplace hoff

/-- Below a payload that keeps off it, a new file changes nothing in either direction.
-/
theorem entryAt_insert_iff (hproper : ∀ n ∈ names, ProperName n) :
    (t.insert place (.file content executable)).entryAt (path.descend names) = .ok entry ↔
      t.entryAt (path.descend names) = .ok entry := by
  constructor
  · intro h
    obtain ⟨loc, hloc⟩ := entryAt_eq_ok_iff.mp h
    have hne := (hoff names loc hproper (locate_eq_ok_iff.mpr ⟨_, hloc⟩)).1
    exact entryAt_eq_ok_iff.mpr ⟨loc, place_of_place_insert hplace hne hloc⟩
  · exact entryAt_insert_of_entryAt hvacant

/-- The tree below a path is the same without the new file. -/
theorem unfolding_of_insert
    (h : (t.insert place (.file content executable)).Unfolding path nodes) :
    t.Unfolding path nodes where
  sorted := h.sorted
  mem_iff names entry := by
    rw [h.mem_iff]
    refine and_congr_right fun _ => and_congr_right fun hproper => ?_
    rw [entryAt_insert_iff hvacant hplace hoff hproper]

/-- So are its links. -/
theorem unbroken_of_insert (ht : t.WellFormed)
    (h : (t.insert place (.file content executable)).Unbroken path) : t.Unbroken path where
  whole names dir name entry hproper hdir hget := by
    have hname : ProperName name := ht.proper dir name entry hget
    have hproper' : ∀ n ∈ names ++ [name], ProperName n := by
      simpa [or_imp, forall_and] using ⟨hproper, hname⟩
    have hne : dir ++ [name] ≠ place := by
      rintro rfl
      rw [hvacant] at hget
      cases hget
    -- What is in a directory of `t` is in it next to the new file too.
    rw [← get?_insert_of_ne hne (.file content executable)] at hget
    rcases h.whole names dir name entry hproper (place_insert_of_place hvacant hdir) hget with
      hspecial | ⟨entry', hentry'⟩
    · exact .inl hspecial
    · exact .inr ⟨entry', (entryAt_insert_iff hvacant hplace hoff hproper').mp hentry'⟩
  links names loc target hnil hproper hlink := by
    obtain ⟨loc', hlocate, habove⟩ :=
      h.links names loc target hnil hproper (place_insert_of_place hvacant hlink)
    obtain ⟨entry, hplace'⟩ := locate_eq_ok_iff.mp hlocate
    have hne := (hoff names loc' hproper hlocate).1
    refine ⟨loc', locate_eq_ok_iff.mpr ⟨entry, place_of_place_insert hplace hne hplace'⟩,
      fun above hprefix hne' hlocate' => ?_⟩
    obtain ⟨entry', hplace''⟩ := locate_eq_ok_iff.mp hlocate'
    exact habove above hprefix hne'
      (locate_eq_ok_iff.mpr ⟨entry', place_insert_of_place hvacant hplace''⟩)

end Tree

/-- A walk next to a new file finds what was there without the file. -/
theorem walk_of_insert {name : Name} (ht : t.WellFormed) (hdir : t.get? dir = some .directory)
    (hvacant : t.get? (dir ++ [name]) = none)
    (hoff : (t.insert (dir ++ [name]) (.file content executable)).KeepsOff path (dir ++ [name]))
    (hpath : t.isDirectory path = true)
    (hwhole : ((t.insert (dir ++ [name]) (.file content executable)).walk path).breakage = none) :
    let w := (t.insert (dir ++ [name]) (.file content executable)).walk path
    t.Unfolding path (nodesOf w.visits) ∧ t.Unbroken path ∧
      ∀ v ∈ w.visits, ∀ target, v.entry ≠ .link target := by
  have hne : dir ++ [name] ≠ [] := by simp
  have hrooted : (t.insert (dir ++ [name]) (.file content executable)).Rooted :=
    ht.toRooted.insert hdir (by simp [hvacant]) _
  -- The walk is one of the tree with the new file; what it finds is carried back to the tree
  -- without it.
  have hpath' : (t.insert (dir ++ [name]) (.file content executable)).isDirectory path = true := by
    obtain ⟨loc, hplace⟩ := isDirectory_iff.mp hpath
    exact isDirectory_iff.mpr ⟨loc, place_insert_of_place hvacant hplace⟩
  have hbelow := properBelow_of_insert ht hne hoff
  have hunfolding := walk_unfolding hrooted hpath' hbelow hwhole
  have hunbroken := walk_unbroken hrooted hpath' hbelow hwhole
  exact ⟨unfolding_of_insert hvacant hne hoff hunfolding,
    unbroken_of_insert hvacant hne hoff ht hunbroken,
    ne_link_of_mem_walk hrooted hpath' hbelow hwhole⟩

end Insert

end Promotion.FileTree
