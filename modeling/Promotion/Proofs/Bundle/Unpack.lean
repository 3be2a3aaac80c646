import Mathlib.Data.List.Induction
import Promotion.Proofs.Bundle.Assembly

/-!
# `Promotion.Proofs.Bundle.Unpack`: unpacking an archive

* `Archive.unpack`: the records of an archive put one after the other into an
  empty directory.
* `Laid`: nodes in an order in which they can be unpacked, each directory
  before its contents; `laid_of_unfolding`.
* `unpack_laid`: unpacking such nodes gives the tree of exactly these nodes.
* `Restores`: unpacking gives the nodes back, each record having a path of its
  own. `Unpacks` says what comes of a payload's records with the descriptor's
  behind them, and in particular when they restore both.
* `assemble_unpacks`: so it is with the archive of every bundle.
-/

set_option autoImplicit false

namespace Promotion

open Promotion.Archive (Record)
open Promotion.FileTree (Node)
open Promotion.Text (Bytes)

/-! ### Unpacking -/

namespace Archive

/-- Puts an entry of an archive into a file system: makes the directory, or
writes the file, in place of an earlier file. -/
def unpackRecord (t : FileTree) (r : Record) : Except Fault FileTree :=
  match r.kind with
  | .directory => if t.isDirectory ⟨r.path⟩ then .ok t else t.makeDirectory ⟨r.path⟩
  | .file =>
    (t.write ⟨r.path⟩ r.content).bind fun t =>
      t.setExecutable ⟨r.path⟩ (r.mode = Record.openMode)

/-- Unpacks an archive into an empty directory. -/
def unpack (records : List Record) : Except Fault FileTree :=
  records.foldlM unpackRecord { current := [], entries := [] }

end Archive

namespace FileTree

variable {t t' : FileTree} {above names : List Name} {name : Name} {entry : Entry} {path : Path}
  {nodes : List Node}

/-! ### Relative paths -/

/-- The relative path that goes down by a row of names. -/
abbrev pathTo (names : List Name) : Path := ⟨[Path.separator].intercalate names⟩

/-- The path of an entry goes through its names. -/
theorem bareSteps_pathTo (hne : names ≠ []) (h : ∀ n ∈ names, ProperName n) :
    (pathTo names).bareSteps = names.map .name := by
  rw [pathTo, ← Path.descend_empty hne h, Path.bareSteps_descend h]
  rfl

/-- The path of an entry has no step behind its names. -/
theorem steps_pathTo (hne : names ≠ []) (h : ∀ n ∈ names, ProperName n) :
    (pathTo names).steps = names.map .name := by
  rw [pathTo, ← Path.descend_empty hne h, Path.steps_descend hne h]
  rfl

/-- Different rows of names have different texts. -/
theorem pathTo_inj {names' : List Name} (hne : names ≠ []) (hne' : names' ≠ [])
    (h : ∀ n ∈ names, ProperName n) (h' : ∀ n ∈ names', ProperName n)
    (heq : [Path.separator].intercalate names = [Path.separator].intercalate names') :
    names = names' := by
  have hsteps : names.map Step.name = names'.map Step.name := by
    rw [← bareSteps_pathTo hne h, ← bareSteps_pathTo hne' h', pathTo, heq]
  exact List.map_injective_iff.mpr (fun _ _ => Step.name.inj) hsteps

/-! ### A tree to unpack into -/

/-- A node that can be unpacked: a file or directory with a path that a file
system takes. -/
structure Node.Plain (n : Node) : Prop where
  ne_nil : n.names ≠ []
  proper : ∀ name ∈ n.names, ProperName name
  length_lt : ([Path.separator].intercalate n.names).length < Path.lengthLimit
  entry : n.entry = .directory ∨ ∃ content executable, n.entry = .file content executable

/-- The path of a plain entry is one the system takes. -/
theorem Node.Plain.check {n : Node} (h : n.Plain) : (pathTo n.names).check = .ok () := by
  refine (Path.check_eq_ok_iff _).mpr ⟨Path.zero_notMem_intercalate h.proper, h.length_lt, ?_⟩
  obtain ⟨name, below, hnames⟩ := List.exists_cons_of_ne_nil h.ne_nil
  have hname : ProperName name := h.proper name (by simp [hnames])
  show [Path.separator].intercalate n.names ≠ []
  rw [hnames, Path.intercalate_cons]
  simp [hname.ne_nil]

/-- The path of an entry does not end in a slash. -/
theorem endsInSlash_pathTo (hne : names ≠ []) (h : ∀ n ∈ names, ProperName n) :
    (pathTo names).endsInSlash = false := by
  have hsteps : (pathTo names).steps = (pathTo names).bareSteps := by
    rw [steps_pathTo hne h, bareSteps_pathTo hne h]
  rw [Path.steps] at hsteps
  cases hslash : (pathTo names).endsInSlash with
  | false => rfl
  | true => simp [hslash] at hsteps

section Place

variable (ht : t.Rooted) (hcurrent : t.current = []) (habove : t.get? above = some .directory)
  (hplain : Node.Plain ⟨above ++ [name], entry⟩)

include ht hcurrent habove hplain

/-- The path to a node leads to its directory and on by its name. -/
theorem place_pathTo : ∃ left,
    t.place true (pathTo (above ++ [name])) = t.follow true left above [.name name] := by
  have hproper : ∀ n ∈ above ++ [name], ProperName n := hplain.proper
  have hreaches : t.Reaches true linkLimit [] (above.map .name) above .directory :=
    reaches_names ht (fun n hn => hproper n (List.mem_append_left _ hn)) habove
  obtain ⟨left, happend⟩ := hreaches.follow_append
  have horigin : (pathTo (above ++ [name])).origin t.current = [] := by
    rw [Path.origin, hcurrent, ite_self]
  refine ⟨left, ?_⟩
  rw [place, hplain.check, horigin, steps_pathTo (by simp) hproper, List.map_append]
  exact happend true [.name name] (by simp)

/-- The path of an entry leads to what is there. -/
theorem place_pathTo_of_get? {found : Entry} (hget : t.get? (above ++ [name]) = some found)
    (hlink : ∀ target, found ≠ .link target) :
    t.place true (pathTo (above ++ [name])) = .ok (.entry (above ++ [name]) found) := by
  obtain ⟨left, hplace⟩ := place_pathTo ht hcurrent habove hplain
  rw [hplace]
  exact follow_name (hplain.proper name (by simp)).length_le hget hlink

/-- The path of an entry leads to the free place for it. -/
theorem place_pathTo_of_vacant (hget : t.get? (above ++ [name]) = none) :
    t.place true (pathTo (above ++ [name])) = .ok (.vacant above name false) := by
  obtain ⟨left, hplace⟩ := place_pathTo ht hcurrent habove hplain
  rw [hplace]
  exact follow_vacant (hplain.proper name (by simp)).length_le hget

/-- A directory is made in a free place. -/
theorem makeDirectory_pathTo (hget : t.get? (above ++ [name]) = none) :
    t.makeDirectory (pathTo (above ++ [name])) = .ok (t.insert (above ++ [name]) .directory) := by
  have hproper : ∀ n ∈ above ++ [name], ProperName n := hplain.proper
  -- The names above lead from the root to the directory, without any link.
  have hreaches : t.Reaches true linkLimit ((pathTo (above ++ [name])).origin t.current)
      (above.map .name) above .directory := by
    rw [Path.origin, hcurrent, ite_self]
    exact reaches_names ht (fun n hn => hproper n (List.mem_append_left _ hn)) habove
  have htarget : t.targetLocation (pathTo (above ++ [name])) .alreadyThere
      = .ok (above ++ [name]) := by
    refine targetLocation_eq_ok_iff.mpr ⟨above, name, target_eq_ok_iff.mpr
      ⟨hplain.check, above.map .name, ?_, hreaches⟩, (hproper name (by simp)).length_le, rfl⟩
    rw [bareSteps_pathTo (by simp) hproper]
    simp
  rw [makeDirectory, addNew, htarget]
  simp only [hget]

end Place

/-! ### One record -/

section Record

variable {content : Bytes} {executable : Bool} (ht : t.Rooted) (hcurrent : t.current = [])
  (habove : t.get? above = some .directory)

include ht hcurrent habove

/-- A directory is made where nothing was. -/
theorem unpackRecord_directory (hplain : Node.Plain ⟨above ++ [name], .directory⟩)
    (hget : t.get? (above ++ [name]) = none) :
    Archive.unpackRecord t (Node.record ⟨above ++ [name], .directory⟩)
      = .ok (t.insert (above ++ [name]) .directory) := by
  have hplace := place_pathTo_of_vacant ht hcurrent habove hplain hget
  have hdirectory : t.isDirectory (pathTo (above ++ [name])) = false := by
    rw [isDirectory, entryAt, hplace]
  have hmake := makeDirectory_pathTo ht hcurrent habove hplain hget
  simp only [Archive.unpackRecord, Node.record, hdirectory, hmake]
  rfl

/-- A file is written where nothing was or a file, and keeps nothing of that. -/
theorem unpackRecord_file
    (hplain : Node.Plain ⟨above ++ [name], .file content executable⟩)
    (hget : ∀ found, t.get? (above ++ [name]) = some found →
      ∃ content' executable', found = .file content' executable') :
    ∃ first, Archive.unpackRecord t (Node.record ⟨above ++ [name], .file content executable⟩)
      = .ok ((t.insert (above ++ [name]) (.file content first)).insert (above ++ [name])
          (.file content executable)) := by
  have hne : above ++ [name] ≠ [] := by simp
  have hslash := endsInSlash_pathTo hplain.ne_nil hplain.proper
  obtain ⟨first, hwrite⟩ : ∃ first, t.write (pathTo (above ++ [name])) content
      = .ok (t.insert (above ++ [name]) (.file content first)) := by
    simp only [write, hslash]
    cases hfound : t.get? (above ++ [name]) with
    | none =>
      rw [place_pathTo_of_vacant ht hcurrent habove hplain hfound]
      exact ⟨false, rfl⟩
    | some found =>
      obtain ⟨content', executable', rfl⟩ := hget found hfound
      rw [place_pathTo_of_get? ht hcurrent habove hplain hfound (by simp)]
      exact ⟨executable', rfl⟩
  refine ⟨first, ?_⟩
  -- What was written can be found again and made executable or not.
  have hplace : (t.insert (above ++ [name]) (.file content first)).place true
      (pathTo (above ++ [name])) = .ok (.entry (above ++ [name]) (.file content first)) := by
    refine place_pathTo_of_get? (ht.insert habove ?_ _) hcurrent ?_ hplain
      (get?_insert_self hne _) (by simp)
    · intro hdirectory
      obtain ⟨content', executable', heq⟩ := hget _ hdirectory
      cases heq
    · rw [get?_insert_of_ne (by simp), habove]
  have hmode : decide ((Node.record ⟨above ++ [name], .file content executable⟩).mode
      = Record.openMode) = executable := by
    cases executable <;> rfl
  show (t.write (pathTo (above ++ [name])) content).bind (fun t =>
    t.setExecutable (pathTo (above ++ [name])) (decide _)) = _
  rw [hwrite, hmode]
  show FileTree.setExecutable _ _ _ = _
  rw [setExecutable, hplace]

/-- A file cannot be written in place of a directory. -/
theorem unpackRecord_file_of_directory
    (hplain : Node.Plain ⟨above ++ [name], .file content executable⟩)
    (hget : t.get? (above ++ [name]) = some .directory) :
    Archive.unpackRecord t (Node.record ⟨above ++ [name], .file content executable⟩)
      = .error .isDirectory := by
  have hslash := endsInSlash_pathTo hplain.ne_nil hplain.proper
  have hplace := place_pathTo_of_get? ht hcurrent habove hplain hget (by simp)
  have hwrite : t.write (pathTo (above ++ [name])) content = .error .isDirectory := by
    simp [write, hslash, hplace]
  show (t.write (pathTo (above ++ [name])) content).bind _ = _
  rw [hwrite]
  rfl

end Record

/-! ### All records -/

/-- The tree has the given nodes below its top, and nothing else. -/
structure Lists (t : FileTree) (nodes : List Node) : Prop where
  rooted : t.Rooted
  current : t.current = []
  get?_iff : ∀ loc entry, loc ≠ [] → (t.get? loc = some entry ↔ ⟨loc, entry⟩ ∈ nodes)

/-- Nodes in an order in which they can be unpacked: each comes once, and after
the directory that it is in. -/
inductive Laid : List Node → Prop
  | nil : Laid []
  | snoc {nodes : List Node} {above : List Name} {name : Name} {entry : Entry} (h : Laid nodes)
      (habove : above = [] ∨ ⟨above, .directory⟩ ∈ nodes)
      (hfresh : ∀ entry', ⟨above ++ [name], entry'⟩ ∉ nodes)
      (hplain : Node.Plain ⟨above ++ [name], entry⟩) :
      Laid (nodes ++ [⟨above ++ [name], entry⟩])

/-- The directory above an entry of the list is there. -/
theorem Lists.get?_above (h : t.Lists nodes)
    (habove : above = [] ∨ ⟨above, .directory⟩ ∈ nodes) : t.get? above = some .directory := by
  by_cases hnil : above = []
  · rw [hnil]
    rfl
  · exact (h.get?_iff above .directory hnil).mpr (habove.resolve_left hnil)

/-- What the list does not name is not there. -/
theorem Lists.get?_eq_none (h : t.Lists nodes)
    (hfresh : ∀ entry, ⟨above ++ [name], entry⟩ ∉ nodes) : t.get? (above ++ [name]) = none :=
  Option.eq_none_iff_forall_ne_some.mpr fun entry hget =>
    hfresh entry ((h.get?_iff _ entry (by simp)).mp hget)

/-- A tree with one more entry lists one more node. -/
theorem Lists.snoc (h : t.Lists nodes) (hrooted : t'.Rooted) (hcurrent : t'.current = [])
    (hfresh : ∀ entry', ⟨above ++ [name], entry'⟩ ∉ nodes)
    (hget : ∀ loc, t'.get? loc = if loc = above ++ [name] then some entry else t.get? loc) :
    t'.Lists (nodes ++ [⟨above ++ [name], entry⟩]) where
  rooted := hrooted
  current := hcurrent
  get?_iff loc found hloc := by
    rw [hget, List.mem_append, List.mem_singleton, Node.mk.injEq]
    split
    -- At the new place stands the new entry, and no entry of the list was there.
    next heq =>
      rw [heq, Option.some.injEq, @eq_comm _ entry found]
      simp [hfresh found]
    next hne => simp [hne, h.get?_iff loc found hloc]

/-- Unpacking a file or directory into a tree that has its directory and
nothing in its place adds it. -/
theorem unpackRecord_of_lists (h : t.Lists nodes)
    (habove : above = [] ∨ ⟨above, .directory⟩ ∈ nodes)
    (hfresh : ∀ entry', ⟨above ++ [name], entry'⟩ ∉ nodes)
    (hplain : Node.Plain ⟨above ++ [name], entry⟩) :
    ∃ t', Archive.unpackRecord t (Node.record ⟨above ++ [name], entry⟩) = .ok t' ∧
      t'.Lists (nodes ++ [⟨above ++ [name], entry⟩]) := by
  have hdir := h.get?_above habove
  have hvacant := h.get?_eq_none hfresh
  have hne : above ++ [name] ≠ [] := by simp
  have hrooted (first : Entry) : (t.insert (above ++ [name]) first).Rooted :=
    h.rooted.insert hdir (by simp [hvacant]) first
  -- A directory is made; a file is written first and gets its mode after that.
  rcases hplain.entry with hentry | ⟨content, executable, hentry⟩
  · obtain rfl : entry = .directory := hentry
    refine ⟨_, unpackRecord_directory h.rooted h.current hdir hplain hvacant, ?_⟩
    exact h.snoc (hrooted _) h.current hfresh fun loc => get?_insert hne _
  · obtain rfl : entry = .file content executable := hentry
    obtain ⟨first, hunpack⟩ :=
      unpackRecord_file h.rooted h.current hdir hplain (by simp [hvacant])
    refine ⟨_, hunpack, h.snoc ?_ h.current hfresh fun loc => ?_⟩
    · refine (hrooted _).insert ?_ ?_ _
      · rw [get?_insert_of_ne (by simp), hdir]
      · rw [get?_insert_self hne]
        simp
    · rw [get?_insert hne, get?_insert hne]
      split <;> rfl

/-- The record of a further node is unpacked after the others. -/
theorem unpack_snoc {n : Node} {result : Except Fault FileTree}
    (h : Archive.unpack (nodes.map Node.record) = .ok t)
    (hrecord : Archive.unpackRecord t n.record = result) :
    Archive.unpack ((nodes ++ [n]).map Node.record) = result := by
  rw [Archive.unpack] at h ⊢
  rw [List.map_append, List.foldlM_append, h]
  show List.foldlM Archive.unpackRecord t [n.record] = _
  rw [List.foldlM_cons, hrecord]
  cases result <;> rfl

/-- Unpacking nodes that lie in order gives the tree of these nodes. -/
theorem unpack_laid (h : Laid nodes) :
    ∃ t, Archive.unpack (nodes.map Node.record) = .ok t ∧ t.Lists nodes := by
  induction h with
  | nil =>
    refine ⟨{ current := [], entries := [] }, rfl, ⟨?_, rfl⟩, rfl, ?_⟩
    · intro dir name entry hget
      rw [get?_of_ne_nil (by simp)] at hget
      cases hget
    · intro loc entry hloc
      rw [get?_of_ne_nil hloc]
      simp
  | @snoc nodes above name entry _ habove hfresh hplain ih =>
    -- The nodes so far have been unpacked; the next one goes into their tree.
    obtain ⟨t, hunpack, hlists⟩ := ih
    obtain ⟨t', hrecord, hlists'⟩ := unpackRecord_of_lists hlists habove hfresh hplain
    exact ⟨t', unpack_snoc hunpack hrecord, hlists'⟩

/-! ### The nodes of an unfolding -/

/-- What a payload unfolds to is plain. -/
theorem Unfolding.plain (h : t.Unfolding path nodes) {n : Node} (hn : n ∈ nodes) : n.Plain := by
  obtain ⟨names, entry⟩ := n
  obtain ⟨hne, hproper, hentry, hspecial⟩ := (h.mem_iff names entry).mp hn
  have hcheck := (Path.check_eq_ok_iff _).mp (Bundle.check_of_entryAt hentry)
  refine ⟨hne, hproper, Nat.lt_of_le_of_lt (Path.length_intercalate_le hproper) hcheck.2.1, ?_⟩
  cases entry with
  | file content executable => exact .inr ⟨content, executable, rfl⟩
  | directory => exact .inl rfl
  | link target => exact absurd hentry (entryAt_ne_link target)
  | special => exact absurd rfl hspecial

/-- The directory that a node is in is a node too. -/
theorem Unfolding.directory_mem (h : t.Unfolding path nodes) (hpath : path.bytes ≠ [])
    (hn : ⟨above ++ [name], entry⟩ ∈ nodes) : above = [] ∨ ⟨above, .directory⟩ ∈ nodes := by
  by_cases hnil : above = []
  · exact .inl hnil
  obtain ⟨-, hproper, hentry, -⟩ := (h.mem_iff _ entry).mp hn
  rw [List.forall_mem_append] at hproper
  -- The path goes through the directory above, so this is part of the payload too.
  obtain ⟨loc, hplace⟩ := entryAt_eq_ok_iff.mp hentry
  rw [Path.descend_append] at hplace
  obtain ⟨dir, hdir⟩ := exists_directory_of_place_descend
    (Path.bytes_descend_ne_nil hpath hproper.1) (by simp) hproper.2 hplace
  exact .inr ((h.mem_iff above .directory).mpr
    ⟨hnil, hproper.1, entryAt_eq_ok_iff.mpr ⟨dir, hdir⟩, by simp⟩)

/-- In lexicographic order a directory comes before its contents, so the nodes
of an unfolding lie in an order in which they can be unpacked. -/
theorem laid_of_unfolding (h : t.Unfolding path nodes) (hpath : path.bytes ≠ []) : Laid nodes := by
  -- The directory of a node is looked for among the nodes in front of it, so the induction
  -- is on the front part, which keeps the rest of the list in sight.
  suffices hfront : ∀ front, front <+: nodes → Laid front from hfront nodes List.prefix_rfl
  intro front
  induction front using List.reverseRecOn with
  | nil => exact fun _ => .nil
  | append_singleton front n ih =>
    rintro ⟨rest, hrest⟩
    have hn : n ∈ nodes := by simp [← hrest]
    have hplain := h.plain hn
    obtain ⟨names, entry⟩ := n
    obtain ⟨above, name, rfl⟩ : ∃ above name, names = above ++ [name] :=
      ⟨_, _, (List.dropLast_concat_getLast hplain.ne_nil).symm⟩
    have hsorted := h.sorted
    rw [← hrest, List.append_assoc, List.singleton_append, List.pairwise_append,
      List.pairwise_cons] at hsorted
    obtain ⟨-, ⟨hafter, -⟩, hbefore⟩ := hsorted
    refine .snoc (ih ⟨_, by rw [← hrest, List.append_assoc]⟩) ?_ (fun entry' hmem => ?_) hplain
    · refine (h.directory_mem hpath hn).imp_right fun hmem => ?_
      have hlt : compare above (above ++ [name]) = .lt := compare_append_eq_lt (by simp)
      rw [← hrest, List.append_assoc, List.singleton_append] at hmem
      rcases List.mem_append.mp hmem with hmem | hmem
      · exact hmem
      -- The directory is not the node itself, nor does it come after it.
      rcases List.mem_cons.mp hmem with heq | hmem
      · have habove : above = above ++ [name] := congrArg Node.names heq
        simp at habove
      · have hgt := hafter _ hmem
        rw [Std.OrientedOrd.eq_swap, hlt] at hgt
        cases hgt
    · -- No node in front of this one has its names.
      have hlt := hbefore _ hmem _ List.mem_cons_self
      rw [Std.ReflOrd.compare_self] at hlt
      cases hlt

/-! ### The descriptor on top -/

/-- Unpacking the records gives the nodes back, each record having a path of
its own. -/
def Restores (records : List Record) (nodes : List Node) : Prop :=
  (records.map (·.path)).Nodup ∧ ∃ t, Archive.unpack records = .ok t ∧ t.Lists nodes

/-- What is laid out is plain. -/
theorem Laid.plain (h : Laid nodes) : ∀ n ∈ nodes, n.Plain := by
  induction h with
  | nil => simp
  | snoc _ _ _ hplain ih =>
    rw [List.forall_mem_append, List.forall_mem_singleton]
    exact ⟨ih, hplain⟩

/-- The records of nodes have different paths. -/
theorem Laid.nodup_path (h : Laid nodes) : ((nodes.map Node.record).map (·.path)).Nodup := by
  induction h with
  | nil => simp
  | @snoc nodes above name entry hlaid _ hfresh hplain ih =>
    rw [List.map_append, List.map_append, List.nodup_append]
    refine ⟨ih, by simp, fun path hpath path' hpath' heq => ?_⟩
    -- A node with the path of the last one has its names, and the last one is fresh.
    simp only [List.map_map, List.mem_map, Function.comp_apply] at hpath
    obtain ⟨n, hn, rfl⟩ := hpath
    obtain rfl : path' = [Path.separator].intercalate (above ++ [name]) :=
      List.mem_singleton.mp hpath'
    have hplain' := hlaid.plain n hn
    have hnames : n.names = above ++ [name] :=
      pathTo_inj hplain'.ne_nil hplain.ne_nil hplain'.proper hplain.proper heq
    exact hfresh n.entry (hnames ▸ hn)

section Descriptor

variable {d : Node} {content : Bytes} {executable : Bool} (hlaid : Laid nodes)
  (hplain : d.Plain) (hnames : d.names = [name]) (hentry : d.entry = .file content executable)

include hlaid hplain hnames

/-- A file that is unpacked last at the top is added when nothing else has its
name. -/
theorem restores_snoc_iff :
    Restores ((nodes ++ [d]).map Node.record) (nodes ++ [d]) ↔
      ∀ n ∈ nodes, n.names ≠ d.names := by
  -- Two entries with one path do not restore; without them every entry is laid out below one that
  -- is.
  constructor
  · rintro ⟨hnodup, -⟩ n hn heq
    rw [List.map_append, List.map_append, List.nodup_append] at hnodup
    refine hnodup.2.2 n.record.path (List.mem_map_of_mem (List.mem_map_of_mem hn))
      d.record.path (by simp) ?_
    show [Path.separator].intercalate n.names = [Path.separator].intercalate d.names
    rw [heq]
  · intro hfresh
    obtain ⟨names, entry⟩ := d
    obtain rfl : names = [] ++ [name] := hnames
    have hlaid' := hlaid.snoc (.inl rfl) (fun entry' hmem => hfresh _ hmem rfl) hplain
    exact ⟨hlaid'.nodup_path, unpack_laid hlaid'⟩

include hentry

/-- It takes the place of a file that has its name. -/
theorem unpack_snoc_of_file {content' : Bytes} {executable' : Bool}
    (hfile : ⟨d.names, .file content' executable'⟩ ∈ nodes) :
    ∃ t, Archive.unpack ((nodes ++ [d]).map Node.record) = .ok t ∧
      ∀ loc entry, loc ≠ [] → (t.get? loc = some entry ↔
        loc = d.names ∧ entry = d.entry ∨ loc ≠ d.names ∧ ⟨loc, entry⟩ ∈ nodes) := by
  obtain ⟨names, entry⟩ := d
  obtain rfl : names = [] ++ [name] := hnames
  obtain rfl : entry = .file content executable := hentry
  obtain ⟨t, hunpack, hlists⟩ := unpack_laid hlaid
  -- The nodes have been unpacked, and where the descriptor goes there is the file.
  have hne : [] ++ [name] ≠ [] := by simp
  have hget := (hlists.get?_iff _ _ hne).mpr hfile
  obtain ⟨first, hrecord⟩ := unpackRecord_file hlists.rooted hlists.current (get?_nil t) hplain
    fun found hfound => ⟨content', executable', Option.some.inj (hfound.symm.trans hget)⟩
  refine ⟨_, unpack_snoc hunpack hrecord, fun loc entry hloc => ?_⟩
  rw [get?_insert hne, get?_insert hne]
  split
  next heq => simp [heq, eq_comm]
  next hother =>
    rw [hlists.get?_iff loc entry hloc]
    exact ⟨fun hmem => .inr ⟨hother, hmem⟩,
      fun h => h.elim (fun h => absurd h.1 hother) And.right⟩

/-- It cannot be unpacked when a directory has its name. -/
theorem unpack_snoc_of_directory (hdirectory : ⟨d.names, .directory⟩ ∈ nodes) :
    Archive.unpack ((nodes ++ [d]).map Node.record) = .error .isDirectory := by
  obtain ⟨names, entry⟩ := d
  obtain rfl : names = [] ++ [name] := hnames
  obtain rfl : entry = .file content executable := hentry
  obtain ⟨t, hunpack, hlists⟩ := unpack_laid hlaid
  have hget := (hlists.get?_iff _ _ (by simp)).mpr hdirectory
  exact unpack_snoc hunpack
    (unpackRecord_file_of_directory hlists.rooted hlists.current (get?_nil t) hplain hget)

end Descriptor

end FileTree

/-! ### The archive of a bundle -/

namespace Bundle

open FileTree (Restores)

variable {s s' : Session} {b : Bundle} {output : Path} {extension : String} {a : Artifact}

/-- What holds of an archive is enough to unpack its payload, and its
descriptor after that. -/
theorem Holds.laid {t after : FileTree} {nodes : List Node} {descriptor : Node}
    (h : b.Holds t after a nodes descriptor) (hpayload : b.payload.bytes ≠ []) :
    FileTree.Laid nodes ∧ descriptor.Plain ∧ ∃ name content executable,
      descriptor.names = [name] ∧ descriptor.entry = .file content executable := by
  obtain ⟨name, hname, hnames⟩ := h.name
  obtain ⟨loc, hplace⟩ := FileTree.entryAt_eq_ok_iff.mp h.entry
  obtain ⟨content, executable, hentry⟩ : ∃ content executable,
      descriptor.entry = .file content executable := by
    have hfile := h.isFile
    unfold FileTree.Node.isFile at hfile
    split at hfile
    next content executable hentry => exact ⟨content, executable, hentry⟩
    · cases hfile
  refine ⟨FileTree.laid_of_unfolding h.unfolding hpayload, ?_, name, content, executable, hnames,
    hentry⟩
  -- The name of the descriptor is the last one of a path the system takes.
  have hproper := FileTree.proper_of_fileName? hname hplace
  obtain ⟨-, -, -, hpart, -⟩ :=
    Path.of_mem_bareSteps (Path.name_mem_bareSteps_of_fileName? hname)
  have hcheck := (Path.check_eq_ok_iff _).mp (check_of_entryAt h.entry)
  constructor
  case ne_nil => simp [hnames]
  case proper => simpa [hnames] using hproper
  case length_lt =>
    rw [hnames, List.intercalate_singleton]
    exact Nat.lt_of_le_of_lt hpart.length_le hcheck.2.1
  case entry => exact .inr ⟨content, executable, hentry⟩

/-- What comes of unpacking the records of a payload's nodes and then of the
descriptor. Where something at the top of the payload has the descriptor's
name, the descriptor replaces it if it is a file, and cannot be unpacked if it
is a directory. -/
structure Unpacks (nodes : List Node) (descriptor : Node) (records : List Record) : Prop where
  restores_iff : Restores records (nodes ++ [descriptor]) ↔
    ∀ n ∈ nodes, n.names ≠ descriptor.names
  of_file : ∀ content executable, ⟨descriptor.names, .file content executable⟩ ∈ nodes →
    ∃ t, Archive.unpack records = .ok t ∧ ∀ loc entry, loc ≠ [] →
      (t.get? loc = some entry ↔ loc = descriptor.names ∧ entry = descriptor.entry ∨
        loc ≠ descriptor.names ∧ ⟨loc, entry⟩ ∈ nodes)
  of_directory : ⟨descriptor.names, .directory⟩ ∈ nodes →
    Archive.unpack records = .error .isDirectory

/-- The archive of a bundle unpacks to the payload and the descriptor exactly
when nothing at the top of the payload is named like the descriptor. -/
theorem assemble_unpacks (hs : s.tree.WellFormed)
    (h : (b.assemble output extension).run s = .ok a s')
    (hoff : ¬ b.ReachesOutput (s.tree.makeDirectories output).tree output) :
    ∃ nodes descriptor,
      b.Holds (s.tree.makeDirectories output).tree s'.tree a nodes descriptor ∧
      ∀ bytes records, s'.tree.read a.path = .ok bytes → Archive.decode? bytes = some records →
        Unpacks nodes descriptor records := by
  obtain ⟨place, records, hpacked⟩ := assemble_eq_ok_iff.mp ⟨s', h, rfl⟩
  obtain ⟨nodes, descriptor, hholds⟩ := hpacked.holds hs hoff
  -- An empty path is no directory, so the payload has a path.
  have hpayload : b.payload.bytes ≠ [] := by
    obtain ⟨loc, hplace⟩ := FileTree.isDirectory_iff.mp (check_eq_ok s.tree hpacked.checked).2
    have hcheck := (FileTree.place_eq_entry_iff.mp hplace).1
    exact ((Path.check_eq_ok_iff _).mp hcheck).2.2
  obtain ⟨hlaid, hplain, name, content, executable, hnames, hentry⟩ := hholds.laid hpayload
  refine ⟨nodes, descriptor, hholds, fun bytes records hread hdecode => ?_⟩
  obtain rfl := hholds.records_eq hread hdecode
  exact {
    restores_iff := FileTree.restores_snoc_iff hlaid hplain hnames
    of_file := fun _ _ => FileTree.unpack_snoc_of_file hlaid hplain hnames hentry
    of_directory := FileTree.unpack_snoc_of_directory hlaid hplain hnames hentry }

/-- The archive of the project, in whose payload a file has the descriptor's
name. -/
theorem assemble_unpacks_project : ∃ a s', projectTree.WellFormed ∧
    (projectBundle.assemble projectOutput "tgz").run projectSession = .ok a s' ∧
    ¬ projectBundle.ReachesOutput (projectTree.makeDirectories projectOutput).tree
      projectOutput ∧
    ∃ nodes descriptor, projectBundle.Holds (projectTree.makeDirectories projectOutput).tree s'.tree
        a nodes descriptor ∧
      ∀ bytes records, s'.tree.read a.path = .ok bytes → Archive.decode? bytes = some records →
        Unpacks nodes descriptor records := by
  obtain ⟨a, s', h⟩ := exists_assemble_project
  exact ⟨a, s', projectTree_wellFormed, h, projectTree_not_reachesOutput,
    assemble_unpacks projectTree_wellFormed h projectTree_not_reachesOutput⟩

/-- Not every archive that is made unpacks to its payload and its descriptor:
the project's has two entries of one path. -/
theorem not_forall_assemble_restores : ¬ ∀ (s s' : Session) (b : Bundle) (output : Path)
    (extension : String) (a : Artifact) (nodes : List Node) (descriptor : Node) (bytes : Bytes)
    (records : List Record), s.tree.WellFormed →
    (b.assemble output extension).run s = .ok a s' →
    ¬ b.ReachesOutput (s.tree.makeDirectories output).tree output →
    b.Holds (s.tree.makeDirectories output).tree s'.tree a nodes descriptor →
    s'.tree.read a.path = .ok bytes → Archive.decode? bytes = some records →
    Restores records (nodes ++ [descriptor]) := by
  intro hall
  obtain ⟨a, s', h⟩ := exists_assemble_project
  obtain ⟨place, records, hpacked⟩ := assemble_eq_ok_iff.mp ⟨s', h, rfl⟩
  obtain ⟨nodes, descriptor, hholds⟩ :=
    hpacked.holds projectTree_wellFormed projectTree_not_reachesOutput
  obtain ⟨bytes, hread, hdecode⟩ := hholds.archive
  have hrestores := hall _ _ _ _ _ _ _ _ _ _ projectTree_wellFormed h
    projectTree_not_reachesOutput hholds hread hdecode
  obtain ⟨hlaid, hplain, name, -, -, hnames, -⟩ := hholds.laid (by decide)
  -- The file in the payload is a node, and has the name of the descriptor.
  have hinner : ⟨[Text.bytesOf "package.json"], .file (Text.bytesOf "inner") true⟩ ∈ nodes := by
    have hentry : (projectTree.makeDirectories projectOutput).tree.entryAt
        (projectBundle.payload.descend [Text.bytesOf "package.json"])
          = .ok (.file (Text.bytesOf "inner") true) := by
      rw [projectTree_makeDirectories]
      cbv
    exact (hholds.unfolding.mem_iff _ _).mpr ⟨by simp, by decide, hentry, by simp⟩
  have hsame : [Text.bytesOf "package.json"] = descriptor.names := by
    obtain ⟨name, hname, hnames⟩ := hholds.name
    rw [hnames, Option.some.inj (hname.symm.trans projectBundle_fileName?)]
  exact (FileTree.restores_snoc_iff hlaid hplain hnames).mp hrestores _ hinner hsame

end Bundle

end Promotion
