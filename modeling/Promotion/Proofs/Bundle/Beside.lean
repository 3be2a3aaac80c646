import Promotion.Proofs.Bundle.ArchiveNames
import Promotion.Proofs.Bundle.Batch

/-!
# `Promotion.Proofs.Bundle.Beside`: archives that are found together

A build that has succeeded has just read its last archive by its path. The archives
of the nested bundles of one discovery are beside that one (`Path.Beside`): their
paths differ in the last step only, as long as the extension does not have a
separator in it. So the directory that all of them are in is still found, and the
archives in it as well, even if one of them has taken the place of a link.

* `map_of_packedInTurn`: names and paths of artifacts are those of the bundles.
* `exists_file_of_packedInTurn`: a file stands where the archive of each bundle went.
* `isFile_of_beside`: it is found by its path, if that is beside the last one.
* `beside_archivePath`: the archives of one discovery are beside each other.
* `isFile_of_packedInTurn`: the artifacts that are files after a build.
-/

set_option autoImplicit false

namespace Promotion

open Promotion.Text (Bytes bytesOf)

/-- Two paths that end in a name and differ in that name only. -/
structure Path.Beside (p q : Path) : Prop where
  isAbsolute : p.isAbsolute = q.isAbsolute
  bareSteps : ∃ front name name',
    p.bareSteps = front ++ [.name name] ∧ q.bareSteps = front ++ [.name name']

namespace Bundle

variable {b last : Bundle} {bundles row : List Bundle} {output : Path} {extension : String}
  {artifacts : List Artifact} {t now after : FileTree} {content : Bytes} {loc : Location}

/-- The artifacts of bundles that were packed have their names and the paths of their
archives, in the same order. -/
theorem map_of_packedInTurn (h : PackedInTurn output extension now row artifacts after) :
    artifacts.map (fun a => (a.name, a.path))
      = row.map fun b => (b.name, b.archivePath output extension) := by
  unfold PackedInTurn at h
  induction h with
  | nil => rfl
  | @cons now t₁ after b row a artifacts first rest ih =>
    have hstart : Progress [b] now output extension now := .inl rfl
    obtain ⟨content, loc, hadvances⟩ := hstart.advances (List.mem_singleton.mpr rfl) first
    rw [List.map_cons, List.map_cons, ih, hadvances.name, hadvances.path]

/-- Where the archive of a bundle has gone stands a file, and be it that of another
bundle which went there later. -/
theorem exists_file_of_packedInTurn (h : PackedInTurn output extension now row artifacts after)
    (hnow : Progress bundles t output extension now) (hrow : row ⊆ bundles) :
    ∀ b ∈ row, ∃ loc content executable, Goes t output extension b loc ∧
      (b.archivePath output extension).endsInSlash = false ∧
      after.get? loc = some (.file content executable) := by
  unfold PackedInTurn at h
  induction h with
  | nil => nofun
  | @cons now t₁ after b row a artifacts first rest ih =>
    rw [List.cons_subset] at hrow
    obtain ⟨content, loc, hadvances⟩ := hnow.advances hrow.1 first
    refine List.forall_mem_cons.mpr ⟨?_, ih hadvances.progress hrow.2⟩
    -- The bundles after it put files in place and do nothing else.
    have hfile := hadvances.delivers.get?_self
    have hafter : ∃ content executable, after.get? loc = some (.file content executable) := by
      by_cases hrest : row = []
      · subst hrest
        cases rest
        exact ⟨content, false, hfile⟩
      · have hfills := fills_of_packedInTurn rest (List.Subset.refl row) hrest
        rw [hadvances.settled] at hfills
        rcases hfills.get?_eq loc with heq | ⟨-, -, hreplaced⟩
        · exact ⟨content, false, heq.trans hfile⟩
        · exact hreplaced
    obtain ⟨content', executable, hafter⟩ := hafter
    exact ⟨loc, content', executable, hadvances.goes, hadvances.delivers.endsInSlash, hafter⟩

/-- Beside an archive that is read by its path, a file that went where the path of
another archive leads is found by that path. -/
theorem isFile_of_beside {content' : Bytes} {executable : Bool} {places : Location → Prop}
    (hfills : (t.makeDirectories output).tree.Fills now places)
    (hread : now.read (last.archivePath output extension) = .ok content)
    (hbeside : (b.archivePath output extension).Beside (last.archivePath output extension))
    (hgoes : Goes t output extension b loc)
    (hslash : (b.archivePath output extension).endsInSlash = false)
    (hfile : now.get? loc = some (.file content' executable)) :
    now.isFile (b.archivePath output extension) = true := by
  obtain ⟨habsolute, front, name, name', hfront, hfront'⟩ := hbeside
  obtain ⟨_, _, hplace, -⟩ := FileTree.read_eq_ok_iff.mp hread
  -- All steps but the last one lead to a directory, for the other path too.
  obtain ⟨-, hreaches⟩ := FileTree.place_eq_entry_iff.mp hplace
  rw [Path.steps, hfront', List.append_assoc] at hreaches
  obtain ⟨_, dir, hdir, -⟩ := hreaches.directory_of_append (List.cons_ne_nil _ _)
  have horigin (current : Location) : (last.archivePath output extension).origin current
      = (b.archivePath output extension).origin current := by
    rw [Path.origin, Path.origin, habsolute]
  rw [horigin] at hdir
  -- It is the directory that they led to when the archive of the other path was placed.
  obtain ⟨dir', name₂, htarget, hlength, rfl⟩ := FileTree.targetLocation_eq_ok_iff.mp hgoes
  obtain ⟨hcheck, front₂, hfront₂, hreaches₂⟩ := FileTree.target_eq_ok_iff.mp htarget
  obtain ⟨rfl, hname⟩ := List.append_inj' (hfront.symm.trans hfront₂) rfl
  cases hname
  rw [← hfills.current] at hreaches₂
  obtain rfl := (hreaches₂.unique (hfills.reaches_directory hdir)).1
  exact FileTree.isFile_iff.mpr ⟨content', executable, FileTree.entryAt_eq_ok_iff.mpr
    ⟨_, FileTree.place_of_bareSteps hcheck hslash hfront hdir hlength hfile (by simp)⟩⟩

/-! ### The archives of one discovery -/

/-- Without a separator in the extension the archives of nested bundles are beside
each other, whatever their base name is. -/
theorem beside_archivePath (base : String) (layout : Layout) (output : Path)
    (hextension : '/' ∉ extension.toList) {x y : Path × String}
    (hx : Path.separator ∉ bytesOf x.2) (hy : Path.separator ∉ bytesOf y.2) :
    ((Discovery.bundleOf base layout x).archivePath output extension).Beside
      ((Discovery.bundleOf base layout y).archivePath output extension) := by
  obtain ⟨front, hjoin⟩ := output.exists_join_around (bytesOf base) Discovery.underscore
  obtain ⟨before, inside, hsteps⟩ :=
    Path.exists_bareSteps_around front (b := Discovery.underscore) (by decide) (by decide)
  -- The path of each is the same text in front, then the folder and the extension.
  have hpath (x : Path × String) : (Discovery.bundleOf base layout x).archivePath output extension
      = ⟨front ++ Discovery.underscore ::
          (bytesOf x.2 ++ bytesOf ("." ++ bareExtension extension))⟩ := by
    rw [archivePath, Path.ofString, Discovery.bytesOf_archiveName, hjoin]
  have hrest {x : Path × String} (hx : Path.separator ∉ bytesOf x.2) :
      Path.separator ∉ bytesOf x.2 ++ bytesOf ("." ++ bareExtension extension) := by
    rw [List.mem_append, not_or]
    refine ⟨hx, fun hmem => hextension ?_⟩
    have hchar : '/' ∈ ("." ++ bareExtension extension).toList :=
      Text.mem_toList_of_mem_bytesOf hmem (by decide)
    rw [String.toList_append, List.mem_append] at hchar
    have hbare := hchar.resolve_left (by decide)
    rw [bareExtension, String.toList_ofList] at hbare
    exact (List.dropWhile_sublist _).subset hbare
  constructor
  case isAbsolute =>
    rw [hpath, hpath]
    cases front <;> rfl
  case bareSteps => exact ⟨before, _, _, by rw [hpath, hsteps _ (hrest hx)],
      by rw [hpath, hsteps _ (hrest hy)]⟩

/-- Of these bundles any two archives are beside each other. -/
def Alongside (output : Path) (extension : String) (bundles : List Bundle) : Prop :=
  ∀ b ∈ bundles, ∀ c ∈ bundles,
    b = c ∨ (b.archivePath output extension).Beside (c.archivePath output extension)

/-- A bundle alone has no other one to be beside. -/
theorem alongside_of_length_le (h : bundles.length ≤ 1) : Alongside output extension bundles := by
  intro b hb c hc
  match bundles, h with
  | [_], _ => exact .inl ((List.mem_singleton.mp hb).trans (List.mem_singleton.mp hc).symm)

/-- The bundles of one place go beside each other when the extension has no slash. -/
theorem alongside_nested {listing : Listing} {place : Path} {base : String} {layout : Layout}
    {d : Discovery} (hextension : '/' ∉ extension.toList)
    (h : Discovery.nested listing place base layout = .ok d) :
    Alongside output extension d.bundles := by
  cases hlist : listing.subdirectories place with
  | error reason => cases (Discovery.nested_eq_error hlist).symm.trans h
  | ok directories =>
    obtain ⟨d', hd, hbundles⟩ := Discovery.nested_eq_ok base layout hlist
    cases hd.symm.trans h
    -- A folder has a name of one component, and so no slash in it.
    have hfolder {x : Path × String} (hx : x ∈ Discovery.selected listing layout directories) :
        Path.separator ∉ bytesOf x.2 := by
      obtain ⟨p, -, hp⟩ := List.mem_filterMap.mp hx
      obtain ⟨-, hname⟩ := Discovery.named?_eq_some_iff.mp hp
      exact (Path.of_mem_bareSteps (Path.name_mem_bareSteps_of_fileName? hname)).2.2.2.2
    rw [hbundles]
    refine List.forall_mem_map.mpr fun x hx => List.forall_mem_map.mpr fun y hy => .inr ?_
    exact beside_archivePath base layout output hextension (hfolder hx) (hfolder hy)

/-- The bundles of a discovery that falls back on one go beside each other as well. -/
theorem alongside_orSingle {fallback : Path} {base : String} {layout : Layout} {d : Discovery}
    (h : Alongside output extension d.bundles) :
    Alongside output extension (Discovery.orSingle fallback base layout d).bundles := by
  unfold Discovery.orSingle
  split
  · exact alongside_of_length_le (Nat.le_refl 1)
  · exact h

/-- A file is found by the path of every artifact of a build, if the archives are
beside each other or none of them has taken the place of a link. -/
theorem isFile_of_packedInTurn (h : PackedInTurn output extension t bundles artifacts after)
    (hfound : Alongside output extension bundles ∨
      ∀ loc target, ArchivePlace bundles t output extension loc →
        (t.makeDirectories output).tree.get? loc ≠ some (.link target)) :
    ∀ a ∈ artifacts, after.isFile a.path = true := by
  intro a ha
  -- The artifact is that of a bundle, and a file is where its archive went.
  have hpair := List.mem_map_of_mem (f := fun a : Artifact => (a.name, a.path)) ha
  rw [map_of_packedInTurn h] at hpair
  obtain ⟨b, hb, heq⟩ := List.mem_map.mp hpair
  rw [← (Prod.mk.inj heq).2]
  obtain ⟨loc, content, executable, hgoes, hslash, hfile⟩ :=
    exists_file_of_packedInTurn h (.inl rfl) (List.Subset.refl bundles) b hb
  have hfills := fills_of_packedInTurn h (List.Subset.refl bundles) (List.ne_nil_of_mem hb)
  rcases hfound with halongside | hlinks
  · -- The last archive has just been read.
    obtain ⟨row, last, rfl⟩ : ∃ row last, bundles = row ++ [last] :=
      ⟨_, _, (List.dropLast_concat_getLast (List.ne_nil_of_mem hb)).symm⟩
    obtain ⟨_, a', t₁, -, hrow, hlast⟩ := Action.inTurn_snoc_iff.mp h
    obtain ⟨hprogress, -⟩ :=
      get?_of_packedInTurn hrow (.inl rfl) (List.subset_append_left row [last])
    obtain ⟨content', loc', hadvances⟩ := hprogress.advances (by simp) hlast
    rcases halongside b hb last (by simp) with rfl | hbeside
    · exact hadvances.delivers.isFile_of_read hadvances.read
    · exact isFile_of_beside hfills hadvances.read hbeside hgoes hslash hfile
  · exact FileTree.isFile_iff.mpr ⟨content, executable, FileTree.entryAt_eq_ok_iff.mpr
      ⟨loc, hfills.place_of_target hlinks hgoes hslash hfile⟩⟩

/-! ### Links that cross -/

/-- A project with two actions, and links at the names that archives with the
extension `/x` have in the output directory. The way to the first archive goes
through the link that the second one replaces. -/
def crossedTree : FileTree where
  current := []
  entries := [
    (locationOf ["p"], .directory),
    (locationOf ["p", "a"], .directory),
    (locationOf ["p", "a", "package.json"], .file [] false),
    (locationOf ["p", "a", "dist"], .directory),
    (locationOf ["p", "b"], .directory),
    (locationOf ["p", "b", "package.json"], .file [] false),
    (locationOf ["p", "b", "dist"], .directory),
    (locationOf ["out"], .directory),
    (locationOf ["out", "demo_a."], .link (.ofString "../q/x")),
    (locationOf ["out", "demo_b."], .link (.ofString "../q")),
    (locationOf ["q"], .directory),
    (locationOf ["q", "x"], .link (.ofString "../d")),
    (locationOf ["d"], .directory)]

/-- The bundle of one of the two folders. -/
def crossedBundle (folder : String) : Bundle :=
  .ofRoot (.ofString ("p/" ++ folder)) ("demo_" ++ folder) {}

/-- The file system after the first bundle. -/
def crossedTreeWith (content : Bytes) : FileTree :=
  crossedTree.insert (locationOf ["d", "x"]) (.file content false)

/-- The file system after both bundles. -/
def crossedTreeAfter (content content' : Bytes) : FileTree :=
  (crossedTreeWith content).insert (locationOf ["q", "x"]) (.file content' false)

/-- A bundle with nothing in its payload is packed where there is a place for its
archive. -/
theorem exists_outcome_of_empty (place dir : Location) (name : Name) (descriptor : Bytes)
    (executable : Bool) (leaves : Bytes → FileTree)
    (hchecked : check t b output = .ok ()) (hmade : t.makeDirectories output = ⟨t, none⟩)
    (hstaged : t.stagingPlace output = .ok place)
    (hlocate : (t.stage place).locate b.payload = .ok dir)
    (hnames : (t.stage place).childNames dir = [])
    (hname : b.descriptor.fileName? = some name)
    (hentry : (t.stage place).entryAt b.descriptor = .ok (.file descriptor executable))
    (hrenamed : ∀ content, (t.stage place).rename place (b.archivePath output extension) content
      = .ok (leaves content))
    (hread : ∀ content, (leaves content).read (b.archivePath output extension) = .ok content) :
    ∃ content a, (b.assemble output extension).outcome t = (.ok a, leaves content) := by
  -- The walk of an empty directory visits nothing.
  have hwhole : ((t.stage place).walk b.payload).breakage = none := by
    rw [FileTree.walk_eq hlocate hnames, FileTree.walkNames]
    rfl
  have hcontents :=
    contents_eq_ok_iff.mpr ⟨hwhole, name, descriptor, executable, hname, hentry, rfl⟩
  obtain ⟨a, s', hrun, htree⟩ := exists_assemble_leaving (s := { tree := t }) hchecked hmade hstaged
    hcontents (hrenamed _) (hread _)
  exact ⟨_, a, Action.outcome_eq_ok_iff.mpr ⟨s', hrun, htree⟩⟩

/-- The first bundle of the crossed tree is assembled. -/
theorem crossedTree_first : ∃ content a,
    ((crossedBundle "a").assemble projectOutput "/x").outcome crossedTree
      = (.ok a, crossedTreeWith content) := by
  apply exists_outcome_of_empty projectStaging (locationOf ["p", "a", "dist"])
    (bytesOf "package.json") [] false crossedTreeWith
  case hrenamed | hread =>
    intro content
    cbv
  all_goals cbv

/-- The second bundle is assembled after the first one. -/
theorem crossedTree_second (content : Bytes) : ∃ content' a,
    ((crossedBundle "b").assemble projectOutput "/x").outcome (crossedTreeWith content)
      = (.ok a, crossedTreeAfter content content') := by
  apply exists_outcome_of_empty projectStaging (locationOf ["p", "b", "dist"])
    (bytesOf "package.json") [] false (crossedTreeAfter content)
  case hrenamed | hread =>
    intro content
    cbv
  all_goals cbv

/-- Both bundles are packed, and then nothing is found by the path of the first
archive. -/
theorem exists_build_crossed : ∃ o after,
    (build [crossedBundle "a", crossedBundle "b"] projectOutput "/x").outcome crossedTree
      = (.ok o, after) ∧
    after.isFile ((crossedBundle "a").archivePath projectOutput "/x") = false := by
  obtain ⟨content, a, hfirst⟩ := crossedTree_first
  obtain ⟨content', a', hsecond⟩ := crossedTree_second content
  -- The second archive takes the place of the link that the path of the first one goes through.
  have hlost : (crossedTreeAfter content content').isFile
      ((crossedBundle "a").archivePath projectOutput "/x") = false := by
    cbv
  have hpacked : PackedInTurn projectOutput "/x" crossedTree
      [crossedBundle "a", crossedBundle "b"] [a, a'] (crossedTreeAfter content content') :=
    .cons hfirst (.cons hsecond (.nil _))
  exact ⟨⟨[a], a'⟩, _, outcome_build_eq_ok_iff.mpr ⟨List.cons_ne_nil _ _, hpacked⟩, hlost⟩

/-- The crossed files make up a tree. -/
theorem crossedTree_wellFormed : crossedTree.WellFormed :=
  FileTree.wellFormed_of_entries rfl (by decide)

end Bundle

end Promotion
