import Promotion.Proofs.Bundle.Discovery

/-!
# `Promotion.Proofs.Bundle.ArchiveNames`: archives of one discovery are apart

The archive of a nested bundle is named after its folder, with the base name and
an underscore in front and the extension behind. Base name and extension may be
any text, with separators and full stops in it. What keeps two archives apart is
that the underscore is in one component with the folder:

* `exists_components_archivePath`: the path of an archive has one component that
  depends on the folder, and tells the folder.
* `same_archivePath_iff`: archives with the same path have the same folder.
* `differ_of_selects`: the directories of one place have different folders.
* `discovered_archives_differ`: no two bundles of one discovery have one archive.
-/

set_option autoImplicit false

namespace Promotion

open Promotion.Text (Bytes bytesOf)

/-- Two bundles whose names are different, and whose archives are, wherever they
are written and whatever their extension is. -/
structure Bundle.ArchivesDiffer (b other : Bundle) : Prop where
  name : b.name ≠ other.name
  path : ∀ output extension,
    (b.archivePath output extension).same (other.archivePath output extension) = false

namespace Discovery

variable {listing : Listing} {layout : Layout} {base : String} {place : Path}
variable {directories : List Path} {found : List (Path × String)}

/-- The byte of the underscore between a base name and a folder. -/
def underscore : UInt8 := 95

/-- The bytes of the name of an archive: the base name, an underscore, the folder and
the extension. -/
theorem bytesOf_archiveName (base : String) (layout : Layout) (extension : String)
    (x : Path × String) :
    bytesOf ((bundleOf base layout x).archiveName extension)
      = bytesOf base ++ underscore ::
        (bytesOf x.2 ++ bytesOf ("." ++ Bundle.bareExtension extension)) := by
  have hname : (bundleOf base layout x).archiveName extension
      = base ++ "_" ++ x.2 ++ "." ++ Bundle.bareExtension extension := by
    simp [Bundle.archiveName, bundleOf, Bundle.ofRoot, nestedName, toString, String.append_assoc]
  have hunderscore : bytesOf "_" = [underscore] := by decide
  simp only [hname, Text.bytesOf_append, hunderscore, List.append_assoc,
    List.cons_append, List.nil_append]

/-- The path of an archive has one component that depends on the folder: the one
that the folder is in, between what the base name ends with and what the
extension begins with. -/
theorem exists_components_archivePath (base : String) (layout : Layout) (output : Path)
    (extension : String) :
    ∃ above inside inside' below, ∀ x : Path × String, Path.separator ∉ bytesOf x.2 →
      ((bundleOf base layout x).archivePath output extension).components
        = above ++ .name (inside ++ underscore :: (bytesOf x.2 ++ inside')) :: below := by
  obtain ⟨front, hjoin⟩ := output.exists_join_around (bytesOf base) underscore
  obtain ⟨above, inside, inside', below, hcomponents⟩ := Path.exists_components_around front
    (bytesOf ("." ++ Bundle.bareExtension extension)) (b := underscore) (by decide) (by decide)
  refine ⟨above, inside, inside', below, fun x hx => ?_⟩
  rw [Bundle.archivePath, Path.ofString, bytesOf_archiveName, hjoin, hcomponents _ hx]

/-- Archives with the same path belong to folders with the same name. -/
theorem same_archivePath_iff (base : String) (layout : Layout) (output : Path) (extension : String)
    {x y : Path × String} (hx : Path.separator ∉ bytesOf x.2) (hy : Path.separator ∉ bytesOf y.2) :
    ((bundleOf base layout x).archivePath output extension).same
      ((bundleOf base layout y).archivePath output extension) = true ↔ x.2 = y.2 := by
  obtain ⟨above, inside, inside', below, h⟩ :=
    exists_components_archivePath base layout output extension
  rw [Path.same, beq_iff_eq, h x hx, h y hy]
  -- What stands before the folder and behind it is the same in both paths, so it cancels.
  constructor
  · intro heq
    have hname := (List.cons.inj (List.append_cancel_left heq)).1
    have hrest := (List.cons.inj (List.append_cancel_left (Component.name.inj hname))).2
    exact Text.bytesOf_injective (List.append_cancel_right hrest)
  · intro heq
    rw [heq]

/-- A bundle that was found has the base name and its folder as its name. -/
theorem name_bundleOf (x : Path × String) : (bundleOf base layout x).name = base ++ "_" ++ x.2 := by
  simp [bundleOf, Bundle.ofRoot, nestedName, toString]

/-- Directories that are one step below the same place have different names. -/
theorem differ_of_selects (hselects : Selects listing layout directories found)
    (hlist : listing.subdirectories place = .ok directories) (hchildren : listing.ChildrenAt place) :
    (found.map (bundleOf base layout)).Pairwise Bundle.ArchivesDiffer := by
  have hstep {x : Path × String} (hx : x ∈ found) :
      x.1.components = place.components ++ [.name (bytesOf x.2)] ∧
        Path.separator ∉ bytesOf x.2 := by
    obtain ⟨hmem, -, -, hname⟩ := (hselects.mem_iff x.1 x.2).mp hx
    obtain ⟨step, hstep⟩ := hchildren.child directories hlist x.1 hmem
    -- The last step is the one that the name is read from.
    have hlast : step = .name (bytesOf x.2) := by
      rw [Path.fileName?, hstep, List.getLast?_concat] at hname
      split at hname
      next heq => rw [Option.some.inj heq, Option.some.inj hname]
      · cases hname
    obtain ⟨-, -, -, -, hseparator⟩ :=
      Path.of_mem_bareSteps (Path.name_mem_bareSteps_of_fileName? hname)
    exact ⟨hstep.trans (by rw [hlast]), hseparator⟩
  refine List.pairwise_map.mpr (hselects.ascending.imp_of_mem fun {x y} hx hy hlt => ?_)
  have hfolder : x.2 ≠ y.2 := by
    intro heq
    have hsame : x.1.order y.1 = .eq := by
      rw [Path.order_eq_eq_iff, Path.same, beq_iff_eq, (hstep hx).1, (hstep hy).1, heq]
    rw [hsame] at hlt
    cases hlt
  constructor
  case name =>
    rw [name_bundleOf, name_bundleOf]
    exact fun heq => hfolder (String.append_right_inj _ |>.mp heq)
  case path =>
    intro output extension
    rw [Bool.eq_false_iff, Ne, same_archivePath_iff base layout output extension (hstep hx).2
      (hstep hy).2]
    exact hfolder

/-- The archives of a discovery differ when the directories that were scanned have
different names. -/
theorem differ_of_answers {fallback : Path} {scanned : Option Path} {bundles : List Bundle}
    (hanswers : Answers listing layout base fallback scanned (.ok bundles))
    (hchildren : ∀ place ∈ scanned, listing.ChildrenAt place) :
    bundles.Pairwise Bundle.ArchivesDiffer := by
  -- Without a scan there is one bundle; with one, the bundles are selected, or there is one
  -- again.
  cases scanned with
  | none =>
    cases hanswers.unscanned rfl
    exact List.pairwise_singleton _ _
  | some place =>
    cases hlist : listing.subdirectories place with
    | error reason => cases (hanswers.error_iff _).mpr ⟨place, rfl, reason, hlist, rfl⟩
    | ok directories =>
      obtain ⟨found, hselects, heq⟩ := hanswers.scanned place rfl directories hlist
      cases heq
      split
      · exact List.pairwise_singleton _ _
      · exact differ_of_selects hselects hlist (hchildren place rfl)

/-- No two bundles of one discovery have the same name or write the same archive,
whatever base name and extension consist of. -/
theorem discovered_archives_differ (listing : Listing) (root : Path) (base : String)
    (layout : Layout) (d : Discovery)
    (h : listing.ChildrenAt root ∧ discover listing root base layout = .ok d ∨
      listing.ChildrenAt (root.join (.ofString layout.payload)) ∧
        discoverProject listing root base layout = .ok d) :
    d.bundles.Pairwise Bundle.ArchivesDiffer := by
  cases hroot : listing.isDirectory root with
  | false =>
    -- Nothing is found.
    have hd : d = nothing "Bundle root is not a directory" root ∨
        d = nothing "Project root is not a directory" root := by
      rcases h with ⟨-, h⟩ | ⟨-, h⟩
      · rw [discover, hroot] at h
        exact .inl (Except.ok.inj h).symm
      · rw [discoverProject, hroot] at h
        exact .inr (Except.ok.inj h).symm
    rcases hd with rfl | rfl
    · exact List.Pairwise.nil
    · exact List.Pairwise.nil
  | true =>
    rcases h with ⟨hchildren, h⟩ | ⟨hchildren, h⟩
    · have hanswers := answers_discover base layout hroot hchildren.distinct
      rw [h] at hanswers
      exact differ_of_answers hanswers fun place hplace => by cases hplace; exact hchildren
    · have hanswers := answers_discoverProject base hroot hchildren.distinct
      rw [h] at hanswers
      refine differ_of_answers hanswers fun place hplace => ?_
      unfold scannedOf at hplace
      split at hplace
      · cases hplace
        exact hchildren
      · cases hplace

/-- The two actions of a project get two archives. -/
theorem discovered_archives_differ_actions :
    ∃ d, discoverProject actions (.ofString "p") "demo" {} = .ok d ∧
      d.bundles.map (·.name) = ["demo_a", "demo_b"] ∧
      actions.ChildrenAt (.ofString "p/dist") ∧
      d.bundles.Pairwise Bundle.ArchivesDiffer := by
  -- The directories are listed from a tree, where the names in one place differ.
  have hchildren : actions.ChildrenAt (.ofString "p/dist") :=
    Listing.childrenAt_ofTree actionsTree_wellFormed _
  obtain ⟨d, hnested, hbundles⟩ := nested_eq_ok "demo" {} actions_subdirectories
  rw [actions_selected] at hbundles
  have hd : discoverProject actions (.ofString "p") "demo" {} = .ok d := by
    have hjoin : (Path.ofString "p").join (.ofString "dist") = .ofString "p/dist" := by decide
    have hsome : ¬ d.bundles.isEmpty = true := by simp [hbundles]
    rw [discoverProject, if_pos actions_isDirectory_project]
    dsimp only
    rw [hjoin, if_pos actions_isDirectory_payload, hnested]
    show Except.ok (orSingle _ _ _ d) = _
    rw [orSingle, if_neg hsome]
  refine ⟨d, hd, ?_, hchildren, ?_⟩
  · rw [hbundles]
    decide
  · exact discovered_archives_differ actions (.ofString "p") "demo" {} d (.inr ⟨hchildren, hd⟩)

end Discovery

end Promotion
