import Mathlib.Data.List.Nodup
import Promotion.Bundle.Discovery
import Promotion.Proofs.Bundle.Assembly
import Promotion.Proofs.FileTree.Basic
import Promotion.Proofs.Path.Components
import Promotion.Proofs.Path.Order
import Promotion.Proofs.Text.Utf8

/-!
# `Promotion.Proofs.Bundle.Discovery`: discovery finds what qualifies

Discovery asks a listing for subdirectories, which come in any order. The
specification says nothing about sorting or skipping: `Selects` tells which
directories are selected and that they ascend, and `Answers` what a search makes
of a selection. `Selects.unique` shows that this leaves no choice.

* `bundles_foldr`: the walk over the directories is a filter.
* `selects_selected`: that filter selects what it should.
* `answers_nested`: a scan answers by what it selects.
* `discovery_finds_qualifying`: both ways of searching, for every listing.

The listing has to name no directory twice (`Listing.DistinctAt`), the same path
in another spelling included. That of a file system does so
(`Listing.childrenAt_ofTree`).
-/

set_option autoImplicit false

namespace Promotion

namespace Listing

/-- No directory below `place` is listed twice, whatever its spelling. -/
def DistinctAt (listing : Listing) (place : Path) : Prop :=
  ∀ directories, listing.subdirectories place = .ok directories →
    directories.Pairwise fun p q => p.same q = false

/-- What is listed below `place` is one step further down, and listed once. -/
structure ChildrenAt (listing : Listing) (place : Path) : Prop where
  distinct : listing.DistinctAt place
  child : ∀ directories, listing.subdirectories place = .ok directories →
    ∀ directory ∈ directories, ∃ step, directory.components = place.components ++ [step]

/-- The same answer, with the directories in another order perhaps. -/
inductive Rearranged : Except String (List Path) → Except String (List Path) → Prop
  | error (reason : String) : Rearranged (.error reason) (.error reason)
  | ok {directories others : List Path} (h : directories.Perm others) :
    Rearranged (.ok directories) (.ok others)

/-- A file system lists the entries of a directory by their names. -/
theorem childrenAt_ofTree {t : FileTree} (ht : t.WellFormed) (place : Path) :
    (ofTree t).ChildrenAt place := by
  have hlist (directories : List Path) (h : (ofTree t).subdirectories place = .ok directories) :
      ∃ dir, directories = ((t.childNames dir).map place.child).filter t.isDirectory := by
    simp only [ofTree, FileTree.subdirectories] at h
    split at h
    next dir _ => exact ⟨dir, (Except.ok.inj h).symm⟩
    all_goals cases h
  have hproper {dir : Location} {name : Name} (h : name ∈ t.childNames dir) : ProperName name := by
    obtain ⟨entry, hentry⟩ := FileTree.mem_childNames_iff.mp h
    exact ht.proper dir name entry hentry
  constructor
  -- The names in one directory are in strict order, and a path differs where its last name does.
  case distinct =>
    intro directories h
    obtain ⟨dir, rfl⟩ := hlist directories h
    refine List.Pairwise.filter _ (List.pairwise_map.mpr ?_)
    refine (t.pairwise_childNames dir).imp_of_mem fun {name other} hname hother hlt => ?_
    rw [Bool.eq_false_iff, Ne, Path.same_child_iff (hproper hname).plain (hproper hother).plain]
    rintro rfl
    simp at hlt
  case child =>
    intro directories h directory hdirectory
    obtain ⟨dir, rfl⟩ := hlist directories h
    obtain ⟨name, hname, rfl⟩ := List.mem_map.mp (List.mem_filter.mp hdirectory).1
    exact ⟨.name name, Path.components_child (hproper hname).plain⟩

end Listing

namespace Discovery

open Promotion.Bundle (locationOf)

variable {listing : Listing} {layout : Layout} {base : String}
variable {directories : List Path} {found others : List (Path × String)}

/-! ### What is to be found -/

/-- The selection from `directories`: those that hold the descriptor as a file
and the payload as a directory and whose names are texts, in the order of their
paths, with these names. -/
structure Selects (listing : Listing) (layout : Layout) (directories : List Path)
    (found : List (Path × String)) : Prop where
  ascending : found.Pairwise fun x y => x.1.order y.1 = .lt
  mem_iff : ∀ directory folder, (directory, folder) ∈ found ↔ directory ∈ directories ∧
    listing.isFile (directory.join (.ofString layout.descriptor)) = true ∧
    listing.isDirectory (directory.join (.ofString layout.payload)) = true ∧
    directory.fileName? = some (Text.bytesOf folder)

/-- The bundle of a selected directory. -/
def bundleOf (base : String) (layout : Layout) (x : Path × String) : Bundle :=
  .ofRoot x.1 (nestedName base x.2) layout

/-- What a search comes to that looks below `scanned`, if anywhere, and takes
`fallback` as the only bundle where it finds none. -/
structure Answers (listing : Listing) (layout : Layout) (base : String) (fallback : Path)
    (scanned : Option Path) (outcome : Except Failure (List Bundle)) : Prop where
  error_iff : ∀ failure, outcome = .error failure ↔ ∃ place ∈ scanned, ∃ reason,
    listing.subdirectories place = .error reason ∧ failure = .discoveryFailed place reason
  unscanned : scanned = none → outcome = .ok [.ofRoot fallback base layout]
  scanned : ∀ place ∈ scanned, ∀ directories, listing.subdirectories place = .ok directories →
    ∃ found, Selects listing layout directories found ∧
      outcome = .ok (if found = [] then [.ofRoot fallback base layout]
        else found.map (bundleOf base layout))

/-- A row in strictly ascending order is told by its members. -/
theorem Selects.unique (h : Selects listing layout directories found)
    (h' : Selects listing layout directories others) : found = others := by
  have hperm : found.Perm others := by
    refine (List.perm_ext_iff_of_nodup (Path.nodup_of_ascending _ h.ascending)
      (Path.nodup_of_ascending _ h'.ascending)).mpr ?_
    rintro ⟨directory, folder⟩
    rw [h.mem_iff, h'.mem_iff]
  exact Path.eq_of_perm_of_ascending _ hperm h.ascending h'.ascending

/-! ### What is found -/

/-- A directory with its name, when that is a text. -/
def named? (directory : Path) : Option (Path × String) :=
  (directory.fileName?.bind Text.stringOf?).map fun folder => (directory, folder)

/-- The directories that make bundles, with their names. -/
def selected (listing : Listing) (layout : Layout) (directories : List Path) :
    List (Path × String) :=
  ((Path.sorted directories).filter (qualifies listing layout)).filterMap named?

/-- A directory is named by its last component, when this is a text. -/
theorem named?_eq_some_iff {directory p : Path} {folder : String} :
    named? directory = some (p, folder) ↔
      directory = p ∧ directory.fileName? = some (Text.bytesOf folder) := by
  unfold named?
  cases hname : directory.fileName? with
  | none => simp
  | some name =>
    rw [Option.bind_some, Option.map_eq_some_iff]
    constructor
    · rintro ⟨folder, hfolder, heq⟩
      cases heq
      exact ⟨rfl, congrArg some (Text.stringOf?_eq_some_iff.mp hfolder)⟩
    · rintro ⟨rfl, hfolder⟩
      exact ⟨folder, Text.stringOf?_eq_some_iff.mpr (Option.some.inj hfolder), rfl⟩

/-- The walk over the directories makes a bundle of each one that has a name. -/
theorem bundles_foldr (base : String) (layout : Layout) (directories : List Path) :
    (directories.foldr (consDirectory base layout) ⟨[], []⟩).bundles
      = (directories.filterMap named?).map (bundleOf base layout) := by
  -- By induction on the directories: one without a name that is a text is passed over.
  induction directories with
  | nil => rfl
  | cons directory directories ih =>
    rw [List.foldr_cons, consDirectory]
    cases hname : directory.fileName?.bind Text.stringOf? with
    | none =>
      have hnamed : named? directory = none := by rw [named?, hname]; rfl
      rw [List.filterMap_cons_none hnamed]
      exact ih
    | some folder =>
      have hnamed : named? directory = some (directory, folder) := by rw [named?, hname]; rfl
      rw [List.filterMap_cons_some hnamed, List.map_cons, ← ih]
      rfl

/-- The directories that are selected are the right ones, in ascending order. -/
theorem selects_selected (h : directories.Pairwise fun p q => p.same q = false) :
    Selects listing layout directories (selected listing layout directories) := by
  constructor
  -- The paths are sorted before they are filtered, and naming them keeps the order.
  case ascending =>
    refine ((Path.ascending_sorted h).filter _).filterMap named? ?_
    rintro p q hlt ⟨p', folder⟩ hp ⟨q', folder'⟩ hq
    obtain ⟨rfl, -⟩ := named?_eq_some_iff.mp hp
    obtain ⟨rfl, -⟩ := named?_eq_some_iff.mp hq
    exact hlt
  case mem_iff =>
    intro directory folder
    rw [selected, List.mem_filterMap]
    simp only [named?_eq_some_iff, List.mem_filter, (Path.perm_sorted directories).mem_iff,
      qualifies, Bool.and_eq_true]
    constructor
    · rintro ⟨_, ⟨hmem, hfile, hdirectory⟩, rfl, hname⟩
      exact ⟨hmem, hfile, hdirectory, hname⟩
    · rintro ⟨hmem, hfile, hdirectory, hname⟩
      exact ⟨directory, ⟨hmem, hfile, hdirectory⟩, rfl, hname⟩

/-! ### What a search answers -/

/-- A place that cannot be listed is an error. -/
theorem nested_eq_error {place : Path} {reason : String}
    (h : listing.subdirectories place = .error reason) :
    nested listing place base layout = .error (.discoveryFailed place reason) := by
  rw [nested, h]

/-- A place that can be listed has the bundles of the directories that are selected. -/
theorem nested_eq_ok (base : String) (layout : Layout) {place : Path}
    (h : listing.subdirectories place = .ok directories) :
    ∃ d, nested listing place base layout = .ok d ∧
      d.bundles = (selected listing layout directories).map (bundleOf base layout) := by
  refine ⟨_, by rw [nested, h], ?_⟩
  rw [bundles_foldr, selected, Path.sorted]

/-- The fallback stands in where nothing was found. -/
theorem bundles_orSingle {d : Discovery} {fallback : Path}
    (h : d.bundles = found.map (bundleOf base layout)) :
    (orSingle fallback base layout d).bundles
      = if found = [] then [.ofRoot fallback base layout] else found.map (bundleOf base layout) := by
  by_cases hfound : found = []
  · have hnone : d.bundles.isEmpty = true := by simp [h, hfound]
    rw [orSingle, if_pos hnone, if_pos hfound]
  · have hsome : ¬ d.bundles.isEmpty = true := by simp [h, hfound]
    rw [orSingle, if_neg hsome, if_neg hfound, h]

/-- The search in one place answers as it should. -/
theorem answers_nested (fallback : Path) {place : Path} (hdistinct : listing.DistinctAt place) :
    Answers listing layout base fallback (some place)
      (((nested listing place base layout).map (orSingle fallback base layout)).map (·.bundles)) := by
  -- The place is listed, or it is not and that is the error.
  cases hlist : listing.subdirectories place with
  | error reason =>
    rw [nested_eq_error hlist]
    constructor
    case error_iff =>
      intro failure
      constructor
      · intro h
        cases h
        exact ⟨place, rfl, reason, hlist, rfl⟩
      · rintro ⟨_, ⟨⟩, reason', hlist', rfl⟩
        rw [hlist] at hlist'
        cases hlist'
        rfl
    case unscanned => rintro ⟨⟩
    case scanned =>
      rintro _ ⟨⟩ directories hlist'
      rw [hlist] at hlist'
      cases hlist'
  | ok directories =>
    obtain ⟨d, hd, hbundles⟩ := nested_eq_ok base layout hlist
    rw [hd]
    constructor
    case error_iff =>
      intro failure
      constructor
      · rintro ⟨⟩
      · rintro ⟨_, ⟨⟩, reason, hlist', -⟩
        rw [hlist] at hlist'
        cases hlist'
    case unscanned => rintro ⟨⟩
    case scanned =>
      rintro _ ⟨⟩ directories' hlist'
      rw [hlist] at hlist'
      cases hlist'
      exact ⟨_, selects_selected (hdistinct directories hlist),
        congrArg Except.ok (bundles_orSingle hbundles)⟩

/-- A search that was not made answers with the fallback. -/
theorem answers_unscanned (fallback : Path) :
    Answers listing layout base fallback none
      (.ok (orSingle fallback base layout ⟨[], []⟩).bundles) where
  error_iff failure := by simp
  unscanned _ := rfl
  scanned place hplace := by cases hplace

/-- A search does not find nothing: the fallback is there at least. -/
theorem bundles_orSingle_ne_nil (fallback : Path) (d : Discovery) :
    (orSingle fallback base layout d).bundles ≠ [] := by
  unfold orSingle
  split
  next => simp
  next h => simpa using h

/-- With a bundle to fall back on, a search never finds none. -/
theorem map_orSingle_ne_nil (fallback : Path) (outcome : Except Failure Discovery) :
    (outcome.map (orSingle fallback base layout)).map (·.bundles) ≠ .ok [] := by
  cases outcome with
  | error failure => rintro ⟨⟩
  | ok d =>
    intro h
    exact bundles_orSingle_ne_nil fallback d (Except.ok.inj h)

/-- A scan comes to the same in whatever order the directories are listed. -/
theorem nested_eq_of_rearranged {other : Listing} {place : Path}
    (hfile : other.isFile = listing.isFile) (hdirectory : other.isDirectory = listing.isDirectory)
    (hlist : Listing.Rearranged (listing.subdirectories place) (other.subdirectories place))
    (hdistinct : listing.DistinctAt place) :
    nested other place base layout = nested listing place base layout := by
  -- Whether a directory qualifies does not depend on the order of the list.
  have hqualifies : qualifies other layout = qualifies listing layout := by
    funext directory
    rw [qualifies, qualifies, hfile, hdirectory]
  unfold nested
  cases hthis : listing.subdirectories place with
  | error reason =>
    rw [hthis] at hlist
    generalize other.subdirectories place = answer at hlist
    cases hlist
    rfl
  | ok directories =>
    rw [hthis] at hlist
    generalize other.subdirectories place = answer at hlist
    cases hlist with
    | ok hperm =>
      -- The sorted list does not depend on the order either, as the paths differ.
      have hsorted := Path.sorted_eq_of_perm hperm (hdistinct directories hthis)
      rw [Path.sorted, Path.sorted] at hsorted
      dsimp only
      rw [hqualifies, hsorted]

/-- Where a scan finds something, it does not matter what the fallback is. -/
theorem map_orSingle_congr {place : Path} (fallback fallback' : Path)
    (hlist : listing.subdirectories place = .ok directories)
    (hfound : selected listing layout directories ≠ []) :
    (nested listing place base layout).map (orSingle fallback base layout)
      = (nested listing place base layout).map (orSingle fallback' base layout) := by
  obtain ⟨d, hd, hbundles⟩ := nested_eq_ok base layout hlist
  -- Something was found, so neither search falls back.
  have hsome : ¬ d.bundles.isEmpty = true := by simp [hbundles, hfound]
  have hsame (fallback : Path) : orSingle fallback base layout d = d := by
    rw [orSingle, if_neg hsome]
  rw [hd]
  show Except.ok _ = Except.ok _
  rw [hsame, hsame]

/-! ### Both ways of searching -/

/-- The search below a root answers as it should. -/
theorem answers_discover (base : String) (layout : Layout) {root : Path}
    (hroot : listing.isDirectory root = true) (hdistinct : listing.DistinctAt root) :
    Answers listing layout base root (some root)
      ((discover listing root base layout).map (·.bundles)) := by
  rw [discover, if_pos hroot]
  exact answers_nested root hdistinct

/-- Where the search of a project looks. -/
def scannedOf (listing : Listing) (layout : Layout) (project : Path) : Option Path :=
  if listing.isDirectory (project.join (.ofString layout.payload)) = true
    then some (project.join (.ofString layout.payload)) else none

/-- The search of a project answers as it should. -/
theorem answers_discoverProject (base : String) {project : Path}
    (hproject : listing.isDirectory project = true)
    (hdistinct : listing.DistinctAt (project.join (.ofString layout.payload))) :
    Answers listing layout base project (scannedOf listing layout project)
      ((discoverProject listing project base layout).map (·.bundles)) := by
  rw [discoverProject, if_pos hproject, scannedOf]
  dsimp only
  split
  · exact answers_nested project hdistinct
  · exact answers_unscanned project

/-- Discovery returns the directories that qualify, whatever the listing answers
and in whatever order.

* `discover` finds nothing exactly where the root is no directory, and else
  answers by a scan of the root, with the root as the fallback.
* `discoverProject` finds nothing exactly where the project is no directory, and
  else answers by a scan of its payload directory, if that is one, with the
  project as the fallback.
* What `discoverProject` finds below the payload directory is what `discover`
  finds there, when something qualifies.
* Another order of the directories changes nothing. -/
theorem discovery_finds_qualifying (listing : Listing) (root : Path) (base : String)
    (layout : Layout) (hdistinct : ∀ place, listing.DistinctAt place) :
    ((discover listing root base layout).map (·.bundles) = .ok []
      ↔ listing.isDirectory root = false) ∧
    (listing.isDirectory root = true → Answers listing layout base root (some root)
      ((discover listing root base layout).map (·.bundles))) ∧
    ((discoverProject listing root base layout).map (·.bundles) = .ok []
      ↔ listing.isDirectory root = false) ∧
    (listing.isDirectory root = true →
      Answers listing layout base root (scannedOf listing layout root)
        ((discoverProject listing root base layout).map (·.bundles))) ∧
    (listing.isDirectory root = true →
      listing.isDirectory (root.join (.ofString layout.payload)) = true →
      ∀ directories found,
        listing.subdirectories (root.join (.ofString layout.payload)) = .ok directories →
        Selects listing layout directories found → found ≠ [] →
        discoverProject listing root base layout
          = discover listing (root.join (.ofString layout.payload)) base layout) ∧
    (∀ other : Listing, other.isFile = listing.isFile → other.isDirectory = listing.isDirectory →
      (∀ place,
        Listing.Rearranged (listing.subdirectories place) (other.subdirectories place)) →
      discover other root base layout = discover listing root base layout ∧
      discoverProject other root base layout = discoverProject listing root base layout) := by
  refine ⟨?nothing, ?answers, ?projectNothing, ?projectAnswers, ?nested, ?rearranged⟩
  -- Nothing at all is found only without a root; otherwise there is a bundle to fall back on.
  case nothing =>
    cases hroot : listing.isDirectory root with
    | true =>
      rw [discover, if_pos hroot]
      exact iff_of_false (map_orSingle_ne_nil root _) Bool.noConfusion
    | false =>
      rw [discover, hroot]
      simp [Except.map, nothing]
  case answers => exact fun hroot => answers_discover base layout hroot (hdistinct root)
  case projectNothing =>
    cases hroot : listing.isDirectory root with
    | true =>
      rw [discoverProject, if_pos hroot]
      dsimp only
      split
      · exact iff_of_false (map_orSingle_ne_nil root _) Bool.noConfusion
      · exact iff_of_false (map_orSingle_ne_nil root (.ok ⟨[], []⟩)) Bool.noConfusion
    | false =>
      rw [discoverProject, hroot]
      simp [Except.map, nothing]
  case projectAnswers => exact fun hroot => answers_discoverProject base hroot (hdistinct _)
  case nested =>
    intro hroot hpayload directories found hlist hselects hfound
    rw [discoverProject, if_pos hroot, discover, if_pos hpayload, if_pos hpayload]
    refine map_orSingle_congr _ _ hlist ?_
    rwa [← hselects.unique (selects_selected (hdistinct _ directories hlist))]
  case rearranged =>
    intro other hfile hdirectory hlist
    have hnested (place : Path) : nested other place base layout = nested listing place base layout :=
      nested_eq_of_rearranged hfile hdirectory (hlist place) (hdistinct place)
    constructor
    · rw [discover, discover, hdirectory, hnested]
    · rw [discoverProject, discoverProject, hdirectory]
      dsimp only
      rw [hnested]

/-- A project with two actions below its payload directory, and a directory that
is none. -/
def actionsTree : FileTree where
  current := []
  entries := [
    (locationOf ["p"], .directory),
    (locationOf ["p", "dist"], .directory),
    (locationOf ["p", "dist", "b"], .directory),
    (locationOf ["p", "dist", "b", "dist"], .directory),
    (locationOf ["p", "dist", "b", "package.json"], .file [] false),
    (locationOf ["p", "dist", "a"], .directory),
    (locationOf ["p", "dist", "a", "dist"], .directory),
    (locationOf ["p", "dist", "a", "package.json"], .file [] false),
    (locationOf ["p", "dist", "lib"], .directory)]

/-- The listing of the example. -/
def actions : Listing := .ofTree actionsTree

/-- The files of the example make up a tree. -/
theorem actionsTree_wellFormed : actionsTree.WellFormed :=
  FileTree.wellFormed_of_entries rfl (by decide)

/-- The payload of the example has three directories. -/
theorem actions_subdirectories : actions.subdirectories (.ofString "p/dist")
    = .ok [.ofString "p/dist/a", .ofString "p/dist/b", .ofString "p/dist/lib"] := by
  cbv

/-- The two directories with a descriptor and a payload are selected. -/
theorem actions_selected : selected actions {}
    [.ofString "p/dist/a", .ofString "p/dist/b", .ofString "p/dist/lib"]
      = [(.ofString "p/dist/a", "a"), (.ofString "p/dist/b", "b")] := by
  have hkept : (Path.sorted
      [.ofString "p/dist/a", .ofString "p/dist/b", .ofString "p/dist/lib"]).filter
      (qualifies actions {}) = [.ofString "p/dist/a", .ofString "p/dist/b"] := by
    cbv
  have ha : named? (.ofString "p/dist/a") = some (.ofString "p/dist/a", "a") :=
    named?_eq_some_iff.mpr ⟨rfl, by decide⟩
  have hb : named? (.ofString "p/dist/b") = some (.ofString "p/dist/b", "b") :=
    named?_eq_some_iff.mpr ⟨rfl, by decide⟩
  rw [selected, hkept, List.filterMap_cons_some ha, List.filterMap_cons_some hb, List.filterMap_nil]

/-- The project of the example is a directory. -/
theorem actions_isDirectory_project : actions.isDirectory (.ofString "p") = true := by
  cbv

/-- The payload of the example is a directory. -/
theorem actions_isDirectory_payload : actions.isDirectory (.ofString "p/dist") = true := by
  cbv

/-- The two actions are found from the project as from its payload directory. -/
theorem discovery_finds_qualifying_actions :
    (∀ place, actions.DistinctAt place) ∧
    actions.isDirectory (.ofString "p") = true ∧
    discoverProject actions (.ofString "p") "demo" {}
      = discover actions (.ofString "p/dist") "demo" {} ∧
    (discover actions (.ofString "p/dist") "demo" {}).map (·.bundles) ≠ .ok [] := by
  -- The names in each place of a tree differ, as the theorem asks.
  have hdistinct (place : Path) : actions.DistinctAt place :=
    (Listing.childrenAt_ofTree actionsTree_wellFormed place).distinct
  have hselects : Selects actions {} _ _ := selects_selected (hdistinct _ _ actions_subdirectories)
  rw [actions_selected] at hselects
  have hfound := discovery_finds_qualifying actions (.ofString "p") "demo" {} hdistinct
  have hpart := (discovery_finds_qualifying actions (.ofString "p/dist") "demo" {} hdistinct).1
  refine ⟨hdistinct, actions_isDirectory_project, ?_, ?_⟩
  · exact hfound.2.2.2.2.1 actions_isDirectory_project actions_isDirectory_payload _ _
      actions_subdirectories hselects (by simp)
  · rw [Ne, hpart, actions_isDirectory_payload]
    exact Bool.noConfusion

end Discovery

end Promotion
