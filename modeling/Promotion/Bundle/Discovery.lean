import Promotion.Bundle.Basic
import Promotion.Bundle.Listing
import Promotion.Failure
import Promotion.Log.Event

/-!
# `Promotion.Bundle.Discovery`: finding bundles

A directory qualifies when it directly holds the descriptor as a file and
the payload as a directory. Discovery returns the qualifying directories
one level below a directory, in the order of their paths, and falls back to
a single bundle when there is none.

* `discover`: looks directly below the root.
* `discoverProject`: looks below the payload directory of a project.
-/

set_option autoImplicit false

namespace Promotion

/-- The bundles found, and what there is to tell about the search. -/
structure Discovery where
  bundles : List Bundle
  events : List Event
  deriving DecidableEq, Repr

namespace Discovery

/-- The part of the program that the events come from. -/
def target : String := "promoter::bundle::discovery"

/-- Whether `directory` is a bundle root. -/
def qualifies (listing : Listing) (layout : Layout) (directory : Path) : Bool :=
  listing.isFile (directory.join (.ofString layout.descriptor))
    && listing.isDirectory (directory.join (.ofString layout.payload))

/-- Nothing was searched, for the reason given. -/
def nothing (reason : String) (root : Path) : Discovery :=
  ⟨[], [.debug target reason [("root", root.display)]]⟩

/-- The name of a nested bundle. -/
def nestedName (base folder : String) : String := s!"{base}_{folder}"

/-- Puts a qualifying directory in front of what was found after it. A
directory whose name is no text is passed over. -/
def consDirectory (base : String) (layout : Layout) (directory : Path) (d : Discovery) :
    Discovery :=
  match directory.fileName?.bind Text.stringOf? with
  | none =>
    ⟨d.bundles, .warn target "Skipping bundle directory with a non UTF-8 name"
      [("dir", directory.display)] :: d.events⟩
  | some folder =>
    let name := nestedName base folder
    ⟨.ofRoot directory name layout :: d.bundles,
      .debug target "Discovered bundle" [("bundle", name), ("dir", directory.display)]
        :: d.events⟩

/-- The bundles of the qualifying directories below `root`. -/
def nested (listing : Listing) (root : Path) (base : String) (layout : Layout) :
    Except Failure Discovery :=
  match listing.subdirectories root with
  | .error reason => .error (.discoveryFailed root reason)
  | .ok directories =>
    .ok (((directories.mergeSort fun p q => p.order q != .gt).filter
      (qualifies listing layout)).foldr (consDirectory base layout) ⟨[], []⟩)

/-- The discovery itself if it found a bundle, else the single bundle at
`root`. -/
def orSingle (root : Path) (base : String) (layout : Layout) (d : Discovery) : Discovery :=
  if d.bundles.isEmpty then { d with bundles := [.ofRoot root base layout] } else d

end Discovery

open Discovery in
/-- The bundles directly below `root`, or `root` itself as a single bundle;
none when `root` is no directory. -/
def discover (listing : Listing) (root : Path) (base : String) (layout : Layout) :
    Except Failure Discovery :=
  if listing.isDirectory root then
    (nested listing root base layout).map (orSingle root base layout)
  else .ok (nothing "Bundle root is not a directory" root)

open Discovery in
/-- The bundles of a project: one for each qualifying directory below its
payload directory, or the project itself as a single bundle; none when the
project is no directory. -/
def discoverProject (listing : Listing) (project : Path) (base : String) (layout : Layout) :
    Except Failure Discovery :=
  if listing.isDirectory project then
    let payload := project.join (.ofString layout.payload)
    if listing.isDirectory payload then
      (nested listing payload base layout).map (orSingle project base layout)
    else .ok (orSingle project base layout ⟨[], []⟩)
  else .ok (nothing "Project root is not a directory" project)

end Promotion
