import Promotion.Path.Basic

/-!
# `Promotion.Bundle.Basic`: bundles

A bundle is a directory with a descriptor file and a payload directory,
which are packed together into one archive.
-/

set_option autoImplicit false

namespace Promotion

/-- The names that make a directory a bundle root. -/
structure Layout where
  descriptor : String := "package.json"
  payload : String := "dist"
  deriving DecidableEq, Repr

/-- A bundle: where it lies and the name its archive gets. -/
structure Bundle where
  root : Path
  descriptor : Path
  payload : Path
  name : String
  deriving DecidableEq, Repr

namespace Bundle

/-- The bundle at `root` under a layout. -/
def ofRoot (root : Path) (name : String) (layout : Layout) : Bundle where
  root := root
  descriptor := root.join (.ofString layout.descriptor)
  payload := root.join (.ofString layout.payload)
  name := name

/-- The extension that archives have unless another is chosen. -/
def standardExtension : String := "tgz"

/-- An extension without the full stops in front of it. -/
def bareExtension (extension : String) : String :=
  String.ofList (extension.toList.dropWhile (· = '.'))

/-- The file name of the bundle's archive. -/
def archiveName (b : Bundle) (extension : String) : String :=
  s!"{b.name}.{bareExtension extension}"

/-- Where the bundle's archive is written. -/
def archivePath (b : Bundle) (output : Path) (extension : String) : Path :=
  output.join (.ofString (b.archiveName extension))

end Bundle

end Promotion
