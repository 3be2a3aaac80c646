import Promotion.Version.Order

/-!
# `Promotion.Package`: named, versioned units of content

A package is known by its name; its version decides which of two packages
of one name is newer. The snapshot flag follows the version's qualifier
unless a manifest states it.
-/

set_option autoImplicit false

namespace Promotion

/-- A package of an environment. -/
structure Package where
  name : String
  version : Version
  snapshot : Bool
  deriving DecidableEq, Repr

namespace Package

/-- A package whose snapshot flag may be stated, else follows the qualifier. -/
def ofEntry (name : String) (version : Version) (snapshot : Option Bool) : Package :=
  ⟨name, version, snapshot.getD version.isSnapshot⟩

/-- The order of the versions; it means something for packages of one name. -/
def compareVersion (p q : Package) : Ordering := compare p.version q.version

/-- Whether two packages agree in name, version number and snapshot flag.
The spelling of the version does not count. -/
def agrees (p q : Package) : Bool :=
  p.name == q.name && p.version.sameNumber q.version && p.snapshot == q.snapshot

/-- The package as it is shown to the user. -/
def display (p : Package) : String := s!"{p.name} ({p.version.text})"

end Package

end Promotion
