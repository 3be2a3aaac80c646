import Promotion.Digest.Stream
import Promotion.Session

/-!
# `Promotion.Digest.Store`: the digest of a file
-/

set_option autoImplicit false

namespace Promotion.Digest

open Promotion.Text (Bytes)

/-- The digest of the file that a path leads to, where `reads` tells in which
pieces a content is read. -/
def Hasher.ofFile (H : Hasher) (reads : Bytes → List Bytes) (path : Path) : Action String := do
  let content ← Action.reading (·.read path) (.fileReadFailed path)
  return H.digestOfReads (reads content)

/-- The digest of the file that a path leads to. -/
def ofFile (path : Path) : Action String := blake3.ofFile fullReads path

end Promotion.Digest
