import Promotion.Archive.Gzip
import Promotion.Archive.Tar

/-!
# `Promotion.Archive.Basic`: archives as files

An archive file is a tape archive inside a gzip member.

* `Archive.encode`: the file of records.
* `Archive.decode?`: the records of a file.
-/

set_option autoImplicit false

namespace Promotion.Archive

open Promotion.Text (Bytes)

/-- The archive file of records. -/
def encode (records : List Record) : Bytes := Gzip.encode (Tar.encode records)

/-- The records of an archive file. -/
def decode? (bytes : Bytes) : Option (List Record) := (Gzip.decode? bytes).bind Tar.decode?

end Promotion.Archive
