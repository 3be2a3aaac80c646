import Promotion.Json.Token
import Promotion.Text.Utf8

/-!
# `Promotion.Json.Place`: places in a JSON text

When the value of a document is refused, the message names the place where
reading had come to: after a string, number or word, or inside a list or
mapping, before its first part or, where it is empty, after its end.
-/

set_option autoImplicit false

namespace Promotion.Json

open Token (isSpace)

/-- The text up to the place where its value is refused. -/
def readPart (s : List Char) : List Char :=
  let inside (opening : Char) (closing : Char) (rest : List Char) : List Char :=
    let gap := rest.takeWhile isSpace
    let stop := if (rest.dropWhile isSpace).head? = some closing then [closing] else []
    s.takeWhile isSpace ++ opening :: (gap ++ stop)
  match s.dropWhile isSpace with
  | '[' :: rest => inside '[' ']' rest
  | '\x7b' :: rest => inside '\x7b' '\x7d' rest
  | _ => (s.reverse.dropWhile isSpace).reverse

/-- The place at the end of a text: its line, counted from one, and the number
of bytes on that line. -/
def displayEnd (s : List Char) : String :=
  let line := 1 + s.count '\n'
  let last := (s.reverse.takeWhile (· ≠ '\n')).reverse
  s!"line {line} column {(Text.Utf8.encode last).length}"

end Promotion.Json
