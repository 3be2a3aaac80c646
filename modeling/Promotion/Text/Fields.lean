/-!
# `Promotion.Text.Fields`: splitting a text at a character

`fieldsOf sep` cuts a text at every `sep`; there is always one field more
than there are separators. `cut sep` divides a text at its first `sep`.
-/

set_option autoImplicit false

namespace Promotion.Text

/-- The fields between the occurrences of `sep`, from left to right. -/
def fieldsOf (sep : Char) : List Char → List (List Char)
  | [] => [[]]
  | c :: rest =>
    if c = sep then [] :: fieldsOf sep rest
    else match fieldsOf sep rest with
      | [] => [[c]]
      | field :: fields => (c :: field) :: fields

/-- The text before and after the first `sep`, when there is one. -/
def cut (sep : Char) : List Char → Option (List Char × List Char)
  | [] => none
  | c :: rest =>
    if c = sep then some ([], rest)
    else (cut sep rest).map fun (before, after) => (c :: before, after)

end Promotion.Text
