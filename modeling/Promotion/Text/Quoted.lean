import Promotion.Text.Unprinted

/-!
# `Promotion.Text.Quoted`: texts inside messages

A text that is quoted in a message stands between quotation marks. The
quotation mark and the backslash get a backslash, and characters that have
no glyph of their own are written by name or by number.
-/

set_option autoImplicit false

namespace Promotion.Text

/-- One character of a quoted text. -/
def quotedChar (c : Char) : List Char :=
  match c with
  | '"' => ['\\', '"']
  | '\\' => ['\\', '\\']
  | '\n' => ['\\', 'n']
  | '\r' => ['\\', 'r']
  | '\t' => ['\\', 't']
  | '\x00' => ['\\', '0']
  | c =>
    if isUnprinted c then ['\\', 'u', '\x7b'] ++ Nat.toDigits 16 c.toNat ++ ['\x7d'] else [c]

/-- A text between quotation marks. -/
def quoted (s : String) : String :=
  String.ofList ('"' :: (s.toList.flatMap quotedChar ++ ['"']))

end Promotion.Text
