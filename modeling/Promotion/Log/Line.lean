import Promotion.Log.Event

/-!
# `Promotion.Log.Line`: events as lines of the log
-/

set_option autoImplicit false

namespace Promotion.Event

/-- A control character that could drive a terminal, in visible form. -/
def visible (c : Char) : List Char :=
  if c = '\x1b' then ['\\', 'x', '1', 'b']
  else if c = '\x07' then ['\\', 'x', '0', '7']
  else if c = '\x08' then ['\\', 'x', '0', '8']
  else if c = '\x0c' then ['\\', 'x', '0', 'c']
  else if c = '\x7f' then ['\\', 'x', '7', 'f']
  else if 0x80 ≤ c.toNat && c.toNat ≤ 0x9f then
    ['\\', 'u', '\x7b'] ++ Nat.toDigits 16 c.toNat ++ ['\x7d']
  else [c]

/-- A field of an event. -/
def fieldText (field : String × String) : String := s!" {field.1}={field.2}"

/-- The level of an event, in the last columns of five. -/
def levelText (e : Event) : String :=
  "".pushn ' ' (5 - e.level.name.length) ++ e.level.name

/-- The line of an event. -/
def line (e : Event) : String :=
  s!"{e.levelText} {String.ofList (e.message.toList.flatMap visible)}"
    ++ String.join (e.fields.map fieldText) ++ "\n"

end Promotion.Event
