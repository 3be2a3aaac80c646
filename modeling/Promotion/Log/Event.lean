/-!
# `Promotion.Log.Event`: what the program tells about its work

Events go to the log. Each has a level, the part of the program it comes
from, a message and named values.
-/

set_option autoImplicit false

namespace Promotion

/-- How much an event matters, from most to least. -/
inductive Level where
  | error
  | warn
  | info
  | debug
  | trace
  deriving DecidableEq, Repr

namespace Level

/-- The name of a level in the log. -/
def name : Level → String
  | error => "ERROR"
  | warn => "WARN"
  | info => "INFO"
  | debug => "DEBUG"
  | trace => "TRACE"

/-- How much is shown when a level is asked for: all events up to it. -/
def rank : Level → Nat
  | error => 1
  | warn => 2
  | info => 3
  | debug => 4
  | trace => 5

end Level

/-- One event of the log. -/
structure Event where
  level : Level
  target : String
  message : String
  fields : List (String × String)
  deriving DecidableEq, Repr

namespace Event

/-- An event of the level `info`. -/
def info (target message : String) (fields : List (String × String)) : Event :=
  ⟨.info, target, message, fields⟩

/-- An event of the level `debug`. -/
def debug (target message : String) (fields : List (String × String)) : Event :=
  ⟨.debug, target, message, fields⟩

/-- An event of the level `warn`. -/
def warn (target message : String) (fields : List (String × String)) : Event :=
  ⟨.warn, target, message, fields⟩

end Event

end Promotion
