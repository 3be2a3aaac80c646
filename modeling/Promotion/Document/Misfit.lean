import Promotion.Version.Basic

/-!
# `Promotion.Document.Misfit`: how a value differs from what is asked for

The causes for which a well-formed document is refused, and the sentence
for each.
-/

set_option autoImplicit false

namespace Promotion

/-- Why a value is not what is asked for. Values are given as they are
described to the user. -/
inductive Misfit where
  | wrongType (found expected : String)
  | wrongValue (found expected : String)
  | wrongLength (length : Nat) (expected : String)
  | missingField (name : String)
  | duplicateField (name : String)
  | unknownField (name : String) (known : List String)
  | unknownVariant (name : String) (known : List String)
  | badVersion (reason : VersionError)
  | negativeVersion (n : Int)
  | numberVersion (text : String)
  deriving DecidableEq, Repr

namespace Misfit

/-- A name in backquotes. -/
def name (s : String) : String := s!"`{s}`"

/-- What might have stood instead of an unknown name. -/
def choice : List String → String
  | [] => "there are no fields"
  | [a] => s!"expected {name a}"
  | [a, b] => s!"expected {name a} or {name b}"
  | names => "expected one of " ++ ", ".intercalate (names.map name)

/-- The sentence shown to the user. -/
def message : Misfit → String
  | wrongType found expected => s!"invalid type: {found}, expected {expected}"
  | wrongValue found expected => s!"invalid value: {found}, expected {expected}"
  | wrongLength length expected => s!"invalid length {length}, expected {expected}"
  | missingField field => s!"missing field {name field}"
  | duplicateField field => s!"duplicate field {name field}"
  | unknownField field known => s!"unknown field {name field}, {choice known}"
  | unknownVariant variant known => s!"unknown variant {name variant}, {choice known}"
  | badVersion reason => reason.message
  | negativeVersion n => s!"version '{n}' is negative"
  | numberVersion text => s!"version {text} was read as a number; quote it, e.g. \"{text}\""

end Misfit

end Promotion
