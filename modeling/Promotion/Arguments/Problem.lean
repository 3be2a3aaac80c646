/-!
# `Promotion.Arguments.Problem`: arguments that name no command

Some arguments ask for information instead of a command; the others are
mistakes. `Problem.exitCode` tells the two apart.
-/

set_option autoImplicit false

namespace Promotion.Arguments

/-- Why arguments name no command. -/
inductive Problem where
  /-- The user asked how the program is used. -/
  | helpAsked
  /-- The user asked which version this is. -/
  | versionAsked
  /-- Nothing was given. -/
  | nothingGiven
  | commandMissing
  | unknownCommand (word : String)
  | unknownArgument (word : String)
  /-- An option that can be given once was given again. -/
  | givenTwice (option : String)
  /-- A flag was given a value. -/
  | valueNotTaken (option : String)
  /-- A value is missing or cannot be used. -/
  | unusableValue (option value : String)
  | argumentMissing (name : String)
  deriving DecidableEq, Repr

namespace Problem

/-- The exit code of a run that ends with a problem: zero when information was
asked for. -/
def exitCode : Problem → Nat
  | helpAsked => 0
  | versionAsked => 0
  | _ => 2

/-- What the user is told about a mistake. -/
def message : Problem → String
  | helpAsked => "help was asked for"
  | versionAsked => "the version was asked for"
  | nothingGiven => "no arguments were given"
  | commandMissing => "a command is missing"
  | unknownCommand word => s!"unknown command '{word}'"
  | unknownArgument word => s!"unknown argument '{word}'"
  | givenTwice option => s!"'--{option}' was given more than once"
  | valueNotTaken option => s!"'--{option}' takes no value"
  | unusableValue option value => s!"'{value}' is no value for '--{option}'"
  | argumentMissing name => s!"the argument '{name}' is missing"

end Problem

end Promotion.Arguments
