import Promotion.Document.Value
import Promotion.Strategy

/-!
# `Promotion.Arguments.Grammar`: the options and commands there are

A scope of the command line, the program itself or one of its commands, has
options, and takes words: the names of the commands, or positional
arguments. The options of the whole program are known at every scope.
-/

set_option autoImplicit false

namespace Promotion.Arguments

/-- What a value of an option must be. -/
inductive ValueKind where
  | text
  /-- A path must not be empty. -/
  | path
  | strategy
  | format
  deriving DecidableEq, Repr

/-- What an option does. -/
inductive OptionKind where
  | flag
  | value (kind : ValueKind)
  | help
  | version
  deriving DecidableEq, Repr

/-- An option with its long name and, if it has one, its letter. -/
structure OptionSpec where
  name : String
  letter : Option Char
  kind : OptionKind
  deriving DecidableEq, Repr

/-- A scope of the command line. -/
structure Scope where
  options : List OptionSpec
  /-- How many positional arguments are taken. -/
  places : Nat
  /-- The commands that can be named. -/
  commands : List String
  deriving DecidableEq, Repr

namespace ValueKind

/-- Whether a word can be a value. -/
def accepts (kind : ValueKind) (word : String) : Bool :=
  match kind with
  | text => true
  | path => !word.isEmpty
  | strategy => (Strategy.ofName? word).isSome
  | format => (Format.ofName? word).isSome

end ValueKind

namespace OptionSpec

/-- An option that takes a value. -/
def taking (kind : ValueKind) (name : String) (letter : Option Char) : OptionSpec :=
  ⟨name, letter, .value kind⟩

/-- An option that is only given or not. -/
def switch (name : String) (letter : Option Char) : OptionSpec := ⟨name, letter, .flag⟩

/-- The options that are known at every scope. -/
def everywhere : List OptionSpec :=
  [taking .path "workspace" (some 'w'), switch "verbose" (some 'v'), ⟨"help", some 'h', .help⟩]

end OptionSpec

namespace Scope

open OptionSpec

/-- The name of the command that explains the others. -/
def helpName : String := "help"

/-- The program itself. -/
def program : Scope where
  options := ⟨"version", some 'V', .version⟩ :: everywhere
  places := 0
  commands := ["sync", "bundle", "compare", "version", "completions", helpName]

/-- The command `sync`. -/
def sync : Scope where
  options := taking .path "source" (some 's') :: taking .path "destination" (some 'd')
    :: taking .strategy "strategy" none :: taking .path "output" (some 'o')
    :: taking .format "format" none :: everywhere
  places := 0
  commands := []

/-- The command `bundle`. -/
def bundle : Scope where
  options := taking .text "name" (some 'n') :: taking .path "root" (some 'r')
    :: taking .path "output" (some 'o') :: taking .text "descriptor" none
    :: taking .text "payload" none :: taking .text "extension" none
    :: switch "direct" none :: switch "dry-run" none :: everywhere
  places := 0
  commands := []

/-- A command that takes some positional arguments and no options of its own. -/
def positional (places : Nat) : Scope := ⟨everywhere, places, []⟩

/-- The option with a long name. -/
def named? (scope : Scope) (name : String) : Option OptionSpec :=
  scope.options.find? fun o => o.name = name

/-- The option with a letter. -/
def lettered? (scope : Scope) (letter : Char) : Option OptionSpec :=
  scope.options.find? fun o => o.letter = some letter

end Scope

end Promotion.Arguments
