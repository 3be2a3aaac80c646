import Promotion.Release

/-!
# `Promotion.Shell`: completion for command shells

`Shell.script` is a script that makes a shell complete the commands of the
program.
-/

set_option autoImplicit false

namespace Promotion

/-- The shells that there are scripts for. -/
inductive Shell where
  | bash
  | elvish
  | fish
  | powerShell
  | zsh
  deriving DecidableEq, Repr

namespace Shell

/-- The shell of a name in letters of either case. -/
def ofName? (name : String) : Option Shell :=
  match String.ofList (name.toList.map Char.toLower) with
  | "bash" => some .bash
  | "elvish" => some .elvish
  | "fish" => some .fish
  | "powershell" => some .powerShell
  | "pwsh" => some .powerShell
  | "zsh" => some .zsh
  | _ => none

/-- The commands that are completed. -/
def commands : String := "sync bundle compare completions help"

/-- The script that completes the commands of the program. -/
def script : Shell → String
  | bash => s!"complete -W '{commands}' {Release.name}\n"
  | elvish =>
    "set edit:completion:arg-completer[" ++ Release.name ++ "] = \x7b|@words| put " ++ commands
      ++ " \x7d\n"
  | fish => s!"complete -c {Release.name} -f -a '{commands}'\n"
  | powerShell =>
    "Register-ArgumentCompleter -Native -CommandName " ++ Release.name
      ++ " -ScriptBlock \x7b '" ++ commands ++ "' -split ' ' \x7d\n"
  | zsh => s!"#compdef {Release.name}\n_arguments '1:command:({commands})'\n"

end Shell

end Promotion
