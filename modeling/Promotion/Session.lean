import Promotion.Failure
import Promotion.FileTree.Edit
import Promotion.Log.Event

/-!
# `Promotion.Session`: what a run of the program acts on

A session holds the file system, the events logged so far and the text
printed so far. An action changes the session and returns a value or fails;
what it did before a failure stays.
-/

set_option autoImplicit false

namespace Promotion

/-- The state that actions work on. -/
structure Session where
  tree : FileTree
  events : List Event := []
  printed : String := ""

/-- A piece of work on a session. -/
abbrev Action := EStateM Failure Session

namespace Action

/-- The file system. -/
def tree : Action FileTree := do return (← get).tree

/-- Puts a file system in place of the present one. -/
def setTree (t : FileTree) : Action Unit := modify fun s => { s with tree := t }

/-- Logs an event. -/
def tell (event : Event) : Action Unit := modify fun s => { s with events := s.events ++ [event] }

/-- Logs events. -/
def tellAll (events : List Event) : Action Unit :=
  modify fun s => { s with events := s.events ++ events }

/-- Prints text. -/
def print (text : String) : Action Unit := modify fun s => { s with printed := s.printed ++ text }

/-- Prints a line. -/
def printLine (text : String) : Action Unit := print (text ++ "\n")

/-- Returns a value that was found, or fails. -/
def ofExcept {α : Type} : Except Failure α → Action α
  | .ok a => return a
  | .error e => throw e

/-- Reads from the file system, or fails for the reason that `cause` makes of
the fault. -/
def reading {α : Type} (read : FileTree → Except Fault α) (cause : String → Failure) :
    Action α := do
  match read (← tree) with
  | .ok a => return a
  | .error fault => throw (cause fault.message)

/-- Changes the file system, or leaves it as it is and fails for the reason
that `cause` makes of the fault. -/
def writing (write : FileTree → Except Fault FileTree) (cause : String → Failure) :
    Action Unit := do
  match write (← tree) with
  | .ok t => setTree t
  | .error fault => throw (cause fault.message)

/-- Makes a directory and those above it, or fails for the reason that `cause`
makes of the fault. -/
def makeDirectories (p : Path) (cause : String → Failure) : Action Unit := do
  let change := (← tree).makeDirectories p
  setTree change.tree
  match change.fault with
  | none => return ()
  | some fault => throw (cause fault.message)

end Action

end Promotion
