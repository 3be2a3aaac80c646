import Promotion.Text.Blank
import Promotion.Text.Fields

/-!
# `Promotion.Version.Basic`: version numbers

A version is a row of dot-separated numbers with an optional qualifier
after the first hyphen: `1.2.0`, `7.3.1.1234`, `1.2.0-SNAPSHOT`. The text
is kept as it was written; only the numbers take part in the order
(`Promotion.Version.Order`).

* `Version.parse`: reads a text, white space at its ends apart, and says
  what is wrong with one that is no version.
* `Version.ofNat`: the version that a bare number denotes.
* `Version.isSnapshot`: whether the qualifier marks an unfinished build.
-/

set_option autoImplicit false

namespace Promotion

/-- Why a text is no version. The trimmed text is kept for the message. -/
inductive VersionError where
  | empty
  | emptySegment (text : String)
  | nonNumericSegment (text segment : String)
  | segmentOverflow (text segment : String)
  | emptyQualifier (text : String)
  deriving DecidableEq, Repr

/-- The sentence that tells the user what is wrong. -/
def VersionError.message : VersionError → String
  | .empty => "version string is empty"
  | .emptySegment text => s!"version '{text}' has an empty segment"
  | .nonNumericSegment text segment =>
    s!"version '{text}' has a non-numeric segment '{segment}'"
  | .segmentOverflow text segment =>
    s!"version '{text}' has a segment that is too large: '{segment}'"
  | .emptyQualifier text => s!"version '{text}' ends with an empty qualifier"

/-- A version: its numbers, the qualifier if there is one, and the text. -/
structure Version where
  segments : List Nat
  qualifier : Option String
  text : String
  deriving DecidableEq, Repr

namespace Version

/-- Segments are below this bound. -/
def segmentLimit : Nat := Nat.pow 2 64

/-- The qualifier, or the tail of one, that marks an unfinished build. -/
def snapshotMark : String := "SNAPSHOT"

/-- The value of a row of decimal digits. -/
def digitsValue (digits : List Char) : Nat :=
  digits.foldl (fun n c => 10 * n + (c.toNat - '0'.toNat)) 0

/-- Reads one segment of the version `text`. -/
def parseSegment (text : String) (segment : List Char) : Except VersionError Nat :=
  if segment.isEmpty then .error (.emptySegment text)
  else if !segment.all Char.isDigit then
    .error (.nonNumericSegment text (String.ofList segment))
  else if segmentLimit ≤ digitsValue segment then
    .error (.segmentOverflow text (String.ofList segment))
  else .ok (digitsValue segment)

/-- Reads the segments from left to right; the leftmost bad one decides. -/
def parseSegments (text : String) : List (List Char) → Except VersionError (List Nat)
  | [] => .ok []
  | segment :: rest =>
    match parseSegment text segment with
    | .error e => .error e
    | .ok n =>
      match parseSegments text rest with
      | .error e => .error e
      | .ok ns => .ok (n :: ns)

/-- Reads a version from trimmed text. -/
def ofTrimmed (trimmed : List Char) : Except VersionError Version :=
  let text := String.ofList trimmed
  match trimmed, Text.cut '-' trimmed with
  | [], _ => .error .empty
  | _, some (_, []) => .error (.emptyQualifier text)
  | _, some (numbers, qualifier) =>
    match parseSegments text (Text.fieldsOf '.' numbers) with
    | .error e => .error e
    | .ok segments => .ok ⟨segments, some (String.ofList qualifier), text⟩
  | _, none =>
    match parseSegments text (Text.fieldsOf '.' trimmed) with
    | .error e => .error e
    | .ok segments => .ok ⟨segments, none, text⟩

/-- Reads a version; white space at either end does not count. -/
def parse (input : String) : Except VersionError Version :=
  ofTrimmed (Text.trim input.toList)

/-- The version that a bare number denotes. -/
def ofNat (n : Nat) : Version :=
  ⟨[n], none, String.ofList (Nat.toDigits 10 n)⟩

/-- Whether the qualifier ends in `SNAPSHOT`, in letters of either case. -/
def isSnapshot (v : Version) : Bool :=
  match v.qualifier with
  | none => false
  | some q => snapshotMark.toList.isSuffixOf (q.toList.map Char.toUpper)

end Version

end Promotion
