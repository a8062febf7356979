import WitCaller.Manifest.ArrayText
import WitCaller.Manifest.Section

/-!
The two changes that are made to the text of a manifest: a member of the workspace and a dependency
on a path. All other text stays as it is.
-/

namespace WitCaller.Manifest
open Text

/-- Why a place in a manifest cannot be found. -/
inductive EditFault where
  | noTable
  | noMembers
  | array (fault : ArrayFault)
  deriving DecidableEq, Repr

/-- A line that starts the array of members, cut at its opening bracket. -/
def membersLine? (line : List Char) : Option (List Char × List Char) :=
  match cut ['['] line with
  | some (name, r) =>
    let name := trimLeft name
    if "members".toList.isPrefixOf name ∧ trim (name.drop "members".length) = ['='] then
      some (line.takeWhile (· ≠ '['), r)
    else none
  | none => none

/-- The text of a section up to the opening bracket of its array of members, and after it. -/
def cutMembers? : List (List Char) → Option (List Char × List Char)
  | [] => none
  | l :: ls =>
    match membersLine? l with
    | some (before, after) => some (before, after ++ ls.flatten)
    | none => (cutMembers? ls).map fun (before, after) => (l ++ before, after)

/-- The manifest with one more member in its workspace. -/
def addMember (member : String) (text : List Char) : Except EditFault (List Char) :=
  match cutAt? "workspace" (fullLines text) with
  | none => .error .noTable
  | some c =>
    match cutMembers? c.lines with
    | none => .error .noMembers
    | some (before, after) =>
      match scanArray 0 after with
      | .error fault => .error (.array fault)
      | .ok a =>
        .ok (c.before.flatten ++ before ++ a.insertItem member ++ a.rest ++ c.after.flatten)

/-- A text that ends in a line feed, unless it is empty. -/
def endLine (s : List Char) : List Char :=
  if s = [] ∨ s.getLast? = some '\n' then s else s ++ ['\n']

/-- The line that declares a dependency on a path. -/
def dependencyLine (name path : String) : List Char :=
  (name ++ " = \x7b path = \"" ++ path ++ "\" \x7d\n").toList

/-- The table that declares a dependency on a path. -/
def dependencyTable (name path : String) : List Char :=
  ("\n[dependencies." ++ name ++ "]\npath = \"" ++ path ++ "\"\n").toList

/-- The blank lines at the end of a list of lines. -/
def blankTail (ls : List (List Char)) : List (List Char) :=
  (ls.reverse.takeWhile (trim · = [])).reverse

/-- The lines before the blank ones at the end. -/
def withoutBlankTail (ls : List (List Char)) : List (List Char) :=
  (ls.reverse.dropWhile (trim · = [])).reverse

/-- The manifest with one more dependency: after the last line of the section that says something, or
as a table at the end if there is no such section. -/
def addDependency (name path : String) (text : List Char) : List Char :=
  match cutAt? "dependencies" (fullLines text) with
  | none => endLine text ++ dependencyTable name path
  | some c =>
    endLine (c.before.flatten ++ c.header ++ (withoutBlankTail c.body).flatten) ++
      dependencyLine name path ++ (blankTail c.body).flatten ++ c.after.flatten

end WitCaller.Manifest
