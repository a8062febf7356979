import WitCaller.Manifest.Edit
import WitCaller.Session
import WitCaller.Toml.Decoder

/-!
Registering a crate: a new member of the workspace and a dependency of a project. A manifest is
decoded before the change and after it, and is written only if both succeed.
-/

namespace WitCaller.Manifest
open Run

/-- The manifest in a directory. -/
def fileIn (directory : Path) : Path := directory / "Cargo.toml"

def info (message : String) : Run Failure Unit := report ⟨.info, .manifest, message⟩

/-- The table that a manifest holds. -/
def load (path : Path) (text : List Char) : Except Failure Toml.Table :=
  match Toml.decode text with
  | some table => .ok table
  | none => .error (.manifest (.malformed path))

/-- Write a manifest, provided that it can be decoded. -/
def writeChecked (path : Path) (text : List Char) : Run Failure Unit :=
  match Toml.decode text with
  | some _ => writeBytes path (Utf8.encode text)
  | none => throw (.manifest (.refused path))

/-- The members of the workspace of a manifest. -/
def members? (table : Toml.Table) : Option (List Toml.Value) := do
  let workspace ← Assoc.get? "workspace" table
  let members ← Assoc.get? "members" (← workspace.table?)
  members.array?

/-- The dependencies of a manifest. -/
def dependencies? (table : Toml.Table) : Option Toml.Table := do
  (← Assoc.get? "dependencies" table).table?

/-- The failure that a fault means for the manifest at a path. -/
def EditFault.failure (path : Path) : EditFault → Failure
  | .noTable => .manifest (.noWorkspaceTable path)
  | .noMembers => .manifest (.noMembersArray path)
  | .array .unterminatedString => .manifest (.unterminatedString path)
  | .array .unclosed => .manifest (.unclosedArray path)

/-- Make a crate a member of the workspace in `base`. Whether the manifest was changed: it is not if
there is none, if it has no members, or if the crate is one of them. -/
def registerMember (base : Path) (member : String) : Run Failure Bool := do
  let path := fileIn base
  info s!"Updating workspace manifest at {path}"
  if !(← exists? path) then
    info s!"Workspace manifest not found at {path}"
    return false
  let text ← readText path
  let table ← ofExcept id (load path text)
  match members? table with
  | none =>
    info s!"No workspace members array in {path}"
    return false
  | some members =>
    if members.any (Toml.Value.isText member) then
      info s!"{member} is already in workspace members"
      return false
    writeChecked path (← ofExcept (EditFault.failure path) (addMember member text))
    info s!"Added {member} to workspace members"
    return true

/-- The text of a file that has to be there. -/
def readProject (path : Path) : Run Failure (List Char) := do
  match ← attempt (readText path) with
  | .ok text => return text
  | .error (.os cause) => throw (.manifest (.unreadable path cause))
  | .error e => throw e

/-- Make a project depend on a crate. Whether the manifest was changed: it is not if it has no
dependencies, or if the crate is one of them. -/
def addPathDependency (project : Path) (name target : String) : Run Failure Bool := do
  let path := fileIn project
  info s!"Adding {name} dependency to {path}"
  let text ← readProject path
  let table ← ofExcept id (load path text)
  match dependencies? table with
  | none =>
    info s!"No [dependencies] table in {path}"
    return false
  | some dependencies =>
    if (Assoc.get? name dependencies).isSome then
      info s!"{name} dependency already exists in {path}"
      return false
    writeChecked path (addDependency name target text)
    if (cutAt? "dependencies" (Text.fullLines text)).isNone then
      info s!"Added [dependencies.{name}] table to {path}"
    else info s!"Added {name} dependency to {path}"
    return true

end WitCaller.Manifest
