import WitCaller.FileTree.Basic
import WitCaller.Path
import WitCaller.Text.Quoted

/-!
Access to a tree of files by path. A path is walked name by name: each name on the way must be a
directory, and `..` leads back from a directory that is there.
-/

namespace WitCaller

/-- Why an access fails. -/
inductive OsErrorKind where
  | noEntry
  | alreadyThere
  | notDirectory
  | isDirectory
  deriving DecidableEq, Repr

def OsErrorKind.number : OsErrorKind → Nat
  | .noEntry => 2
  | .alreadyThere => 17
  | .notDirectory => 20
  | .isDirectory => 21

def OsErrorKind.text : OsErrorKind → String
  | .noEntry => "No such file or directory"
  | .alreadyThere => "File exists"
  | .notDirectory => "Not a directory"
  | .isDirectory => "Is a directory"

/-- A failed access and the path that was asked for. -/
structure OsError where
  kind : OsErrorKind
  path : Path
  deriving DecidableEq, Repr

def OsError.message (e : OsError) : String :=
  s!"[Errno {e.kind.number}] {e.kind.text}: {Text.quoted (toString e.path)}"

namespace FileTree

/-- The place where a walk ends that starts at `here`. Nothing needs to stand there, but all that
was passed on the way is a directory. -/
def walk (t : FileTree) (here : Place) : List String → Except OsErrorKind Place
  | [] => .ok here
  | name :: names =>
    match t.get? here with
    | none => .error .noEntry
    | some (.file _) => .error .notDirectory
    | some .directory => walk t (if name = ".." then here.dropLast else here ++ [name]) names

/-- The place that a path names, seen from the directory `cwd`. -/
def locate (t : FileTree) (cwd : Place) (p : Path) : Except OsError Place :=
  (t.walk (if p.anchor = .relative then cwd else []) p.parts).mapError (⟨·, p⟩)

/-- What stands where a path leads. -/
def stat? (t : FileTree) (cwd : Place) (p : Path) : Option Content :=
  match t.locate cwd p with
  | .ok place => t.get? place
  | .error _ => none

def exists? (t : FileTree) (cwd : Place) (p : Path) : Bool := (t.stat? cwd p).isSome

def isDirectory (t : FileTree) (cwd : Place) (p : Path) : Bool :=
  t.stat? cwd p == some .directory

def isFile (t : FileTree) (cwd : Place) (p : Path) : Bool :=
  match t.stat? cwd p with
  | some (.file _) => true
  | _ => false

/-- The bytes of the file that a path names. -/
def read (t : FileTree) (cwd : Place) (p : Path) : Except OsError Bytes := do
  match t.get? (← t.locate cwd p) with
  | none => .error ⟨.noEntry, p⟩
  | some .directory => .error ⟨.isDirectory, p⟩
  | some (.file bytes) => .ok bytes

/-- The tree after bytes were written to a file, which may be new. -/
def write (t : FileTree) (cwd : Place) (p : Path) (bytes : Bytes) : Except OsError FileTree := do
  let place ← t.locate cwd p
  match t.get? place with
  | some .directory => .error ⟨.isDirectory, p⟩
  | _ => .ok (t.put place (.file bytes))

/-- The tree with a new directory. -/
def makeDirectory (t : FileTree) (cwd : Place) (p : Path) : Except OsError FileTree := do
  let place ← t.locate cwd p
  match t.get? place with
  | some _ => .error ⟨.alreadyThere, p⟩
  | none => .ok (t.put place .directory)

/-- The names in a directory, in order. -/
def list (t : FileTree) (cwd : Place) (p : Path) : Except OsError (List String) := do
  let place ← t.locate cwd p
  match t.get? place with
  | none => .error ⟨.noEntry, p⟩
  | some (.file _) => .error ⟨.notDirectory, p⟩
  | some .directory => .ok (t.namesIn place)

end FileTree

end WitCaller
