import WitCaller.Text.Search

/-!
Slash-separated paths as text: empty and `.` parts vanish, `..` parts stay until a path is resolved.
-/

namespace WitCaller

/-- Where a path starts. Exactly two leading slashes are kept apart from one. -/
inductive Anchor where
  | relative
  | root
  | doubleRoot
  deriving DecidableEq, Repr

def Anchor.text : Anchor → String
  | .relative => ""
  | .root => "/"
  | .doubleRoot => "//"

/-- A path: where it starts, and its parts. -/
structure Path where
  anchor : Anchor
  parts : List String
  deriving DecidableEq, Repr

namespace Path
open Text

/-- The parts between slashes that say something. -/
def partsOf (s : List Char) : List String :=
  ((splitOn '/' s).filter fun p => p ≠ [] ∧ p ≠ ['.']).map String.ofList

def anchorOf (s : List Char) : Anchor :=
  match (s.takeWhile (· = '/')).length with
  | 0 => .relative
  | 2 => .doubleRoot
  | _ => .root

def ofString (s : String) : Path := ⟨anchorOf s.toList, partsOf s.toList⟩

protected def toString (p : Path) : String :=
  if p.anchor = .relative ∧ p.parts = [] then "."
  else p.anchor.text ++ join "/" p.parts

instance : ToString Path := ⟨Path.toString⟩

/-- The absolute path with these parts. -/
def absolute (parts : List String) : Path := ⟨.root, parts⟩

/-- A path seen from another one: an absolute path stands for itself. -/
def append (p q : Path) : Path :=
  if q.anchor = .relative then ⟨p.anchor, p.parts ++ q.parts⟩ else q

instance : HDiv Path Path Path := ⟨append⟩
instance : HDiv Path String Path := ⟨fun p s => append p (ofString s)⟩

/-- The last part; empty when there is none. -/
def name (p : Path) : String := p.parts.getLast?.getD ""

def parent (p : Path) : Path := ⟨p.anchor, p.parts.dropLast⟩

theorem length_parent_lt {p : Path} (h : p.parts ≠ []) : p.parent.parts.length < p.parts.length := by
  have := List.length_pos_iff.2 h
  simp only [parent, List.length_dropLast]
  omega

/-- A name up to its last full stop and from there on. A full stop at either end cuts nothing. -/
def splitSuffix (name : String) : String × String :=
  let s := name.toList
  let tail := (s.reverse.takeWhile (· ≠ '.')).reverse
  let head := s.take (s.length - tail.length - 1)
  if tail ≠ [] ∧ head ≠ [] ∧ tail.length < s.length then
    (String.ofList head, String.ofList ('.' :: tail))
  else (name, "")

def stem (p : Path) : String := (splitSuffix p.name).1

def suffix (p : Path) : String := (splitSuffix p.name).2

/-- The parts that remain when each `..` cancels the part before it; at the start it says nothing. -/
def normalize (parts : List String) : List String :=
  parts.foldl (fun done p => if p = ".." then done.dropLast else done ++ [p]) []

/-- The parts of a path from the root, seen from the directory with parts `cwd`. -/
def fullParts (cwd : List String) (p : Path) : List String :=
  if p.anchor = .relative then cwd ++ p.parts else p.parts

/-- The absolute path without `..`, seen from the directory with parts `cwd`. -/
def resolve (cwd : List String) (p : Path) : Path := absolute (normalize (fullParts cwd p))

/-- The parts of the first path after those it has in common with the second, after one `..` for
each further part of the second. -/
def stepsTo : List String → List String → List String
  | t :: ts, s :: ss =>
    if t = s then stepsTo ts ss else List.replicate (ss.length + 1) ".." ++ t :: ts
  | ts, ss => List.replicate ss.length ".." ++ ts

/-- The relative path that leads from the directory `start` to `target`. -/
def relativeTo (cwd : List String) (target start : Path) : Path :=
  ⟨.relative, stepsTo (normalize (target.fullParts cwd)) (normalize (start.fullParts cwd))⟩

/-- The path below `base`, if its text says that it lies there. -/
def below? (base p : Path) : Option Path :=
  if p.anchor = base.anchor ∧ base.parts.isPrefixOf p.parts then
    some ⟨.relative, p.parts.drop base.parts.length⟩
  else none

end Path

end WitCaller
