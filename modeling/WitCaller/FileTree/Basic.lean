import WitCaller.Assoc
import WitCaller.Text.Utf8

/-!
A tree of files and directories as a map from places to what stands there. A place is a list of
names from the root, without `..`. The root is always a directory.
-/

namespace WitCaller

/-- The names on the way from the root. -/
abbrev Place := List String

/-- What stands at a place. -/
inductive Content where
  | directory
  | file (bytes : Bytes)
  deriving DecidableEq, Repr

/-- A tree of files. The order of the entries has no meaning. -/
structure FileTree where
  entries : List (Place × Content)
  deriving DecidableEq, Repr

namespace FileTree

/-- What stands at a place. -/
def get? (t : FileTree) (p : Place) : Option Content :=
  if p = [] then some .directory else Assoc.get? p t.entries

/-- The tree with this content at a place. -/
def put (p : Place) (c : Content) (t : FileTree) : FileTree := ⟨Assoc.insert p c t.entries⟩

/-- The tree without the places that have a property. -/
def discard (q : Place → Bool) (t : FileTree) : FileTree := ⟨t.entries.filter fun e => !q e.1⟩

/-- Whether a place lies below another one. -/
def isBelow (p q : Place) : Bool := p.isPrefixOf q && p != q

/-- A name put into its place among names in order. -/
def insertName (name : String) : List String → List String
  | [] => [name]
  | other :: rest => if name ≤ other then name :: other :: rest else other :: insertName name rest

/-- Names in the order of their characters. -/
def sortNames (l : List String) : List String := l.foldr insertName []

/-- The names of what stands directly in the directory at a place, in order. -/
def namesIn (t : FileTree) (p : Place) : List String :=
  sortNames (t.entries.filterMap fun e => if e.1.dropLast = p then e.1.getLast? else none)

theorem get?_put {p q : Place} {c : Content} {t : FileTree} (hp : p ≠ []) :
    (t.put p c).get? q = if p = q then some c else t.get? q := by
  unfold get? put
  rw [Assoc.get?_insert]
  by_cases hq : q = []
  · subst hq
    simp [hp]
  · simp [hq]

end FileTree

end WitCaller
