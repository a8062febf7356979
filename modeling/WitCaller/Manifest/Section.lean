import WitCaller.Text.Blank
import WitCaller.Text.Lines
import WitCaller.Text.Search

/-!
Sections of a manifest, found line by line. A line that looks like the header of a table starts a
section, and the next such line ends it.
-/

namespace WitCaller.Manifest
open Text

/-- What may stand after the closing bracket of a header: a second one, blanks and a comment. -/
def isHeaderTail (s : List Char) : Bool :=
  match trimLeft (if s.head? = some ']' then s.drop 1 else s) with
  | [] => true
  | c :: _ => c = '#'

/-- What stands between brackets after the first opening one. A second opening bracket belongs to
the header unless nothing else stands there. -/
def headerInside (s : List Char) : List Char :=
  match s with
  | '[' :: ']' :: _ => ['[']
  | '[' :: r => beforeFirst ']' r
  | r => beforeFirst ']' r

/-- The name in a line that looks like the header of a table. -/
def headerName? (line : List Char) : Option (List Char) :=
  match trimLeft line with
  | '[' :: r =>
    match cut [']'] r with
    | some (_, tail) =>
      if headerInside r ≠ [] ∧ isHeaderTail tail then some (trim (headerInside r)) else none
    | none => none
  | _ => none

/-- Whether a line, with its line end, looks like a header. -/
def isHeader (line : List Char) : Bool := (headerName? (chomp line)).isSome

/-- Whether a line, with its line end, looks like the header of the given table. -/
def isHeaderOf (table : String) (line : List Char) : Bool :=
  headerName? (chomp line) = some table.toList

/-- A manifest cut at a section: the lines before it, its header, its body, and what follows. -/
structure Cut where
  before : List (List Char)
  header : List Char
  body : List (List Char)
  after : List (List Char)

/-- The first section of the given table. -/
def cutAt? (table : String) (ls : List (List Char)) : Option Cut :=
  match ls.dropWhile (!isHeaderOf table ·) with
  | [] => none
  | header :: r =>
    some ⟨ls.takeWhile (!isHeaderOf table ·), header, r.takeWhile (!isHeader ·),
      r.dropWhile (!isHeader ·)⟩

/-- The lines of a section. -/
def Cut.lines (c : Cut) : List (List Char) := c.header :: c.body

/-- The lines before, in and after a section are all lines. -/
theorem lines_of_cutAt? {table : String} {ls : List (List Char)} {c : Cut}
    (h : cutAt? table ls = some c) : c.before ++ c.lines ++ c.after = ls := by
  unfold cutAt? at h
  split at h
  · simp at h
  · next header r hr =>
    obtain rfl := Option.some.inj h
    have ht := List.takeWhile_append_dropWhile (p := (!isHeaderOf table ·)) (l := ls)
    have hb := List.takeWhile_append_dropWhile (p := (!isHeader ·)) (l := r)
    rw [hr] at ht
    simp only [Cut.lines, List.append_assoc, List.cons_append]
    rw [hb]
    exact ht

end WitCaller.Manifest
