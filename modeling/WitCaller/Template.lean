import WitCaller.Text.Blank
import WitCaller.Text.Lines
import WitCaller.Text.Search
import WitCaller.Text.Utf8

/-!
Templates: plain text with named holes, written as two opening braces, a name and two closing
braces. A hole whose name has no value is filled with nothing.
-/

namespace WitCaller

/-- A stretch of plain text, or a hole. -/
inductive Piece where
  | text (s : String)
  | hole (name : String)
  deriving DecidableEq, Repr

abbrev Template := List Piece

namespace Template
open Text

theorem length_lt_of_cut {m n s r before name after : List Char} (hm : m ≠ [])
    (h : cut m s = some (before, r)) (h' : cut n r = some (name, after)) :
    after.length < s.length := by
  have := List.length_pos_iff.2 hm
  rw [cut_eq_append h, cut_eq_append h']
  simp only [List.length_append]
  omega

/-- The pieces of a text without its final line end. -/
def pieces (s : List Char) : Template :=
  match _h : cut ['\x7b', '\x7b'] s with
  | none => [.text (String.ofList s)]
  | some (before, r) =>
    match _h' : cut ['\x7d', '\x7d'] r with
    | none => [.text (String.ofList s)]
    | some (name, after) =>
      .text (String.ofList before) :: .hole (String.ofList (trim name)) :: pieces after
termination_by s.length
decreasing_by exact length_lt_of_cut (List.cons_ne_nil _ _) _h _h'

/-- The template in the text of a file: one line end at the end of the file is not part of it. -/
def parse (text : List Char) : Template :=
  let s := unifyLineEnds text
  pieces (if s.getLast? = some '\n' then s.dropLast else s)

/-- The text of a template whose holes have these values. -/
def fill (values : List (String × String)) (t : Template) : String :=
  String.join (t.map fun
    | .text s => s
    | .hole name => (values.lookup name).getD "")

end Template

/-- The templates that take the place of the built-in ones for stubs and for the library. A file that is
no text is only noticed when its template is used. -/
structure Templates where
  rpcStub : Except Utf8Error (Option Template) := .ok none
  httpStub : Except Utf8Error (Option Template) := .ok none
  library : Except Utf8Error (Option Template) := .ok none

end WitCaller
