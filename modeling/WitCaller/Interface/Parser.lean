import WitCaller.Interface.Basic
import WitCaller.Text.Blank
import WitCaller.Text.Lines

/-!
Reading an interface file line by line. A line that starts with `record` or `variant` declares a
type, or a signature when `-signature-` occurs in it. The body of a signature goes up to the first
line that starts with a closing brace; blocks inside it are not looked for.
-/

namespace WitCaller

namespace Interface
open Text

/-- The last character is dropped if it is an opening brace. -/
def dropBrace (s : List Char) : List Char :=
  if s.getLast? = some '\x7b' then s.dropLast else s

/-- The name after a keyword in a declaring line. -/
def declaredName (keyword : String) (line : List Char) : String :=
  String.ofList (trim (dropBrace (trim (line.drop keyword.length))))

def startsWith (word : String) (line : List Char) : Bool := word.toList.isPrefixOf line

/-- Whether a line ends the body of a signature. -/
def closes (line : List Char) : Bool := line.head? == some '\x7d'

/-- Whether a line of a body says nothing. -/
def isIdle (line : List Char) : Bool := line.isEmpty || startsWith "//" line

/-- The text without the commas at its end. -/
def dropCommas (s : List Char) : List Char := (s.reverse.dropWhile (· = ',')).reverse

/-- A line of a body: a field when it has exactly one colon. -/
def bodyLine (line : List Char) : BodyLine :=
  match splitOn ':' line with
  | [name, type] =>
    .field ⟨String.ofList (trim name), String.ofList (trim (dropCommas (trim type)))⟩
  | _ => .unrecognised (String.ofList line)

/-- The body of a signature whose record starts before these lines. -/
def bodyOf (ls : List (List Char)) : List BodyLine :=
  ((ls.takeWhile (!closes ·)).filter (!isIdle ·)).map bodyLine

/-- The lines after the one that closes the body. -/
def afterBody (ls : List (List Char)) : List (List Char) := (ls.dropWhile (!closes ·)).drop 1

/-- What a line declares, before the lines after it are looked at. -/
inductive Heading where
  | type (d : TypeDeclaration)
  | signature (record operation kind : String)
  | malformed (error : SignatureFormatError)
  | other
  deriving DecidableEq, Repr

/-- What a record of this name declares when its line has the marker of signatures. -/
def signatureHeading (record : String) : Heading :=
  match Signature.splitName record with
  | .ok (operation, kind) => .signature record operation kind
  | .error e => .malformed e

/-- What a line without blanks at its ends declares. -/
def heading (line : List Char) : Heading :=
  if startsWith "record " line then
    if contains signatureMarker line then signatureHeading (declaredName "record" line)
    else .type ⟨declaredName "record" line, .record⟩
  else if startsWith "variant " line then .type ⟨declaredName "variant" line, .variant⟩
  else .other

theorem length_afterBody_le (ls : List (List Char)) : (afterBody ls).length ≤ ls.length := by
  have h := (List.dropWhile_sublist (!closes ·) (l := ls)).length_le
  rw [afterBody, List.length_drop]
  omega

/-- The items that lines without blanks at their ends declare. -/
def itemsOf (ls : List (List Char)) : List Item :=
  match ls with
  | [] => []
  | l :: rest =>
    match heading l with
    | .type d => .type d :: itemsOf rest
    | .signature record operation kind =>
      .signature record operation kind (bodyOf rest) :: itemsOf (afterBody rest)
    | .malformed e => .malformed e :: itemsOf rest
    | .other => itemsOf rest
termination_by ls.length
decreasing_by
  · exact Nat.lt_succ_self _
  · exact Nat.lt_succ_of_le (length_afterBody_le rest)
  · exact Nat.lt_succ_self _
  · exact Nat.lt_succ_self _

/-- The lines of a text without the blanks at their ends. -/
def trimmedLines (text : String) : List (List Char) := (lines text.toList).map trim

/-- The interface that the text of the file at `path` declares. -/
def parse (path : Path) (text : String) : Interface := ⟨path, itemsOf (trimmedLines text)⟩

end Interface

end WitCaller
