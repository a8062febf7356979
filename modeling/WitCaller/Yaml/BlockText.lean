import WitCaller.Yaml.Glyph

/-!
The text of a scalar in a block: the lines after a header, without their common indentation. The
lines are kept, or folded into one where neither of two neighbours starts with a blank.
-/

namespace WitCaller.Yaml

/-- What becomes of the line ends at the end of a block. -/
inductive Chomping where
  | strip
  | clip
  | keep
  deriving DecidableEq, Repr

/-- The header of a block: its chomping, and how far its lines are indented, if it says so. -/
structure BlockHeader where
  chomping : Chomping
  indentation : Option Nat

/-- The mark of a chomping. -/
def chomping? : List Glyph → Option Chomping
  | [] => none
  | g :: _ => if g.char = '+' then some .keep else if g.char = '-' then some .strip else none

/-- A digit of an indentation. -/
def indentationDigit? : List Glyph → Option Nat
  | [] => none
  | g :: _ => if g.char.isDigit then some (g.char.toNat - 48) else none

/-- The two marks of a header, in either order and each optional. -/
def blockHeader (s : List Glyph) : Except Fault (BlockHeader × List Glyph) := do
  let (header, rest) : BlockHeader × List Glyph :=
    match chomping? s with
    | some chomping =>
      match indentationDigit? (s.drop 1) with
      | some n => (⟨chomping, some n⟩, s.drop 2)
      | none => (⟨chomping, none⟩, s.drop 1)
    | none =>
      match indentationDigit? s with
      | some n =>
        match chomping? (s.drop 1) with
        | some chomping => (⟨chomping, some n⟩, s.drop 2)
        | none => (⟨.clip, some n⟩, s.drop 1)
      | none => (⟨.clip, none⟩, s)
  if header.indentation = some 0 || !endsStrictly rest then .error .malformed
  else return (header, ← emptyLine rest)

/-- The line ends before the first text, and the deepest column that spaces before it reach. -/
def openingBreaks (deepest : Nat) : List Glyph → (List Char × Nat) × List Glyph
  | [] => (([], deepest), [])
  | g :: r =>
    if g.char = ' ' then openingBreaks (max deepest (g.column + 1)) r
    else if isBreak g.char then
      let ((breaks, deepest), rest) := openingBreaks deepest r
      ((lineEnd g.char :: breaks, deepest), rest)
    else (([], deepest), g :: r)

/-- Line ends, each with the indentation before it, and the indentation of the next line. -/
def blockBreaks (indentation : Nat) : List Glyph → List Char × List Glyph
  | [] => ([], [])
  | g :: r =>
    if g.char = ' ' ∧ g.column < indentation then blockBreaks indentation r
    else if isBreak g.char then
      let (breaks, rest) := blockBreaks indentation r
      (lineEnd g.char :: breaks, rest)
    else ([], g :: r)

/-- Whether a line of the block starts here. -/
def isAt (column : Nat) : List Glyph → Bool
  | [] => false
  | g :: _ => g.column == column

/-- The lines of a block up to the end of the last one, the line end after it, and the line ends
after that. -/
structure BlockLines where
  text : List Char
  lineEnd : List Char
  trailing : List Char
  rest : List Glyph

/-- The lines of a block; `breaks` are the line ends before the first of them. -/
def blockLines (folded : Bool) (indentation : Nat) (breaks : List Char) (s : List Glyph) :
    BlockLines :=
  if isAt indentation s then
    let (line, r) := takeRun (!isBreak ·) s
    let ending := (r.take 1).map (lineEnd ·.char)
    let (more, rest) := blockBreaks indentation (r.drop 1)
    if isAt indentation rest then
      if _h : rest.length < s.length then
        let joint :=
          if folded && ending == ['\n'] && !startsIn [' ', '\t'] s && !startsIn [' ', '\t'] rest then
            if more.isEmpty then [' '] else []
          else ending
        let next := blockLines folded indentation more rest
        ⟨breaks ++ line ++ joint ++ next.text, next.lineEnd, next.trailing, next.rest⟩
      else ⟨breaks ++ line, ending, more, rest⟩
    else ⟨breaks ++ line, ending, more, rest⟩
  else ⟨[], [], breaks, s⟩
termination_by s.length

/-- A block after its mark, within a collection whose contents start at `margin` or right of it. -/
def blockText (folded : Bool) (margin : Nat) (s : List Glyph) : Except Fault (List Char × List Glyph) := do
  let (header, r) ← blockHeader s
  let least := max 1 margin
  let lines : BlockLines :=
    match header.indentation with
    | none =>
      let ((breaks, deepest), rest) := openingBreaks 0 r
      blockLines folded (max least deepest) breaks rest
    | some n =>
      let (breaks, rest) := blockBreaks (least + n - 1) r
      blockLines folded (least + n - 1) breaks rest
  let ending :=
    match header.chomping with
    | .strip => []
    | .clip => lines.lineEnd
    | .keep => lines.lineEnd ++ lines.trailing
  return (lines.text ++ ending, lines.rest)

end WitCaller.Yaml
