import WitCaller.Yaml.Glyph

/-!
The text of a scalar without quotes: words up to a character that has a meaning of its own, joined
over lines.
-/

namespace WitCaller.Yaml

/-- What stands between two runs of a plain text. It is empty where the text ends. -/
structure PlainGap where
  text : List Char
  brokeLine : Bool
  rest : List Glyph

/-- A plain text, whether a line end follows it, and what is left. -/
structure PlainText where
  text : List Char
  brokeLine : Bool
  rest : List Glyph

/-- Whether a plain text ends at this character. A colon ends it only before a blank, or, in a flow
collection, before a character of the collection. -/
def endsPlain (inFlow : Bool) (c : Char) (r : List Glyph) : Bool :=
  isGap c || isBreak c ||
    (c == ':' && (endsWord r || (inFlow && startsIn [',', '[', ']', '\x7b', '\x7d'] r))) ||
    (inFlow && [',', '?', '[', ']', '\x7b', '\x7d'].contains c)

/-- A run of a plain text without blanks. -/
def plainRun (inFlow : Bool) : List Glyph → List Char × List Glyph
  | [] => ([], [])
  | g :: r =>
    if endsPlain inFlow g.char r then ([], g :: r)
    else
      let (run, rest) := plainRun inFlow r
      (g.char :: run, rest)

/-- More line ends, each with the spaces before it; nothing if one is followed by a document mark. -/
def plainBreaks : List Glyph → Option (List Char) × List Glyph
  | [] => (some [], [])
  | g :: r =>
    if g.char = ' ' then plainBreaks r
    else if isBreak g.char then
      if isDocumentMark r then (none, r)
      else
        let (breaks, rest) := plainBreaks r
        (breaks.map (lineEnd g.char :: ·), rest)
    else (some [], g :: r)

/-- Spaces, or line ends with the spaces around them. -/
def plainGap (s : List Glyph) : PlainGap :=
  let (spaces, r) := takeRun (· == ' ') s
  match r with
  | [] => ⟨spaces, false, []⟩
  | g :: r' =>
    if isBreak g.char then
      if isDocumentMark r' then ⟨[], true, r'⟩
      else match plainBreaks r' with
        | (some breaks, rest) => ⟨joined g.char breaks, true, rest⟩
        | (none, rest) => ⟨[], true, rest⟩
    else ⟨spaces, false, r⟩

/-- Whether the text goes on to the left of a column. -/
def isLeftOf (column : Nat) : List Glyph → Bool
  | [] => false
  | g :: _ => g.column < column

/-- A plain text whose lines are at or right of `margin`, unless it stands in a flow collection. -/
def plainText (inFlow : Bool) (margin : Nat) (s : List Glyph) : PlainText :=
  let (run, r) := plainRun inFlow s
  if startsWith '#' s || run.isEmpty then ⟨[], false, s⟩
  else
    let gap := plainGap r
    if gap.text.isEmpty || startsWith '#' gap.rest || (!inFlow && isLeftOf margin gap.rest) then
      ⟨run, gap.brokeLine, gap.rest⟩
    else if _h : gap.rest.length < s.length then
      let more := plainText inFlow margin gap.rest
      if more.text.isEmpty then ⟨run, gap.brokeLine, gap.rest⟩
      else ⟨run ++ gap.text ++ more.text, more.brokeLine, more.rest⟩
    else ⟨run, gap.brokeLine, gap.rest⟩
termination_by s.length

end WitCaller.Yaml
