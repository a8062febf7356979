import WitCaller.Toml.Literal
import WitCaller.Yaml.Glyph

/-!
The text of a scalar in single or double quotes. Its lines are joined, and double quotes allow
escapes.
-/

namespace WitCaller.Yaml

/-- More line ends, each with the blanks before it. No document mark may follow one. -/
def quotedBreaks : List Glyph → Except Fault (List Char × List Glyph)
  | [] => .ok ([], [])
  | g :: r =>
    if isGap g.char then quotedBreaks r
    else if isBreak g.char then
      if isDocumentMark r then .error .malformed
      else do
        let (breaks, rest) ← quotedBreaks r
        return (lineEnd g.char :: breaks, rest)
    else .ok ([], g :: r)

/-- What follows a line end within quotes: more line ends, and the blanks before the text. -/
def afterBreak (s : List Glyph) : Except Fault (List Char × List Glyph) :=
  if isDocumentMark s then .error .malformed else quotedBreaks s

/-- Blanks within quotes, or line ends with the blanks around them. -/
def quotedGap (s : List Glyph) : Except Fault (List Char × List Glyph) :=
  let (blanks, r) := takeRun isGap s
  match r with
  | [] => .error .malformed
  | g :: r' =>
    if isBreak g.char then do
      let (breaks, rest) ← afterBreak r'
      return (joined g.char breaks, rest)
    else .ok (blanks, r)

/-- The character that a single character after a backslash stands for. -/
def escaped? : Char → Option Char
  | '0' => some '\x00'
  | 'a' => some '\x07'
  | 'b' => some '\x08'
  | 't' => some '\t'
  | '\t' => some '\t'
  | 'n' => some '\n'
  | 'v' => some '\x0b'
  | 'f' => some '\x0c'
  | 'r' => some '\r'
  | 'e' => some '\x1b'
  | ' ' => some ' '
  | '\x22' => some '\x22'
  | '\\' => some '\\'
  | '/' => some '/'
  | 'N' => some '\x85'
  | '_' => some '\xa0'
  | 'L' => some '\u2028'
  | 'P' => some '\u2029'
  | _ => none

/-- How many hexadecimal digits follow a character after a backslash. -/
def escapedDigits? : Char → Option Nat
  | 'x' => some 2
  | 'u' => some 4
  | 'U' => some 8
  | _ => none

/-- The character with a number; a surrogate is shown as the replacement character. -/
def numbered (n : Nat) : Except Fault Char :=
  if n.isValidChar then .ok (Char.ofNat n)
  else if n < 0x110000 then .ok '\uFFFD'
  else .error (.value "chr() arg not in range(0x110000)")

/-- What follows a backslash within double quotes. -/
def escape : List Glyph → Except Fault (List Char × List Glyph)
  | [] => .error .malformed
  | g :: r =>
    match escaped? g.char, escapedDigits? g.char with
    | some c, _ => .ok ([c], r)
    | none, some count =>
      match ((r.take count).map (·.char)).mapM Toml.hexValue? with
      | some digits =>
        if digits.length = count then do
          let c ← numbered (digits.foldl (fun n d => n * 16 + d) 0)
          return ([c], r.drop count)
        else .error .malformed
      | none => .error .malformed
    | none, none => if isBreak g.char then afterBreak r else .error .malformed

/-- The next characters of a quoted text, or nothing at the closing quote. -/
def quotedPart (double : Bool) : List Glyph → Except Fault (Option (List Char) × List Glyph)
  | [] => .error .malformed
  | g :: r =>
    if isGap g.char || isBreak g.char then do
      let (text, rest) ← quotedGap (g :: r)
      return (some text, rest)
    else if double then
      if g.char = '\x22' then .ok (none, r)
      else if g.char = '\\' then do
        let (text, rest) ← escape r
        return (some text, rest)
      else .ok (some [g.char], r)
    else if g.char = '\x27' then
      if startsWith '\x27' r then .ok (some ['\x27'], r.drop 1) else .ok (none, r)
    else .ok (some [g.char], r)

/-- A quoted text after its opening quote. -/
def quotedText (double : Bool) (s : List Glyph) : Except Fault (List Char × List Glyph) :=
  match quotedPart double s with
  | .error fault => .error fault
  | .ok (none, rest) => .ok ([], rest)
  | .ok (some part, rest) =>
    if _h : rest.length < s.length then do
      let (text, rest) ← quotedText double rest
      return (part ++ text, rest)
    else .error .malformed
termination_by s.length

end WitCaller.Yaml
