/-!
The characters of a YAML text with their places in it, and the classes of characters that its tokens
are cut by. The line ends of the text are already unified.
-/

namespace WitCaller.Yaml

/-- Why a text has no value: it is no YAML document, or a scalar in it denotes nothing. -/
inductive Fault where
  | malformed
  | value (message : String)
  deriving DecidableEq, Repr

/-- A character with its place. -/
structure Glyph where
  char : Char
  index : Nat
  line : Nat
  column : Nat
  deriving DecidableEq, Repr

/-- Line ends. -/
def isBreak (c : Char) : Bool := c == '\n' || c == '\x85' || c == '\u2028' || c == '\u2029'

/-- Blanks within a line. -/
def isGap (c : Char) : Bool := c == ' ' || c == '\t'

/-- A line end as it counts in the text of a scalar. -/
def lineEnd (c : Char) : Char := if c = '\x85' then '\n' else c

def byteOrderMark : Char := '\uFEFF'

/-- Whether a character may stand in a YAML text. -/
def isPrintable (c : Char) : Bool :=
  c == '\t' || c == '\n' || c == '\r' || (' ' ≤ c && c ≤ '~') || c == '\x85' ||
    (0xA0 ≤ c.toNat && c.toNat ≠ 0xFFFE && c.toNat ≠ 0xFFFF)

/-- The characters of a text that continues at the given place. A byte order mark takes no column. -/
def glyphsFrom (index line column : Nat) : List Char → List Glyph
  | [] => []
  | c :: r =>
    ⟨c, index, line, column⟩ ::
      if isBreak c then glyphsFrom (index + 1) (line + 1) 0 r
      else if c = byteOrderMark then glyphsFrom (index + 1) line column r
      else glyphsFrom (index + 1) line (column + 1) r

/-- The characters of a text, without a byte order mark at its start. -/
def glyphs (s : List Char) : List Glyph :=
  match glyphsFrom 0 0 0 s with
  | g :: r => if g.char = byteOrderMark then r else g :: r
  | [] => []

/-- Whether the text goes on with this character. -/
def startsWith (c : Char) : List Glyph → Bool
  | [] => false
  | g :: _ => g.char == c

/-- Whether the text goes on with one of these characters. -/
def startsIn (cs : List Char) : List Glyph → Bool
  | [] => false
  | g :: _ => cs.contains g.char

/-- Whether a line ends here. -/
def endsLine : List Glyph → Bool
  | [] => true
  | g :: _ => isBreak g.char

/-- Whether a word ends here: at a blank, at a line end or at the end of the text. -/
def endsWord : List Glyph → Bool
  | [] => true
  | g :: _ => isGap g.char || isBreak g.char

/-- Whether a word ends here, where a tab would not end it. -/
def endsStrictly : List Glyph → Bool
  | [] => true
  | g :: _ => g.char == ' ' || isBreak g.char

/-- Whether three of this character stand here as a word. -/
def isTripled (m : Char) : List Glyph → Bool
  | a :: b :: c :: r => a.char == m && b.char == m && c.char == m && endsWord r
  | _ => false

/-- Whether the start or the end of a document is marked here. -/
def isDocumentMark (s : List Glyph) : Bool := isTripled '-' s || isTripled '.' s

/-- The characters of the front of a text that satisfy `p`, and what follows them. -/
def takeRun (p : Char → Bool) (s : List Glyph) : List Char × List Glyph :=
  ((s.takeWhile (p ·.char)).map (·.char), s.dropWhile (p ·.char))

/-- What a line end and more line ends after it count for in a text whose lines are joined: a single
one is a space. -/
def joined (first : Char) (more : List Char) : List Char :=
  if lineEnd first ≠ '\n' then lineEnd first :: more
  else if more = [] then [' ']
  else more

/-- The rest of a line that holds nothing but a comment, and its line end. -/
def emptyLine (s : List Glyph) : Except Fault (List Glyph) :=
  let r := s.dropWhile (·.char == ' ')
  let r := if startsWith '#' r then r.dropWhile (!isBreak ·.char) else r
  if endsLine r then .ok (r.drop 1) else .error .malformed

end WitCaller.Yaml
