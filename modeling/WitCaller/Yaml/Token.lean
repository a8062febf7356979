import WitCaller.Text.Utf8
import WitCaller.Yaml.QuotedText

/-!
The tokens of a YAML text, and the readers of those that start with a mark of their own: directives,
anchors, aliases and tags.
-/

namespace WitCaller.Yaml

/-- A line that starts with a percent sign. -/
inductive Directive where
  | version (major : Nat)
  | tag (handle lead : String)
  | other
  deriving DecidableEq, Repr

inductive Token where
  | directive (d : Directive)
  | documentStart
  | documentEnd
  | blockSequenceStart
  | blockMappingStart
  | blockEnd
  | flowSequenceStart
  | flowSequenceEnd
  | flowMappingStart
  | flowMappingEnd
  | flowEntry
  | blockEntry
  | key
  | value
  | alias (name : String)
  | anchor (name : String)
  | tag (handle : Option String) (suffix : String)
  | scalar (plain : Bool) (text : String)
  deriving DecidableEq, Repr

/-- The characters of a name. -/
def isNameChar (c : Char) : Bool := c.isAlphanum || c == '-' || c == '_'

/-- The characters of a tag that stand for themselves. -/
def isTagChar (c : Char) : Bool :=
  c.isAlphanum || "-;/?:@&=+$,_.!~*\x27()[]".toList.contains c

/-- The name of an anchor or an alias, which a blank or a mark has to follow. -/
def anchorName (s : List Glyph) : Except Fault (String × List Glyph) :=
  let (name, r) := takeRun isNameChar s
  if name.isEmpty || !(endsWord r || startsIn ['?', ':', ',', ']', '\x7d', '%', '@', '\x60'] r) then
    .error .malformed
  else .ok (String.ofList name, r)

/-- The handle of a tag: an exclamation mark, or a name between two of them. Before a space the first
stands alone. -/
def tagHandle : List Glyph → Except Fault (String × List Glyph)
  | [] => .error .malformed
  | g :: r =>
    if g.char ≠ '!' then .error .malformed
    else if startsWith ' ' r then .ok ("!", r)
    else
      let (name, r') := takeRun isNameChar r
      if startsWith '!' r' then .ok (String.ofList ('!' :: name ++ ['!']), r'.drop 1)
      else .error .malformed

/-- A run of bytes that are written with a percent sign and two digits each. -/
def percentBytes : List Glyph → Except Fault (Bytes × List Glyph)
  | g :: a :: b :: r =>
    if g.char = '%' then
      match Toml.hexValue? a.char, Toml.hexValue? b.char with
      | some x, some y => do
        let (bytes, rest) ← percentBytes r
        return (UInt8.ofNat (x * 16 + y) :: bytes, rest)
      | _, _ => .error .malformed
    else .ok ([], g :: a :: b :: r)
  | s => if startsWith '%' s then .error .malformed else .ok ([], s)

/-- The text of a tag, with the bytes after percent signs read as UTF-8. -/
def tagText (s : List Glyph) : Except Fault (List Char × List Glyph) :=
  let (run, r) := takeRun isTagChar s
  if startsWith '%' r then do
    let (bytes, rest) ← percentBytes r
    let decoded ←
      match Utf8.decode bytes with
      | .ok text => pure text
      | .error _ => throw .malformed
    if _h : rest.length < s.length then
      let (more, rest) ← tagText rest
      return (run ++ decoded ++ more, rest)
    else throw .malformed
  else .ok (run, r)
termination_by s.length

/-- The text of a tag, which may not be empty. -/
def tagSuffix (s : List Glyph) : Except Fault (String × List Glyph) := do
  let (text, rest) ← tagText s
  if text.isEmpty then .error .malformed else return (String.ofList text, rest)

/-- Whether a second exclamation mark comes before the end of the word. -/
def hasHandle : List Glyph → Bool
  | [] => false
  | g :: r => if g.char == ' ' || isBreak g.char then false else g.char == '!' || hasHandle r

/-- A tag: between angle brackets, alone, or after a handle. -/
def tag : List Glyph → Except Fault (Token × List Glyph)
  | [] => .error .malformed
  | g :: r => do
    let (token, rest) ←
      if startsWith '<' r then do
        let (suffix, rest) ← tagSuffix (r.drop 1)
        if startsWith '>' rest then pure (Token.tag none suffix, rest.drop 1) else throw .malformed
      else if endsWord r then pure (Token.tag none "!", r)
      else if hasHandle r then do
        let (handle, rest) ← tagHandle (g :: r)
        let (suffix, rest) ← tagSuffix rest
        pure (Token.tag (some handle) suffix, rest)
      else do
        let (suffix, rest) ← tagSuffix r
        pure (Token.tag (some "!") suffix, rest)
    if endsStrictly rest then return (token, rest) else throw .malformed

def dropSpaces (s : List Glyph) : List Glyph := s.dropWhile (·.char == ' ')

/-- A number of digits, at least one. -/
def versionNumber (s : List Glyph) : Except Fault (Nat × List Glyph) :=
  let (digits, r) := takeRun Char.isDigit s
  if digits.isEmpty then .error .malformed
  else .ok (digits.foldl (fun n c => n * 10 + (c.toNat - 48)) 0, r)

/-- The two numbers of a version, of which the second is not used. -/
def version (s : List Glyph) : Except Fault (Directive × List Glyph) := do
  let (major, r) ← versionNumber (dropSpaces s)
  if startsWith '.' r then
    let (_, rest) ← versionNumber (r.drop 1)
    if endsStrictly rest then return (.version major, rest) else throw .malformed
  else throw .malformed

/-- A handle and what it stands for. -/
def handleDefinition (s : List Glyph) : Except Fault (Directive × List Glyph) := do
  let (handle, r) ← tagHandle (dropSpaces s)
  if startsWith ' ' r then
    let (lead, rest) ← tagSuffix (dropSpaces r)
    if endsStrictly rest then return (.tag handle lead, rest) else throw .malformed
  else throw .malformed

/-- A directive after its percent sign, with its line end. -/
def directive (s : List Glyph) : Except Fault (Directive × List Glyph) := do
  let (name, r) := takeRun isNameChar s
  if name.isEmpty || !endsStrictly r then throw .malformed
  let (d, rest) ←
    if name = "YAML".toList then version r
    else if name = "TAG".toList then handleDefinition r
    else pure (.other, r.dropWhile (!isBreak ·.char))
  return (d, ← emptyLine rest)

end WitCaller.Yaml
