import WitCaller.Yaml.BlockText
import WitCaller.Yaml.PlainText
import WitCaller.Yaml.Token

/-!
The tokens of a YAML text. Block collections have no marks of their own: their starts and ends follow
from the columns. A key is known as one by the colon after it only, so the token that it could start
with is remembered, and its marks are put in front of it later.
-/

namespace WitCaller.Yaml

/-- A token that a key may start with. -/
structure KeyStart where
  /-- The number of tokens before it. -/
  before : Nat
  /-- Whether nothing but a key can stand there. -/
  required : Bool
  glyph : Glyph

/-- Whether a key can no longer go on at `g`: it ends on its line, within 1024 characters. -/
def KeyStart.isStale (k : KeyStart) (g : Glyph) : Bool :=
  k.glyph.line != g.line || g.index - k.glyph.index > 1024

/-- The state between two tokens. A block collection is known by its margin, one more than its
column; outside all collections the margin is zero. -/
structure Lexing where
  rest : List Glyph
  tokens : Array Token
  margin : Nat
  outerMargins : List Nat
  keyAllowed : Bool
  keyStart : Option KeyStart
  /-- The key starts of the collections around, one for each flow collection that is open. -/
  outerKeyStarts : List (Option KeyStart)

namespace Lexing

def ofGlyphs (s : List Glyph) : Lexing := ⟨s, #[], 0, [], true, none, []⟩

def inFlow (l : Lexing) : Bool := !l.outerKeyStarts.isEmpty

def push (l : Lexing) (t : Token) : Lexing := { l with tokens := l.tokens.push t }

/-- Blanks, comments and line ends before a token, and whether a line ended among them. -/
def skipGap (inComment : Bool) : List Glyph → Bool × List Glyph
  | [] => (false, [])
  | g :: r =>
    if isBreak g.char then (true, (skipGap false r).2)
    else if inComment || g.char == '#' then skipGap true r
    else if g.char = ' ' then skipGap false r
    else (false, g :: r)

/-- Forgets a key start that is too far from `g`. -/
def dropStale (g : Glyph) : Option KeyStart → Except Fault (Option KeyStart)
  | none => .ok none
  | some k =>
    if k.isStale g then if k.required then .error .malformed else .ok none
    else .ok (some k)

/-- Moves to the next token. -/
def advance (l : Lexing) : Except Fault Lexing := do
  let (broke, rest) := skipGap false l.rest
  let l := { l with rest := rest, keyAllowed := l.keyAllowed || (broke && !l.inFlow) }
  match rest with
  | [] => return l
  | g :: _ =>
    return { l with
      keyStart := ← dropStale g l.keyStart
      outerKeyStarts := ← l.outerKeyStarts.mapM (dropStale g) }

/-- Ends the block collections whose margin is above the given one. -/
def closeBlocks (margin : Nat) (l : Lexing) : Lexing :=
  if l.inFlow then l else go l.margin l.outerMargins l.tokens
where
  /-- The collections from the innermost on. -/
  go (current : Nat) : List Nat → Array Token → Lexing
    | [], tokens =>
      if margin < current then
        { l with margin := 0, outerMargins := [], tokens := tokens.push .blockEnd }
      else { l with margin := current, outerMargins := [], tokens }
    | outer :: r, tokens =>
      if margin < current then go outer r (tokens.push .blockEnd)
      else { l with margin := current, outerMargins := outer :: r, tokens }

/-- Starts a block collection at a column, unless one has started there; `start` tells where its mark
goes. -/
def openBlock (column : Nat) (start : Token) (before : Nat) (l : Lexing) : Lexing :=
  if l.inFlow || column < l.margin then l
  else { l with
    margin := column + 1
    outerMargins := l.margin :: l.outerMargins
    tokens := l.tokens.insertIdxIfInBounds before start }

/-- Forgets that a key might have started. -/
def dropKeyStart (l : Lexing) : Except Fault Lexing :=
  match l.keyStart with
  | some k => if k.required then .error .malformed else .ok { l with keyStart := none }
  | none => .ok l

/-- Remembers that a key may start at `g`. -/
def saveKeyStart (g : Glyph) (l : Lexing) : Except Fault Lexing := do
  if l.keyAllowed then
    let l ← l.dropKeyStart
    return { l with
      keyStart := some ⟨l.tokens.size, !l.inFlow && l.margin == g.column + 1, g⟩ }
  else return l

/-- A token that may start a key. -/
def scalarLike (l : Lexing) (g : Glyph) (x : Except Fault (Token × List Glyph)) :
    Except Fault Lexing := do
  let l ← l.saveKeyStart g
  let (token, rest) ← x
  return { l.push token with rest := rest, keyAllowed := false }

/-- The mark of a document, before which all blocks end. -/
def documentMark (l : Lexing) (token : Token) (rest : List Glyph) : Except Fault Lexing := do
  let l ← (l.closeBlocks 0).dropKeyStart
  return { l.push token with rest := rest, keyAllowed := false }

def openFlow (l : Lexing) (g : Glyph) (token : Token) (rest : List Glyph) : Except Fault Lexing := do
  let l ← l.saveKeyStart g
  return { l.push token with
    rest := rest
    keyAllowed := true
    keyStart := none
    outerKeyStarts := l.keyStart :: l.outerKeyStarts }

def closeFlow (l : Lexing) (token : Token) (rest : List Glyph) : Except Fault Lexing := do
  let l ← l.dropKeyStart
  match l.outerKeyStarts with
  | [] => throw .malformed
  | k :: ks =>
    return { l.push token with
      rest := rest
      keyAllowed := false
      keyStart := k
      outerKeyStarts := ks }

/-- A comma between the entries of a flow collection. -/
def flowEntry (l : Lexing) (rest : List Glyph) : Except Fault Lexing := do
  let l ← l.dropKeyStart
  return { l.push .flowEntry with rest := rest, keyAllowed := true }

/-- The dash of an entry, with the start of its sequence. -/
def blockEntry (l : Lexing) (g : Glyph) (rest : List Glyph) : Except Fault Lexing := do
  if !l.inFlow && !l.keyAllowed then throw .malformed
  let l ← (l.openBlock g.column .blockSequenceStart l.tokens.size).dropKeyStart
  return { l.push .blockEntry with rest := rest, keyAllowed := true }

/-- The question mark of a key, with the start of its mapping. -/
def explicitKey (l : Lexing) (g : Glyph) (rest : List Glyph) : Except Fault Lexing := do
  if !l.inFlow && !l.keyAllowed then throw .malformed
  let l ← (l.openBlock g.column .blockMappingStart l.tokens.size).dropKeyStart
  return { l.push .key with rest := rest, keyAllowed := !l.inFlow }

/-- The colon of a value. If a key could start before it, it did, and a mapping may have started with
it. -/
def value (l : Lexing) (g : Glyph) (rest : List Glyph) : Except Fault Lexing := do
  match l.keyStart with
  | some k =>
    let l := { l with
      keyStart := none
      tokens := l.tokens.insertIdxIfInBounds k.before .key }
    let l := l.openBlock k.glyph.column .blockMappingStart k.before
    return { l.push .value with rest := rest, keyAllowed := false }
  | none =>
    if !l.inFlow && !l.keyAllowed then throw .malformed
    let l := l.openBlock g.column .blockMappingStart l.tokens.size
    return { l.push .value with rest := rest, keyAllowed := !l.inFlow }

/-- The text of a block, after which a key may start. -/
def block (l : Lexing) (folded : Bool) (r : List Glyph) : Except Fault Lexing := do
  let l ← l.dropKeyStart
  let (text, rest) ← blockText folded l.margin r
  return { l.push (.scalar false (String.ofList text)) with rest := rest, keyAllowed := true }

/-- The text of a scalar without quotes. A key may start after it if a line end follows it. -/
def plain (l : Lexing) (g : Glyph) (r : List Glyph) : Except Fault Lexing := do
  let l ← l.saveKeyStart g
  let p := plainText l.inFlow l.margin (g :: r)
  return { l.push (.scalar true (String.ofList p.text)) with
    rest := p.rest
    keyAllowed := p.brokeLine }

/-- Whether a scalar without quotes may start here. -/
def startsPlain (inFlow : Bool) (g : Glyph) (r : List Glyph) : Bool :=
  let marks := "-?:,[]\x7b\x7d#&*!|>\x27\x22%@\x60".toList
  (!isGap g.char && !isBreak g.char && !marks.contains g.char) ||
    (!endsWord r && (g.char == '-' || (!inFlow && (g.char == '?' || g.char == ':'))))

/-- The token that starts with `g`, with the marks that go before it. -/
def next (l : Lexing) (g : Glyph) (r : List Glyph) : Except Fault Lexing :=
  let atLineStart := g.column == 0
  let named (token : String → Token) : Except Fault (Token × List Glyph) := do
    let (name, rest) ← anchorName r
    return (token name, rest)
  let quoted (double : Bool) : Except Fault (Token × List Glyph) := do
    let (text, rest) ← quotedText double r
    return (.scalar false (String.ofList text), rest)
  if g.char = '%' ∧ atLineStart then do
    let (d, rest) ← directive r
    l.documentMark (.directive d) rest
  else if atLineStart ∧ isTripled '-' (g :: r) then l.documentMark .documentStart (r.drop 2)
  else if atLineStart ∧ isTripled '.' (g :: r) then l.documentMark .documentEnd (r.drop 2)
  else if g.char = '[' then l.openFlow g .flowSequenceStart r
  else if g.char = '\x7b' then l.openFlow g .flowMappingStart r
  else if g.char = ']' then l.closeFlow .flowSequenceEnd r
  else if g.char = '\x7d' then l.closeFlow .flowMappingEnd r
  else if g.char = ',' then l.flowEntry r
  else if g.char = '-' ∧ endsWord r then l.blockEntry g r
  else if g.char = '?' ∧ (l.inFlow || endsWord r) then l.explicitKey g r
  else if g.char = ':' ∧ (l.inFlow || endsWord r) then l.value g r
  else if g.char = '*' then l.scalarLike g (named .alias)
  else if g.char = '&' then l.scalarLike g (named .anchor)
  else if g.char = '!' then l.scalarLike g (tag (g :: r))
  else if g.char = '|' ∧ !l.inFlow then l.block false r
  else if g.char = '>' ∧ !l.inFlow then l.block true r
  else if g.char = '\x27' then l.scalarLike g (quoted false)
  else if g.char = '\x22' then l.scalarLike g (quoted true)
  else if startsPlain l.inFlow g r then l.plain g r
  else .error .malformed

/-- The tokens that no key mark can still go in front of. -/
def settled (l : Lexing) : Array Token :=
  let isOpen (k : KeyStart) : Bool := l.rest.head?.all fun g => !k.isStale g
  let starts := ((l.keyStart :: l.outerKeyStarts).filterMap id).filter isOpen
  l.tokens.take ((starts.map KeyStart.before).foldl min l.tokens.size)

/-- All tokens from here on. Up to the first fault, those count that no key mark can still go in
front of. -/
def run (l : Lexing) : Array Token × Option Fault :=
  match l.advance with
  | .error fault => (l.settled, some fault)
  | .ok l' =>
    match l'.rest with
    | [] =>
      match (l'.closeBlocks 0).dropKeyStart with
      | .error fault => (l.settled, some fault)
      | .ok done => (done.tokens, none)
    | g :: r =>
      match (l'.closeBlocks (g.column + 1)).next g r with
      | .error fault => (l.settled, some fault)
      | .ok l'' =>
        if _h : l''.rest.length < l.rest.length then l''.run else (l.settled, some .malformed)
termination_by l.rest.length

end Lexing

/-- The tokens of a text, and the fault that ends them, if one does. -/
def tokens (s : List Char) : List Token × Option Fault :=
  if s.all isPrintable then
    let (tokens, fault) := (Lexing.ofGlyphs (glyphs s)).run
    (tokens.toList, fault)
  else ([], some .malformed)

end WitCaller.Yaml
