import WitCaller.Assoc
import WitCaller.Yaml.Kind
import WitCaller.Yaml.Lexing

/-!
The tree of a YAML document: scalars, sequences and mappings with their kinds, in which every alias
is replaced by what its anchor names.
-/

namespace WitCaller.Yaml

inductive Node where
  | scalar (kind : Kind) (text : String)
  | sequence (kind : Kind) (items : List Node)
  | mapping (kind : Kind) (pairs : List (Node × Node))
  /-- An alias of a collection that it stands in. -/
  | enclosing (isMapping : Bool)
  deriving Repr, Inhabited

namespace Node

/-- What is left to read of a document. -/
structure Source where
  tokens : List Token
  /-- The fault that ends the tokens. -/
  fault : Option Fault
  anchors : List (String × Node)
  /-- What the handles of tags stand for. -/
  handles : List (String × String)

abbrev Composing := StateT Source (Except Fault)

def fail {α : Type} : Composing α := throw .malformed

/-- The next token, or nothing at the end. -/
def peek : Composing (Option Token) := do
  let s ← get
  match s.tokens, s.fault with
  | t :: _, _ => return some t
  | [], some fault => throw fault
  | [], none => return none

def skip : Composing Unit := modify fun s => { s with tokens := s.tokens.drop 1 }

/-- Whether the next token is this one; it is read if so. -/
def accept (t : Token) : Composing Bool := do
  if (← peek) = some t then skip; return true else return false

/-- Whether the next token is one of these. -/
def nextIsIn (ts : List Token) : Composing Bool := do
  match ← peek with
  | some t => return ts.contains t
  | none => return false

def anchor? : Composing (Option String) := do
  match ← peek with
  | some (.anchor name) => skip; return some name
  | _ => return none

/-- A tag in full; an unknown handle is a fault. -/
def tag? : Composing (Option (Option String × String)) := do
  match ← peek with
  | some (.tag handle suffix) => skip; return some (handle, suffix)
  | _ => return none

def fullTag : Option String × String → Composing String
  | (none, suffix) => return suffix
  | (some handle, suffix) => do
    match Assoc.get? handle (← get).handles with
    | some lead => return lead ++ suffix
    | none => fail

/-- An anchor and a tag, in either order and each optional. -/
def properties : Composing (Option String × Option String) := do
  let (anchor, tag) ←
    match ← anchor? with
    | some name => pure (some name, ← tag?)
    | none =>
      let tag ← tag?
      if tag.isSome then pure (← anchor?, tag) else pure (none, none)
  match tag with
  | none => return (anchor, none)
  | some t => return (anchor, some (← fullTag t))

/-- Names a node, for the aliases after it. -/
def name (anchor : Option String) (n : Node) : Composing Node := do
  match anchor with
  | some a => modify fun s => { s with anchors := Assoc.insert a n s.anchors }
  | none => pure ()
  return n

/-- The kind of a scalar. Without a tag, and with the tag that leaves it open, the text decides,
unless it is in quotes. -/
def scalarKind (tag : Option String) (plain : Bool) (text : String) : Kind :=
  match tag with
  | none => if plain then .ofPlain text.toList else .text
  | some "!" => .ofPlain text.toList
  | some t => .ofTag t

/-- The kind of a collection. -/
def collectionKind (own : Kind) : Option String → Kind
  | none => own
  | some "!" => own
  | some t => .ofTag t

/-- The scalar that stands where nothing is written. -/
def empty : Node := .scalar .null ""

/-- The tokens before which nothing is written for the value of a block mapping. -/
def endsBlockValue : List Token := [.key, .value, .blockEnd]

mutual

/-- A node. Block collections count only if `block` is set; a sequence without a block of its own
only if `loose` is set as well. -/
def node (fuel : Nat) (block loose : Bool) : Composing Node :=
  match fuel with
  | 0 => fail
  | fuel + 1 => do
    match ← peek with
    | some (.alias a) =>
      skip
      match Assoc.get? a (← get).anchors with
      | some n => return n
      | none => fail
    | _ =>
      let (anchor, tag) ← properties
      let next ← peek
      let known := (← get).anchors
      if anchor.any fun a => (Assoc.get? a known).isSome then fail
      let sequence (items : Composing (List Node)) : Composing Node := do
        discard <| name anchor (.enclosing false)
        name anchor (.sequence (collectionKind .sequence tag) (← items))
      let mapping (pairs : Composing (List (Node × Node))) : Composing Node := do
        discard <| name anchor (.enclosing true)
        name anchor (.mapping (collectionKind .mapping tag) (← pairs))
      match next with
      | some (.scalar plain text) =>
        skip
        name anchor (.scalar (scalarKind tag plain text) text)
      | some .flowSequenceStart => skip; sequence (flowItems fuel true)
      | some .flowMappingStart => skip; mapping (flowPairs fuel true)
      | some .blockSequenceStart =>
        if block then skip; sequence (blockItems fuel false)
        else if anchor.isSome || tag.isSome then name anchor (.scalar (scalarKind tag true "") "")
        else fail
      | some .blockMappingStart =>
        if block then skip; mapping (blockPairs fuel)
        else if anchor.isSome || tag.isSome then name anchor (.scalar (scalarKind tag true "") "")
        else fail
      | t =>
        if loose && t == some .blockEntry then sequence (blockItems fuel true)
        else if anchor.isSome || tag.isSome then name anchor (.scalar (scalarKind tag true "") "")
        else fail

/-- A node, unless one of these tokens shows that there is none. -/
def nodeUnless (fuel : Nat) (ends : List Token) (block loose : Bool) : Composing Node :=
  match fuel with
  | 0 => fail
  | fuel + 1 => do
    if ← nextIsIn ends then return empty else node fuel block loose

/-- The items of a block sequence. One that is loose ends where no dash follows. -/
def blockItems (fuel : Nat) (loose : Bool) : Composing (List Node) :=
  match fuel with
  | 0 => fail
  | fuel + 1 => do
    if ← accept .blockEntry then
      let ends : List Token :=
        if loose then [.blockEntry, .key, .value, .blockEnd] else [.blockEntry, .blockEnd]
      let item ← nodeUnless fuel ends true false
      return item :: (← blockItems fuel loose)
    else if loose then return []
    else if ← accept .blockEnd then return []
    else fail

/-- The entries of a block mapping. -/
def blockPairs (fuel : Nat) : Composing (List (Node × Node)) :=
  match fuel with
  | 0 => fail
  | fuel + 1 => do
    if ← accept .key then
      let k ← nodeUnless fuel endsBlockValue true true
      let v ← if ← accept .value then nodeUnless fuel endsBlockValue true true else pure empty
      return (k, v) :: (← blockPairs fuel)
    else if ← accept .blockEnd then return []
    else fail

/-- A key of a flow collection and its value. -/
def flowPair (fuel : Nat) (close : Token) : Composing (Node × Node) :=
  match fuel with
  | 0 => fail
  | fuel + 1 => do
    let k ← nodeUnless fuel [.value, .flowEntry, close] false false
    let v ← if ← accept .value then nodeUnless fuel [.flowEntry, close] false false else pure empty
    return (k, v)

/-- The items of a flow sequence. A key makes a mapping with one entry. -/
def flowItems (fuel : Nat) (first : Bool) : Composing (List Node) :=
  match fuel with
  | 0 => fail
  | fuel + 1 => do
    if ← accept .flowSequenceEnd then return []
    unless first do
      unless ← accept .flowEntry do fail
    if ← accept .key then
      let pair ← flowPair fuel .flowSequenceEnd
      return .mapping .mapping [pair] :: (← flowItems fuel false)
    else if ← accept .flowSequenceEnd then return []
    else
      let item ← node fuel false false
      return item :: (← flowItems fuel false)

/-- The entries of a flow mapping. A key may be without a value. -/
def flowPairs (fuel : Nat) (first : Bool) : Composing (List (Node × Node)) :=
  match fuel with
  | 0 => fail
  | fuel + 1 => do
    if ← accept .flowMappingEnd then return []
    unless first do
      unless ← accept .flowEntry do fail
    if ← accept .key then
      let pair ← flowPair fuel .flowMappingEnd
      return pair :: (← flowPairs fuel false)
    else if ← accept .flowMappingEnd then return []
    else
      let k ← node fuel false false
      return (k, empty) :: (← flowPairs fuel false)

end

/-- The handles that need no directive. -/
def defaultHandles : List (String × String) := [("!", "!"), ("!!", Kind.standard)]

/-- The directives before a document: one version at most, which has to be 1, and one meaning for
each handle. -/
def directives (versioned : Bool) (handles : List (String × String)) :
    List Token → Except Fault (List (String × String) × List Token)
  | .directive (.version major) :: r =>
    if versioned || major ≠ 1 then .error .malformed else directives true handles r
  | .directive (.tag handle lead) :: r =>
    if (Assoc.get? handle handles).isSome then .error .malformed
    else directives versioned ((handle, lead) :: handles) r
  | .directive .other :: r => directives versioned handles r
  | r => .ok (handles, r)

/-- The content of a document up to its end: a node, or nothing before the next mark. -/
def content (fuel : Nat) : Composing Node := do
  match ← peek with
  | none => return empty
  | some (.directive _) => return empty
  | some .documentStart => return empty
  | some .documentEnd => return empty
  | some _ => node fuel true false

/-- Marks of the end of a document. -/
def documentEnds (fuel : Nat) : Composing Unit :=
  match fuel with
  | 0 => pure ()
  | fuel + 1 => do
    if ← accept .documentEnd then documentEnds fuel

/-- The only document of a text, or nothing if it has none. -/
def document : Composing (Option Node) := do
  let fuel := 4 * (← get).tokens.length + 8
  match ← peek with
  | none => return none
  | some .documentEnd => fail
  | some _ =>
    let s ← get
    let (handles, rest) ← directives false [] s.tokens
    let explicit := (rest.head? == some .documentStart) || rest.length < s.tokens.length
    let handles := handles ++ defaultHandles
    set { s with tokens := rest, handles := handles }
    let root ←
      if explicit then
        if ← accept .documentStart then content fuel else fail
      else node fuel true false
    documentEnds fuel
    if (← peek).isSome then fail
    return some root

/-- The document that a text spells. -/
def read? (s : List Char) : Except Fault (Option Node) := do
  let (tokens, fault) := tokens s
  let (root, _) ← document.run ⟨tokens, fault, [], []⟩
  return root

end Node

end WitCaller.Yaml
