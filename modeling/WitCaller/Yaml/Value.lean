import WitCaller.Decimal.Shortest
import WitCaller.Text.Quoted
import WitCaller.Text.Search
import WitCaller.Yaml.Node

/-!
The values of YAML nodes. A mapping takes over the entries of the mappings that it merges, and has its
own entries after them, so that a later entry with the same key counts.
-/

namespace WitCaller.Yaml

/-- A value. Of a date or a time nothing is kept, and a float is kept as the shortest decimal that is
read as it. The pairs of an ordered mapping are sequences of two. -/
inductive Value where
  | null
  | boolean (b : Bool)
  | integer (n : Int)
  | real (r : DecimalValue)
  | text (s : String)
  | bytes (b : Bytes)
  | time
  | sequence (items : List Value)
  | mapping (entries : List (Value × Value))
  | set (items : List Value)
  deriving Repr, Inhabited

namespace Value

/-- Whether a value may be a key. -/
def isKey : Value → Bool
  | .sequence _ => false
  | .mapping _ => false
  | .set _ => false
  | _ => true

/-- Whether a value counts as nothing. -/
def isNothing : Value → Bool
  | .null => true
  | .boolean b => !b
  | .integer n => n == 0
  | .real (.finite d) => d.digits == 0
  | .real _ => false
  | .text s => s.isEmpty
  | .bytes b => b.isEmpty
  | .time => false
  | .sequence items => items.isEmpty
  | .mapping entries => entries.isEmpty
  | .set items => items.isEmpty

end Value

/-- A text that is no number of its kind. -/
def noInteger (base : Nat) (s : List Char) : Fault :=
  let count := Text.digitCount s
  if base = 10 ∧ Text.maxDigits < count then
    .value <| s!"Exceeds the limit ({Text.maxDigits} digits) for integer string conversion: " ++
      s!"value has {count} digits; use sys.set_int_max_str_digits() to increase the limit"
  else .value s!"invalid literal for int() with base {base}: {Text.quoted (String.ofList s)}"

/-- A whole number in a base. -/
def integerIn (base : Nat) (s : List Char) : Except Fault Int :=
  match if base = 10 then Text.int? s else Text.intIn? base s with
  | some n => .ok n
  | none => .error (noInteger base s)

/-- Whether the text has a minus before it, and the text without a sign. -/
def splitSign : List Char → Bool × List Char
  | '-' :: r => (true, r)
  | '+' :: r => (false, r)
  | r => (false, r)

/-- A whole number: in base two, sixteen, eight, sixty or ten. Underscores do not count. -/
def integerOf (s : List Char) : Except Fault Int := do
  let (negative, u) := splitSign (s.filter (· ≠ '_'))
  let n ←
    match u with
    | [] => throw .malformed
    | '0' :: 'b' :: r => integerIn 2 r
    | '0' :: 'x' :: r => integerIn 16 r
    | '0' :: r => if r.isEmpty then pure 0 else integerIn 8 ('0' :: r)
    | u =>
      if ':' ∈ u then
        let parts ← (Text.splitOn ':' u).mapM (integerIn 10)
        pure (parts.foldl (fun n d => n * 60 + d) 0)
      else integerIn 10 u
  return if negative then -n else n

/-- The ASCII digits for digits of any script. -/
def asciiDigit (c : Char) : Char :=
  match Text.digit? c with
  | some d => Nat.digitChar d
  | none => c

/-- The exponent at the end of a float. -/
def exponent? : List Char → Option Int
  | [] => some 0
  | e :: r =>
    if e = 'e' ∨ e = 'E' then
      let (negative, digits) := splitSign r
      if digits.isEmpty || !digits.all Char.isDigit then none
      else
        let n := Decimal.ofDigits 10 digits
        some (if negative then -(n : Int) else n)
    else none

/-- A float in base ten, or one of the words for values that are no numbers, with blanks around it
and a sign before it allowed. -/
def float? (s : List Char) : Option Float := do
  let (negative, u) := splitSign (Text.trim (s.map asciiDigit))
  let word := String.ofList (u.map Char.toLower)
  let sized (x : Float) : Float := if negative then -x else x
  if word = "inf" ∨ word = "infinity" then return sized (1 / 0)
  if word = "nan" then return 0 / 0
  let whole := u.takeWhile Char.isDigit
  let r := u.dropWhile Char.isDigit
  let (fraction, r) :=
    match r with
    | '.' :: r => (r.takeWhile Char.isDigit, r.dropWhile Char.isDigit)
    | r => ([], r)
  if whole.isEmpty && fraction.isEmpty then none
  else return (Decimal.ofParts negative whole fraction (← exponent? r)).toFloat

def floatOf (s : List Char) : Except Fault Float :=
  match float? s with
  | some x => .ok x
  | none => .error (.value s!"could not convert string to float: {Text.quoted (String.ofList s)}")

/-- The sum of parts in base sixty, of which the last comes first. -/
def sumOfSixtieths (total scale : Float) : List Float → Float
  | [] => total
  | x :: xs => sumOfSixtieths (total + x * scale) (scale * 60) xs

/-- A float in base ten or sixty. Underscores do not count. -/
def realOf (s : List Char) : Except Fault DecimalValue := do
  let (negative, u) := splitSign ((s.filter (· ≠ '_')).map Char.toLower)
  let x ←
    if s.isEmpty then throw .malformed
    else if u = ".inf".toList then pure (1 / 0)
    else if u = ".nan".toList then pure (0 / 0)
    else if ':' ∈ u then
      let parts ← (Text.splitOn ':' u).mapM floatOf
      pure (sumOfSixtieths 0 1 parts.reverse)
    else floatOf u
  return Decimal.shortest (if negative then -x else x)

/-- The number of days of a month. -/
def daysIn (year month : Nat) : Nat :=
  if month = 2 then
    if year % 4 = 0 ∧ (year % 100 ≠ 0 ∨ year % 400 = 0) then 29 else 28
  else if month = 4 ∨ month = 6 ∨ month = 9 ∨ month = 11 then 30
  else 31

/-- What is wrong with a date or a time, if anything is: the distance from world time is looked at
first, and then the largest parts before the smaller ones. -/
def stampFault? (t : Kind.Stamp) : Option String :=
  let number := Decimal.ofDigits 10
  offsetFault? t.offset <|>
    if number t.year = 0 then some "year 0 is out of range"
    else if number t.month = 0 ∨ 12 < number t.month then some "month must be in 1..12"
    else if number t.day = 0 ∨ daysIn (number t.year) (number t.month) < number t.day then
      some "day is out of range for month"
    else match t.clock with
      | none => none
      | some (hour, minute, second) =>
        if 23 < number hour then some "hour must be in 0..23"
        else if 59 < number minute then some "minute must be in 0..59"
        else if 59 < number second then some "second must be in 0..59"
        else none
where
  /-- A distance from world time has to be below a day. -/
  offsetFault? : Option (Bool × List Char × List Char) → Option String
    | none => none
    | some (negative, hours, minutes) =>
      let distance : Int :=
        (Decimal.ofDigits 10 hours * 60 + Decimal.ofDigits 10 minutes : Nat) * 60
      let seconds := if negative then -distance else distance
      if distance < 86400 then none
      else
        let rest := seconds.fmod 86400
        let shown := if rest = 0 then "" else s!", seconds={rest}"
        some <| "offset must be a timedelta strictly between -timedelta(hours=24) and " ++
          "timedelta(hours=24), not datetime.timedelta(" ++
          s!"days={seconds.fdiv 86400}{shown})."

/-- The value of a character of base 64. -/
def sixBits? (c : Char) : Option Nat :=
  if c.isUpper then some (c.toNat - 65)
  else if c.isLower then some (c.toNat - 71)
  else if c.isDigit then some (c.toNat + 4)
  else if c = '+' then some 62
  else if c = '/' then some 63
  else none

/-- Bytes in base 64. Characters of no meaning are skipped; `held` are the bits that wait for a byte,
`place` is the place in a group of four, and `pads` counts the equals signs in sequence. The text ends
where they fill a group. -/
def bytesOf (place held pads : Nat) : List Char → Option Bytes
  | [] => if place = 0 then some [] else none
  | '=' :: r =>
    if 2 ≤ place then
      if 4 ≤ place + pads + 1 then some [] else bytesOf place held (pads + 1) r
    else bytesOf place held pads r
  | c :: r =>
    match sixBits? c with
    | none => bytesOf place held pads r
    | some v =>
      match place with
      | 0 => bytesOf 1 v 0 r
      | 1 => (bytesOf 2 (v % 16) 0 r).map (UInt8.ofNat (held * 4 + v / 16) :: ·)
      | 2 => (bytesOf 3 (v % 4) 0 r).map (UInt8.ofNat (held * 16 + v / 4) :: ·)
      | _ => (bytesOf 0 0 0 r).map (UInt8.ofNat (held * 64 + v) :: ·)

/-- The value of a scalar of a kind. -/
def scalarValue (kind : Kind) (text : String) : Except Fault Value :=
  let s := text.toList
  match kind with
  | .null => .ok .null
  | .boolean =>
    match Assoc.get? text.toLower Kind.booleans with
    | some b => .ok (.boolean b)
    | none => .error .malformed
  | .integer => (integerOf s).map .integer
  | .real => (realOf s).map .real
  | .bytes =>
    if s.all (·.toNat < 128) then
      match bytesOf 0 0 0 s with
      | some b => .ok (.bytes b)
      | none => .error .malformed
    else .error .malformed
  | .time =>
    match Kind.stamp? s with
    | none => .error .malformed
    | some t =>
      match stampFault? t with
      | some message => .error (.value message)
      | none => .ok .time
  | .text => .ok (.text text)
  | _ => .error .malformed

/-- A value, and the fault in it that counts, with its depth: the shallowest, and of those the
first. -/
structure Built (α : Type) where
  result : α
  fault : Option (Nat × Fault)

namespace Built

variable {α β γ : Type}

def pure (a : α) : Built α := ⟨a, none⟩

def failed (depth : Nat) (f : Fault) (a : α) : Built α := ⟨a, some (depth, f)⟩

def ofExcept (depth : Nat) (default : α) : Except Fault α → Built α
  | .ok a => pure a
  | .error f => failed depth f default

/-- The fault that counts of two. -/
def firstFault : Option (Nat × Fault) → Option (Nat × Fault) → Option (Nat × Fault)
  | none, b => b
  | some a, none => some a
  | some a, some b => if b.1 < a.1 then some b else some a

def map (f : α → β) (a : Built α) : Built β := ⟨f a.result, a.fault⟩

def both (f : α → β → γ) (a : Built α) (b : Built β) : Built γ :=
  ⟨f a.result b.result, firstFault a.fault b.fault⟩

def all (as : List (Built α)) : Built (List α) := as.foldr (both List.cons) (pure [])

end Built

namespace Node

/-- The kind of a node. -/
def kind : Node → Kind
  | .scalar kind _ => kind
  | .sequence kind _ => kind
  | .mapping kind _ => kind
  | .enclosing isMapping => if isMapping then .mapping else .sequence

/-- The node as a text. -/
def asText : Node → Node
  | .scalar _ text => .scalar .text text
  | .sequence _ items => .sequence .text items
  | .mapping _ pairs => .mapping .text pairs
  | n => n

/-- The entries of a mapping after its merges: those of the merged mappings come first. The key `=`
is a text here. -/
def flatten : Nat → List (Node × Node) → Except Fault (List (Node × Node))
  | 0, _ => .error .malformed
  | fuel + 1, pairs => do
    let parts ← pairs.mapM fun (k, v) =>
      match k.kind, v with
      | .merge, .mapping _ inner => return (← flatten fuel inner, [])
      | .merge, .enclosing true => return ([], [])
      | .merge, .sequence _ items => do
        let inner ← items.mapM fun
          | .mapping _ inner => flatten fuel inner
          | .enclosing true => return []
          | _ => throw .malformed
        return (inner.reverse.flatten, [])
      | .merge, _ => throw .malformed
      | .value, v => return ([], [(k.asText, v)])
      | _, v => return ([], [(k, v)])
    return parts.flatMap (·.1) ++ parts.flatMap (·.2)

/-- The text of a mapping where a scalar is expected: that of its key `=`. -/
def scalarText? : Nat → Node → Option String
  | 0, _ => none
  | _ + 1, .scalar _ text => some text
  | fuel + 1, .mapping _ pairs =>
    (pairs.find? fun (k, _) => k.kind == .value).bind fun (_, v) => scalarText? fuel v
  | _, _ => none

/-- The value of a node at a depth. The items of a collection are one level deeper. -/
def valueAt : Nat → Nat → Node → Built Value
  | 0, depth, _ => .failed depth .malformed .null
  | fuel + 1, depth, n =>
    let inner := depth + 1
    let wrong : Built Value := .failed inner .malformed (.sequence [])
    let entry (k v : Node) : Built (Value × Value) :=
      let k := valueAt fuel inner k
      let k := if k.result.isKey then k
        else Built.both (fun a _ => a) k (.failed inner .malformed ())
      Built.both Prod.mk k (valueAt fuel inner v)
    let entries (pairs : List (Node × Node)) : Built (List (Value × Value)) :=
      match flatten fuel pairs with
      | .error f => .failed inner f []
      | .ok pairs => .all (pairs.map fun (k, v) => entry k v)
    match n.kind, n with
    | .unknown, _ => .failed depth .malformed .null
    | .merge, _ => .failed depth .malformed .null
    | .value, _ => .failed depth .malformed .null
    | .sequence, .enclosing _ => .pure (.sequence [])
    | .mapping, .enclosing _ => .pure (.mapping [])
    | .sequence, .sequence _ items =>
      (Built.all (items.map (valueAt fuel inner))).map Value.sequence
    | .sequence, _ => wrong
    | .pairs, .sequence _ items =>
      (Built.all (items.map fun item =>
        match item with
        | .mapping _ [(k, v)] =>
          Built.both (fun k v => Value.sequence [k, v]) (valueAt fuel inner k) (valueAt fuel inner v)
        | _ => wrong)).map Value.sequence
    | .pairs, _ => wrong
    | .mapping, .mapping _ pairs => (entries pairs).map Value.mapping
    | .mapping, _ => wrong
    | .set, .mapping _ pairs => (entries pairs).map fun es => .set (es.map (·.1))
    | .set, _ => wrong
    | kind, n =>
      match scalarText? fuel n with
      | some text => .ofExcept depth .null (scalarValue kind text)
      | none => .failed depth .malformed .null

/-- The depth of a node, with one for the node itself. -/
def levels : Node → Nat
  | .scalar _ _ => 1
  | .sequence _ items => 1 + levelsOfItems items
  | .mapping _ pairs => 1 + levelsOfPairs pairs
  | .enclosing _ => 1
where
  levelsOfItems : List Node → Nat
    | [] => 0
    | n :: r => max (levels n) (levelsOfItems r)
  levelsOfPairs : List (Node × Node) → Nat
    | [] => 0
    | (k, v) :: r => max (max (levels k) (levels v)) (levelsOfPairs r)

end Node

/-- The value of a YAML text; a text without a document has the value null. -/
def decode (s : List Char) : Except Fault Value := do
  match ← Node.read? s with
  | none => return .null
  | some n =>
    let built := n.valueAt (2 * n.levels + 2) 0
    match built.fault with
    | some (_, f) => throw f
    | none => return built.result

end WitCaller.Yaml
