import WitCaller.Text.Digit
import WitCaller.Yaml.Glyph

/-!
The kinds of YAML values. A tag names one; of a scalar without tag and quotes, the form of the text
decides.
-/

namespace WitCaller.Yaml

inductive Kind where
  | null
  | boolean
  | integer
  | real
  | bytes
  | time
  | text
  | sequence
  | mapping
  | set
  /-- Pairs in order, written as a sequence of mappings with one entry each. -/
  | pairs
  /-- The key of mappings whose entries are taken over. -/
  | merge
  /-- The key of the entry that stands for its mapping where a scalar is expected. -/
  | value
  | unknown
  deriving DecidableEq, Repr

namespace Kind

/-- What the tags of the standard kinds start with. -/
def standard : String := "tag:yaml.org,2002:"

def ofName : String → Kind
  | "null" => .null
  | "bool" => .boolean
  | "int" => .integer
  | "float" => .real
  | "binary" => .bytes
  | "timestamp" => .time
  | "str" => .text
  | "seq" => .sequence
  | "map" => .mapping
  | "set" => .set
  | "omap" => .pairs
  | "pairs" => .pairs
  | "merge" => .merge
  | "value" => .value
  | _ => .unknown

/-- The kind that a full tag names. -/
def ofTag (tag : String) : Kind :=
  if standard.toList.isPrefixOf tag.toList then
    ofName (String.ofList (tag.toList.drop standard.length))
  else .unknown

/-- A text without its sign. -/
def unsigned : List Char → List Char
  | '-' :: r => r
  | '+' :: r => r
  | r => r

def isDigitOrUnderscore (c : Char) : Bool := c.isDigit || c == '_'

/-- A digit, and digits and underscores after it, up to what follows. -/
def afterNumber : List Char → Option (List Char)
  | [] => none
  | c :: r => if c.isDigit then some (r.dropWhile isDigitOrUnderscore) else none

/-- Parts in base sixty, each after a colon: one digit, or two of which the first is below six. -/
def afterSixtieths : List Char → List Char
  | ':' :: a :: b :: r =>
    if b.isDigit then
      if '0' ≤ a ∧ a ≤ '5' then afterSixtieths r else ':' :: a :: b :: r
    else if a.isDigit then afterSixtieths (b :: r)
    else ':' :: a :: b :: r
  | [':', a] => if a.isDigit then [] else [':', a]
  | s => s

/-- Whether a text is empty or a signed exponent of ten. -/
def isExponent : List Char → Bool
  | [] => true
  | e :: sign :: c :: r =>
    (e == 'e' || e == 'E') && (sign == '+' || sign == '-') && c.isDigit && r.all Char.isDigit
  | _ => false

/-- A point and its digits, with an exponent after them, or without one. -/
def isFraction (withExponent : Bool) : List Char → Bool
  | '.' :: r =>
    let rest := r.dropWhile isDigitOrUnderscore
    if withExponent then isExponent rest else rest.isEmpty
  | _ => false

/-- Whether a text is a float: it needs a point, and a sign in its exponent. -/
def isReal (s : List Char) : Bool :=
  let u := unsigned s
  (match afterNumber u with
    | some r =>
      isFraction true r || (startsSixtieths r && isFraction false (afterSixtieths r))
    | none => false) ||
  (match s with
    | '.' :: c :: r => c.isDigit && isFraction true ('.' :: c :: r)
    | _ => false) ||
  [".inf".toList, ".Inf".toList, ".INF".toList].contains u ||
  [".nan".toList, ".NaN".toList, ".NAN".toList].contains s
where
  /-- Whether a part in base sixty follows. -/
  startsSixtieths (r : List Char) : Bool := (afterSixtieths r).length < r.length

/-- Whether a text is a whole number in base ten, two, eight, sixteen or sixty. -/
def isInteger (s : List Char) : Bool :=
  match unsigned s with
  | '0' :: 'b' :: c :: r => (c :: r).all fun c => c == '0' || c == '1' || c == '_'
  | '0' :: 'x' :: c :: r =>
    (c :: r).all fun c => c.isDigit || ('a' ≤ c && c ≤ 'f') || ('A' ≤ c && c ≤ 'F') || c == '_'
  | '0' :: r => r.all fun c => ('0' ≤ c && c ≤ '7') || c == '_'
  | c :: r =>
    c.isDigit && (afterSixtieths (r.dropWhile isDigitOrUnderscore)).isEmpty
  | [] => false

/-- The words for a truth value. -/
def booleans : List (String × Bool) :=
  [("yes", true), ("no", false), ("true", true), ("false", false), ("on", true), ("off", false)]

/-- A word in lower case, with a capital, or in upper case. -/
def spellings (word : String) : List String := [word, word.capitalize, word.toUpper]

def isBoolean (s : List Char) : Bool :=
  booleans.any fun (word, _) => (spellings word).contains (String.ofList s)

def isNull (s : List Char) : Bool := ("" :: "~" :: spellings "null").contains (String.ofList s)

/-- The parts of a date and a time. -/
structure Stamp where
  year : List Char
  month : List Char
  day : List Char
  /-- Hour, minute and second. -/
  clock : Option (List Char × List Char × List Char)
  /-- The sign, hours and minutes of the distance from world time. -/
  offset : Option (Bool × List Char × List Char)
  deriving Repr

/-- One digit or two. -/
def oneOrTwo : List Char → Option (List Char × List Char)
  | a :: b :: r =>
    if a.isDigit then if b.isDigit then some ([a, b], r) else some ([a], b :: r) else none
  | [a] => if a.isDigit then some ([a], []) else none
  | [] => none

/-- Exactly this many digits. -/
def exactly (count : Nat) (s : List Char) : Option (List Char × List Char) :=
  let digits := s.take count
  if digits.length = count ∧ digits.all Char.isDigit then some (digits, s.drop count) else none

/-- A text after a character that has to be there. -/
def after (c : Char) : List Char → Option (List Char)
  | [] => none
  | a :: r => if a = c then some r else none

/-- The distance from world time, up to the end of the text. -/
def offset? : List Char → Option (Option (Bool × List Char × List Char))
  | [] => some none
  | ['Z'] => some none
  | sign :: r =>
    if sign = '+' ∨ sign = '-' then do
      let (hours, r) ← oneOrTwo r
      match r with
      | [] => some (some (sign == '-', hours, []))
      | ':' :: r => do
        let (minutes, r) ← exactly 2 r
        if r.isEmpty then some (some (sign == '-', hours, minutes)) else none
      | _ => none
    else none

/-- Hour, minute and second, with a fraction that is not kept, and the distance from world time. -/
def clock? (s : List Char) :
    Option ((List Char × List Char × List Char) × Option (Bool × List Char × List Char)) := do
  let (hour, r) ← oneOrTwo s
  let (minute, r) ← exactly 2 (← after ':' r)
  let (second, r) ← exactly 2 (← after ':' r)
  let r :=
    match r with
    | '.' :: r => r.dropWhile Char.isDigit
    | r => r
  match r.dropWhile Yaml.isGap with
  | [] => if r.isEmpty then some ((hour, minute, second), none) else none
  | z => return ((hour, minute, second), ← offset? z)

/-- What stands between a date and a time: a letter or blanks. -/
def afterDateGap : List Char → Option (List Char)
  | 'T' :: r => some r
  | 't' :: r => some r
  | c :: r => if Yaml.isGap c then some (r.dropWhile Yaml.isGap) else none
  | [] => none

/-- A date, or a date and a time. -/
def stamp? (s : List Char) : Option Stamp := do
  let (year, r) ← exactly 4 s
  let (month, r) ← oneOrTwo (← after '-' r)
  let (day, r) ← oneOrTwo (← after '-' r)
  if r.isEmpty then some ⟨year, month, day, none, none⟩
  else
    let (clock, offset) ← clock? (← afterDateGap r)
    some ⟨year, month, day, some clock, offset⟩

/-- Whether a text is a date or a time. A date alone has two digits for the month and the day. -/
def isTime (s : List Char) : Bool :=
  match stamp? s with
  | some t => t.clock.isSome || (t.month.length == 2 && t.day.length == 2)
  | none => false

/-- The kind of a scalar whose text alone decides. -/
def ofPlain (s : List Char) : Kind :=
  if isBoolean s then .boolean
  else if isReal s then .real
  else if isInteger s then .integer
  else if s = ['<', '<'] then .merge
  else if isNull s then .null
  else if isTime s then .time
  else if s = ['='] then .value
  else if s = ['!'] ∨ s = ['&'] ∨ s = ['*'] then .unknown
  else .text

end Kind

end WitCaller.Yaml
