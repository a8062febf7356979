import WitCaller.Toml.Literal
import WitCaller.Toml.Value

/-!
The TOML values that are written without quotes or brackets: booleans, dates and times, whole
numbers in four bases, and floats. Such a value is a whole run of the characters that they have.
-/

namespace WitCaller.Toml

def isOctal (c : Char) : Bool := '0' ≤ c && c ≤ '7'

def isBinary (c : Char) : Bool := c == '0' || c == '1'

def isHex (c : Char) : Bool := (hexValue? c).isSome

/-- More digits of a number; one underscore may stand before each. -/
def moreDigits (p : Char → Bool) : List Char → List Char × List Char
  | [] => ([], [])
  | '_' :: c :: r =>
    if p c then
      let (ds, rest) := moreDigits p r
      (c :: ds, rest)
    else ([], '_' :: c :: r)
  | c :: r =>
    if p c then
      let (ds, rest) := moreDigits p r
      (c :: ds, rest)
    else ([], c :: r)

theorem length_moreDigits_le (p : Char → Bool) (s : List Char) :
    (moreDigits p s).2.length ≤ s.length := by
  fun_induction moreDigits p s <;> simp_all <;> omega

/-- One digit or more. -/
def digits? (p : Char → Bool) (s : List Char) : Option (Reading (List Char) s) :=
  match s with
  | [] => none
  | c :: r =>
    if p c then
      some ⟨c :: (moreDigits p r).1, (moreDigits p r).2,
        Nat.lt_succ_of_le (length_moreDigits_le p r)⟩
    else none

/-- A sign, which may be missing: whether it is a minus, and what follows it. -/
def sign : List Char → Bool × List Char
  | '-' :: r => (true, r)
  | '+' :: r => (false, r)
  | r => (false, r)

theorem length_sign_le (s : List Char) : (sign s).2.length ≤ s.length := by
  fun_cases sign s <;> simp

def signed (negative : Bool) (n : Nat) : Int := if negative then -(n : Int) else n

/-- A whole number in base 16, 8 or 2. -/
def readPrefixed (s : List Char) : Option (Reading Value s) :=
  match s with
  | '0' :: 'x' :: r => do
    return (← digits? isHex r).lift fun ds => .integer (Decimal.ofDigits 16 ds)
  | '0' :: 'o' :: r => do
    return (← digits? isOctal r).lift fun ds => .integer (Decimal.ofDigits 8 ds)
  | '0' :: 'b' :: r => do
    return (← digits? isBinary r).lift fun ds => .integer (Decimal.ofDigits 2 ds)
  | _ => none

/-- The digits before the point: no zero stands before others. -/
def wholePart (s : List Char) : Option (Reading (List Char) s) :=
  match s with
  | '0' :: r => some (.done ['0'] r)
  | r => digits? Char.isDigit r

/-- A point and the digits after it, if they are there. -/
def fractionPart (s : List Char) : Option (Reading (List Char) s) :=
  match s with
  | '.' :: r => do return (← digits? Char.isDigit r).lift id
  | _ => none

/-- The mark and the digits of an exponent, if they are there. -/
def exponentPart (s : List Char) : Option (Reading Int s) :=
  match s with
  | c :: r => do
    if c = 'e' ∨ c = 'E' then
      return (← digits? Char.isDigit (sign r).2).liftOfLe
        (fun ds => signed (sign r).1 (Decimal.ofDigits 10 ds))
        (Nat.le_succ_of_le (length_sign_le r))
    else none
  | [] => none

/-- The value of a number without an exponent or with one. -/
def numberValue (negative : Bool) (whole : List Char) : Option (List Char) → Option Int → Value
  | none, none => .integer (signed negative (Decimal.ofDigits 10 whole))
  | fraction, exponent =>
    .real (.finite (Decimal.ofParts negative whole (fraction.getD []) (exponent.getD 0)))

/-- A whole number in base ten, or a float. -/
def readDecimal (s : List Char) : Option (Reading Value s) := do
  let negative := (sign s).1
  let digits ← wholePart (sign s).2
  let whole : Reading (List Char) s := digits.liftOfLe id (length_sign_le s)
  match fractionPart whole.rest with
  | none =>
    match exponentPart whole.rest with
    | none => return whole.lift fun w => numberValue negative w none none
    | some e => return whole.andThen (fun w e => numberValue negative w none (some e)) e
  | some f =>
    let number := whole.andThen Prod.mk f
    match exponentPart number.rest with
    | none => return number.lift fun n => numberValue negative n.1 (some n.2) none
    | some e => return number.andThen (fun n e => numberValue negative n.1 (some n.2) (some e)) e

/-- A word with a value of its own. -/
def readWord (s : List Char) : Option (Reading Value s) :=
  match s with
  | 't' :: 'r' :: 'u' :: 'e' :: r => some (.done (.boolean true) r)
  | 'f' :: 'a' :: 'l' :: 's' :: 'e' :: r =>
    some (.done (.boolean false) r)
  | 'i' :: 'n' :: 'f' :: r => some (.done (.real (.infinite false)) r)
  | 'n' :: 'a' :: 'n' :: r => some (.done (.real .notANumber) r)
  | '+' :: 'i' :: 'n' :: 'f' :: r =>
    some (.done (.real (.infinite false)) r)
  | '-' :: 'i' :: 'n' :: 'f' :: r =>
    some (.done (.real (.infinite true)) r)
  | '+' :: 'n' :: 'a' :: 'n' :: r =>
    some (.done (.real .notANumber) r)
  | '-' :: 'n' :: 'a' :: 'n' :: r =>
    some (.done (.real .notANumber) r)
  | _ => none

/-- Two digits as a number. -/
def pair? (a b : Char) : Option Nat :=
  if a.isDigit ∧ b.isDigit then some ((a.toNat - 48) * 10 + (b.toNat - 48)) else none

/-- The number of days of a month. -/
def monthLength (year month : Nat) : Nat :=
  if month = 2 then
    if year % 4 = 0 ∧ (year % 100 ≠ 0 ∨ year % 400 = 0) then 29 else 28
  else if month = 4 ∨ month = 6 ∨ month = 9 ∨ month = 11 then 30
  else 31

/-- A fraction of a second, if it is there. -/
def secondsFraction (s : List Char) : Option (Reading (List Char) s) :=
  match s with
  | '.' :: c :: r =>
    if c.isDigit then
      some ⟨'.' :: c :: r.takeWhile Char.isDigit, r.dropWhile Char.isDigit,
        Nat.lt_succ_of_lt (Nat.lt_succ_of_le (List.dropWhile_sublist Char.isDigit).length_le)⟩
    else none
  | _ => none

/-- A time of day. -/
def readClock (s : List Char) : Option (Reading (List Char) s) :=
  match s with
  | a :: b :: ':' :: c :: d :: ':' :: e :: f :: r => do
    let hour ← pair? a b
    let minute ← pair? c d
    let second ← pair? e f
    if hour < 24 ∧ minute < 60 ∧ second < 60 then
      let clock := [a, b, ':', c, d, ':', e, f]
      match secondsFraction r with
      | some x => return x.lift (clock ++ ·)
      | none => return .done clock r
    else none
  | _ => none

/-- The distance from universal time, if it is there. -/
def readOffset (s : List Char) : Option (Reading (List Char) s) :=
  match s with
  | 'Z' :: r => some (.done ['Z'] r)
  | 'z' :: r => some (.done ['z'] r)
  | c :: a :: b :: ':' :: d :: e :: r => do
    let hour ← pair? a b
    let minute ← pair? d e
    if (c = '+' ∨ c = '-') ∧ hour < 24 ∧ minute < 60 then
      return .done [c, a, b, ':', d, e] r
    else none
  | _ => none

/-- What may follow a date: a mark, a time of day and an offset. -/
def readTimeOfDate (s : List Char) : Option (Reading (List Char) s) :=
  match s with
  | c :: r => do
    if c = 'T' ∨ c = 't' ∨ c = ' ' then
      let clock ← readClock r
      match readOffset clock.rest with
      | some offset => return (clock.andThen (fun t o => c :: t ++ o) offset).lift id
      | none => return clock.lift (c :: ·)
    else none
  | [] => none

/-- A date, perhaps with a time; the day has to be one of the calendar. -/
def readDate (s : List Char) : Option (Reading Value s) :=
  match s with
  | a :: b :: c :: d :: '-' :: e :: f :: '-' :: g :: h :: r => do
    let century ← pair? a b
    let year ← pair? c d
    let month ← pair? e f
    let day ← pair? g h
    let year := century * 100 + year
    if 1 ≤ year ∧ 1 ≤ month ∧ month ≤ 12 ∧ 1 ≤ day ∧ day ≤ monthLength year month then
      let date := [a, b, c, d, '-', e, f, '-', g, h]
      match readTimeOfDate r with
      | some x => return x.lift fun t => .time (String.ofList (date ++ t))
      | none => return .done (.time (String.ofList date)) r
    else none
  | _ => none

/-- A time of day on its own. -/
def readTime (s : List Char) : Option (Reading Value s) := do
  return (← readClock s).lift fun t => .time (String.ofList t)

/-- A value without quotes or brackets at the front of a text. -/
def readBare (s : List Char) : Option (Reading Value s) :=
  readWord s <|> readDate s <|> readTime s <|> readPrefixed s <|> readDecimal s

/-- The characters of values without quotes or brackets. -/
def isScalar (c : Char) : Bool :=
  c.isAlphanum || c == '+' || c == '-' || c == '.' || c == ':' || c == '_'

/-- Whether a value without quotes or brackets goes on with `c` before `r`: a blank before a digit
may stand between a date and a time. -/
def goesOn (c : Char) (r : List Char) : Bool := isScalar c || (c == ' ' && r.head?.any Char.isDigit)

/-- The characters at the front of a text that can make a value, and what follows them. -/
def scalarRun : List Char → List Char × List Char
  | [] => ([], [])
  | c :: r => if goesOn c r then (c :: (scalarRun r).1, (scalarRun r).2) else ([], c :: r)

theorem length_scalarRun_le (s : List Char) : (scalarRun s).2.length ≤ s.length := by
  fun_induction scalarRun s <;> simp_all
  omega

/-- Any value without quotes or brackets. -/
def readScalar (s : List Char) : Option (Reading Value s) :=
  match s with
  | [] => none
  | c :: r =>
    if goesOn c r then do
      let x ← readBare (c :: (scalarRun r).1)
      if x.rest = [] then
        some ⟨x.value, (scalarRun r).2, Nat.lt_succ_of_le (length_scalarRun_le r)⟩
      else none
    else none

end WitCaller.Toml
