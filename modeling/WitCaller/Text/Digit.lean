import WitCaller.Text.Blank

/-!
Decimal digits of all scripts, and whole numbers written with them.
-/

namespace WitCaller.Text

/-- The zeros of the decimal systems of Unicode 14. The nine digits above each follow it. -/
def zeros : List Nat := [
    0x30, 0x660, 0x6F0, 0x7C0, 0x966, 0x9E6, 0xA66, 0xAE6, 0xB66, 0xBE6,
    0xC66, 0xCE6, 0xD66, 0xDE6, 0xE50, 0xED0, 0xF20, 0x1040, 0x1090, 0x17E0,
    0x1810, 0x1946, 0x19D0, 0x1A80, 0x1A90, 0x1B50, 0x1BB0, 0x1C40, 0x1C50, 0xA620,
    0xA8D0, 0xA900, 0xA9D0, 0xA9F0, 0xAA50, 0xABF0, 0xFF10, 0x104A0, 0x10D30, 0x11066,
    0x110F0, 0x11136, 0x111D0, 0x112F0, 0x11450, 0x114D0, 0x11650, 0x116C0, 0x11730, 0x118E0,
    0x11950, 0x11C50, 0x11D50, 0x11DA0, 0x16A60, 0x16AC0, 0x16B50, 0x1D7CE, 0x1D7D8, 0x1D7E2,
    0x1D7EC, 0x1D7F6, 0x1E140, 0x1E2F0, 0x1E950, 0x1FBF0]

/-- The value of a decimal digit. -/
def digit? (c : Char) : Option Nat :=
  zeros.findSome? fun z => if z ≤ c.toNat ∧ c.toNat < z + 10 then some (c.toNat - z) else none

/-- The value of a digit in a base up to 36, where ASCII letters follow the nine. -/
def digitIn? (base : Nat) (c : Char) : Option Nat :=
  let value? := digit? c <|>
    if c.isLower then some (c.toNat - 87) else if c.isUpper then some (c.toNat - 55) else none
  value?.filter (· < base)

/-- The number that digits spell after `acc`; one underscore may stand between two digits. -/
def natFrom? (base acc : Nat) : List Char → Option Nat
  | [] => some acc
  | '_' :: c :: r => (digitIn? base c).bind fun d => natFrom? base (acc * base + d) r
  | c :: r => (digitIn? base c).bind fun d => natFrom? base (acc * base + d) r

/-- The number that a text of digits spells. -/
def natIn? (base : Nat) : List Char → Option Nat
  | [] => none
  | c :: r => (digitIn? base c).bind fun d => natFrom? base d r

/-- A text without the mark of its base, which may stand before the digits. -/
def dropBaseMark (base : Nat) : List Char → List Char
  | '0' :: m :: r =>
    if (base = 16 ∧ (m = 'x' ∨ m = 'X')) ∨ (base = 8 ∧ (m = 'o' ∨ m = 'O')) ∨
        (base = 2 ∧ (m = 'b' ∨ m = 'B')) then
      match r with
      | '_' :: r' => r'
      | _ => r
    else '0' :: m :: r
  | s => s

/-- The most digits that a number in base ten may be written with. -/
def maxDigits : Nat := 4300

/-- The number of digits in a text. -/
def digitCount (s : List Char) : Nat := s.countP fun c => (digit? c).isSome

/-- The whole number that a text spells, with blanks around it and a sign before it allowed. -/
def intIn? (base : Nat) (s : List Char) : Option Int :=
  match trim s with
  | '-' :: r => (natIn? base (dropBaseMark base r)).map fun n => -(n : Int)
  | '+' :: r => (natIn? base (dropBaseMark base r)).map Int.ofNat
  | r => (natIn? base (dropBaseMark base r)).map Int.ofNat

/-- The whole number that a text spells in base ten, unless it has too many digits. -/
def int? (s : List Char) : Option Int :=
  if digitCount s ≤ maxDigits then intIn? 10 s else none

end WitCaller.Text
