import WitCaller.Decimal

/-!
How a decimal number is written: with a point among its digits where it is neither large nor small,
and else with an exponent.
-/

namespace WitCaller

namespace Decimal

/-- The decisions of a notation. -/
structure Notation where
  /-- The exponents of the first digit that need no exponent in the text: from here … -/
  plainFrom : Int
  /-- … to below here. -/
  plainBelow : Int
  /-- The least number of digits of an exponent. -/
  exponentWidth : Nat
  infinity : String
  notANumber : String

variable (n : Notation)

/-- Digits with zeros before them. -/
def padded (width : Nat) (k : Nat) : List Char :=
  let digits := Nat.toDigits 10 k
  List.replicate (width - digits.length) '0' ++ digits

/-- A number with a point: a zero stands where no digit is before or after it. -/
def plainText (digits : List Char) (exponent : Int) : List Char :=
  if 0 ≤ exponent then digits ++ List.replicate exponent.toNat '0' ++ ['.', '0']
  else
    let places := exponent.natAbs
    let digits := List.replicate (places + 1 - digits.length) '0' ++ digits
    digits.take (digits.length - places) ++ '.' :: digits.drop (digits.length - places)

/-- A number with an exponent after its first digit and its fraction. -/
def scientificText (digits : List Char) (exponent : Int) : List Char :=
  let fraction := digits.drop 1
  digits.take 1 ++ (if fraction.isEmpty then [] else '.' :: fraction) ++
    'e' :: (if exponent < 0 then '-' else '+') :: padded n.exponentWidth exponent.natAbs

/-- A decimal in a notation. -/
def textIn (d : Decimal) : List Char :=
  let digits := Nat.toDigits 10 d.digits
  let first : Int := d.exponent + digits.length - 1
  let magnitude :=
    if n.plainFrom ≤ first ∧ first < n.plainBelow then plainText digits d.exponent
    else scientificText n digits first
  if d.negative then '-' :: magnitude else magnitude

end Decimal

/-- A number, or one of the values that are none, in a notation. -/
def DecimalValue.textIn (n : Decimal.Notation) : DecimalValue → List Char
  | .finite d => d.textIn n
  | .infinite negative => (if negative then ['-'] else []) ++ n.infinity.toList
  | .notANumber => n.notANumber.toList

end WitCaller
