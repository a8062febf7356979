/-!
Decimal numbers: a sign, a whole number and a power of ten.
-/

namespace WitCaller

/-- The number `± digits · 10 ^ exponent`. -/
structure Decimal where
  negative : Bool
  digits : Nat
  exponent : Int
  deriving DecidableEq, Repr

/-- A decimal number, or one of the values of a float that are none. -/
inductive DecimalValue where
  | finite (d : Decimal)
  | infinite (negative : Bool)
  | notANumber
  deriving DecidableEq, Repr

namespace Decimal

/-- The value of a run of digits after `acc`. -/
def natOf (base : Nat) (valueOf : Char → Nat) (acc : Nat) (digits : List Char) : Nat :=
  digits.foldl (fun n c => n * base + valueOf c) acc

/-- The value of an ASCII digit or letter as a digit. -/
def digitValue (c : Char) : Nat :=
  if c.isDigit then c.toNat - 48
  else if c.isLower then c.toNat - 87
  else c.toNat - 55

/-- The number that ASCII digits spell in a base up to 36. -/
def ofDigits (base : Nat) (digits : List Char) : Nat := natOf base digitValue 0 digits

/-- The decimal with these digits before and after the point, times a power of ten. -/
def ofParts (negative : Bool) (whole fraction : List Char) (exponent : Int) : Decimal :=
  ⟨negative, ofDigits 10 (whole ++ fraction), exponent - fraction.length⟩

end Decimal

end WitCaller
