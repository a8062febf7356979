import WitCaller.Decimal

/-!
The shortest decimal that identifies a float of 64 bits, found by exact arithmetic on its bits.
-/

namespace WitCaller.Decimal

/-- A finite float without its sign, `significand · 2 ^ power`. -/
structure Binary where
  significand : Nat
  power : Int
  /-- Whether the next smaller float is only half as far away as the next larger one. -/
  narrowBelow : Bool

/-- The finite float with the given bits. -/
def Binary.ofBits (bits : UInt64) : Binary :=
  let e := ((bits >>> 52) &&& 0x7FF).toNat
  let f := (bits &&& 0xFFFFFFFFFFFFF).toNat
  if e = 0 then ⟨f, -1074, false⟩ else ⟨Nat.pow 2 52 + f, (e : Int) - 1075, f == 0 && e > 1⟩

/-- How `a · 10 ^ i` compares with `n · 2 ^ j`. -/
def compareScaled (a : Nat) (i : Int) (n : Nat) (j : Int) : Ordering :=
  compare (a * Nat.pow 10 i.toNat * Nat.pow 2 (-j).toNat)
    (n * Nat.pow 2 j.toNat * Nat.pow 10 (-i).toNat)

/-- Whether `digits · 10 ^ exponent` is read as the float: whether it lies between the middles to its
two neighbours. The middles themselves are read as the neighbour with an even significand. -/
def Binary.isReadFrom (x : Binary) (digits : Nat) (exponent : Int) : Bool :=
  let low := compareScaled digits exponent
    (4 * x.significand - if x.narrowBelow then 1 else 2) (x.power - 2)
  let high := compareScaled digits exponent (4 * x.significand + 2) (x.power - 2)
  let even := x.significand % 2 == 0
  (low == .gt || (even && low == .eq)) && (high == .lt || (even && high == .eq))

/-- The whole part of the float divided by a power of ten. -/
def Binary.floorAt (x : Binary) (exponent : Int) : Nat :=
  x.significand * Nat.pow 2 x.power.toNat * Nat.pow 10 (-exponent).toNat /
    (Nat.pow 2 (-x.power).toNat * Nat.pow 10 exponent.toNat)

/-- The multiple of a power of ten that is read as the float: the nearer of its two neighbours, and
the even one of two equally near. -/
def Binary.atGrid (x : Binary) (exponent : Int) : Option Nat :=
  let below := x.floorAt exponent
  match x.isReadFrom below exponent, x.isReadFrom (below + 1) exponent with
  | true, true =>
    match compareScaled (2 * below + 1) exponent (2 * x.significand) x.power with
    | .gt => some below
    | .lt => some (below + 1)
    | .eq => some (if below % 2 = 0 then below else below + 1)
  | true, false => some below
  | false, true => some (below + 1)
  | false, false => none

/-- An exponent of ten above all digits of the float. -/
def Binary.scale (x : Binary) : Int :=
  let bits : Int := (x.significand.log2 : Int) + 1 + x.power
  let guess := if 0 ≤ bits then bits * 30103 / 100000 + 1 else bits * 30102 / 100000 + 1
  if x.floorAt (guess - 1) = 0 then guess - 1 else guess

/-- The digits without the zeros at their end. -/
def dropZeros : Nat → Nat → Int → Nat × Int
  | 0, digits, exponent => (digits, exponent)
  | fuel + 1, digits, exponent =>
    if digits % 10 = 0 then dropZeros fuel (digits / 10) (exponent + 1) else (digits, exponent)

/-- The fewest digits that are read as the float; seventeen are enough. -/
def Binary.shortest (x : Binary) : Nat × Int :=
  let grid := x.scale
  match (List.range 18).findSome? fun (n : Nat) => (x.atGrid (grid - n)).map (·, grid - n) with
  | some (digits, exponent) => dropZeros 18 digits exponent
  | none => (x.floorAt (grid - 17), grid - 17)

/-- The shortest decimal that is read as a float. -/
def shortest (x : Float) : DecimalValue :=
  let negative := x.toBits >>> 63 == 1
  if x.isNaN then .notANumber
  else if x.isInf then .infinite negative
  else
    let b := Binary.ofBits x.toBits
    if b.significand = 0 then .finite ⟨negative, 0, 0⟩
    else
      let (digits, exponent) := b.shortest
      .finite ⟨negative, digits, exponent⟩

/-- The float nearest to a decimal. Beyond the range of floats it is zero or infinite. -/
def toFloat (d : Decimal) : Float :=
  let size : Int := (Nat.toDigits 10 d.digits).length + d.exponent
  let magnitude : Float :=
    if d.digits = 0 ∨ size < -400 then 0
    else if 400 < size then 1 / 0
    else Float.ofScientific d.digits (d.exponent < 0) d.exponent.natAbs
  if d.negative then -magnitude else magnitude

/-- The shortest decimal that is read as the same float. -/
def rounded (d : Decimal) : DecimalValue := shortest d.toFloat

end WitCaller.Decimal
