/-!
# Binary floating point of 64 bits

A `Binary64` is held by its bits: one for the sign, eleven for the exponent, fifty-two for the
fraction. Every operation is exact arithmetic on natural numbers followed by one rounding to the
nearest representable value, where a tie goes to the even significand.
-/
namespace ShellSema

-- A power with a literal exponent is the built-in one, whatever theory of powers is imported.
attribute [default_instance 20000] instPowNat

/-- A floating point number, held by its IEEE 754 bits. -/
structure Binary64 where
  bits : UInt64
deriving DecidableEq, Repr, Inhabited

namespace Binary64

/-- The least magnitude that is not finite, as bits: infinity. -/
def infinityMagnitude : Nat := 2047 * 2 ^ 52

def ofMagnitude (negative : Bool) (magnitude : Nat) : Binary64 :=
  ⟨UInt64.ofNat (magnitude + if negative then 2 ^ 63 else 0)⟩

def zero : Binary64 := ⟨0⟩
def infinity (negative : Bool) : Binary64 := ofMagnitude negative infinityMagnitude

/-- The quiet not-a-number with an empty payload. -/
def nan : Binary64 := ofMagnitude false (infinityMagnitude + 2 ^ 51)

def isNegative (x : Binary64) : Bool := 2 ^ 63 ≤ x.bits.toNat

/-- The bits without the sign. -/
def magnitude (x : Binary64) : Nat := x.bits.toNat % 2 ^ 63

def isFinite (x : Binary64) : Bool := x.magnitude < infinityMagnitude
def isNaN (x : Binary64) : Bool := infinityMagnitude < x.magnitude
def isZero (x : Binary64) : Bool := x.magnitude == 0

/-- The significand of a finite number, counted in units of its last place. -/
def significand (x : Binary64) : Nat :=
  if x.magnitude < 2 ^ 52 then x.magnitude else x.magnitude % 2 ^ 52 + 2 ^ 52

/-- How many powers of two the last place lies above the least one, `2 ^ -1074`. -/
def lastPlace (x : Binary64) : Nat := x.magnitude / 2 ^ 52 - 1

/-- The absolute value of a finite number as numerator and denominator. -/
def ratio (x : Binary64) : Nat × Nat :=
  if 1074 ≤ x.lastPlace then (x.significand <<< (x.lastPlace - 1074), 1)
  else (x.significand, 1 <<< (1074 - x.lastPlace))

/-- The quotient rounded to a whole number; a half goes to the even neighbour. -/
def roundDiv (numerator denominator : Nat) : Nat :=
  let quotient := numerator / denominator
  let twice := 2 * (numerator % denominator)
  if twice > denominator || (twice == denominator && quotient % 2 == 1) then quotient + 1
  else quotient

/-- The magnitude nearest to a positive quotient. The place of the last digit is the one that
leaves a quotient below `2 ^ 53`, found from the logarithms of both parts; a rounding up to
`2 ^ 53` carries into the exponent by itself. -/
def nearestMagnitude (numerator denominator : Nat) : Nat :=
  let scaled (place : Nat) : Nat × Nat :=
    if 1074 ≤ place then (numerator, denominator <<< (place - 1074))
    else (numerator <<< (1074 - place), denominator)
  let guess := numerator.log2 + 1021 - denominator.log2
  let place := if (scaled guess).1 / (scaled guess).2 < 2 ^ 53 then guess else guess + 1
  min (place * 2 ^ 52 + roundDiv (scaled place).1 (scaled place).2) infinityMagnitude

/-- The number nearest to a quotient. -/
def ofRatio (negative : Bool) (numerator denominator : Nat) : Binary64 :=
  ofMagnitude negative (if numerator = 0 then 0 else nearestMagnitude numerator denominator)

def ofNat (n : Nat) : Binary64 := ofRatio false n 1

def ofInt (i : Int) : Binary64 := ofRatio (i < 0) i.natAbs 1

/-- The number nearest to a power of ten. -/
def powerOfTen (n : Nat) : Binary64 := ofNat (Nat.pow 10 n)

/-- The rounded product of two finite numbers. -/
def mul (x y : Binary64) : Binary64 :=
  ofRatio (x.isNegative != y.isNegative) (x.ratio.1 * y.ratio.1) (x.ratio.2 * y.ratio.2)

/-- The rounded quotient of a finite number and a finite number other than zero. -/
def div (x y : Binary64) : Binary64 :=
  ofRatio (x.isNegative != y.isNegative) (x.ratio.1 * y.ratio.2) (x.ratio.2 * y.ratio.1)

def neg (x : Binary64) : Binary64 := ofMagnitude (!x.isNegative) x.magnitude

/-- Whether a finite number has no fractional part. -/
def isWhole (x : Binary64) : Bool := x.ratio.1 % x.ratio.2 == 0

/-- The sixteen hexadecimal digits of the bits. -/
def hexadecimal (x : Binary64) : String :=
  let digits := Nat.toDigits 16 x.bits.toNat
  String.ofList (List.replicate (16 - digits.length) '0' ++ digits)

end Binary64
end ShellSema
