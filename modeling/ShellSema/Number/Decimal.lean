import ShellSema.Number.Binary64

/-!
# Decimals

A decimal is a number of digits times a power of ten. `Decimal.toBinary64` rounds it once;
`Decimal.shortest` is the decimal with the fewest digits that rounds to a given number.
-/
namespace ShellSema

/-- `digits * 10 ^ exponent`, with a sign of its own so that zero has one too. -/
structure Decimal where
  negative : Bool
  digits : Nat
  exponent : Int
deriving DecidableEq, Repr

namespace Decimal

/-- How many decimal digits a number is written with. -/
def digitCount (n : Nat) : Nat := (Nat.toDigits 10 n).length

/-- The absolute value as numerator and denominator. -/
def ratio (d : Decimal) : Nat × Nat :=
  if 0 ≤ d.exponent then (d.digits * Nat.pow 10 d.exponent.toNat, 1)
  else (d.digits, Nat.pow 10 (-d.exponent).toNat)

/-- The nearest floating point number. Decimals from `10 ^ 310` on are infinite and those below
`10 ^ -330` are zero, so that no power of ten beyond these has to be computed. -/
def toBinary64 (d : Decimal) : Binary64 :=
  let top := (digitCount d.digits : Int) + d.exponent
  if d.digits = 0 ∨ top < -330 then Binary64.ofMagnitude d.negative 0
  else if 310 < top then Binary64.infinity d.negative
  else Binary64.ofRatio d.negative d.ratio.1 d.ratio.2

/-- Move trailing zeros of the digits into the exponent; the budget is the count of digits. -/
def dropZeros : Nat → Nat → Int → Nat × Int
  | 0, digits, exponent => (digits, exponent)
  | budget + 1, digits, exponent =>
    if digits % 10 = 0 ∧ digits ≠ 0 then dropZeros budget (digits / 10) (exponent + 1)
    else (digits, exponent)

/-- The decimals that round to a finite number, in units of `2 ^ -1076`: the ends of the interval
and the number itself. The lower end is nearer when the number is a power of two, and the ends
belong to the interval when the significand is even. -/
structure Interval where
  low : Nat
  middle : Nat
  high : Nat
  closed : Bool

def Interval.of (x : Binary64) : Interval :=
  let unit := 1 <<< x.lastPlace
  let m := x.significand
  { low := (4 * m - if m = 2 ^ 52 ∧ 1 < x.magnitude / 2 ^ 52 then 1 else 2) * unit
    middle := 4 * m * unit
    high := (4 * m + 2) * unit
    closed := m % 2 = 0 }

/-- Units in one. -/
def Interval.one : Nat := 2 ^ 1076

/-- Whether a decimal lies in the interval. -/
def Interval.holds (i : Interval) (digits : Nat) (exponent : Int) : Bool :=
  let (n, d) := ratio ⟨false, digits, exponent⟩
  let value := n * one
  if i.closed then i.low * d ≤ value && value ≤ i.high * d
  else i.low * d < value && value < i.high * d

/-- Which of two equally near decimals is taken. -/
inductive Tie where
  | upper
  | even
deriving DecidableEq, Repr

/-- Whether the upper of two neighbours on a grid is taken: it is nearer to the middle, or as near
and favoured. -/
def Interval.takesUpper (i : Interval) (tie : Tie) (digits : Nat) (exponent : Int) : Bool :=
  let (n, d) := ratio ⟨false, 2 * digits + 1, exponent⟩
  let between := n * one
  let middle := 2 * i.middle * d
  between < middle || (between == middle && (tie = .upper || digits % 2 == 1))

/-- The power of ten next above a positive number: the least `p` with `x < 10 ^ p`. -/
def Interval.top (i : Interval) : Int :=
  if one ≤ i.middle then digitCount (i.middle / one)
  else 1 - digitCount (one / i.middle)

/-- The whole number of grid steps below the middle. -/
def Interval.floor (i : Interval) (exponent : Int) : Nat :=
  let (n, d) := ratio ⟨false, 1, exponent⟩
  i.middle * d / (n * one)

/-- The neighbour on the grid of `count` digits that lies in the interval; of two the nearer. -/
def Interval.onGrid? (i : Interval) (tie : Tie) (count : Nat) : Option (Nat × Int) :=
  let exponent := i.top - count
  let below := i.floor exponent
  match i.holds below exponent, i.holds (below + 1) exponent with
  | true, true => some (if i.takesUpper tie below exponent then below + 1 else below, exponent)
  | true, false => some (below, exponent)
  | false, true => some (below + 1, exponent)
  | false, false => none

/-- The decimal of fewest digits that rounds to a finite number, the nearest of these. -/
def shortest (tie : Tie) (x : Binary64) : Decimal :=
  if x.isZero then ⟨x.isNegative, 0, 0⟩
  else
    let i := Interval.of x
    let (digits, exponent) := ((List.range 18).findSome? (i.onGrid? tie)).getD (0, 0)
    let (digits, exponent) := dropZeros (digitCount digits) digits exponent
    ⟨x.isNegative, digits, exponent⟩

/-- Digits of a whole number of steps, with zeros for a positive power of ten. -/
def positional (d : Decimal) : String :=
  let digits := toString d.digits
  let sign := if d.negative then "-" else ""
  if 0 ≤ d.exponent then sign ++ digits ++ String.ofList (List.replicate d.exponent.toNat '0')
  else
    let places := (-d.exponent).toNat
    let padded := List.replicate (places + 1 - digits.length) '0' ++ digits.toList
    let (whole, fraction) := padded.splitAt (padded.length - places)
    sign ++ String.ofList whole ++ "." ++ String.ofList fraction

end Decimal

/-- A whole number keeps one decimal place and all its digits; any other number has the fewest
digits that read back, the upper ones of two that are equally near. The point always stands in its
place. -/
def Binary64.render (x : Binary64) : String :=
  if x.isNaN then "NaN"
  else if !x.isFinite then (if x.isNegative then "-inf" else "inf")
  else if x.isWhole then
    (if x.isNegative then "-" else "") ++ toString (x.ratio.1 / x.ratio.2) ++ ".0"
  else (Decimal.shortest .upper x).positional

end ShellSema
