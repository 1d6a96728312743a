/-!
# Digits

Reading digits of a radix, most significant first.
-/
namespace ShellSema.Digits

/-- The value of an ASCII digit or letter as a digit, in either case. -/
def value? (radix : Nat) (c : Char) : Option Nat :=
  let value :=
    if '0' ≤ c ∧ c ≤ '9' then some (c.toNat - '0'.toNat)
    else if 'a' ≤ c ∧ c ≤ 'z' then some (c.toNat - 'a'.toNat + 10)
    else if 'A' ≤ c ∧ c ≤ 'Z' then some (c.toNat - 'A'.toNat + 10)
    else none
  value.filter (· < radix)

def isDecimal (c : Char) : Bool := (value? 10 c).isSome

/-- The number that digits denote after those already read. -/
def accumulate? (radix : Nat) : Nat → List Char → Option Nat
  | sofar, [] => some sofar
  | sofar, c :: cs =>
    match value? radix c with
    | some digit => accumulate? radix (radix * sofar + digit) cs
    | none => none

/-- The number that one or more digits denote, and nothing for any other text. -/
def number? (radix : Nat) (cs : List Char) : Option Nat :=
  if cs.isEmpty then none else accumulate? radix 0 cs

/-- The number that a list of decimal digits denotes; other characters count as zero. -/
def decimal (cs : List Char) : Nat :=
  cs.foldl (fun sofar c => 10 * sofar + (value? 10 c).getD 0) 0

/-- The longest front part of decimal digits, and the rest. -/
def span (cs : List Char) : List Char × List Char :=
  (cs.takeWhile isDecimal, cs.dropWhile isDecimal)

end ShellSema.Digits
