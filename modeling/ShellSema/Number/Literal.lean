import ShellSema.Number.Digits
import ShellSema.Number.Decimal

/-!
# Number literals

The texts that denote integers and floating point numbers in a script.
-/
namespace ShellSema.NumberLiteral

/-- An integer that fits into 64 bits with a sign. -/
def fitting? (i : Int) : Option Int64 :=
  if -(2 ^ 63) ≤ i ∧ i < 2 ^ 63 then some (Int64.ofInt i) else none

/-- Decimal digits with an optional sign. -/
def signedDecimal? : List Char → Option Int
  | '-' :: cs => (Digits.number? 10 cs).map fun n => -(n : Int)
  | '+' :: cs => (Digits.number? 10 cs).map fun n => (n : Int)
  | cs => (Digits.number? 10 cs).map fun n => (n : Int)

/-- Digits of radix 16, 8 or 2 after `0x`, `0o` or `0b`, without a sign; else decimal digits
with an optional sign. -/
def integer? (text : String) : Option Int64 :=
  let value :=
    match text.toList with
    | '0' :: 'x' :: cs => (Digits.number? 16 cs).map Int.ofNat
    | '0' :: 'o' :: cs => (Digits.number? 8 cs).map Int.ofNat
    | '0' :: 'b' :: cs => (Digits.number? 2 cs).map Int.ofNat
    | cs => signedDecimal? cs
  value.bind fitting?

/-- The power of ten after a number's digits: nothing, or `e` and a signed number. -/
def exponent? : List Char → Option Int
  | [] => some 0
  | c :: cs => if c = 'e' ∨ c = 'E' then signedDecimal? cs else none

/-- Digits with at most one point among them, then an optional power of ten. At least one digit
stands before or after the point. -/
def decimal? (negative : Bool) (cs : List Char) : Option Decimal :=
  let (whole, rest) := Digits.span cs
  let (fraction, rest) :=
    match rest with
    | '.' :: rest => Digits.span rest
    | _ => ([], rest)
  if whole.isEmpty && fraction.isEmpty then none
  else (exponent? rest).map fun exponent =>
    ⟨negative, Digits.decimal (whole ++ fraction), exponent - fraction.length⟩

/-- A number, or a name of infinity or of not-a-number in any case, after an optional sign. -/
def unsignedFloat? (negative : Bool) (cs : List Char) : Option Binary64 :=
  let name := String.ofList (cs.map Char.toLower)
  if name = "inf" ∨ name = "infinity" then some (Binary64.infinity negative)
  else if name = "nan" then some Binary64.nan
  else (decimal? negative cs).map Decimal.toBinary64

def float? (text : String) : Option Binary64 :=
  match text.toList with
  | '-' :: cs => unsignedFloat? true cs
  | '+' :: cs => unsignedFloat? false cs
  | cs => unsignedFloat? false cs

end ShellSema.NumberLiteral
