import ShellSema.Json.Basic
import ShellSema.Number.Digits

/-!
# Lexemes of JSON texts

A JSON text is a row of lexemes with blanks between them. A string with half of a surrogate pair
and a number beyond the range are lexemes without a value: they do no harm where nobody reads them.

Numbers that are not whole, or have more than 64 bits, are read as follows. As many digits as fit
into 64 bits form a whole number; further digits only move the power of ten. That number is rounded
to binary, then multiplied with or divided by the rounded power of ten.
-/
namespace ShellSema.Json

inductive Lexeme where
  | openArray
  | closeArray
  | openObject
  | closeObject
  | comma
  | colon
  | null
  | bool (value : Bool)
  | number (value : Option Number)
  | text (value : Option String)
deriving DecidableEq, Repr

/-! ### Numbers -/

/-- The parts of a number as they are written. -/
structure NumberText where
  negative : Bool
  whole : List Char
  fraction : Option (List Char)
  exponent : Option (Bool × List Char)

/-- Digits collected so far: the number they form, and the power of ten it stands at. -/
structure Collected where
  digits : Nat
  exponent : Int

def wordLimit : Nat := 2 ^ 64

def extended (collected : Collected) (c : Char) : Nat :=
  collected.digits * 10 + (Digits.value? 10 c).getD 0

/-- Take digits before the point while they fit; every digit after these counts a power of ten. -/
def collectWhole : Collected → List Char → Collected
  | collected, [] => collected
  | collected, c :: cs =>
    if extended collected c < wordLimit then
      collectWhole { collected with digits := extended collected c } cs
    else { collected with exponent := collected.exponent + (cs.length + 1) }

/-- Take digits after the point while they fit; the others are dropped. -/
def collectFraction : Collected → List Char → Collected
  | collected, [] => collected
  | collected, c :: cs =>
    if extended collected c < wordLimit then
      collectFraction ⟨extended collected c, collected.exponent - 1⟩ cs
    else collected

/-- Move a number by a power of ten; nothing when it leaves the range. The budget counts the
divisions by the greatest power of ten: after two of them every number of 64 bits is zero. -/
def scale? : Nat → Binary64 → Int → Option Binary64
  | budget, x, exponent =>
    if exponent.natAbs ≤ 308 then
      if 0 ≤ exponent then
        let moved := x.mul (Binary64.powerOfTen exponent.natAbs)
        if moved.isFinite then some moved else none
      else some (x.div (Binary64.powerOfTen exponent.natAbs))
    else if x.isZero then some x
    else if 0 ≤ exponent then none
    else
      match budget with
      | 0 => some Binary64.zero
      | budget + 1 => scale? budget (x.div (Binary64.powerOfTen 308)) (exponent + 308)

def signed (negative : Bool) (x : Binary64) : Binary64 :=
  if negative then x.neg else x

/-- The greatest power of ten that a number may name. -/
def exponentLimit : Nat := 2 ^ 31

/-- Add the power of ten that a number names. Beyond the limit only zero stays in the range
upwards, and everything becomes zero downwards. -/
def NumberText.scaled? (text : NumberText) (collected : Collected) : Option Binary64 :=
  let x := Binary64.ofNat collected.digits
  match text.exponent with
  | none => scale? 3 x collected.exponent
  | some (below, digits) =>
    let named := Digits.decimal digits
    if exponentLimit ≤ named then
      if collected.digits ≠ 0 ∧ !below then none else some Binary64.zero
    else scale? 3 x (if below then collected.exponent - named else collected.exponent + named)

/-- The value of a number. A whole number of 64 bits, signed or unsigned, stays whole; the negative
zero is no whole number. -/
def NumberText.value? (text : NumberText) : Option Number :=
  let whole := collectWhole ⟨0, 0⟩ text.whole
  let float := fun collected =>
    (text.scaled? collected).map fun x => .float (signed text.negative x)
  match text.fraction, text.exponent with
  | none, none =>
    if whole.exponent ≠ 0 then float whole
    else if !text.negative then some (.integer whole.digits)
    else if whole.digits = 0 ∨ 2 ^ 63 < whole.digits then
      some (.float (Binary64.ofNat whole.digits).neg)
    else some (.integer (-(whole.digits : Int)))
  | fraction, _ => float (collectFraction whole (fraction.getD []))

/-- Digits before the point: a zero alone, or digits that start with another one. -/
def wholeDigits? : List Char → Option (List Char × List Char)
  | '0' :: cs => some (['0'], cs)
  | cs =>
    let (digits, rest) := Digits.span cs
    if digits.isEmpty then none else some (digits, rest)

/-- A point and at least one digit, if there is a point. -/
def fraction? : List Char → Option (Option (List Char) × List Char)
  | '.' :: cs =>
    let (digits, rest) := Digits.span cs
    if digits.isEmpty then none else some (some digits, rest)
  | cs => some (none, cs)

/-- The sign of a power of ten, and the text after it. -/
def exponentSign : List Char → Bool × List Char
  | '-' :: cs => (true, cs)
  | '+' :: cs => (false, cs)
  | cs => (false, cs)

/-- A power of ten, if the text goes on with one. -/
def exponent? : List Char → Option (Option (Bool × List Char) × List Char)
  | [] => some (none, [])
  | c :: cs =>
    if c = 'e' ∨ c = 'E' then
      let (below, cs) := exponentSign cs
      let (digits, rest) := Digits.span cs
      if digits.isEmpty then none else some (some (below, digits), rest)
    else some (none, c :: cs)

def numberText? (cs : List Char) : Option (NumberText × List Char) := do
  let (negative, cs) :=
    match cs with
    | '-' :: cs => (true, cs)
    | cs => (false, cs)
  let (whole, cs) ← wholeDigits? cs
  let (fraction, cs) ← fraction? cs
  let (exponent, cs) ← exponent? cs
  return (⟨negative, whole, fraction, exponent⟩, cs)

/-! ### Strings -/

/-- The character after a backslash, for the escapes of one letter. -/
def shortEscape? : Char → Option Char
  | '"' => some '"'
  | '\\' => some '\\'
  | '/' => some '/'
  | 'b' => some '\x08'
  | 'f' => some '\x0c'
  | 'n' => some '\n'
  | 'r' => some '\r'
  | 't' => some '\t'
  | _ => none

def fourDigits? (a b c d : Char) : Option Nat := Digits.number? 16 [a, b, c, d]

/-- A character of a string text. -/
def joinPair (high low : Nat) : Char :=
  Char.ofNat (0x10000 + (high - 0xD800) * 0x400 + (low - 0xDC00))

/-- The code that an escape of four digits names, if the text starts with one. -/
def unitEscape? : List Char → Option (Nat × List Char)
  | '\\' :: 'u' :: a :: b :: c :: d :: cs => (fourDigits? a b c d).map fun code => (code, cs)
  | _ => none

/-- The lower half of a surrogate pair, if the text starts with its escape. -/
def lowerHalf? (cs : List Char) : Option (Nat × List Char) :=
  (unitEscape? cs).filter fun (code, _) => 0xDC00 ≤ code ∧ code ≤ 0xDFFF

/-- One character of a string, `none` within for half of a surrogate pair; and the rest. -/
def character? : List Char → Option (Option Char × List Char)
  | '\\' :: 'u' :: a :: b :: c :: d :: cs =>
    match fourDigits? a b c d with
    | none => none
    | some code =>
      if 0xD800 ≤ code ∧ code ≤ 0xDBFF then
        match lowerHalf? cs with
        | some (low, rest) => some (some (joinPair code low), rest)
        | none => some (none, cs)
      else if 0xDC00 ≤ code ∧ code ≤ 0xDFFF then some (none, cs)
      else some (some (Char.ofNat code), cs)
  | '\\' :: c :: cs => (shortEscape? c).map fun value => (some value, cs)
  | c :: cs => if c = '\\' ∨ c.toNat < 0x20 then none else some (some c, cs)
  | [] => none

/-- The characters up to the closing quote, and the rest. The budget is the length of the text. -/
def characters? : Nat → List Char → Option (Option (List Char) × List Char)
  | 0, _ => none
  | _ + 1, '"' :: cs => some (some [], cs)
  | budget + 1, cs => do
    let (first, cs) ← character? cs
    let (others, cs) ← characters? budget cs
    let joined := do return (← first) :: (← others)
    return (joined, cs)

/-! ### Texts -/

/-- The blanks that JSON allows between lexemes. -/
def isGap (c : Char) : Bool := c = ' ' || c = '\t' || c = '\n' || c = '\r'

/-- The lexeme at the front of a text, and the rest. -/
def lexeme? : List Char → Option (Lexeme × List Char)
  | '[' :: cs => some (.openArray, cs)
  | ']' :: cs => some (.closeArray, cs)
  | '\x7b' :: cs => some (.openObject, cs)
  | '\x7d' :: cs => some (.closeObject, cs)
  | ',' :: cs => some (.comma, cs)
  | ':' :: cs => some (.colon, cs)
  | 'n' :: 'u' :: 'l' :: 'l' :: cs => some (.null, cs)
  | 't' :: 'r' :: 'u' :: 'e' :: cs => some (.bool true, cs)
  | 'f' :: 'a' :: 'l' :: 's' :: 'e' :: cs => some (.bool false, cs)
  | '"' :: cs => (characters? (cs.length + 1) cs).map fun (value, rest) =>
      (.text (value.map String.ofList), rest)
  | cs => (numberText? cs).map fun (text, rest) => (.number text.value?, rest)

/-- The lexemes of a text. The budget is the length of the text. -/
def lexemesWithin? : Nat → List Char → Option (List Lexeme)
  | 0, cs => if cs.isEmpty then some [] else none
  | budget + 1, cs =>
    match cs.dropWhile isGap with
    | [] => some []
    | cs => do
      let (first, cs) ← lexeme? cs
      return first :: (← lexemesWithin? budget cs)

def lexemes? (cs : List Char) : Option (List Lexeme) := lexemesWithin? (cs.length + 1) cs

end ShellSema.Json
