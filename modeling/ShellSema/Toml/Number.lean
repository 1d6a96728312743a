import ShellSema.Number.Digits

/-!
# TOML numbers

Whether a text has the form of a number. The form is all that a document asks of a number that
nobody uses, and it is loose on purpose: what follows the first underscore of a whole number, and
whether a radix is followed by digits at all, is left to whoever wants the value.
-/
namespace ShellSema.Toml

def dropSign : List Char → List Char
  | '+' :: cs => cs
  | '-' :: cs => cs
  | cs => cs

/-! ### Underscores -/

/-- Every underscore but one at the front stands between two digits. -/
def joinsDigits (isDigit : Char → Bool) : List Char → Bool
  | [] => true
  | [c] => c ≠ '_'
  | c :: d :: cs =>
    (c ≠ '_' || isDigit d) && (d ≠ '_' || isDigit c) && joinsDigits isDigit (d :: cs)

/-- Underscores divide digits. The first of them may follow a sign. -/
def dividesDigits (isDigit : Char → Bool) (cs : List Char) : Bool :=
  cs.head? ≠ some '_' && joinsDigits isDigit (dropSign cs)

def isDigitOf (radix : Nat) (c : Char) : Bool := (Digits.value? radix c).isSome

/-! ### Whole numbers -/

/-- What may follow the mark of a radix: its digits, if any, and underscores between them. -/
def isRadixTail (radix : Nat) (cs : List Char) : Bool :=
  cs.all (fun c => isDigitOf radix c || c = '_') && dividesDigits (isDigitOf radix) cs

/-- A whole number that is written in another radix than ten. -/
def isRadixForm : List Char → Bool
  | '0' :: 'x' :: cs => isRadixTail 16 cs
  | '0' :: 'o' :: cs => isRadixTail 8 cs
  | '0' :: 'b' :: cs => isRadixTail 2 cs
  | _ => false

/-- Decimal digits without a leading zero. -/
def isPlainDecimal (cs : List Char) : Bool :=
  !cs.isEmpty && cs.all Digits.isDecimal && (cs = ['0'] || cs.head? ≠ some '0')

/-- Decimal digits and an underscore, with anything but a space behind it that the underscores
allow. Letters that are digits in radix sixteen may touch them. -/
def isDividedDecimal (cs : List Char) : Bool :=
  let unsigned := dropSign cs
  (unsigned.dropWhile Digits.isDecimal).head? = some '_' && unsigned.head? ≠ some '0' &&
    !cs.contains ' ' && dividesDigits (isDigitOf 16) cs

/-! ### Numbers with a fraction or an exponent -/

def isRunChar (c : Char) : Bool := Digits.isDecimal c || c = '_'

/-- The rest behind digits and underscores, if there is a digit among them. -/
def dropRun? (cs : List Char) : Option (List Char) :=
  if (cs.takeWhile isRunChar).any Digits.isDecimal then some (cs.dropWhile isRunChar) else none

def dropFraction? : List Char → Option (List Char)
  | '.' :: cs => dropRun? cs
  | cs => some cs

def dropExponent? : List Char → Option (List Char)
  | 'e' :: cs => dropRun? (dropSign cs)
  | 'E' :: cs => dropRun? (dropSign cs)
  | cs => some cs

/-- Whether the digits before a fraction or an exponent start with a zero that they do not need. -/
def hasExtraZero (cs : List Char) : Bool :=
  cs.head? = some '0' && 1 < ((cs.takeWhile isRunChar).filter Digits.isDecimal).length

def isFloatForm (cs : List Char) : Bool :=
  let unsigned := dropSign cs
  (dropRun? unsigned >>= dropFraction? >>= dropExponent?) == some [] && !hasExtraZero unsigned &&
    dividesDigits Digits.isDecimal cs

/-- Whether the first digits are followed by what only a fraction or an exponent brings. -/
def looksFractional (cs : List Char) : Bool :=
  ((dropSign cs).dropWhile Digits.isDecimal).any fun c => c = '.' || c = 'e' || c = 'E'

/-! ### All numbers -/

def isNumber (cs : List Char) : Bool :=
  let unsigned := dropSign cs
  unsigned = "inf".toList || unsigned = "nan".toList || isRadixForm cs ||
    isPlainDecimal unsigned ||
    if looksFractional cs then isFloatForm cs else isDividedDecimal cs

end ShellSema.Toml
