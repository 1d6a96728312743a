import ShellSema.Toml.Number

/-!
# TOML scalars

The texts that denote booleans, numbers, dates and times.
-/
namespace ShellSema.Toml

/-- Split before the first character that satisfies a test. -/
def splitAt (test : Char → Bool) (cs : List Char) : List Char × List Char :=
  (cs.takeWhile (!test ·), cs.dropWhile (!test ·))

/-! ### Dates -/

/-- A number of two digits within bounds. -/
def isTwoDigits (a b : Char) (low high : Nat) : Bool :=
  match Digits.number? 10 [a, b] with
  | some n => low ≤ n && n ≤ high
  | none => false

def isLeapYear (year : Nat) : Bool := year % 4 = 0 && (year % 100 ≠ 0 || year % 400 = 0)

/-- The number of days of a month, which is counted from one. -/
def daysOfMonth (year month : Nat) : Nat :=
  if month = 2 then if isLeapYear year then 29 else 28
  else if month = 4 ∨ month = 6 ∨ month = 9 ∨ month = 11 then 30
  else 31

/-- A day of the calendar. -/
def isDate : List Char → Bool
  | [a, b, c, d, '-', m, n, '-', x, y] =>
    match Digits.number? 10 [a, b, c, d], Digits.number? 10 [m, n] with
    | some year, some month =>
      1 ≤ month && month ≤ 12 && isTwoDigits x y 1 (daysOfMonth year month)
    | _, _ => false
  | _ => false

/-! ### Times -/

/-- Parts of a second. -/
def isSubsecond : List Char → Bool
  | [] => true
  | '.' :: cs => !cs.isEmpty && cs.all Digits.isDecimal
  | _ => false

/-- Hours and minutes, and seconds if they are given. -/
def isTime : List Char → Bool
  | [h, i, ':', m, n] => isTwoDigits h i 0 23 && isTwoDigits m n 0 59
  | h :: i :: ':' :: m :: n :: ':' :: s :: t :: cs =>
    isTwoDigits h i 0 23 && isTwoDigits m n 0 59 && isTwoDigits s t 0 60 && isSubsecond cs
  | _ => false

/-- The distance from universal time. -/
def isOffset : List Char → Bool
  | [] => true
  | ['Z'] => true
  | ['z'] => true
  | [sign, h, i, ':', m, n] =>
    (sign = '+' || sign = '-') && isTwoDigits h i 0 23 && isTwoDigits m n 0 59
  | _ => false

def isDateTime (cs : List Char) : Bool :=
  match cs.drop 10 with
  | [] => isDate cs
  | separator :: clock =>
    let (time, offset) := splitAt (fun c => ['Z', 'z', '+', '-'].contains c) clock
    isDate (cs.take 10) && ['T', 't', ' '].contains separator && isTime time && isOffset offset

/-! ### All scalars -/

def isScalar (cs : List Char) : Bool :=
  cs = "true".toList || cs = "false".toList || isDateTime cs || isTime cs || isNumber cs

end ShellSema.Toml
