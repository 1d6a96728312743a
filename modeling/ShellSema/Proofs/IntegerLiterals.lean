import Mathlib.Data.Nat.Digits.Defs
import Mathlib.Tactic.IntervalCases
import ShellSema.Constant
import ShellSema.Number.Literal
import ShellSema.Proofs.JsonText

/-!
# Integer literals

Which texts denote an integer, and which one. The digits of a literal are those of its radix, with
zeros in front or not; the value is that of the positional system, and it is taken when it fits into
64 bits. So the text of every integer is read as the integer itself.
-/
namespace ShellSema

/-! ### Digits of a radix -/

namespace Digits

/-- The character of a digit below the radix; letters stand in either case. -/
def IsDigit (radix : Nat) (c : Char) (d : Nat) : Prop :=
  d < radix ∧ (c = d.digitChar ∨ c = d.digitChar.toUpper)

/-- One or more digits, most significant first, and the number that they denote. -/
def Numeral (radix : Nat) (cs : List Char) (n : Nat) : Prop :=
  cs ≠ [] ∧ ∃ digits, List.Forall₂ (IsDigit radix) cs digits ∧ n = Nat.ofDigits radix digits.reverse

variable {radix : Nat} {c : Char} {cs : List Char} {d n sofar : Nat}

theorem toNat_digitChar (small : d < 16) :
    d.digitChar.toNat = (if d < 10 then 48 + d else 87 + d) ∧
      d.digitChar.toUpper.toNat = (if d < 10 then 48 + d else 55 + d) := by
  interval_cases d <;> exact ⟨rfl, rfl⟩

theorem value?_digitChar (small : d < 16) :
    value? radix d.digitChar = (some d).filter (· < radix) ∧
      value? radix d.digitChar.toUpper = (some d).filter (· < radix) := by
  interval_cases d <;> exact ⟨rfl, rfl⟩

/-- A decimal digit counts from `0` on, a letter from ten on. -/
theorem toNat_of_value? (given : value? radix c = some d) :
    d < radix ∧ (d < 10 ∧ c.toNat = 48 + d ∨ 10 ≤ d ∧ (c.toNat = 87 + d ∨ c.toNat = 55 + d)) := by
  obtain ⟨counted, below⟩ := Option.filter_eq_some_iff.mp given
  have zero : '0'.toNat = 48 := rfl
  have nine : '9'.toNat = 57 := rfl
  have small : 'a'.toNat = 97 := rfl
  have capital : 'A'.toNat = 65 := rfl
  refine ⟨by simpa using below, ?_⟩
  -- A decimal digit, a small letter or a capital one, each counted from the first of its kind.
  split at counted
  next bounds =>
    have counted := Option.some.inj counted
    have least : '0'.toNat ≤ c.toNat := bounds.1
    have greatest : c.toNat ≤ '9'.toNat := bounds.2
    omega
  split at counted
  next bounds =>
    have counted := Option.some.inj counted
    have least : 'a'.toNat ≤ c.toNat := bounds.1
    omega
  split at counted
  next bounds =>
    have counted := Option.some.inj counted
    have least : 'A'.toNat ≤ c.toNat := bounds.1
    omega
  next => cases counted

theorem value?_iff (hex : radix ≤ 16) : value? radix c = some d ↔ IsDigit radix c d := by
  constructor
  · intro given
    obtain ⟨below, place⟩ := toNat_of_value? given
    have small : d < 16 := by omega
    refine ⟨below, ?_⟩
    obtain ⟨lower, upper⟩ := toNat_digitChar small
    rw [← Char.toNat_inj, ← Char.toNat_inj, lower, upper]
    split <;> omega
  · rintro ⟨below, rfl | rfl⟩
    · rw [(value?_digitChar (by omega)).1]
      simpa using below
    · rw [(value?_digitChar (by omega)).2]
      simpa using below

/-- What digits denote is added to what stands before them, moved by as many places. -/
theorem accumulate?_eq_some (hex : radix ≤ 16) :
    accumulate? radix sofar cs = some n ↔
      ∃ digits, List.Forall₂ (IsDigit radix) cs digits ∧
        n = Nat.ofDigits radix digits.reverse + radix ^ cs.length * sofar := by
  induction cs generalizing sofar with
  | nil => simp [accumulate?, eq_comm]
  | cons c cs ih =>
    -- The first digit is the greatest, and it is read by moving what has been read before it.
    have step (d : Nat) (digits : List Nat) :
        Nat.ofDigits radix digits.reverse + radix ^ digits.length * (radix * sofar + d) =
          Nat.ofDigits radix (d :: digits).reverse + radix ^ (digits.length + 1) * sofar := by
      rw [List.reverse_cons, Nat.ofDigits_append, List.length_reverse, Nat.ofDigits_singleton]
      ring
    constructor
    · intro read
      rw [accumulate?] at read
      split at read
      next d digit =>
        obtain ⟨digits, each, rfl⟩ := ih.mp read
        refine ⟨d :: digits, .cons ((value?_iff hex).mp digit) each, ?_⟩
        rw [List.length_cons, each.length_eq, step]
      next => cases read
    · rintro ⟨_, all, rfl⟩
      obtain ⟨d, digits, digit, each, rfl⟩ := List.forall₂_cons_left_iff.mp all
      rw [accumulate?, (value?_iff hex).mpr digit]
      exact ih.mpr ⟨digits, each, by rw [List.length_cons, each.length_eq, step]⟩

theorem number?_eq_some (hex : radix ≤ 16) : number? radix cs = some n ↔ Numeral radix cs n := by
  cases cs with
  | nil => simp [number?, Numeral]
  | cons c cs => simp [number?, Numeral, accumulate?_eq_some hex]

theorem Numeral.digit (numeral : Numeral radix cs n) (member : c ∈ cs) : ∃ d, IsDigit radix c d := by
  obtain ⟨-, digits, each, -⟩ := numeral
  induction each with
  | nil => cases member
  | cons digit _ ih =>
    rcases List.mem_cons.mp member with rfl | member
    · exact ⟨_, digit⟩
    · exact ih member

theorem Numeral.singleton (digit : IsDigit radix c d) : Numeral radix [c] d :=
  ⟨by simp, [d], .cons digit .nil, by simp [Nat.ofDigits_singleton]⟩

/-- One more digit at the end moves the others by one place. -/
theorem Numeral.concat (numeral : Numeral radix cs n) (digit : IsDigit radix c d) :
    Numeral radix (cs ++ [c]) (radix * n + d) := by
  obtain ⟨-, digits, each, rfl⟩ := numeral
  refine ⟨by simp, digits ++ [d], List.rel_append each (.cons digit .nil), ?_⟩
  rw [List.reverse_concat, Nat.ofDigits_cons, Nat.add_comm]

theorem isDigit_digitChar (below : d < radix) : IsDigit radix d.digitChar d :=
  ⟨below, .inl rfl⟩

/-- The decimal digits that a number is written with denote it. -/
theorem numeral_toDigits (n : Nat) : Numeral 10 (Nat.toDigits 10 n) n := by
  induction n using Nat.strongRecOn with
  | ind n ih =>
    rw [Nat.toDigits_eq_if (by omega)]
    split
    next small => exact .singleton (isDigit_digitChar small)
    next great =>
      have whole : 10 * (n / 10) + n % 10 = n := Nat.div_add_mod n 10
      have last := isDigit_digitChar (Nat.mod_lt n (by omega : 0 < 10))
      simpa only [whole] using (ih (n / 10) (by omega)).concat last

end Digits

/-! ### Literals -/

namespace NumberLiteral

open Digits (Numeral IsDigit)

/-- Decimal digits with a sign or without, and the integer that they denote. -/
inductive SignedNumeral : List Char → Int → Prop
  | unsigned {cs : List Char} {n : Nat} (digits : Numeral 10 cs n) : SignedNumeral cs n
  | positive {cs : List Char} {n : Nat} (digits : Numeral 10 cs n) : SignedNumeral ('+' :: cs) n
  | negative {cs : List Char} {n : Nat} (digits : Numeral 10 cs n) : SignedNumeral ('-' :: cs) (-n)

/-- The integer that a text denotes, however great. -/
inductive Denotes : List Char → Int → Prop
  | hexadecimal {cs : List Char} {n : Nat} (digits : Numeral 16 cs n) : Denotes ('0' :: 'x' :: cs) n
  | octal {cs : List Char} {n : Nat} (digits : Numeral 8 cs n) : Denotes ('0' :: 'o' :: cs) n
  | binary {cs : List Char} {n : Nat} (digits : Numeral 2 cs n) : Denotes ('0' :: 'b' :: cs) n
  | decimal {cs : List Char} {i : Int} (digits : SignedNumeral cs i) : Denotes cs i

variable {cs : List Char} {i : Int} {n : Nat} {v : Int64}

/-- Neither a sign nor the letter of a radix is a decimal digit. -/
theorem not_numeral {c : Char} (member : c ∈ cs) (other : c ∈ ['+', '-', 'x', 'o', 'b']) :
    ¬ Numeral 10 cs n := by
  intro numeral
  obtain ⟨d, digit⟩ := numeral.digit member
  have read := (Digits.value?_iff (by omega)).mpr digit
  simp only [List.mem_cons, List.not_mem_nil, or_false] at other
  rcases other with rfl | rfl | rfl | rfl | rfl <;> cases read

theorem signedDecimal?_eq_some : signedDecimal? cs = some i ↔ SignedNumeral cs i := by
  have digits? (n : Nat) (cs : List Char) : Digits.number? 10 cs = some n ↔ Numeral 10 cs n :=
    Digits.number?_eq_some (by omega)
  constructor
  · intro read
    unfold signedDecimal? at read
    split at read <;>
      simp only [Option.bind_eq_bind, Option.pure_def, Option.map_eq_some_iff,
        Option.bind_eq_some_iff, Option.some.injEq, digits?] at read
    · obtain ⟨-, ⟨n, digits, rfl⟩, rfl⟩ := read
      exact .negative digits
    · obtain ⟨-, ⟨n, digits, rfl⟩, rfl⟩ := read
      exact .positive digits
    · obtain ⟨-, ⟨n, digits, rfl⟩, rfl⟩ := read
      exact .unsigned digits
  · rintro (digits | digits | digits)
    · have read := (digits? _ _).mpr digits
      unfold signedDecimal?
      -- Digits are never taken for a text with a sign, as no sign is a digit.
      split
      · exact absurd digits (not_numeral List.mem_cons_self (by simp))
      · exact absurd digits (not_numeral List.mem_cons_self (by simp))
      · simp [read]
    · simp [signedDecimal?, (digits? _ _).mpr digits]
    · simp [signedDecimal?, (digits? _ _).mpr digits]

theorem fitting?_eq_some : fitting? i = some v ↔ -(2 ^ 63) ≤ i ∧ i < 2 ^ 63 ∧ v.toInt = i := by
  unfold fitting?
  split
  next fits =>
    have same : (Int64.ofInt i).toInt = i := Int64.toInt_ofInt_of_le fits.1 fits.2
    rw [Option.some.injEq, ← Int64.toInt_inj, same]
    exact ⟨fun equal => ⟨fits.1, fits.2, equal.symm⟩, fun denoted => denoted.2.2.symm⟩
  next outside => simp_all

/-- After the letter of a radix, a text that starts with a zero is no decimal numeral. -/
theorem not_signedNumeral {c : Char} (letter : c ∈ ['x', 'o', 'b']) :
    ¬ SignedNumeral ('0' :: c :: cs) i := by
  rintro ⟨digits⟩
  exact not_numeral (by simp) (List.mem_of_mem_drop (i := 2) letter) digits

theorem denotes_hexadecimal : Denotes ('0' :: 'x' :: cs) i ↔ ∃ n : Nat, Numeral 16 cs n ∧ n = i := by
  constructor
  · rintro (digits | _ | _ | digits)
    · exact ⟨_, digits, rfl⟩
    · exact absurd digits (not_signedNumeral (by simp))
  · rintro ⟨n, digits, rfl⟩
    exact .hexadecimal digits

theorem denotes_octal : Denotes ('0' :: 'o' :: cs) i ↔ ∃ n : Nat, Numeral 8 cs n ∧ n = i := by
  constructor
  · rintro (_ | digits | _ | digits)
    · exact ⟨_, digits, rfl⟩
    · exact absurd digits (not_signedNumeral (by simp))
  · rintro ⟨n, digits, rfl⟩
    exact .octal digits

theorem denotes_binary : Denotes ('0' :: 'b' :: cs) i ↔ ∃ n : Nat, Numeral 2 cs n ∧ n = i := by
  constructor
  · rintro (_ | _ | digits | digits)
    · exact ⟨_, digits, rfl⟩
    · exact absurd digits (not_signedNumeral (by simp))
  · rintro ⟨n, digits, rfl⟩
    exact .binary digits

/-- A literal is an integer of 64 bits that its text denotes. -/
theorem integer?_eq_some {text : String} :
    integer? text = some v ↔
      ∃ i, Denotes text.toList i ∧ -(2 ^ 63) ≤ i ∧ i < 2 ^ 63 ∧ v.toInt = i := by
  have number? (radix : Nat) (hex : radix ≤ 16) (cs : List Char) (i : Int) :
      (Digits.number? radix cs).map Int.ofNat = some i ↔ ∃ n : Nat, Numeral radix cs n ∧ n = i := by
    simp [Digits.number?_eq_some hex]
  unfold integer?
  simp only [Option.bind_eq_some_iff, fitting?_eq_some]
  refine exists_congr fun i => and_congr_left' ?_
  split
  next start => rw [start, number? 16 (by omega), denotes_hexadecimal]
  next start => rw [start, number? 8 (by omega), denotes_octal]
  next start => rw [start, number? 2 (by omega), denotes_binary]
  next hexadecimal octal binary =>
    -- The text does not start like one of another radix, so only the decimal reading is left.
    rw [signedDecimal?_eq_some]
    refine ⟨.decimal, fun denoted => ?_⟩
    generalize text.toList = cs at *
    cases denoted with
    | hexadecimal => exact absurd rfl (hexadecimal _)
    | octal => exact absurd rfl (octal _)
    | binary => exact absurd rfl (binary _)
    | decimal digits => exact digits

/-- An integer is written as a numeral that denotes it. -/
theorem denotes_toString (i : Int) : Denotes (toString i).toList i := by
  rw [Int.toString_eq_repr, Int.repr_eq_if]
  split
  next positive =>
    have digits := SignedNumeral.unsigned (Digits.numeral_toDigits i.toNat)
    rw [Int.toNat_of_nonneg positive] at digits
    rw [Nat.toList_repr]
    exact .decimal digits
  next negative =>
    have digits := SignedNumeral.negative (Digits.numeral_toDigits (-i).toNat)
    rw [Int.toNat_of_nonneg (by omega), Int.neg_neg] at digits
    rw [String.toList_append, Nat.toList_repr]
    exact .decimal digits

/-- A text is read as an integer of 64 bits exactly if it denotes that integer: digits of radix 16, 8
or 2 after `0x`, `0o` or `0b`, or decimal digits with a sign or without. What is written of an integer
is read as the integer, the least one included, whose opposite does not fit. -/
theorem integer_literals_exact :
    (∀ text v, integer? text = some v ↔
      ∃ i, Denotes text.toList i ∧ -(2 ^ 63) ≤ i ∧ i < 2 ^ 63 ∧ v.toInt = i) ∧
    ∀ v : Int64, integer? (Constant.integer v).render = some v := by
  refine ⟨fun _ _ => integer?_eq_some, fun v => integer?_eq_some.mpr ?_⟩
  exact ⟨v.toInt, denotes_toString v.toInt, v.le_toInt, v.toInt_lt, rfl⟩

example : integer? "-0009223372036854775808" = some Int64.minValue ∧
    integer? "9223372036854775808" = none ∧ integer? "0x-f" = none ∧ integer? "0X1f" = none := by
  decide +kernel

end NumberLiteral
end ShellSema
