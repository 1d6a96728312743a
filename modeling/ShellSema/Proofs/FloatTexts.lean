import Mathlib.Data.List.TakeWhile
import ShellSema.Proofs.JsonText

/-!
# Texts of floating point numbers

A finite number is written as a number of JSON, with a point or a power of ten, so it is read as a
floating point number again unless it leaves the range. An infinity or not-a-number is written as null,
which is no number.
-/
namespace ShellSema

/-! ### The shortest decimal -/

namespace Binary64

variable {x : Binary64}

theorem significand_pos (nonzero : x.isZero = false) : 0 < x.significand := by
  have positive : x.magnitude ≠ 0 := by simpa [isZero] using nonzero
  unfold significand
  split <;> omega

end Binary64

namespace Decimal

variable {tie : Tie} {x : Binary64} {digits : Nat} {exponent : Int}

theorem Interval.low_pos (nonzero : x.isZero = false) : 0 < (Interval.of x).low := by
  have positive := Binary64.significand_pos nonzero
  have unit : 0 < 1 <<< x.lastPlace := by
    rw [Nat.shiftLeft_eq, Nat.one_mul]
    exact Nat.two_pow_pos _
  refine Nat.mul_pos ?_ unit
  split <;> omega

/-- Zero does not lie among the decimals that round to another number. -/
theorem Interval.ne_zero_of_holds (nonzero : x.isZero = false)
    (within : (Interval.of x).holds digits exponent = true) : digits ≠ 0 := by
  rintro rfl
  obtain ⟨denominator, same, positive⟩ :
      ∃ denominator, ratio ⟨false, 0, exponent⟩ = (0, denominator) ∧ 0 < denominator := by
    unfold ratio
    split
    · exact ⟨1, by simp, Nat.one_pos⟩
    · exact ⟨_, rfl, Nat.pow_pos (by omega)⟩
  have above := Nat.mul_pos (Interval.low_pos nonzero) positive
  simp only [holds, same, Nat.zero_mul] at within
  split at within
  · simp only [Bool.and_eq_true, decide_eq_true_eq] at within
    omega
  · simp at within

theorem Interval.holds_of_onGrid? {i : Interval} {count : Nat}
    (found : i.onGrid? tie count = some (digits, exponent)) : i.holds digits exponent = true := by
  unfold onGrid? at found
  dsimp only at found
  split at found
  next below above =>
    obtain ⟨taken, rfl⟩ := Prod.mk.inj (Option.some.inj found)
    subst taken
    split
    · exact above
    · exact below
  next below _ =>
    obtain ⟨rfl, rfl⟩ := Prod.mk.inj (Option.some.inj found)
    exact below
  next _ above =>
    obtain ⟨rfl, rfl⟩ := Prod.mk.inj (Option.some.inj found)
    exact above
  next => simp at found

theorem dropZeros_ne_zero {budget : Nat} (nonzero : digits ≠ 0) :
    (dropZeros budget digits exponent).1 ≠ 0 := by
  induction budget generalizing digits exponent with
  | zero => exact nonzero
  | succ budget ih =>
    rw [dropZeros]
    split
    next divides => exact ih (by omega)
    next => exact nonzero

/-- Only zero is written with no digit other than zero, and then with no power of ten. -/
theorem exponent_of_digits (tie : Tie) (x : Binary64) (none : (shortest tie x).digits = 0) :
    (shortest tie x).exponent = 0 := by
  unfold shortest at none ⊢
  split
  next => rfl
  next nonzero =>
    rw [if_neg nonzero] at none
    dsimp only at none ⊢
    cases found : (List.range 18).findSome? ((Interval.of x).onGrid? tie) with
    | none => rfl
    | some best =>
      obtain ⟨count, -, best⟩ := List.exists_of_findSome?_eq_some found
      have within := Interval.holds_of_onGrid? best
      have digits := Interval.ne_zero_of_holds (by simpa using nonzero) within
      rw [found] at none
      exact absurd none (dropZeros_ne_zero digits)

end Decimal
/-! ### Numbers of JSON -/

namespace Json

/-- The digits before a point: a zero alone, or digits that start with another one. -/
structure WholeDigits (cs : List Char) : Prop where
  digits : ∀ c ∈ cs, c.isDigit = true
  start : cs = ['0'] ∨ ∃ c rest, cs = c :: rest ∧ c ≠ '0'

/-- The text does not go on with a digit. -/
def NoDigit (cs : List Char) : Prop := ∀ c ∈ cs.head?, Digits.isDecimal c = false

variable {cs rest after : List Char} {negative : Bool} {fraction : Option (List Char)}
  {exponent : Option (Bool × List Char)}

theorem noDigit_nil : NoDigit [] := by
  intro c head
  cases head

theorem noDigit_point : NoDigit ('.' :: cs) := by
  intro c head
  cases head
  decide

theorem noDigit_power : NoDigit ('e' :: cs) := by
  intro c head
  cases head
  decide

theorem wholeDigits_toDigits (n : Nat) : WholeDigits (Nat.toDigits 10 n) := by
  refine ⟨fun c => isDigit_of_mem_digits, ?_⟩
  rcases Nat.eq_zero_or_pos n with rfl | positive
  · exact .inl rfl
  · exact .inr (digits_cons positive)

theorem span_of_digits (digits : ∀ c ∈ cs, c.isDigit = true) (stops : NoDigit rest) :
    Digits.span (cs ++ rest) = (cs, rest) := by
  have all : ∀ c ∈ cs, Digits.isDecimal c = true := fun c member =>
    isDecimal_of_isDigit (digits c member)
  have none : rest.takeWhile Digits.isDecimal = [] ∧ rest.dropWhile Digits.isDecimal = rest := by
    cases rest with
    | nil => exact ⟨rfl, rfl⟩
    | cons c rest => simp [stops c rfl]
  rw [Digits.span, List.takeWhile_append_of_pos all, List.dropWhile_append_of_pos all, none.1, none.2,
    List.append_nil]

theorem WholeDigits.read (whole : WholeDigits cs) (stops : NoDigit rest) :
    wholeDigits? (cs ++ rest) = some (cs, rest) := by
  rcases whole.start with rfl | ⟨c, others, rfl, nonzero⟩
  · rfl
  · rw [List.cons_append, wholeDigits?_of_ne nonzero, ← List.cons_append,
      span_of_digits whole.digits stops]
    rfl

theorem fraction?_of_digits (digits : ∀ c ∈ cs, c.isDigit = true) (nonempty : cs ≠ [])
    (stops : NoDigit rest) : fraction? ('.' :: (cs ++ rest)) = some (some cs, rest) := by
  simp [fraction?, span_of_digits digits stops, nonempty]

theorem exponent?_toString (i : Int) :
    ∃ below digits, exponent? ('e' :: (toString i).toList) = some (some (below, digits), []) := by
  have all (n : Nat) : Digits.span (Nat.toDigits 10 n) = (Nat.toDigits 10 n, []) := span_digits n
  have nonempty (n : Nat) : Nat.toDigits 10 n ≠ [] := Nat.toDigits_ne_nil
  rw [Int.toString_eq_repr, Int.repr_eq_if]
  split
  next =>
    obtain ⟨c, cs, same⟩ := List.exists_cons_of_ne_nil (nonempty i.toNat)
    -- A number that is not negative starts with a digit, which is no sign.
    have digit : c.isDigit = true := isDigit_of_mem_digits (by rw [same]; exact List.mem_cons_self)
    have unsigned : exponentSign (c :: cs) = (false, c :: cs) := by
      unfold exponentSign
      split
      next minus =>
        cases minus
        exact absurd digit (by decide)
      next plus =>
        cases plus
        exact absurd digit (by decide)
      next => rfl
    have read := all i.toNat
    rw [same] at read
    refine ⟨false, c :: cs, ?_⟩
    rw [Nat.toList_repr, same]
    simp [exponent?, unsigned, read]
  next =>
    refine ⟨true, Nat.toDigits 10 (-i).toNat, ?_⟩
    simp [exponent?, exponentSign, Nat.toList_repr, all, nonempty]

/-- The text is a number that is not whole: it has a point or names a power of ten. -/
def IsFloat (cs : List Char) : Prop :=
  ∃ text, numberText? cs = some (text, []) ∧ (text.fraction ≠ none ∨ text.exponent ≠ none)

/-- A number is made of a sign, the digits before the point, and the rest. -/
theorem WholeDigits.isFloat (whole : WholeDigits cs) (stops : NoDigit rest)
    (read : fraction? rest = some (fraction, after)) (read' : exponent? after = some (exponent, []))
    (float : fraction ≠ none ∨ exponent ≠ none) (sign : List Char)
    (signed : sign = [] ∨ sign = ['-']) : IsFloat (sign ++ cs ++ rest) := by
  have unsigned (negative : Bool) :
      unsigned? negative (cs ++ rest) = some (⟨negative, cs, fraction, exponent⟩, []) := by
    simp [unsigned?, whole.read stops, read, read']
  rcases signed with rfl | rfl
  · obtain ⟨c, others, rfl⟩ : ∃ c others, cs = c :: others := by
      rcases whole.start with rfl | ⟨c, others, rfl, -⟩ <;> exact ⟨_, _, rfl⟩
    have noSign : c ≠ '-' := by
      rintro rfl
      exact absurd (whole.digits '-' List.mem_cons_self) (by decide)
    refine ⟨⟨false, c :: others, fraction, exponent⟩, ?_, float⟩
    rw [List.nil_append, List.cons_append, numberText?_of_ne noSign, ← List.cons_append, unsigned]
  · exact ⟨⟨true, cs, fraction, exponent⟩, unsigned true, float⟩

/-! ### Written numbers -/

theorem sign_cases (negative : Bool) : (if negative then "-" else "").toList = [] ∨
    (if negative then "-" else "").toList = ['-'] := by
  cases negative
  · exact .inl rfl
  · exact .inr rfl

theorem isFloat_of_whole {d : Decimal} (zero : d.digits = 0 → d.exponent = 0)
    (whole : 0 ≤ d.exponent) : IsFloat (d.positional ++ ".0").toList := by
  have digits := wholeDigits_toDigits d.digits
  have moved : WholeDigits (Nat.toDigits 10 d.digits ++ List.replicate d.exponent.toNat '0') := by
    refine ⟨List.forall_mem_append.mpr ⟨digits.digits, ?_⟩, ?_⟩
    · intro c member
      rw [List.eq_of_mem_replicate member]
      decide
    · rcases Nat.eq_zero_or_pos d.digits with none | positive
      · exact .inl (by simp [zero none, none])
      · obtain ⟨c, others, same, nonzero⟩ := digits_cons positive
        exact .inr ⟨c, others ++ List.replicate d.exponent.toNat '0', by simp [same], nonzero⟩
  have read : fraction? ['.', '0'] = some (some ['0'], []) := rfl
  have float := moved.isFloat noDigit_point read rfl (.inl (by simp)) _ (sign_cases d.negative)
  simpa [Decimal.positional, whole, Nat.toList_repr] using float

/-- Digits that are filled up with zeros in front, so that the last of them can stand behind a point. -/
theorem wholeDigits_take_padded {n places : Nat} (positive : 0 < n) {padded : List Char}
    (same : padded = List.replicate (places + 1 - (Nat.toDigits 10 n).length) '0' ++ Nat.toDigits 10 n) :
    WholeDigits (padded.take (padded.length - places)) ∧
      (∀ c ∈ padded.drop (padded.length - places), c.isDigit = true) ∧
      (padded.drop (padded.length - places)).length = places := by
  have all : ∀ c ∈ padded, c.isDigit = true := by
    rw [same]
    refine List.forall_mem_append.mpr ⟨fun c member => ?_, fun c => isDigit_of_mem_digits⟩
    rw [List.eq_of_mem_replicate member]
    decide
  have length : padded.length = max (places + 1) (Nat.toDigits 10 n).length := by
    rw [same, List.length_append, List.length_replicate]
    omega
  refine ⟨⟨fun c member => all c (List.mem_of_mem_take member), ?_⟩,
    fun c member => all c (List.mem_of_mem_drop member), by rw [List.length_drop]; omega⟩
  by_cases short : (Nat.toDigits 10 n).length ≤ places
  · -- A single zero is left before the point.
    obtain ⟨count, more⟩ : ∃ count, places + 1 - (Nat.toDigits 10 n).length = count + 1 :=
      ⟨places - (Nat.toDigits 10 n).length, by omega⟩
    have one : padded.length - places = 1 := by omega
    left
    rw [one, same, more, List.replicate_succ]
    rfl
  · obtain ⟨c, others, digits, nonzero⟩ := digits_cons positive
    obtain ⟨count, some⟩ : ∃ count, padded.length - places = count + 1 :=
      ⟨padded.length - places - 1, by omega⟩
    have none : places + 1 - (Nat.toDigits 10 n).length = 0 := by omega
    right
    refine ⟨c, others.take count, ?_, nonzero⟩
    rw [some, same, none, digits]
    rfl

theorem isFloat_of_places {d : Decimal} (zero : d.digits = 0 → d.exponent = 0)
    (below : ¬ 0 ≤ d.exponent) : IsFloat d.positional.toList := by
  have positive : 0 < d.digits := by
    refine Nat.pos_of_ne_zero fun none => below ?_
    exact Int.le_of_eq (zero none).symm
  obtain ⟨places, behind⟩ : ∃ places, (-d.exponent).toNat = places + 1 :=
    ⟨(-d.exponent).toNat - 1, by omega⟩
  obtain ⟨padded, same⟩ : ∃ padded, padded = List.replicate
      (places + 1 + 1 - (Nat.toDigits 10 d.digits).length) '0' ++ Nat.toDigits 10 d.digits := ⟨_, rfl⟩
  obtain ⟨whole, digits, length⟩ := wholeDigits_take_padded positive same
  have nonempty : padded.drop (padded.length - (places + 1)) ≠ [] := by
    rw [← List.length_pos_iff, length]
    exact Nat.succ_pos places
  have read := fraction?_of_digits digits nonempty noDigit_nil
  rw [List.append_nil] at read
  have float := whole.isFloat noDigit_point read rfl (.inl (by simp)) _ (sign_cases d.negative)
  have count : d.digits.repr.length = (Nat.toDigits 10 d.digits).length := by
    rw [← String.length_toList, Nat.toList_repr]
  rw [same] at float
  simpa [Decimal.positional, below, behind, count, Nat.toList_repr, List.splitAt_eq] using float

/-- A first digit, a point and the others, and a power of ten; with no point if there are no others. -/
theorem isFloat_of_power {n : Nat} (sign : List Char) (signed : sign = [] ∨ sign = ['-'])
    (power : Int) {mantissa : String}
    (same : mantissa = match (toString n).toList with
      | first :: second :: rest => String.ofList (first :: '.' :: second :: rest)
      | _ => toString n) :
    IsFloat (sign ++ mantissa.toList ++ 'e' :: (toString power).toList) := by
  obtain ⟨below, digits, read⟩ := exponent?_toString power
  have all := wholeDigits_toDigits n
  have text : (toString n).toList = Nat.toDigits 10 n := Nat.toList_repr
  rw [text] at same
  -- With a second digit there is a point after the first one. A single digit has none.
  split at same
  next first second rest parts =>
    have single : WholeDigits [first] := by
      refine ⟨fun c member => all.digits c (by rw [parts]; simp_all), ?_⟩
      rcases all.start with zero | ⟨c, others, digits, nonzero⟩
      · rw [parts] at zero
        simp at zero
      · rw [parts] at digits
        exact .inr ⟨first, [], rfl, by rwa [(List.cons.inj digits).1]⟩
    have digits : ∀ c ∈ second :: rest, c.isDigit = true := fun c member =>
      all.digits c (by rw [parts]; exact List.mem_cons_of_mem _ member)
    have float := single.isFloat noDigit_point
      (fraction?_of_digits digits (List.cons_ne_nil _ _) noDigit_power) read (.inl (by simp)) sign signed
    simpa [same] using float
  next =>
    have float := all.isFloat noDigit_power (fraction?_of_ne (by decide) _) read (.inr (by simp)) sign
      signed
    rwa [← text, ← same] at float

/-- A finite number is written as a number that is not whole. -/
theorem isFloat_floatText {x : Binary64} (finite : x.isFinite = true) :
    IsFloat (floatText x).toList := by
  have zero := Decimal.exponent_of_digits .even x
  unfold floatText
  rw [if_neg (by simp [finite])]
  dsimp only
  split
  next =>
    split
    next whole => exact isFloat_of_whole zero whole
    next below => exact isFloat_of_places zero below
  next =>
    have float := isFloat_of_power (n := (Decimal.shortest .even x).digits) _
      (sign_cases (Decimal.shortest .even x).negative)
      ((toString (Decimal.shortest .even x).digits).length + (Decimal.shortest .even x).exponent - 1) rfl
    rw [String.toList_append, String.toList_append, String.toList_append, List.append_assoc]
    exact float

/-- What is no whole number has the value of a floating point number, if any. -/
theorem value?_eq_map {text : NumberText} (part : text.fraction ≠ none ∨ text.exponent ≠ none) :
    ∃ value : Option Binary64, text.value? = value.map .float := by
  unfold NumberText.value?
  dsimp only
  split
  next none none' => simp [none, none'] at part
  next => exact ⟨_, (Option.map_map ..).symm⟩

end Json

/-! ### Reading what is written -/

namespace Binary64

/-- What the reader makes of the number as it is written: nothing if that is no number or leaves the
range, and possibly a neighbour. -/
def reread? (x : Binary64) : Option Binary64 :=
  match Json.lexeme? (Json.floatText x).toList with
  | some (.number (some (.float y)), []) => some y
  | _ => none

variable {x : Binary64}

theorem readsBack_iff : x.ReadsBack ↔ x.reread? = some x := by
  unfold ReadsBack reread?
  constructor
  · intro read
    rw [read]
  · intro same
    split at same
    next y read =>
      cases same
      exact read
    next => cases same

theorem floatText_of_infinite (infinite : x.isFinite = false) : Json.floatText x = "null" := by
  simp [Json.floatText, infinite]

theorem reread?_of_infinite (infinite : x.isFinite = false) : x.reread? = none := by
  rw [reread?, floatText_of_infinite infinite]
  rfl

theorem lexeme?_floatText (finite : x.isFinite = true) :
    Json.lexeme? (Json.floatText x).toList = some (.number (x.reread?.map .float), []) := by
  obtain ⟨text, read, part⟩ := Json.isFloat_floatText finite
  obtain ⟨value, same⟩ := Json.value?_eq_map part
  have lexeme := Json.lexeme?_of_numberText? read
  rw [same] at lexeme
  rw [reread?, lexeme]
  cases value <;> rfl

end Binary64
end ShellSema
