import Mathlib.Data.List.Chain
import Mathlib.Data.List.TakeWhile
import ShellSema.Json.Reader
import ShellSema.Json.Writer

/-!
# Lexemes of written texts

The text of a value is read as the lexemes that it is written from, whatever blanks stand between them.
Whole numbers and strings are read as they are written. Of a number that is not whole this is asked:
reading rounds twice, so some are read as a neighbour.
-/
namespace ShellSema

/-- The text of the number is one lexeme, and has its value. -/
def Binary64.ReadsBack (x : Binary64) : Prop :=
  Json.lexeme? (Json.floatText x).toList = some (.number (some (.float x)), [])

instance (x : Binary64) : Decidable x.ReadsBack := inferInstanceAs (Decidable (_ = _))

/-- What is written as `0.9583256005923217` is read as a neighbour. -/
example : ¬ Binary64.ReadsBack ⟨0x3FEEAA9A732ED5A6⟩ := by decide +kernel

namespace Json

/-! ### Digits -/

theorem value?_of_isDigit {c : Char} (digit : c.isDigit = true) :
    Digits.value? 10 c = some (c.toNat - '0'.toNat) := by
  have bounds : '0' ≤ c ∧ c ≤ '9' := by
    simpa [Char.isDigit, Char.le_def] using digit
  have small : c.toNat - '0'.toNat < 10 := by
    have above : c.toNat ≤ '9'.toNat := bounds.2
    have nine : '9'.toNat = '0'.toNat + 9 := rfl
    omega
  simpa [Digits.value?, bounds] using small

theorem isDecimal_of_isDigit {c : Char} (digit : c.isDigit = true) : Digits.isDecimal c = true := by
  simp [Digits.isDecimal, value?_of_isDigit digit]

theorem isDigit_of_mem_digits {n : Nat} {c : Char} (member : c ∈ Nat.toDigits 10 n) :
    c.isDigit = true :=
  Nat.isDigit_of_mem_toDigits (by omega) (by omega) member

/-- The digits of a number other than zero do not start with a zero. -/
theorem digits_cons {n : Nat} (positive : 0 < n) :
    ∃ c cs, Nat.toDigits 10 n = c :: cs ∧ c ≠ '0' := by
  induction n using Nat.strongRecOn with
  | ind n ih =>
    rw [Nat.toDigits_eq_if (by omega)]
    split
    next small =>
      refine ⟨n.digitChar, [], rfl, ?_⟩
      simpa using Nat.pos_iff_ne_zero.mp positive
    next great =>
      obtain ⟨c, cs, first, nonzero⟩ := ih (n / 10) (by omega) (by omega)
      exact ⟨c, cs ++ [(n % 10).digitChar], by rw [first]; rfl, nonzero⟩

/-- A number that fits into 64 bits is collected digit by digit. -/
theorem collectWhole_eq {cs : List Char} (digits : ∀ c ∈ cs, c.isDigit = true) {sofar : Nat}
    (fits : Nat.ofDigitChars 10 cs sofar < wordLimit) :
    collectWhole ⟨sofar, 0⟩ cs = ⟨Nat.ofDigitChars 10 cs sofar, 0⟩ := by
  induction cs generalizing sofar with
  | nil => rfl
  | cons c cs ih =>
    have next : extended ⟨sofar, 0⟩ c = 10 * sofar + (c.toNat - '0'.toNat) := by
      rw [extended, value?_of_isDigit (digits c List.mem_cons_self), Option.getD_some, Nat.mul_comm]
    rw [Nat.ofDigitChars_cons] at fits ⊢
    -- What is collected so far is no greater than the whole number.
    have room : 10 * sofar + (c.toNat - '0'.toNat) < wordLimit := by
      rw [Nat.ofDigitChars_eq_ofDigitChars_zero] at fits
      have grows := Nat.le_mul_of_pos_left (10 * sofar + (c.toNat - '0'.toNat))
        (Nat.pow_pos (by omega : 0 < 10) : 0 < 10 ^ cs.length)
      omega
    rw [collectWhole, next, if_pos room]
    exact ih (fun c member => digits c (List.mem_cons_of_mem _ member)) fits

/-! ### Numbers -/

/-- The text does not continue a number. -/
def EndsNumber (cs : List Char) : Prop :=
  ∀ c ∈ cs.head?, Digits.isDecimal c = false ∧ c ≠ '.' ∧ c ≠ 'e' ∧ c ≠ 'E'

theorem span_append {cs rest : List Char} (ends : EndsNumber rest) :
    Digits.span (cs ++ rest) = ((Digits.span cs).1, (Digits.span cs).2 ++ rest) := by
  have stops : rest.takeWhile Digits.isDecimal = [] ∧ rest.dropWhile Digits.isDecimal = rest := by
    cases rest with
    | nil => exact ⟨rfl, rfl⟩
    | cons c rest => simp [(ends c rfl).1]
  induction cs with
  | nil => simp [Digits.span, stops]
  | cons c cs ih =>
    simp only [Digits.span, List.cons_append, List.takeWhile_cons, List.dropWhile_cons] at ih ⊢
    split <;> simp_all

theorem wholeDigits?_of_ne {c : Char} (nonzero : c ≠ '0') (cs : List Char) :
    wholeDigits? (c :: cs) =
      if (Digits.span (c :: cs)).1.isEmpty then none else some (Digits.span (c :: cs)) := by
  unfold wholeDigits?
  split
  next same =>
    cases same
    exact absurd rfl nonzero
  next => rfl

theorem wholeDigits?_append {cs rest digits after : List Char} (ends : EndsNumber rest)
    (read : wholeDigits? cs = some (digits, after)) :
    wholeDigits? (cs ++ rest) = some (digits, after ++ rest) := by
  cases cs with
  | nil => simp [wholeDigits?, Digits.span] at read
  | cons c cs =>
    by_cases zero : c = '0'
    · -- A zero is all of the whole number, whatever follows it.
      subst zero
      obtain ⟨rfl, rfl⟩ : ['0'] = digits ∧ cs = after := by simpa [wholeDigits?] using read
      rfl
    · rw [wholeDigits?_of_ne zero] at read
      rw [List.cons_append, wholeDigits?_of_ne zero, ← List.cons_append, span_append ends]
      split_ifs at read with empty
      rw [if_neg empty]
      cases read
      rfl

theorem fraction?_of_ne {c : Char} (other : c ≠ '.') (cs : List Char) :
    fraction? (c :: cs) = some (none, c :: cs) := by
  unfold fraction?
  split
  next same =>
    cases same
    exact absurd rfl other
  next => rfl

theorem fraction?_append {cs rest after : List Char} {fraction : Option (List Char)}
    (ends : EndsNumber rest) (read : fraction? cs = some (fraction, after)) :
    fraction? (cs ++ rest) = some (fraction, after ++ rest) := by
  cases cs with
  | nil =>
    cases read
    cases rest with
    | nil => rfl
    | cons c rest => exact fraction?_of_ne (ends c rfl).2.1 rest
  | cons c cs =>
    by_cases point : c = '.'
    · subst point
      simp only [fraction?, List.cons_append, span_append ends] at read ⊢
      split_ifs at read with empty
      rw [if_neg empty]
      cases read
      rfl
    · rw [fraction?_of_ne point] at read
      cases read
      exact fraction?_of_ne point (cs ++ rest)

/-- A text that goes on with a sign does so behind the text, too. -/
theorem exponentSign_append {cs : List Char} (nonempty : cs ≠ []) (rest : List Char) :
    exponentSign (cs ++ rest) = ((exponentSign cs).1, (exponentSign cs).2 ++ rest) := by
  obtain ⟨c, cs, rfl⟩ := List.exists_cons_of_ne_nil nonempty
  by_cases minus : c = '-'
  · subst minus
    rfl
  by_cases plus : c = '+'
  · subst plus
    rfl
  · simp [exponentSign, minus, plus]

theorem exponent?_append {cs rest after : List Char} {exponent : Option (Bool × List Char)}
    (ends : EndsNumber rest) (read : exponent? cs = some (exponent, after)) :
    exponent? (cs ++ rest) = some (exponent, after ++ rest) := by
  cases cs with
  | nil =>
    cases read
    cases rest with
    | nil => rfl
    | cons c rest =>
      have other := (ends c rfl).2.2
      simp [exponent?, other]
  | cons c cs =>
    by_cases mark : c = 'e' ∨ c = 'E'
    · -- At least one digit follows the mark, so a sign right behind the text is none of its own.
      have nonempty : cs ≠ [] := by
        rintro rfl
        simp [exponent?, mark, exponentSign, Digits.span] at read
      simp only [exponent?, mark, if_true, List.cons_append, exponentSign_append nonempty,
        span_append ends] at read ⊢
      split_ifs at read with empty
      rw [if_neg empty]
      cases read
      rfl
    · simp only [exponent?, mark, if_false, List.cons_append] at read ⊢
      cases read
      rfl

/-- A number whose sign has been read. -/
def unsigned? (negative : Bool) (cs : List Char) : Option (NumberText × List Char) := do
  let (whole, cs) ← wholeDigits? cs
  let (fraction, cs) ← fraction? cs
  let (exponent, cs) ← exponent? cs
  return (⟨negative, whole, fraction, exponent⟩, cs)

theorem numberText?_minus (cs : List Char) : numberText? ('-' :: cs) = unsigned? true cs := rfl

theorem numberText?_of_ne {c : Char} (other : c ≠ '-') (cs : List Char) :
    numberText? (c :: cs) = unsigned? false (c :: cs) := by
  unfold numberText?
  split
  next same =>
    split at same
    next minus =>
      cases minus
      exact absurd rfl other
    next =>
      cases same
      rfl

theorem unsigned?_append {cs rest after : List Char} {negative : Bool} {text : NumberText}
    (ends : EndsNumber rest) (read : unsigned? negative cs = some (text, after)) :
    unsigned? negative (cs ++ rest) = some (text, after ++ rest) := by
  simp only [unsigned?, Option.bind_eq_bind, Option.bind_eq_some_iff] at read
  obtain ⟨⟨whole, first⟩, wholeRead, ⟨fraction, second⟩, fractionRead, ⟨exponent, third⟩, exponentRead,
    same⟩ := read
  cases same
  simp [unsigned?, wholeDigits?_append ends wholeRead, fraction?_append ends fractionRead,
    exponent?_append ends exponentRead]

/-- A number is read as well where something else follows. -/
theorem numberText?_append {cs rest after : List Char} {text : NumberText} (ends : EndsNumber rest)
    (read : numberText? cs = some (text, after)) :
    numberText? (cs ++ rest) = some (text, after ++ rest) := by
  cases cs with
  | nil => cases read
  | cons c cs =>
    by_cases minus : c = '-'
    · subst minus
      exact unsigned?_append ends read
    · rw [numberText?_of_ne minus] at read
      rw [List.cons_append, numberText?_of_ne minus]
      exact unsigned?_append ends read

/-- A number starts with a minus sign or a digit. -/
theorem head_of_numberText? {c : Char} {cs after : List Char} {text : NumberText}
    (read : numberText? (c :: cs) = some (text, after)) : c = '-' ∨ Digits.isDecimal c = true := by
  by_cases minus : c = '-'
  · exact .inl minus
  by_cases zero : c = '0'
  · subst zero
    exact .inr (by decide)
  rw [numberText?_of_ne minus, unsigned?, wholeDigits?_of_ne zero] at read
  by_contra other
  simp_all [Digits.span]

/-- Where a number is read, no other lexeme is. -/
theorem lexeme?_of_numberText? {cs after : List Char} {text : NumberText}
    (read : numberText? cs = some (text, after)) :
    lexeme? cs = some (.number text.value?, after) := by
  unfold lexeme?
  split
  case h_11 => simp [read]
  all_goals exact absurd (head_of_numberText? read) (by decide)

/-- A number that is a lexeme of its own is one as well where something else follows. -/
theorem lexeme?_number_append {cs rest : List Char} {value : Option Number} (ends : EndsNumber rest)
    (read : lexeme? cs = some (.number value, [])) :
    lexeme? (cs ++ rest) = some (.number value, rest) := by
  unfold lexeme? at read
  split at read
  case h_11 =>
    obtain ⟨⟨text, after⟩, found, same⟩ := Option.map_eq_some_iff.mp read
    cases same
    exact lexeme?_of_numberText? (numberText?_append ends found)
  all_goals simp at read

theorem span_digits (n : Nat) : Digits.span (Nat.toDigits 10 n) = (Nat.toDigits 10 n, []) := by
  have all : ∀ c ∈ Nat.toDigits 10 n, Digits.isDecimal c = true := fun c member =>
    isDecimal_of_isDigit (isDigit_of_mem_digits member)
  rw [Digits.span, List.takeWhile_eq_self_iff.mpr all, List.dropWhile_eq_nil_iff.mpr all]

/-- The digits of a number are read to their end. -/
theorem unsigned?_digits (negative : Bool) (n : Nat) :
    unsigned? negative (Nat.toDigits 10 n) = some (⟨negative, Nat.toDigits 10 n, none, none⟩, []) := by
  have whole : wholeDigits? (Nat.toDigits 10 n) = some (Nat.toDigits 10 n, []) := by
    rcases Nat.eq_zero_or_pos n with rfl | positive
    · rfl
    · have all := span_digits n
      obtain ⟨c, cs, digits, nonzero⟩ := digits_cons positive
      rw [digits] at all ⊢
      rw [wholeDigits?_of_ne nonzero, all]
      rfl
  simp [unsigned?, whole, fraction?, exponent?]

theorem numberText?_digits (n : Nat) :
    numberText? (Nat.toDigits 10 n) = some (⟨false, Nat.toDigits 10 n, none, none⟩, []) := by
  have read := unsigned?_digits false n
  obtain ⟨c, cs, digits⟩ := List.exists_cons_of_ne_nil (Nat.toDigits_ne_nil : Nat.toDigits 10 n ≠ [])
  have digit : c.isDigit = true := isDigit_of_mem_digits (by rw [digits]; exact List.mem_cons_self)
  have noSign : c ≠ '-' := by
    rintro rfl
    exact absurd digit (by decide)
  rwa [digits, numberText?_of_ne noSign, ← digits]

theorem collectWhole_digits {n : Nat} (fits : n < wordLimit) :
    collectWhole ⟨0, 0⟩ (Nat.toDigits 10 n) = ⟨n, 0⟩ := by
  have same : Nat.ofDigitChars 10 (Nat.toDigits 10 n) 0 = n :=
    Nat.ofDigitChars_toDigits (by omega) (by omega)
  have collected := collectWhole_eq (fun c member => isDigit_of_mem_digits member)
    (by rwa [same] : Nat.ofDigitChars 10 (Nat.toDigits 10 n) 0 < wordLimit)
  rwa [same] at collected

/-- A whole number of 64 bits, with a sign or without, is read as it is written. -/
theorem lexeme?_integer {value : Int} (low : -(2 ^ 63) ≤ value) (high : value < 2 ^ 64) :
    lexeme? (toString value).toList = some (.number (some (.integer value)), []) := by
  rw [Int.toString_eq_repr, Int.repr_eq_if]
  split
  next natural =>
    obtain ⟨n, rfl⟩ := Int.eq_ofNat_of_zero_le natural
    have fits : n < wordLimit := by
      simp only [wordLimit]
      omega
    rw [Int.toNat_natCast, Nat.toList_repr, lexeme?_of_numberText? (numberText?_digits n)]
    simp [NumberText.value?, collectWhole_digits fits]
  next negative =>
    obtain ⟨n, rfl⟩ : ∃ n : Nat, value = -n := ⟨value.natAbs, by omega⟩
    have fits : n < wordLimit := by
      simp only [wordLimit]
      omega
    have text : ("-" ++ (- -(n : Int)).toNat.repr).toList = '-' :: Nat.toDigits 10 n := by
      simp [Nat.toList_repr]
    have read : numberText? ('-' :: Nat.toDigits 10 n) =
        some (⟨true, Nat.toDigits 10 n, none, none⟩, []) := by
      rw [numberText?_minus, unsigned?_digits]
    -- Minus zero and what lies below the range would be read as another number.
    have signed : ¬ (n = 0 ∨ 2 ^ 63 < n) := by omega
    rw [text, lexeme?_of_numberText? read]
    simp only [NumberText.value?, collectWhole_digits fits, signed]
    simp

/-! ### Strings -/

theorem fourDigits?_control : ∀ n < 0x20,
    fourDigits? '0' '0' (n / 16).digitChar (n % 16).digitChar = some n := by
  decide

theorem character?_control {c : Char} (control : c.toNat < 0x20) (rest : List Char) :
    character? ('\\' :: 'u' :: (controlDigits c.toNat ++ rest)) = some (some c, rest) := by
  have code := fourDigits?_control c.toNat control
  have noHigh : ¬ (0xD800 ≤ c.toNat ∧ c.toNat ≤ 0xDBFF) := by omega
  have noLow : ¬ (0xDC00 ≤ c.toNat ∧ c.toNat ≤ 0xDFFF) := by omega
  simp only [controlDigits, List.cons_append, List.nil_append, character?, code, noHigh, noLow,
    if_false, Char.ofNat_toNat]

theorem character?_plain {c : Char} (noEscape : c ≠ '\\') (noControl : ¬ c.toNat < 0x20)
    (rest : List Char) : character? (c :: rest) = some (some c, rest) := by
  unfold character?
  split
  next same => exact absurd (List.cons.inj same).1 noEscape
  next same => exact absurd (List.cons.inj same).1 noEscape
  next same =>
    cases same
    rw [if_neg (by simp [noEscape, noControl])]
  next same => cases same

/-- A character is read as it is escaped. -/
theorem character?_escape (c : Char) (rest : List Char) :
    character? (escape c ++ rest) = some (some c, rest) := by
  unfold escape
  split_ifs with quote backslash backspace formFeed newline carriageReturn tab control
  -- Seven characters have an escape of their own.
  iterate 7
    subst_vars
    rfl
  · exact character?_control control rest
  · exact character?_plain backslash control rest

theorem escape_cons (c : Char) : ∃ first rest, escape c = first :: rest ∧ first ≠ '"' := by
  unfold escape
  split_ifs with quote
  case neg => exact ⟨c, [], rfl, quote⟩
  all_goals exact ⟨'\\', _, rfl, by decide⟩

/-- The characters of a string are read back, up to the quote behind them. -/
theorem characters?_escaped {text : List Char} {budget : Nat} (room : text.length < budget)
    (rest : List Char) :
    characters? budget (text.flatMap escape ++ '"' :: rest) = some (some text, rest) := by
  induction text generalizing budget with
  | nil =>
    obtain ⟨budget, rfl⟩ := Nat.exists_eq_add_one_of_ne_zero (Nat.ne_zero_of_lt room)
    rfl
  | cons c text ih =>
    obtain ⟨budget, rfl⟩ := Nat.exists_eq_add_one_of_ne_zero (Nat.ne_zero_of_lt room)
    have others := ih (Nat.lt_of_succ_lt_succ room)
    have read := character?_escape c (text.flatMap escape ++ '"' :: rest)
    obtain ⟨first, more, same, noQuote⟩ := escape_cons c
    rw [List.flatMap_cons, List.append_assoc]
    rw [same, List.cons_append] at read ⊢
    rw [characters?]
    · simp [read, others]
    · intro cs quote
      exact noQuote (List.cons.inj quote).1

theorem length_le_escaped (cs : List Char) : cs.length ≤ (cs.flatMap escape).length := by
  induction cs with
  | nil => exact Nat.le_refl _
  | cons c cs ih =>
    obtain ⟨first, more, same, -⟩ := escape_cons c
    simp only [List.flatMap_cons, same, List.length_append, List.length_cons]
    omega

/-- A string is read as it is written. -/
theorem lexeme?_quoted (text : String) (rest : List Char) :
    lexeme? (quoted text ++ rest) = some (.text (some text), rest) := by
  have room : text.toList.length < (text.toList.flatMap escape ++ '"' :: rest).length + 1 := by
    have bound := length_le_escaped text.toList
    simp only [List.length_append]
    omega
  have read := characters?_escaped room rest
  simp only [quoted, List.cons_append, List.append_assoc, List.nil_append, lexeme?, read]
  simp

/-! ### Single lexemes -/

/-- What is written as the lexeme is read as the same value. -/
def Lexeme.Faithful : Lexeme → Prop
  | .number (some (.integer value)) => -(2 ^ 63) ≤ value ∧ value < 2 ^ 64
  | .number (some (.float x)) => x.ReadsBack
  | .number none | .text none => False
  | _ => True

def Lexeme.isNumber : Lexeme → Bool
  | .number _ => true
  | _ => false

theorem endsNumber_nil : EndsNumber [] := by
  intro c head
  cases head

theorem endsNumber_chars {lexeme : Lexeme} (other : lexeme.isNumber = false) (rest : List Char) :
    EndsNumber (lexeme.chars ++ rest) := by
  intro c head
  cases lexeme with
  | number value => cases other
  | bool value =>
    cases value
    all_goals
      cases head
      decide
  | text value =>
    cases value
    all_goals
      cases head
      decide
  | _ =>
    cases head
    decide

theorem isGap_iff {c : Char} : isGap c = true ↔ c = ' ' ∨ c = '\t' ∨ c = '\n' ∨ c = '\r' := by
  simp [isGap, or_assoc]

theorem endsNumber_gap {gap rest : List Char} (blank : ∀ c ∈ gap, isGap c = true)
    (ends : EndsNumber rest) : EndsNumber (gap ++ rest) := by
  cases gap with
  | nil => exact ends
  | cons c gap =>
    intro c' head
    cases head
    rcases isGap_iff.mp (blank c List.mem_cons_self) with rfl | rfl | rfl | rfl <;> decide

/-- A lexeme is read where it is written. -/
theorem lexeme?_chars {lexeme : Lexeme} (faithful : lexeme.Faithful) {rest : List Char}
    (ends : lexeme.isNumber = true → EndsNumber rest) :
    lexeme? (lexeme.chars ++ rest) = some (lexeme, rest) := by
  cases lexeme with
  | number value =>
    match value with
    | none => exact faithful.elim
    | some (.integer value) =>
      exact lexeme?_number_append (ends rfl) (lexeme?_integer faithful.1 faithful.2)
    | some (.float x) => exact lexeme?_number_append (ends rfl) faithful
  | text value =>
    cases value with
    | none => exact faithful.elim
    | some text => exact lexeme?_quoted text rest
  | bool value => cases value <;> rfl
  | _ => rfl

/-- No lexeme starts with a blank. -/
theorem isGap_of_lexeme? {cs : List Char} {read : Lexeme × List Char} (found : lexeme? cs = some read) :
    ∃ c rest, cs = c :: rest ∧ isGap c = false := by
  cases cs with
  | nil => cases found
  | cons c cs =>
    refine ⟨c, cs, rfl, ?_⟩
    by_contra blank
    have space := isGap_iff.mp (by simpa using blank)
    -- A text that starts with a blank could only be a number, and no number does.
    have number : lexeme? (c :: cs) = (numberText? (c :: cs)).map fun numbered =>
        (.number numbered.1.value?, numbered.2) := by
      rcases space with rfl | rfl | rfl | rfl <;> rfl
    rw [number] at found
    obtain ⟨⟨text, after⟩, numbered, -⟩ := Option.map_eq_some_iff.mp found
    have start := head_of_numberText? numbered
    rcases space with rfl | rfl | rfl | rfl <;> exact absurd start (by decide)

/-! ### Rows of lexemes -/

/-- The layout puts nothing but blanks between lexemes. -/
def Layout.IsBlank (layout : Layout) : Prop :=
  ∀ level before after, ∀ c ∈ layout level before after, isGap c = true

theorem isBlank_indented : Layout.indented.IsBlank := by
  intro level before after c member
  have line : ∀ level, ∀ c ∈ newLine level, isGap c = true := by
    intro level c member
    rcases List.mem_cons.mp member with rfl | blank
    · decide
    · rw [List.eq_of_mem_replicate blank]
      decide
  unfold Layout.indented at member
  -- Before a closing lexeme, after an opening one or a comma, after a colon, and anywhere else.
  split_ifs at member
  case pos => cases member
  case neg => exact line _ c member
  case pos => exact line _ c member
  case pos =>
    rw [List.mem_singleton.mp member]
    decide
  case neg => cases member

/-- Lexemes that can be told apart without blanks between them. -/
def Apart (before after : Lexeme) : Prop := before.isNumber = true → after.isNumber = false

theorem endsNumber_layOut {layout : Layout} (blank : layout.IsBlank) {level : Nat} {before : Lexeme}
    {lexemes : List Lexeme} (apart : List.IsChain Apart (before :: lexemes))
    (number : before.isNumber = true) : EndsNumber (layOut layout level before lexemes) := by
  cases lexemes with
  | nil => exact endsNumber_nil
  | cons lexeme lexemes =>
    rw [layOut, List.append_assoc]
    have other := (List.isChain_cons_cons.mp apart).1 number
    exact endsNumber_gap (blank level before lexeme) (endsNumber_chars other _)

theorem lexemesWithin?_cons {lexeme : Lexeme} {gap cs rest : List Char} (budget : Nat)
    (blank : ∀ c ∈ gap, isGap c = true) (read : lexeme? (cs ++ rest) = some (lexeme, rest)) :
    lexemesWithin? (budget + 1) (gap ++ cs ++ rest) =
      (lexemesWithin? budget rest).map (lexeme :: ·) := by
  obtain ⟨c, others, same, noGap⟩ := isGap_of_lexeme? read
  -- The blanks are skipped, and nothing of the lexeme is.
  have skipped : (gap ++ cs ++ rest).dropWhile isGap = c :: others := by
    rw [List.append_assoc, List.dropWhile_append_of_pos blank, same]
    simp [noGap]
  rw [same] at read
  simp only [lexemesWithin?, skipped, read, Option.bind_eq_bind, Option.bind_some]
  cases lexemesWithin? budget rest <;> rfl

/-- Lexemes that are laid out are read one by one. -/
theorem lexemesWithin?_layOut {layout : Layout} (blank : layout.IsBlank) {level : Nat}
    {before : Lexeme} {lexemes : List Lexeme} (faithful : ∀ lexeme ∈ lexemes, lexeme.Faithful)
    (apart : List.IsChain Apart lexemes) {budget : Nat} (room : lexemes.length ≤ budget) :
    lexemesWithin? budget (layOut layout level before lexemes) = some lexemes := by
  induction lexemes generalizing level before budget with
  | nil => cases budget <;> rfl
  | cons lexeme lexemes ih =>
    obtain ⟨budget, rfl⟩ := Nat.exists_eq_add_one_of_ne_zero (Nat.ne_zero_of_lt room)
    have others : lexemesWithin? budget (layOut layout (lexeme.levelAfter level) lexeme lexemes) =
        some lexemes :=
      ih (fun other member => faithful other (List.mem_cons_of_mem _ member)) apart.of_cons
        (Nat.le_of_succ_le_succ room)
    -- Digits of the next lexeme would be read as part of a number, but there are none.
    have ends : lexeme.isNumber = true →
        EndsNumber (layOut layout (lexeme.levelAfter level) lexeme lexemes) :=
      endsNumber_layOut blank apart
    have read := lexeme?_chars (faithful lexeme List.mem_cons_self) ends
    rw [layOut, lexemesWithin?_cons budget (blank level before lexeme) read, others, Option.map_some]

theorem Lexeme.Faithful.length_chars {lexeme : Lexeme} (faithful : lexeme.Faithful) :
    0 < lexeme.chars.length := by
  have read := lexeme?_chars faithful fun _ => endsNumber_nil
  rw [List.append_nil] at read
  obtain ⟨c, cs, same, -⟩ := isGap_of_lexeme? read
  rw [same]
  exact Nat.zero_lt_succ _

theorem length_le_layOut {layout : Layout} {level : Nat} {before : Lexeme} {lexemes : List Lexeme}
    (faithful : ∀ lexeme ∈ lexemes, lexeme.Faithful) :
    lexemes.length ≤ (layOut layout level before lexemes).length := by
  induction lexemes generalizing level before with
  | nil => exact Nat.le_refl _
  | cons lexeme lexemes ih =>
    have first := (faithful lexeme List.mem_cons_self).length_chars
    have others : lexemes.length ≤ (layOut layout (lexeme.levelAfter level) lexeme lexemes).length :=
      ih fun other member => faithful other (List.mem_cons_of_mem _ member)
    simp only [layOut, List.length_append, List.length_cons]
    omega

/-! ### Values -/

/-- What is written for the value is read as the same value: it is made of whole numbers of 64 bits, of
other numbers that read back, and of usable values. -/
inductive Faithful : Json → Prop
  | null : Faithful .null
  | bool {value : Bool} : Faithful (.bool value)
  | integer {value : Int} (low : -(2 ^ 63) ≤ value) (high : value < 2 ^ 64) : Faithful (.integer value)
  | float {x : Binary64} (reads : x.ReadsBack) : Faithful (.float x)
  | string {value : String} : Faithful (.string value)
  | array {items : List Json} (all : ∀ item ∈ items, Faithful item) : Faithful (.array items)
  | object {members : List (String × Json)} (all : ∀ member ∈ members, Faithful member.2) :
    Faithful (.object members)

/-- A row of lexemes that is read as it is written. -/
structure Legible (lexemes : List Lexeme) : Prop where
  faithful : ∀ lexeme ∈ lexemes, lexeme.Faithful
  apart : List.IsChain Apart lexemes

theorem legible_singleton {lexeme : Lexeme} (faithful : lexeme.Faithful) : Legible [lexeme] :=
  ⟨fun _ member => List.mem_singleton.mp member ▸ faithful, .singleton _⟩

theorem Legible.cons {lexeme : Lexeme} {lexemes : List Lexeme} (rest : Legible lexemes)
    (faithful : lexeme.Faithful) (mark : lexeme.isNumber = false) : Legible (lexeme :: lexemes) := by
  constructor
  · exact List.forall_mem_cons.mpr ⟨faithful, rest.faithful⟩
  · refine List.isChain_cons.mpr ⟨fun _ _ number => ?_, rest.apart⟩
    rw [mark] at number
    cases number

theorem Legible.append {first second : List Lexeme} (legible : Legible first) (rest : Legible second)
    (mark : ∀ lexeme ∈ second.head?, lexeme.isNumber = false) : Legible (first ++ second) := by
  constructor
  · exact List.forall_mem_append.mpr ⟨legible.faithful, rest.faithful⟩
  · exact List.isChain_append.mpr ⟨legible.apart, rest.apart, fun _ _ y head _ => mark y head⟩

theorem legible_moreItems {items : List Json} (all : ∀ item ∈ items, Legible item.toLexemes) :
    Legible (moreItemLexemes items) := by
  induction items with
  | nil => exact legible_singleton trivial
  | cons item items ih =>
    have others := ih fun item member => all item (List.mem_cons_of_mem _ member)
    -- An item is followed by a comma or by the end of the array.
    have mark : ∀ lexeme ∈ (moreItemLexemes items).head?, lexeme.isNumber = false := by
      cases items <;> simp [moreItemLexemes, Lexeme.isNumber]
    exact ((all item List.mem_cons_self).append others mark).cons trivial rfl

theorem legible_moreMembers {members : List (String × Json)}
    (all : ∀ member ∈ members, Legible member.2.toLexemes) :
    Legible (moreMemberLexemes members) := by
  induction members with
  | nil => exact legible_singleton trivial
  | cons member members ih =>
    have others := ih fun other inside => all other (List.mem_cons_of_mem _ inside)
    have mark : ∀ lexeme ∈ (moreMemberLexemes members).head?, lexeme.isNumber = false := by
      cases members <;> simp [moreMemberLexemes, Lexeme.isNumber]
    have colon : Lexeme.colon.Faithful := trivial
    have name : (Lexeme.text (some member.1)).Faithful := trivial
    have value := (all member List.mem_cons_self).append others mark
    exact ((value.cons colon rfl).cons name rfl).cons trivial rfl

/-- The items of an array are written as the items after a first one are, but for the comma. -/
theorem legible_items {items : List Json} (all : ∀ item ∈ items, Legible item.toLexemes) :
    Legible (itemLexemes items) := by
  cases items with
  | nil => exact legible_singleton trivial
  | cons item items =>
    have more := legible_moreItems all
    exact ⟨fun lexeme member => more.faithful lexeme (List.mem_cons_of_mem _ member),
      more.apart.of_cons⟩

theorem legible_members {members : List (String × Json)}
    (all : ∀ member ∈ members, Legible member.2.toLexemes) : Legible (memberLexemes members) := by
  cases members with
  | nil => exact legible_singleton trivial
  | cons member members =>
    have more := legible_moreMembers all
    exact ⟨fun lexeme inside => more.faithful lexeme (List.mem_cons_of_mem _ inside),
      more.apart.of_cons⟩

/-- The lexemes of a faithful value are read as they are written. -/
theorem Faithful.legible {value : Json} (faithful : value.Faithful) : Legible value.toLexemes := by
  induction faithful with
  | null => exact legible_singleton trivial
  | bool => exact legible_singleton trivial
  | integer low high => exact legible_singleton ⟨low, high⟩
  | float reads => exact legible_singleton reads
  | string => exact legible_singleton trivial
  | array _ ih => exact (legible_items ih).cons trivial rfl
  | object _ ih => exact (legible_members ih).cons trivial rfl

/-- The text of a faithful value has the lexemes of the value, whatever blanks the layout puts between
them. -/
theorem lexemes?_write {layout : Layout} (blank : layout.IsBlank) {value : Json}
    (faithful : value.Faithful) : lexemes? (write layout value).toList = some value.toLexemes := by
  have legible := faithful.legible
  unfold write
  cases rows : value.toLexemes with
  | nil => rfl
  | cons first rest =>
    rw [rows] at legible
    have others : ∀ lexeme ∈ rest, lexeme.Faithful := fun lexeme member =>
      legible.faithful lexeme (List.mem_cons_of_mem _ member)
    have ends : first.isNumber = true →
        EndsNumber (layOut layout (first.levelAfter 0) first rest) :=
      endsNumber_layOut blank legible.apart
    have read := lexeme?_chars (legible.faithful first List.mem_cons_self) ends
    have room : rest.length ≤
        (first.chars ++ layOut layout (first.levelAfter 0) first rest).length := by
      have bound : rest.length ≤ (layOut layout (first.levelAfter 0) first rest).length :=
        length_le_layOut others
      rw [List.length_append]
      omega
    -- No blanks stand before the first lexeme.
    have start := lexemesWithin?_cons
      (first.chars ++ layOut layout (first.levelAfter 0) first rest).length
      (fun _ member => absurd member List.not_mem_nil) read
    rw [String.toList_ofList, lexemes?]
    rw [List.nil_append] at start
    rw [start, lexemesWithin?_layOut blank others legible.apart.of_cons room, Option.map_some]

end Json
end ShellSema
