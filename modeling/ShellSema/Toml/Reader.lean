import ShellSema.Toml.Scalar
import ShellSema.Toml.Value

/-!
# Reading TOML documents

A document is a row of headers and of keys with values, one on a line.
-/
namespace ShellSema.Toml

/-! ### Blanks, lines and comments -/

def isBlank (c : Char) : Bool := c = ' ' || c = '\t'

def skipBlanks (cs : List Char) : List Char := cs.dropWhile isBlank

/-- Characters that may stand in comments and strings: no control characters but the tab. -/
def isPlain (c : Char) : Bool := c = '\t' || (0x20 ≤ c.toNat && c.toNat ≠ 0x7F)

/-- Pass over blanks, line ends and comments. -/
def skipGap? : Bool → List Char → Option (List Char)
  | _, [] => some []
  | _, '\n' :: cs => skipGap? false cs
  | _, '\r' :: '\n' :: cs => skipGap? false cs
  | true, c :: cs => if isPlain c then skipGap? true cs else none
  | false, '#' :: cs => skipGap? true cs
  | false, c :: cs => if isBlank c then skipGap? false cs else some (c :: cs)

/-- Pass over what may stand after a statement on its line. -/
def endLine? : Bool → List Char → Option (List Char)
  | _, [] => some []
  | _, '\n' :: cs => some cs
  | _, '\r' :: '\n' :: cs => some cs
  | true, c :: cs => if isPlain c then endLine? true cs else none
  | false, '#' :: cs => endLine? true cs
  | false, c :: cs => if isBlank c then endLine? false cs else none

/-! ### Strings -/

/-- The character of a code, if it is one. -/
def character? (digits : List Char) : Option Char := do
  let code ← Digits.number? 16 digits
  if code < 0xD800 ∨ (0xDFFF < code ∧ code < 0x110000) then some (Char.ofNat code) else none

/-- The character that an escape denotes; the text starts behind the backslash. -/
def escape? : List Char → Option (Char × List Char)
  | 'b' :: cs => some ('\x08', cs)
  | 't' :: cs => some ('\t', cs)
  | 'n' :: cs => some ('\n', cs)
  | 'f' :: cs => some ('\x0c', cs)
  | 'r' :: cs => some ('\r', cs)
  | 'e' :: cs => some ('\x1b', cs)
  | '"' :: cs => some ('"', cs)
  | '\\' :: cs => some ('\\', cs)
  | 'x' :: cs => if cs.length < 2 then none else (character? (cs.take 2)).map (·, cs.drop 2)
  | 'u' :: cs => if cs.length < 4 then none else (character? (cs.take 4)).map (·, cs.drop 4)
  | 'U' :: cs => if cs.length < 8 then none else (character? (cs.take 8)).map (·, cs.drop 8)
  | _ => none

/-- Pass over blanks and line ends. -/
def skipSpace : List Char → List Char
  | '\n' :: cs => skipSpace cs
  | '\r' :: '\n' :: cs => skipSpace cs
  | c :: cs => if isBlank c then skipSpace cs else c :: cs
  | [] => []

/-- A backslash at the end of a line of a long string: pass over blanks and line ends. -/
def foldLine? (cs : List Char) : Option (List Char) :=
  match skipBlanks cs with
  | '\n' :: cs => some (skipSpace cs)
  | '\r' :: '\n' :: cs => some (skipSpace cs)
  | _ => none

/-- The characters of a string on one line, up to its quote. Escapes are read if the quote is the
double one. The budget is the length of the text. -/
def shortString? (quote : Char) : Nat → List Char → Option (List Char × List Char)
  | 0, _ => none
  | _ + 1, [] => none
  | budget + 1, c :: cs =>
    if c = quote then some ([], cs)
    else if c = '\\' ∧ quote = '"' then do
      let (c, cs) ← escape? cs
      let (text, cs) ← shortString? quote budget cs
      return (c :: text, cs)
    else if isPlain c then do
      let (text, cs) ← shortString? quote budget cs
      return (c :: text, cs)
    else none

/-- The quotes that end a long string, with up to two more that belong to it. -/
def longEnd? (quote : Char) (cs : List Char) : Option (List Char × List Char) :=
  let quotes := min (cs.takeWhile (· = quote)).length 5
  if 3 ≤ quotes then some (List.replicate (quotes - 3) quote, cs.drop quotes) else none

/-- The characters of a string over several lines, up to three quotes. Line ends stay as they are
written. -/
def longString? (quote : Char) : Nat → List Char → Option (List Char × List Char)
  | 0, _ => none
  | budget + 1, cs =>
    match longEnd? quote cs with
    | some ended => some ended
    | none =>
      match cs with
      | [] => none
      | '\r' :: '\n' :: cs => do
        let (text, cs) ← longString? quote budget cs
        return ('\r' :: '\n' :: text, cs)
      | c :: cs =>
        if c = '\\' ∧ quote = '"' then
          match foldLine? cs with
          | some cs => longString? quote budget cs
          | none => do
            let (c, cs) ← escape? cs
            let (text, cs) ← longString? quote budget cs
            return (c :: text, cs)
        else if c = '\n' ∨ isPlain c then do
          let (text, cs) ← longString? quote budget cs
          return (c :: text, cs)
        else none

/-- A line end right after the quotes that open a long string does not belong to it. -/
def dropFirstLineEnd : List Char → List Char
  | '\n' :: cs => cs
  | '\r' :: '\n' :: cs => cs
  | cs => cs

/-- A string, if the text starts with a quote. -/
def string? (cs : List Char) : Option (String × List Char) := do
  let (text, cs) ←
    match cs with
    | '"' :: '"' :: '"' :: cs => longString? '"' (cs.length + 1) (dropFirstLineEnd cs)
    | '\'' :: '\'' :: '\'' :: cs => longString? '\'' (cs.length + 1) (dropFirstLineEnd cs)
    | '"' :: cs => shortString? '"' (cs.length + 1) cs
    | '\'' :: cs => shortString? '\'' (cs.length + 1) cs
    | _ => none
  return (String.ofList text, cs)

/-! ### Keys -/

def isKeyChar (c : Char) : Bool := c.isAlphanum || c = '_' || c = '-'

/-- A key without dots: a bare word, or a string on one line. -/
def simpleKey? : List Char → Option (String × List Char)
  | '"' :: cs => do
    let (text, cs) ← shortString? '"' (cs.length + 1) cs
    return (String.ofList text, cs)
  | '\'' :: cs => do
    let (text, cs) ← shortString? '\'' (cs.length + 1) cs
    return (String.ofList text, cs)
  | cs =>
    let word := cs.takeWhile isKeyChar
    if word.isEmpty then none else some (String.ofList word, cs.dropWhile isKeyChar)

/-- How many keys dots may join, and how many arrays and inline tables may stand in one another. -/
def deepest : Nat := 80

/-- A key with dots: the keys before the last one, the last one, and the rest. The budget is the
number of keys that may still come. -/
def dottedKey? : Nat → List Char → Option ((List String × String) × List Char)
  | 0, _ => none
  | budget + 1, cs => do
    let (first, cs) ← simpleKey? (skipBlanks cs)
    match skipBlanks cs with
    | '.' :: cs =>
      let ((path, last), cs) ← dottedKey? budget cs
      return ((first :: path, last), cs)
    | cs => return (([], first), cs)

def key? (cs : List Char) : Option ((List String × String) × List Char) := dottedKey? deepest cs

/-! ### Values -/

/-- Characters that may stand in a bare word; a quote is one unless the word starts with it. -/
def isWordChar (c : Char) : Bool :=
  not (['=', ',', '[', ']', '\x7b', '\x7d', '#', ' ', '\t', '\r', '\n'].contains c)

/-- Whether a bare word starts here. -/
def startsWord : List Char → Bool
  | c :: _ => isWordChar c && c ≠ '"' && c ≠ '\''
  | [] => false

/-- The bare words at the front with the blanks between them, and the rest. -/
def words : List Char → List Char × List Char
  | [] => ([], [])
  | c :: cs =>
    if isWordChar c || (isBlank c && startsWord (skipBlanks cs)) then
      let (text, rest) := words cs
      (c :: text, rest)
    else ([], c :: cs)

/-- A scalar. A blank may stand in it, as the one between a date and a time does. -/
def scalar? (cs : List Char) : Option (Value × List Char) :=
  let (text, rest) := words cs
  if isScalar text then some (.scalar (String.ofList text), rest) else none

mutual
/-- A value. The budget is the length of the text; the levels are how many arrays and inline tables
may still be opened around one another. -/
def value? : Nat → Nat → List Char → Option (Value × List Char)
  | 0, _, _ => none
  | budget + 1, levels, cs =>
    match cs, levels with
    | '[' :: _, 0 => none
    | '\x7b' :: _, 0 => none
    | '[' :: cs, levels + 1 => do
      let (items, cs) ← items? budget levels (← skipGap? false cs)
      return (.array items, cs)
    | '\x7b' :: cs, levels + 1 => do
      let (entries, cs) ← entries? budget levels [] (← skipGap? false cs)
      return (.table .inline entries, cs)
    | '"' :: _, _ | '\'' :: _, _ => do
      let (text, cs) ← string? cs
      return (.string text, cs)
    | cs, _ => scalar? cs

/-- The items of an array up to its bracket; a comma may stand after the last one. -/
def items? : Nat → Nat → List Char → Option (List Value × List Char)
  | 0, _, _ => none
  | _ + 1, _, ']' :: cs => some ([], cs)
  | budget + 1, levels, cs => do
    let (first, cs) ← value? budget levels cs
    match ← skipGap? false cs with
    | ']' :: cs => return ([first], cs)
    | ',' :: cs =>
      let (others, cs) ← items? budget levels (← skipGap? false cs)
      return (first :: others, cs)
    | _ => none

/-- The entries of an inline table up to its brace, added to those before them. Between a key, its
equals sign and its value lines may end as anywhere else in the table. -/
def entries? : Nat → Nat → Entries → List Char → Option (Entries × List Char)
  | 0, _, _, _ => none
  | _ + 1, _, entries, '\x7d' :: cs => some (entries, cs)
  | budget + 1, levels, entries, cs => do
    let ((path, key), cs) ← key? cs
    match ← skipGap? false cs with
    | '=' :: cs =>
      let (value, cs) ← value? budget levels (← skipGap? false cs)
      let entries ← assignKey path key value .inline entries
      match ← skipGap? false cs with
      | '\x7d' :: cs => return (entries, cs)
      | ',' :: cs => entries? budget levels entries (← skipGap? false cs)
      | _ => none
    | _ => none
end

/-! ### Documents -/

/-- A statement, and the text behind its line. -/
def statement? : List Char → Option (Statement × List Char)
  | '[' :: '[' :: cs => do
    let ((path, key), cs) ← key? cs
    match cs with
    | ']' :: ']' :: cs => return (.item path key, ← endLine? false cs)
    | _ => none
  | '[' :: cs => do
    let ((path, key), cs) ← key? cs
    match cs with
    | ']' :: cs => return (.table path key, ← endLine? false cs)
    | _ => none
  | cs => do
    let ((path, key), cs) ← key? cs
    match cs with
    | '=' :: cs =>
      let (value, cs) ← value? (cs.length + 1) deepest (skipBlanks cs)
      return (.assign path key value, ← endLine? false cs)
    | _ => none

/-- Add the statements of a text to a document. The budget is the length of the text. -/
def statements? : Nat → Document → List Char → Option Document
  | 0, _, _ => none
  | budget + 1, document, cs => do
    match ← skipGap? false cs with
    | [] => return document
    | cs =>
      let (statement, cs) ← statement? cs
      statements? budget (← document.add? statement) cs

/-- A mark of the encoding at the start of a text does not belong to it. -/
def dropMark : List Char → List Char
  | '\uFEFF' :: cs => cs
  | cs => cs

/-- The entries of a document, if the text is one. -/
def read? (text : String) : Option Entries := do
  let cs := dropMark text.toList
  return (← statements? (cs.length + 1) {} cs).entries

end ShellSema.Toml
