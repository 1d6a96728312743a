import ShellSema.Json.Lexeme
import ShellSema.Number.Decimal

/-!
# Writing JSON

A value is written as its lexemes, with blanks between them as the layout wants: none, or a line
for each item and member.
-/
namespace ShellSema.Json

mutual
/-- The lexemes of a value. What is unusable is written as null. -/
def toLexemes : Json → List Lexeme
  | .null | .unusable => [.null]
  | .bool value => [.bool value]
  | .number value => [.number (some value)]
  | .string value => [.text (some value)]
  | .array items => .openArray :: itemLexemes items
  | .object members => .openObject :: memberLexemes members

def itemLexemes : List Json → List Lexeme
  | [] => [.closeArray]
  | item :: items => toLexemes item ++ moreItemLexemes items

def moreItemLexemes : List Json → List Lexeme
  | [] => [.closeArray]
  | item :: items => .comma :: (toLexemes item ++ moreItemLexemes items)

def memberLexemes : List (String × Json) → List Lexeme
  | [] => [.closeObject]
  | (name, value) :: members =>
    .text (some name) :: .colon :: (toLexemes value ++ moreMemberLexemes members)

def moreMemberLexemes : List (String × Json) → List Lexeme
  | [] => [.closeObject]
  | (name, value) :: members =>
    .comma :: .text (some name) :: .colon :: (toLexemes value ++ moreMemberLexemes members)
end

/-- The digits after `\u` for a control character. -/
def controlDigits (n : Nat) : List Char :=
  ['0', '0', (n / 16).digitChar, (n % 16).digitChar]

/-- A character as it stands within a string: quotes, backslashes and control characters are
escaped, by one letter where there is one. -/
def escape (c : Char) : List Char :=
  if c = '"' then ['\\', '"']
  else if c = '\\' then ['\\', '\\']
  else if c = '\x08' then ['\\', 'b']
  else if c = '\x0c' then ['\\', 'f']
  else if c = '\n' then ['\\', 'n']
  else if c = '\r' then ['\\', 'r']
  else if c = '\t' then ['\\', 't']
  else if c.toNat < 0x20 then '\\' :: 'u' :: controlDigits c.toNat
  else [c]

def quoted (text : String) : List Char :=
  '"' :: (text.toList.flatMap escape ++ ['"'])

/-- The fewest digits that denote a number, the even ones of two that are equally near. A point
stands among them from `1e-5` up to `1e16`, a power of ten after them beyond. Infinities and
not-a-number are null. -/
def floatText (x : Binary64) : String :=
  if !x.isFinite then "null"
  else
    let d := Decimal.shortest .even x
    let digits := toString d.digits
    let top := (digits.length : Int) + d.exponent
    if -5 < top ∧ top ≤ 16 then
      if 0 ≤ d.exponent then d.positional ++ ".0" else d.positional
    else
      let sign := if d.negative then "-" else ""
      let mantissa :=
        match digits.toList with
        | first :: second :: rest => String.ofList (first :: '.' :: second :: rest)
        | _ => digits
      sign ++ mantissa ++ "e" ++ toString (top - 1)

def Lexeme.chars : Lexeme → List Char
  | .openArray => ['[']
  | .closeArray => [']']
  | .openObject => ['\x7b']
  | .closeObject => ['\x7d']
  | .comma => [',']
  | .colon => [':']
  | .null => "null".toList
  | .bool true => "true".toList
  | .bool false => "false".toList
  | .number (some (.integer value)) => (toString value).toList
  | .number (some (.float value)) => (floatText value).toList
  | .text (some value) => quoted value
  | .number none | .text none => "null".toList

/-- A layout gives the blanks between two lexemes, within so many open arrays and objects. -/
abbrev Layout := Nat → Lexeme → Lexeme → List Char

def Layout.compact : Layout := fun _ _ _ => []

def newLine (level : Nat) : List Char := '\n' :: List.replicate (2 * level) ' '

def Lexeme.isOpen (lexeme : Lexeme) : Bool := lexeme = .openArray ∨ lexeme = .openObject

def Lexeme.isClose (lexeme : Lexeme) : Bool := lexeme = .closeArray ∨ lexeme = .closeObject

/-- Each item and member on a line of its own, two blanks deeper than what holds it. -/
def Layout.indented : Layout := fun level before after =>
  if after.isClose then (if before.isOpen then [] else newLine (level - 1))
  else if before.isOpen ∨ before = .comma then newLine level
  else if before = .colon then [' ']
  else []

/-- How many arrays and objects are open after a lexeme. -/
def Lexeme.levelAfter (lexeme : Lexeme) (level : Nat) : Nat :=
  if lexeme.isOpen then level + 1 else if lexeme.isClose then level - 1 else level

/-- The text of the lexemes that follow a lexeme. -/
def layOut (layout : Layout) (level : Nat) (before : Lexeme) : List Lexeme → List Char
  | [] => []
  | lexeme :: lexemes =>
    layout level before lexeme ++ lexeme.chars ++
      layOut layout (lexeme.levelAfter level) lexeme lexemes

def write (layout : Layout) (value : Json) : String :=
  match value.toLexemes with
  | [] => ""
  | first :: rest => String.ofList (first.chars ++ layOut layout (first.levelAfter 0) first rest)

def compact (value : Json) : String := write .compact value

def pretty (value : Json) : String := write .indented value

end ShellSema.Json
