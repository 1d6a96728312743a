import ShellSema.Json.Lexeme

/-!
# Reading JSON

The reader goes over the lexemes once. It keeps the arrays and objects that are still open, the
innermost first, and what may come next. An array or object nested deeper than a given limit is
kept as an unusable value.
-/
namespace ShellSema.Json

/-- An open array or object with its contents so far, last first. -/
inductive Frame where
  | array (items : List Json)
  | object (members : List (Option String × Json)) (key : Option String)

/-- What may come next. -/
inductive Expected where
  | value
  | valueOrClose
  | key
  | keyOrClose
  | colon
  | commaOrClose
  | nothing (result : Json)

structure Progress where
  expected : Expected
  frames : List Frame

namespace Progress

def start : Progress := ⟨.value, []⟩

/-- Put a finished value into the innermost open array or object. -/
def finish (value : Json) : List Frame → Progress
  | [] => ⟨.nothing value, []⟩
  | .array items :: frames => ⟨.commaOrClose, .array (value :: items) :: frames⟩
  | .object members key :: frames =>
    ⟨.commaOrClose, .object ((key, value) :: members) key :: frames⟩

/-- Members with their names, if every name is usable. -/
def named? : List (Option String × Json) → Option (List (String × Json))
  | [] => some []
  | (key, value) :: members => do return (← key, value) :: (← named? members)

def tooDeep (limit : Option Nat) (open_ : Nat) : Bool :=
  match limit with
  | none => false
  | some limit => limit < open_

/-- Close the innermost array or object. -/
def close (limit : Option Nat) (frame : Frame) (frames : List Frame) : Progress :=
  if tooDeep limit (frames.length + 1) then finish .unusable frames
  else
    match frame with
    | .array items => finish (.array items.reverse) frames
    | .object members _ =>
      match named? members.reverse with
      | some members => finish (.object members) frames
      | none => finish .unusable frames

/-- A lexeme where a value may stand. -/
def begin? (frames : List Frame) : Lexeme → Option Progress
  | .openArray => some ⟨.valueOrClose, .array [] :: frames⟩
  | .openObject => some ⟨.keyOrClose, .object [] none :: frames⟩
  | .null => some (finish .null frames)
  | .bool value => some (finish (.bool value) frames)
  | .number (some value) => some (finish (.number value) frames)
  | .text (some value) => some (finish (.string value) frames)
  | .number none | .text none => some (finish .unusable frames)
  | _ => none

def step? (limit : Option Nat) (progress : Progress) (lexeme : Lexeme) : Option Progress :=
  match progress.expected, progress.frames, lexeme with
  | .valueOrClose, frame :: frames, .closeArray => some (close limit frame frames)
  | .value, frames, lexeme | .valueOrClose, frames, lexeme => begin? frames lexeme
  | .keyOrClose, frame :: frames, .closeObject => some (close limit frame frames)
  | .key, .object members _ :: frames, .text key
  | .keyOrClose, .object members _ :: frames, .text key =>
    some ⟨.colon, .object members key :: frames⟩
  | .colon, frames, .colon => some ⟨.value, frames⟩
  | .commaOrClose, .array items :: frames, .comma => some ⟨.value, .array items :: frames⟩
  | .commaOrClose, .array items :: frames, .closeArray => some (close limit (.array items) frames)
  | .commaOrClose, .object members key :: frames, .comma =>
    some ⟨.key, .object members key :: frames⟩
  | .commaOrClose, .object members key :: frames, .closeObject =>
    some (close limit (.object members key) frames)
  | _, _, _ => none

def result? (progress : Progress) : Option Json :=
  match progress.expected with
  | .nothing value => some value
  | _ => none

end Progress

def ofLexemes? (limit : Option Nat) (lexemes : List Lexeme) : Option Json := do
  let progress ← lexemes.foldlM (Progress.step? limit) Progress.start
  progress.result?

/-- The value of a JSON text, if it is one. -/
def read? (limit : Option Nat) (text : String) : Option Json := do
  ofLexemes? limit (← lexemes? text.toList)

end ShellSema.Json
