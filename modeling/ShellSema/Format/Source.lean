import ShellSema.Source
import ShellSema.Handle
import ShellSema.Json.Record

/-!
# Places, tokens and handles in unit files
-/
namespace ShellSema

def Position.toJson (p : Position) : Json :=
  .object [("line", .natural p.line.toNat), ("column", .natural p.column.toNat),
    ("offset", .natural p.offset.toNat)]

def Position.ofJson? (json : Json) : Option Position := do
  let record ← json.record? ["line", "column", "offset"]
  return { line := ← record.required "line" Json.word32?
           column := ← record.required "column" Json.word32?
           offset := ← record.required "offset" Json.word64? }

def Span.toJson (s : Span) : Json :=
  .object [("start", s.start.toJson), ("end", s.stop.toJson)]

def Span.ofJson? (json : Json) : Option Span := do
  let record ← json.record? ["start", "end"]
  return { start := ← record.required "start" Position.ofJson?
           stop := ← record.required "end" Position.ofJson? }

namespace TokenKind

def choices : List TokenKind :=
  [.identifier, .integer, .float, .doubleQuoted, .singleQuoted, .bareWord, .shellFragment,
    .trueWord, .falseWord, .nilWord, .returnWord, .breakWord, .continueWord, .throwWord]

/-- The names of token kinds in unit files. -/
def tag : TokenKind → String
  | .identifier => "Identifier"
  | .integer => "IntegerLiteral"
  | .float => "FloatLiteral"
  | .doubleQuoted => "DoubleQuoteStringLiteral"
  | .singleQuoted => "SingleQuoteStringLiteral"
  | .bareWord => "TextArgumentStringLiteral"
  | .shellFragment => "BashLiteral"
  | .trueWord => "True"
  | .falseWord => "False"
  | .nilWord => "Nil"
  | .returnWord => "Return"
  | .breakWord => "Break"
  | .continueWord => "Continue"
  | .throwWord => "Throw"

def toJson (kind : TokenKind) : Json := .string kind.tag

def ofJson? : Json → Option TokenKind := Json.choice? choices tag

end TokenKind

def Token.toJson (token : Token) : Json :=
  .object [("kind", token.kind.toJson), ("value", .string token.text), ("span", token.span.toJson)]

def Token.ofJson? (json : Json) : Option Token := do
  let record ← json.record? ["kind", "value", "span"]
  return { kind := ← record.required "kind" TokenKind.ofJson?
           text := ← record.required "value" Json.string?
           span := ← record.optional "span" Span.ofJson? {} }

/-! ### Handles -/

def ScopeId.toJson (id : ScopeId) : Json := .natural id.index
def ModuleId.toJson (id : ModuleId) : Json := .natural id.index
def FunctionId.toJson (id : FunctionId) : Json := .natural id.index
def StructId.toJson (id : StructId) : Json := .natural id.index
def ClosureId.toJson (id : ClosureId) : Json := .natural id.index

def ScopeId.ofJson? (json : Json) : Option ScopeId := json.word32?.map ScopeId.mk
def ModuleId.ofJson? (json : Json) : Option ModuleId := json.word32?.map ModuleId.mk
def FunctionId.ofJson? (json : Json) : Option FunctionId := json.word32?.map FunctionId.mk
def StructId.ofJson? (json : Json) : Option StructId := json.word32?.map StructId.mk
def ClosureId.ofJson? (json : Json) : Option ClosureId := json.word32?.map ClosureId.mk

def Enclosing.toJson : Enclosing → Json
  | .function id => .variant "Function" id.toJson
  | .closure id => .variant "Closure" id.toJson

def Enclosing.ofJson? (json : Json) : Option Enclosing := do
  match ← json.alternative? with
  | ("Function", some payload) => return .function (← FunctionId.ofJson? payload)
  | ("Closure", some payload) => return .closure (← ClosureId.ofJson? payload)
  | _ => none

end ShellSema
