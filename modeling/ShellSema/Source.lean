/-!
# Places and tokens of a source text

A script reaches the analysis as tokens: a kind, the text, and the span it was read from.
-/
namespace ShellSema

/-- Line and column count from one; the offset counts bytes from zero. -/
structure Position where
  line : UInt32 := 1
  column : UInt32 := 1
  offset : UInt64 := 0
deriving DecidableEq, Repr, Inhabited

namespace Position

def render (p : Position) : String := toString p.line.toNat ++ ":" ++ toString p.column.toNat

/-- Positions are ordered by line, then column, then offset. -/
def le (p q : Position) : Bool :=
  p.line < q.line ||
    (p.line == q.line && (p.column < q.column || (p.column == q.column && p.offset ≤ q.offset)))

end Position

/-- A range of the source text; its last position stands behind it. -/
structure Span where
  start : Position := {}
  stop : Position := {}
deriving DecidableEq, Repr, Inhabited

/-- A span on one line names the line once. -/
def Span.render (s : Span) : String :=
  if s.start.line = s.stop.line then s.start.render ++ "-" ++ toString s.stop.column.toNat
  else s.start.render ++ "-" ++ s.stop.render

inductive TokenKind where
  | identifier
  | integer
  | float
  | doubleQuoted
  | singleQuoted
  | bareWord
  | shellFragment
  | trueWord
  | falseWord
  | nilWord
  | returnWord
  | breakWord
  | continueWord
  | throwWord
deriving DecidableEq, Repr, Inhabited

namespace TokenKind

def isLiteral : TokenKind → Bool
  | .integer | .float | .doubleQuoted | .singleQuoted | .bareWord | .shellFragment
  | .trueWord | .falseWord | .nilWord => true
  | _ => false

def isKeyword : TokenKind → Bool
  | .returnWord | .breakWord | .continueWord | .throwWord => true
  | _ => false

end TokenKind

structure Token where
  kind : TokenKind
  text : String
  span : Span := {}
deriving DecidableEq, Repr, Inhabited

namespace Token

def identifier (text : String) (span : Span := {}) : Token := ⟨.identifier, text, span⟩

/-- Another text with the same kind at the same place. -/
def withText (token : Token) (text : String) : Token := { token with text }

/-- Names that start with a dollar sign belong to the process environment. -/
def isEnvironmentName (token : Token) : Bool := token.text.toList.head? = some '$'

end Token
end ShellSema
