import ShellSema.Format.Source

/-!
# Semantic tokens

What an identifier or literal of the source turned out to be, for an editor to colour.
-/
namespace ShellSema

inductive SemanticCategory where
  | module
  | struct
  | function
  | standardFunction
  | builtin
  | program
  | parameter
  | variableName
  | environmentVariable
  | property
  | type
  | string
  | number
  | constant
  | keyword
deriving DecidableEq, Repr

def SemanticCategory.tag : SemanticCategory → String
  | .module => "module"
  | .struct => "struct"
  | .function => "function"
  | .standardFunction => "std_function"
  | .builtin => "built_in"
  | .program => "program"
  | .parameter => "parameter"
  | .variableName => "variable"
  | .environmentVariable => "environment_variable"
  | .property => "property"
  | .type => "type"
  | .string => "string"
  | .number => "number"
  | .constant => "constant"
  | .keyword => "keyword"

structure SemanticToken where
  span : Span
  category : SemanticCategory
deriving DecidableEq, Repr

namespace SemanticToken

def toJson (token : SemanticToken) : Json :=
  .object [("span", token.span.toJson), ("category", .string token.category.tag)]

/-- Tokens are ordered by where they start, then by where they end. -/
def notAfter (a b : SemanticToken) : Bool :=
  a.span.start.offset < b.span.start.offset ||
    (a.span.start.offset == b.span.start.offset && a.span.stop.offset ≤ b.span.stop.offset)

/-- Tokens in the order of the source; those at one place stay as they are. -/
def sorted (tokens : List SemanticToken) : List SemanticToken := tokens.mergeSort notAfter

end SemanticToken
end ShellSema
