import ShellSema.Number.Literal
import ShellSema.Analysis.State

/-!
# Literals

The constant that a literal denotes. A shell fragment is no constant: it becomes a call of `bash`.
-/
namespace ShellSema

/-- What a literal stands for. -/
inductive LiteralMeaning where
  | constant (value : Constant)
  | shellFragment (code : String)
  | badNumber
deriving DecidableEq, Repr

/-- The text from a byte offset on; empty if no character starts there. -/
def fromByte : Nat → List Char → List Char
  | 0, cs => cs
  | _ + 1, [] => []
  | offset + 1, c :: cs =>
    if c.utf8Size ≤ offset + 1 then fromByte (offset + 1 - c.utf8Size) cs else []

/-- The code of a shell fragment stands after a marker of two bytes. -/
def fragmentCode (text : String) : String := String.ofList (fromByte 2 text.toList)

def Token.meaning (token : Token) : LiteralMeaning :=
  match token.kind with
  | .shellFragment => .shellFragment (fragmentCode token.text)
  | .integer =>
    match NumberLiteral.integer? token.text with
    | some value => .constant (.integer value)
    | none => .badNumber
  | .float =>
    match NumberLiteral.float? token.text with
    | some value => .constant (.float value)
    | none => .badNumber
  | .doubleQuoted | .singleQuoted => .constant (.ofText token.text)
  | .bareWord => .constant (.ofBareWord token.text)
  | .trueWord => .constant (.boolean true)
  | .falseWord => .constant (.boolean false)
  | _ => .constant .nil

def Constant.category : Constant → SemanticCategory
  | .integer _ | .float _ => .number
  | .string _ _ => .string
  | _ => .constant

/-- An argument of the call that a shell fragment becomes. -/
def fragmentArgument (context : Context) (token : Token) (span : Span) (text : String) : Expr :=
  { kind := .literal ⟨.singleQuoted, text, token.span⟩ (some (.ofText text))
    span
    isRoot := false
    enclosing := context.enclosing }

/-- The call that a shell fragment becomes: `bash -c` with the code. -/
def fragmentCall (context : Context) (token : Token) (span : Span) (code : String) : Call :=
  { Call.plain (token.withText "bash") []
      [fragmentArgument context token span "-c", fragmentArgument context token span code] with
    findings := { callType := some .program, scope := some context.scope } }

/-- The analysed form of a literal. -/
def Walk.literal (context : Context) (span : Span) (token : Token) : Walk ExprKind :=
  match token.meaning with
  | .constant value => do
    note token.span value.category
    return .literal token (some value)
  | .shellFragment code => do
    note token.span .program
    return .call (fragmentCall context token span code)
  | .badNumber => fail (.invalidNumber token.text)

/-! ### Parameter lists -/

namespace Expr

def isLiteral (e : Expr) : Bool :=
  match e.kind with
  | .literal .. => true
  | _ => false

/-- The values that a parameter may have by default: literals, empty lists and dictionaries, and
interpolations of one literal. -/
def isDefault (e : Expr) : Bool :=
  match e.kind with
  | .literal .. => true
  | .sequence .list items => items.isEmpty
  | .dictionary entries => entries.isEmpty
  | .sequence .interpolation [part] => part.isLiteral
  | _ => false

end Expr

/-- The first parameter that has the name of one before it. -/
def firstRepeated? : List String → List Parameter → Option Parameter
  | _, [] => none
  | seen, p :: ps =>
    if seen.contains p.name.text then some p else firstRepeated? (p.name.text :: seen) ps

/-- The fields of a struct have different names. -/
def Walk.checkFields (struct : Token) (fields : List Parameter) : Walk Unit :=
  match firstRepeated? [] fields with
  | some field => failAt (.duplicateField struct.text field.name.text) field.name.span
  | none => return ()

end ShellSema
