import ShellSema.Scope.Symbol

/-!
# Building expressions by hand

Expressions as a parser would give them, at the first place of a source and with nothing analysed.
-/
namespace ShellSema.Build

def name (text : String) : Token := .identifier text

/-- Put an expression on a line, so many columns wide; there is no such place if it would end past
the last column. -/
def place? (e : Expr) (line column width : UInt32) : Option Expr :=
  if column.toNat + width.toNat < UInt32.size then
    some { e with span := { start := { line, column }, stop := { line, column := column + width } } }
  else none

/-! ### Parameters -/

def parameter (text : String) : Parameter := .plain (name text)

def defaultParameter (text : String) (value : Expr) : Parameter := ⟨name text, some value, false⟩

def variadicParameter (text : String) : Parameter := ⟨name text, none, true⟩

/-! ### Literals and names -/

def literal (kind : TokenKind) (text : String) : Expr := .fresh (.literal { kind, text } none)

def integer (text : String) : Expr := literal .integer text

def float (text : String) : Expr := literal .float text

def string (text : String) : Expr := literal .doubleQuoted text

def bareWord (text : String) : Expr := literal .bareWord text

def nil : Expr := literal .nilWord "nil"

def variableRef (text : String) : Expr := .fresh (.variableRef (name text) none false)

def typeRef (text : String) : Expr := .fresh (.typeRef (name text) none)

/-! ### Calls -/

def pathCall (path : List String) (text : String) (arguments : List Expr) : Expr :=
  .fresh (.call (.plain (name text) (path.map name) arguments))

def call (text : String) (arguments : List Expr) : Expr := pathCall [] text arguments

/-- A call with bare words after the name. -/
def command (text : String) (words : List String) : Expr :=
  .fresh (.call { Call.plain (name text) [] (words.map bareWord) with
    mode := { style := .bareWords } })

/-- The name of a function as a value. -/
def reference (path : List String) (text : String) : Expr :=
  .fresh (.call { Call.plain (name text) (path.map name) [] with mode := { isReference := true } })

def construct (path : List String) (text : String) (arguments : List Expr) : Expr :=
  .fresh (.construct (name text) (path.map name) arguments none)

def closure (attached : Expr) (parameters : List String) (body : Expr) : Expr :=
  .fresh (.closure attached (parameters.map name) body {} none)

/-! ### Operators -/

def binary (left : Expr) (op : BinaryOp) (right : Expr) : Expr := .fresh (.binary left op right)

def pipe (left right : Expr) : Expr := binary left .pipe right

def assign (left right : Expr) : Expr := binary left .assign right

def negation (value : Expr) : Expr := .fresh (.unary .not value)

def field (object : Expr) (text : String) : Expr := .fresh (.fieldAccess object (name text) none)

def index (value index : Expr) : Expr := .fresh (.indexer value index)

def range (lower upper : Expr) : Expr := .fresh (.range (some lower) (some upper) false)

/-! ### Collections -/

def list (items : List Expr) : Expr := .fresh (.sequence .list items)

def dictionary (entries : List (Expr × Expr)) : Expr := .fresh (.dictionary entries)

def interpolation (parts : List Expr) : Expr := .fresh (.sequence .interpolation parts)

/-! ### Statements -/

def keywordText : TokenKind → String
  | .returnWord => "return"
  | .breakWord => "break"
  | .continueWord => "continue"
  | _ => "throw"

def keyword (kind : TokenKind) (value : Option Expr) : Expr :=
  .fresh (.keyword { kind, text := keywordText kind } value)

def letIn (names : List String) (value : Expr) : Expr :=
  .fresh (.letIn (names.map name) value none)

def blockOf (role : BlockRole) (scope : ScopeId) (expressions : List Expr) : Expr :=
  .fresh (.block expressions role scope)

def block (scope : ScopeId) (expressions : List Expr) : Expr := blockOf .other scope expressions

def ifElse (condition thenBranch : Expr) (elseBranch : Option Expr) : Expr :=
  .fresh (.ifElse condition thenBranch elseBranch)

def forEach (names : List String) (value body : Expr) : Expr :=
  .fresh (.forEach (names.map name) value body)

def whileDo (condition body : Expr) : Expr := .fresh (.whileDo condition body)

def tryCatch (body : Expr) (identifier : Option String) (handler : Expr) : Expr :=
  .fresh (.tryCatch body [⟨identifier.map name, none, handler⟩])

/-! ### Declarations -/

def module (access : Access) (text : String) (body : Expr) : Expr :=
  .fresh (.moduleDecl access (name text) body)

/-- The declaration of a function whose signature is known. -/
def function (signature : ScriptFunction) (id : FunctionId) (body : Expr) : Expr :=
  .fresh (.functionDecl signature.access (name signature.name) signature.parameters body
    signature.module signature.takesClosure id)

/-- The declaration of a struct whose fields are known. -/
def struct (signature : ScriptStruct) : Expr :=
  .fresh (.structDecl signature.access (name signature.name) signature.parameters signature.module)

end ShellSema.Build
