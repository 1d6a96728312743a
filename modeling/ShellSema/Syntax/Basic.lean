import ShellSema.Source
import ShellSema.Constant
import ShellSema.Signature
import ShellSema.NameSet
import ShellSema.Syntax.Operator

/-!
# Expressions

The syntax tree of a script. It comes from the parser with tokens and handles only, and analysis
returns a tree of the same type with its findings filled in: the types of calls, the values of
literals, the scopes of variables, the names that closures capture.
-/
namespace ShellSema

/-- The struct that a construction makes. -/
inductive StructTarget where
  | user (id : StructId)
  | standard (struct : StandardStruct)
deriving DecidableEq, Repr, Inhabited

/-- What analysis finds out about a call. -/
structure CallFindings where
  callType : Option CallType := none
  standard : Option StandardFunction := none
  function : Option FunctionId := none
  /-- The function whose closure a call of `closure` runs. -/
  closureProvider : Option FunctionId := none
  scope : Option ScopeId := none
deriving DecidableEq, Repr, Inhabited

/-- How a call is written and run, apart from its name, arguments and findings. -/
structure CallMode where
  style : CallStyle := .parenthesized
  redirection : Redirection := .none
  /-- The captured stream is handed over as it comes. -/
  unbuffered : Bool := false
  /-- The process is started by whoever evaluates the call. -/
  startsItself : Bool := true
  /-- The name stands for the function itself. -/
  isReference : Bool := false
deriving DecidableEq, Repr, Inhabited

mutual
/-- An expression with its place in the source. The value of a root expression is not used. -/
structure Expr where
  kind : ExprKind
  span : Span
  isRoot : Bool
  enclosing : Option Enclosing

structure Parameter where
  name : Token
  default? : Option Expr
  isVariadic : Bool

structure Catch where
  identifier : Option Token
  typeRef : Option Expr
  body : Expr

structure Call where
  name : Token
  path : List Token
  arguments : List Expr
  /-- The left side of a pipe whose output the program reads. -/
  piped : Option Expr
  /-- Values for the environment of the called program. -/
  environment : List (String × Expr)
  mode : CallMode
  findings : CallFindings

inductive ExprKind where
  | moduleDecl (access : Access) (name : Token) (body : Expr)
  | structDecl (access : Access) (name : Token) (parameters : List Parameter) (module : ModuleId)
  | functionDecl (access : Access) (name : Token) (parameters : List Parameter) (body : Expr)
      (module : ModuleId) (takesClosure : Bool) (id : FunctionId)
  | letIn (identifiers : List Token) (value : Expr) (scope : Option ScopeId)
  | construct (name : Token) (path : List Token) (arguments : List Expr)
      (target : Option StructTarget)
  | ifElse (condition thenBranch : Expr) (elseBranch : Option Expr)
  | forEach (identifiers : List Token) (value body : Expr)
  | whileDo (condition body : Expr)
  | sequence (form : Sequence) (items : List Expr)
  | dictionary (entries : List (Expr × Expr))
  | block (expressions : List Expr) (role : BlockRole) (scope : ScopeId)
  | keyword (token : Token) (value : Option Expr)
  | binary (left : Expr) (op : BinaryOp) (right : Expr)
  | unary (op : UnaryOp) (value : Expr)
  | fieldAccess (object : Expr) (field : Token) (fieldValue : Option Constant)
  | range (lower upper : Option Expr) (inclusive : Bool)
  | indexer (value index : Expr)
  | typeRef (name : Token) (target : Option TypeTarget)
  | variableRef (name : Token) (scope : Option ScopeId) (isCaptured : Bool)
  | call (call : Call)
  | literal (token : Token) (value : Option Constant)
  | closure (call : Expr) (parameters : List Token) (body : Expr) (captured : NameSet)
      (id : Option ClosureId)
  | tryCatch (body : Expr) (catches : List Catch)
end

/-- The top-level expressions of a source file. -/
structure Ast where
  expressions : List Expr

/-! ### Making expressions -/

namespace Expr

/-- An expression of which analysis knows nothing yet. -/
def fresh (kind : ExprKind) (span : Span := {}) : Expr := ⟨kind, span, false, none⟩

end Expr

def Parameter.plain (name : Token) : Parameter := ⟨name, none, false⟩

namespace Call

def plain (name : Token) (path : List Token) (arguments : List Expr) : Call :=
  { name, path, arguments, piped := none, environment := [], mode := {}, findings := {} }

def pathNames (call : Call) : List String := call.path.map Token.text

end Call

/-! ### Asking about expressions -/

def Sequence.name : Sequence → String
  | .tuple => "tuple"
  | .list => "list"
  | .set => "set"
  | .interpolation => "string interpolation"

def ExprKind.name : ExprKind → String
  | .moduleDecl .. => "module"
  | .structDecl .. => "struct"
  | .functionDecl .. => "function"
  | .letIn .. => "let"
  | .construct .. => "new"
  | .ifElse .. => "if"
  | .forEach .. => "for"
  | .whileDo .. => "while"
  | .sequence form _ => form.name
  | .dictionary .. => "dictionary"
  | .block .. => "block"
  | .keyword .. => "keyword"
  | .binary .. => "binary"
  | .unary .. => "unary"
  | .fieldAccess .. => "field access"
  | .range .. => "range"
  | .indexer .. => "indexer"
  | .typeRef .. => "type"
  | .variableRef .. => "variable"
  | .call .. => "call"
  | .literal .. => "literal"
  | .closure .. => "closure"
  | .tryCatch .. => "try"

namespace Expr

def kindName (e : Expr) : String := e.kind.name

/-- The scope of a block. -/
def blockScope? (e : Expr) : Option ScopeId :=
  match e.kind with
  | .block _ _ scope => some scope
  | _ => none

def isBlock (e : Expr) : Bool := e.blockScope?.isSome

def call? (e : Expr) : Option Call :=
  match e.kind with
  | .call call => some call
  | _ => none

def isCall (e : Expr) : Bool := e.call?.isSome

/-- A call that runs a program, or whose type is not known. -/
def isProgramCall (e : Expr) : Bool :=
  match e.call? with
  | some call => call.findings.callType = none ∨ call.findings.callType = some .program
  | none => false

end Expr

/-! ### Going through expressions -/

def Parameter.children (p : Parameter) : List Expr := p.default?.toList

def Catch.children (c : Catch) : List Expr := c.typeRef.toList ++ [c.body]

def Call.children (c : Call) : List Expr :=
  c.piped.toList ++ c.arguments ++ c.environment.map Prod.snd

/-- The direct subexpressions, in the order of the source. -/
def ExprKind.children : ExprKind → List Expr
  | .moduleDecl _ _ body => [body]
  | .structDecl _ _ parameters _ => parameters.flatMap Parameter.children
  | .functionDecl _ _ parameters body _ _ _ => parameters.flatMap Parameter.children ++ [body]
  | .letIn _ value _ => [value]
  | .construct _ _ arguments _ => arguments
  | .ifElse condition thenBranch elseBranch => condition :: thenBranch :: elseBranch.toList
  | .forEach _ value body => [value, body]
  | .whileDo condition body => [condition, body]
  | .sequence _ items => items
  | .dictionary entries => entries.flatMap fun entry => [entry.1, entry.2]
  | .block expressions _ _ => expressions
  | .keyword _ value => value.toList
  | .binary left _ right => [left, right]
  | .unary _ value => [value]
  | .fieldAccess object _ _ => [object]
  | .range lower upper _ => lower.toList ++ upper.toList
  | .indexer value index => [value, index]
  | .typeRef .. | .variableRef .. | .literal .. => []
  | .call made => made.children
  | .closure attached _ body _ _ => [attached, body]
  | .tryCatch body catches => body :: catches.flatMap Catch.children

def Expr.children (e : Expr) : List Expr := e.kind.children

end ShellSema
