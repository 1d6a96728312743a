/-!
# Operators and attributes of syntax

The closed vocabularies that occur within expressions.
-/
namespace ShellSema

inductive UnaryOp where
  | not
  | negate
deriving DecidableEq, Repr, Inhabited

def UnaryOp.render : UnaryOp → String
  | .not => "!"
  | .negate => "-"

/-- The stream of a process that is captured. -/
inductive Redirection where
  | none
  | output
  | error
  | all
deriving DecidableEq, Repr, Inhabited

inductive BinaryOp where
  | add | sub | mul | div | mod | pow
  | eq | ne | gt | lt | ge | le | member
  | and | or | coalesce
  | assign
  | pipe | pipeError | pipeAll
  | andThen | orElse
deriving DecidableEq, Repr, Inhabited

namespace BinaryOp

/-- The stream of the left side that a pipe hands to the right side. -/
def redirection? : BinaryOp → Option Redirection
  | .pipe => some .output
  | .pipeError => some .error
  | .pipeAll => some .all
  | _ => Option.none

def isPipe (op : BinaryOp) : Bool := op.redirection?.isSome

/-- The operators that run the right command depending on the left one and hand nothing over. -/
def isSequencing : BinaryOp → Bool
  | .andThen | .orElse => true
  | _ => false

def render : BinaryOp → String
  | .add => "+"
  | .sub => "-"
  | .mul => "*"
  | .div => "/"
  | .mod => "%"
  | .pow => "^"
  | .eq => "=="
  | .ne => "!="
  | .gt => ">"
  | .lt => "<"
  | .ge => ">="
  | .le => "<="
  | .member => "in"
  | .and => "and"
  | .or => "or"
  | .coalesce => "??"
  | .assign => "="
  | .pipe => "|"
  | .pipeError => "|err"
  | .pipeAll => "|all"
  | .andThen => "&&"
  | .orElse => "||"

end BinaryOp

/-- Whether a declaration can be used from other modules. -/
inductive Access where
  | restricted
  | exported
deriving DecidableEq, Repr, Inhabited

namespace Access

def render : Access → String
  | .restricted => "private"
  | .exported => "public"

/-- Restricted access is less than exported access. -/
def lt : Access → Access → Bool
  | .restricted, .exported => true
  | _, _ => false

end Access

/-- What a call turned out to call. -/
inductive CallType where
  | builtinExec
  | builtinClosure
  | builtinCall
  | builtinSource
  | standard
  | function
  | program
deriving DecidableEq, Repr, Inhabited

namespace CallType

/-- The reserved names; no function can take their place. -/
def builtin? : String → Option CallType
  | "exec" => some .builtinExec
  | "closure" => some .builtinClosure
  | "call" => some .builtinCall
  | "source" => some .builtinSource
  | _ => none

def isBuiltin : CallType → Bool
  | .builtinExec | .builtinClosure | .builtinCall | .builtinSource => true
  | _ => false

end CallType

/-- Arguments in parentheses, or bare words after the name. -/
inductive CallStyle where
  | parenthesized
  | bareWords
deriving DecidableEq, Repr, Inhabited

/-- What a block is the body of. -/
inductive BlockRole where
  | other
  | module
  | function
  | closure
  | loop
deriving DecidableEq, Repr, Inhabited

/-- The kinds of rows of expressions. -/
inductive Sequence where
  | tuple
  | list
  | set
  | interpolation
deriving DecidableEq, Repr, Inhabited

end ShellSema
