import ShellSema.Source
import ShellSema.Syntax.Operator

/-!
# Errors of a script

Every cause of an error, its wording, and the place it is reported at.
-/
namespace ShellSema

inductive ErrorCause where
  | notFound (name : String)
  | moduleNotFound (path : List String)
  | accessDenied (access : Access) (name : String)
  | privateImport (name : String)
  | missingImport (name : String)
  | argumentCount (name : String) (min : Nat) (max : Option Nat) (actual : Nat) (variadic : Bool)
  | invalidAssignment (toCall : Bool)
  | duplicateField (struct field : String)
  | misplacedDefault
  | misplacedVariadic
  | nonLiteralDefault
  | invalidNumber (literal : String)
  | closureExpected
  | closureUnexpected (ofProgram : Bool)
  | invalidRedirection (operator : String)
  | environmentDestructure
  | closureCallUnexpected
  | callExpectedAfterPipe
deriving DecidableEq, Repr

namespace ErrorCause

/-- How many arguments are right: a lower bound, one number, or a range. -/
def expectedCount (min : Nat) (max : Option Nat) (variadic : Bool) : String :=
  match max, variadic with
  | some max, false => if max = min then toString min else toString min ++ "-" ++ toString max
  | _, _ => "at least " ++ toString min

def message : ErrorCause → String
  | .notFound name => "Could not find symbol '" ++ name ++ "'"
  | .moduleNotFound path => "Could not find module '" ++ "::".intercalate path ++ "'"
  | .accessDenied access name => "Cannot access " ++ access.render ++ " symbol '" ++ name ++ "'"
  | .privateImport name => "Cannot import private symbol '" ++ name ++ "'"
  | .missingImport name => "Module does not contain symbol '" ++ name ++ "'"
  | .argumentCount name min max actual variadic =>
    "Wrong number of arguments to '" ++ name ++ "'. Expected " ++ expectedCount min max variadic ++
      " but got " ++ toString actual
  | .invalidAssignment true =>
    "Invalid assignment. The left expression was parsed as a call, but a variable was expected"
  | .invalidAssignment false => "Invalid assignment"
  | .duplicateField struct field =>
    "Duplicate field '" ++ field ++ "' in struct '" ++ struct ++ "'"
  | .misplacedDefault => "Optional parameters may only occur at the end of parameter lists"
  | .misplacedVariadic => "Variadic parameters may only occur at the end of parameter lists"
  | .nonLiteralDefault => "Expected literal or empty collection as default parameter"
  | .invalidNumber literal => "Invalid number literal '" ++ literal ++ "'"
  | .closureExpected => "Expected closure."
  | .closureUnexpected true =>
    "Unexpected closure. The call was evaluated as a program invocation since a function with " ++
      "this name could not be found."
  | .closureUnexpected false => "Unexpected closure."
  | .invalidRedirection operator => "Cannot use '" ++ operator ++ "' on a non-program value"
  | .environmentDestructure => "Cannot destructure into an environment variable"
  | .closureCallUnexpected =>
    "Unexpected call to 'closure'. This function can only be called within functions with a " ++
      "closure signature."
  | .callExpectedAfterPipe => "Expected function call to the right of pipe."

end ErrorCause

/-- An error and the place it is known to be at. -/
structure AnalysisError where
  cause : ErrorCause
  span : Option Span := none
deriving DecidableEq, Repr

namespace AnalysisError

/-- Place an error that has no place yet. -/
def orSpan (error : AnalysisError) (span : Span) : AnalysisError :=
  match error.span with
  | some _ => error
  | none => { error with span := some span }

def message (error : AnalysisError) : String :=
  match error.span with
  | some span => error.cause.message ++ " at " ++ span.render
  | none => error.cause.message

end AnalysisError
end ShellSema
