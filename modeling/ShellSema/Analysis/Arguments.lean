import ShellSema.Analysis.State

/-!
# Argument counts

Whether a call gives as many arguments as its target takes.
-/
namespace ShellSema

/-- How many arguments a target takes; no upper bound counts for a reference as well. -/
structure Arity where
  min : Nat
  /-- The greatest number that is accepted. -/
  limit : Option Nat
  variadic : Bool
deriving DecidableEq, Repr

namespace Arity

def ofParameters (parameters : List Parameter) : Arity :=
  { min := minArguments parameters
    limit := maxArguments? parameters
    variadic := endsVariadic parameters }

def ofStandardFunction (f : StandardFunction) : Arity :=
  { min := f.minArguments.toNat, limit := some f.maxArguments.toNat, variadic := f.isVariadic }

def ofStandardStruct (s : StandardStruct) : Arity :=
  { min := s.minArguments.toNat, limit := some s.maxArguments.toNat, variadic := s.isVariadic }

/-- A reference stands for the function itself, so it may leave out arguments. -/
def accepts (arity : Arity) (isReference : Bool) (actual : Nat) : Bool :=
  (isReference || arity.min ≤ actual) &&
    (match arity.limit with
      | some limit => actual ≤ limit
      | none => true)

/-- The upper bound that is reported; a variadic target has none. -/
def reportedLimit (arity : Arity) : Option Nat := if arity.variadic then none else arity.limit

end Arity

def Walk.checkCount (name : String) (arity : Arity) (isReference : Bool) (actual : Nat) :
    Walk Unit :=
  if arity.accepts isReference actual then return ()
  else fail (.argumentCount name arity.min arity.reportedLimit actual arity.variadic)

end ShellSema
