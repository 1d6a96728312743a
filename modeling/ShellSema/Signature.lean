/-!
# Signatures of the standard library

Analysis does not run the standard library. It needs to know which names exist and how they are
called, which a `Registry` answers.
-/
namespace ShellSema

structure StandardFunction where
  name : String
  /-- The module it belongs to; global functions have none. -/
  module? : Option String := none
  minArguments : UInt64
  maxArguments : UInt64
  /-- Index of the first argument that a variadic parameter collects. -/
  variadicStart : Option UInt64 := none
  /-- It is called with a closure after its arguments. -/
  takesClosure : Bool := false
  /-- Number of parameters that the closure gets, if fixed. -/
  closureParameters : Option UInt64 := none
  /-- It reads the output of a process as it comes. -/
  consumesPipe : Bool := false
  /-- It starts the processes among its arguments itself. -/
  startsPipe : Bool := false
deriving DecidableEq, Repr, Inhabited

namespace StandardFunction

/-- A count that no call reaches. -/
def unlimited : UInt64 := 18446744073709551615

def fixed (name : String) (minArguments maxArguments : UInt64) : StandardFunction :=
  { name, minArguments, maxArguments }

/-- The last parameter takes any number of arguments after the required ones. -/
def variadic (name : String) (minArguments : UInt64) : StandardFunction :=
  { name, minArguments, maxArguments := unlimited, variadicStart := some minArguments }

def withClosure (f : StandardFunction) (parameters : UInt64) : StandardFunction :=
  { f with takesClosure := true, closureParameters := some parameters }

def consumingPipe (f : StandardFunction) : StandardFunction := { f with consumesPipe := true }

def startingPipe (f : StandardFunction) : StandardFunction := { f with startsPipe := true }

def inModule (f : StandardFunction) (module : String) : StandardFunction :=
  { f with module? := some module }

def isVariadic (f : StandardFunction) : Bool := f.variadicStart.isSome

end StandardFunction

structure StandardStruct where
  name : String
  module : String
  minArguments : UInt64
  maxArguments : UInt64
  variadicStart : Option UInt64 := none
deriving DecidableEq, Repr, Inhabited

def StandardStruct.isVariadic (s : StandardStruct) : Bool := s.variadicStart.isSome

/-- What a standard library declares. A function is asked for by name and module path, where the
empty path stands for the global functions. -/
structure Registry where
  function? : String → List String → Option StandardFunction
  struct? : String → String → Option StandardStruct
  hasModule : List String → Bool
  type? : String → Option String

/-- The library that declares nothing. -/
def Registry.empty : Registry :=
  { function? := fun _ _ => none
    struct? := fun _ _ => none
    hasModule := fun _ => false
    type? := fun _ => none }

end ShellSema
