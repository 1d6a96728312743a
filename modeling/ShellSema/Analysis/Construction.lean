import ShellSema.Analysis.Arguments

/-!
# Constructions

The struct that a construction makes: one of the script if the path leads to a module of it, or
else one of the standard module that the path starts with.
-/
namespace ShellSema.Walk

/-- A struct of the script. One of another module, found by a path, has to be exported. -/
def userStruct (current module : ModuleId) (name : String) (actual : Nat) : Walk StructTarget := do
  match ← ask (·.findStruct module name true) with
  | none => fail (.notFound name)
  | some id =>
    let struct ← ask (·.struct id)
    if struct.module ≠ current ∧ module ≠ current ∧ struct.access ≠ .exported then
      fail (.accessDenied struct.access name)
    checkCount struct.name (.ofParameters struct.parameters) false actual
    return .user id

/-- A struct of the standard library. -/
def standardStruct (context : Context) (name : String) (path : List String) (actual : Nat) :
    Walk StructTarget :=
  match path.head?.filter fun first => context.registry.hasModule [first] with
  | none => fail (.moduleNotFound path)
  | some first =>
    match context.registry.struct? name first with
    | none => fail (.notFound name)
    | some struct => do
      checkCount struct.name (.ofStandardStruct struct) false actual
      return .standard struct

def structTarget (context : Context) (name : String) (path : List String) (actual : Nat) :
    Walk StructTarget := do
  let current ← currentModule context
  match ← ask (·.findModule current path true) with
  | some module => userStruct current module name actual
  | none => standardStruct context name path actual

/-- Note the path and name of a construction. -/
def noteConstruction (name : Token) (path : List Token) : Walk Unit := do
  path.forM fun segment => note segment.span .module
  note name.span .struct

end ShellSema.Walk
