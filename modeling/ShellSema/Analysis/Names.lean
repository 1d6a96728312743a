import ShellSema.Analysis.State

/-!
# Names of variables and types

A variable has to be declared in the scope or around it, unless it belongs to the environment. Seen
from a closure, one that is declared outside of the body's scope is captured by the closure.
-/
namespace ShellSema

/-- Whether a name is declared in one of the scopes from one outwards up to another, which counts
too. -/
def ScopeTree.declaredWithin (tree : ScopeTree) (name : String) (last : ScopeId) :
    Nat → ScopeId → Except Fault Bool
  | 0, _ => .error .endlessChain
  | steps + 1, id => do
    if ← tree.declaresHere id name then return true
    if id = last then return false
    match (← tree.scope id).parent with
    | some parent => declaredWithin tree name last steps parent
    | none => return false

def ScopeTree.declaredBetween (tree : ScopeTree) (name : String) (first last : ScopeId) :
    Except Fault Bool :=
  tree.declaredWithin name last (tree.scopes.size + 1) first

namespace Walk

/-- The scope that declares a name which the closure around captures, if it captures it: the name
is declared outside of the body, and not again between the use and the body. -/
def capturedFrom (context : Context) (frame : ClosureFrame) (name : String) :
    Walk (Option ScopeId) := do
  match (← ask (·.scope frame.bodyScope)).parent with
  | none => return none
  | some outside =>
    match ← ask (·.declaringScope outside name) with
    | none => return none
    | some declaring =>
      if ← ask (·.declaredBetween name context.scope frame.bodyScope) then return none
      return some declaring

/-- Have the closure around capture a name, if it lies outside of the closure. -/
def captureName (context : Context) (name : String) : Walk Bool := do
  match context.enclosing with
  | some (.closure id) =>
    match ← capturedFrom context (← frame id) name with
    | none => return false
    | some declaring =>
      changeFrame id fun frame => { frame with captured := frame.captured.insert name }
      edit (ScopeTree.Edit.captureHere declaring name)
      return true
  | _ => return false

/-- The analysed form of a variable. -/
def variableUse (context : Context) (name : Token) : Walk ExprKind := do
  if name.isEnvironmentName then
    note name.span .environmentVariable
    return .variableRef name (some context.scope) false
  if !(← ask (·.isVisible context.scope name.text)) then fail (.notFound name.text)
  let isCaptured ← captureName context name.text
  note name.span .variableName
  return .variableRef name (some context.scope) isCaptured

/-- Declare a name in a scope. -/
def declare (scope : ScopeId) (category : SemanticCategory) (name : Token) : Walk Unit := do
  edit (ScopeTree.Edit.addVariable scope name.text)
  note name.span category

/-- Bind a name of a `let`. The names of the environment are not declared. -/
def bind (context : Context) (name : Token) : Walk Unit :=
  if name.isEnvironmentName then note name.span .environmentVariable
  else declare context.scope .variableName name

/-- More than one name cannot be bound if one of them belongs to the environment. -/
def checkBinding (names : List Token) : Walk Unit :=
  if 1 < names.length ∧ names.any Token.isEnvironmentName then fail .environmentDestructure
  else return ()

/-- What a type name stands for: a standard type, or else a struct that the module sees. -/
def typeTarget (context : Context) (name : String) : Walk TypeTarget := do
  match context.registry.type? name with
  | some type => return .standard type
  | none =>
    let current ← currentModule context
    match ← ask (·.findStruct current name true) with
    | some id => return .struct id
    | none => fail (.notFound name)

/-- The analysed form of a type name. -/
def typeUse (context : Context) (name : Token) : Walk ExprKind := do
  let target ← typeTarget context name.text
  note name.span .type
  return .typeRef name (some target)

end Walk
end ShellSema
