import ShellSema.Scope.Edit
import ShellSema.Analysis.Error
import ShellSema.Analysis.SemanticToken

/-!
# The state of an analysis

An analysis goes over a tree once. It changes the tree of scopes, keeps a frame for each closure it
enters, and notes semantic tokens if they are asked for. It halts at the first error of the script. A
tree that is not built as it should be makes it crash instead; units that pass their checks do not
lead there.
-/
namespace ShellSema

/-- What is kept about a closure whose body is being, or has been, gone over. -/
structure ClosureFrame where
  bodyScope : ScopeId
  parameters : List String
  captured : NameSet
  /-- The function or closure around the closure expression. -/
  owner : Option Enclosing

structure AnalysisState where
  tree : ScopeTree
  closures : Array ClosureFrame := #[]
  /-- The functions entered so far, and whether each takes a closure. -/
  closureSupport : List (FunctionId × Bool) := []
  /-- The functions whose closure is used from within another closure. -/
  carrierCaptured : List FunctionId := []
  /-- What has been noted, if semantic tokens are asked for. -/
  tokens : Option (Array SemanticToken) := none

/-- How a tree is built wrong. -/
inductive Crash where
  | fault (fault : ScopeTree.Fault)
  | unknownClosure (id : ClosureId)
  | endlessOwners
  | blockExpected (kind : String)
  | closureAttached (kind : String)
deriving DecidableEq, Repr

/-- The wording of a crash that is about the shape of the syntax tree. -/
def Crash.message? : Crash → Option String
  | .blockExpected kind => some ("expected a block, found " ++ kind)
  | .closureAttached kind => some ("closure attached to " ++ kind)
  | _ => none

inductive Halt where
  | failed (error : AnalysisError)
  | crashed (crash : Crash)
deriving DecidableEq, Repr

abbrev Walk (α : Type) := ExceptT Halt (StateM AnalysisState) α

/-- Where the analysis is: the scope, and the function or closure around it. -/
structure Context where
  registry : Registry
  scope : ScopeId
  enclosing : Option Enclosing

namespace Walk

variable {α : Type}

def fail (cause : ErrorCause) : Walk α := throw (.failed { cause })

def failAt (cause : ErrorCause) (span : Span) : Walk α :=
  throw (.failed { cause, span := some span })

def crash (crash : Crash) : Walk α := throw (.crashed crash)

/-- Place the errors of an action that have no place yet. -/
def locate (span : Span) (action : Walk α) : Walk α :=
  tryCatch action fun
    | .failed error => throw (.failed (error.orSpan span))
    | .crashed crash => throw (.crashed crash)

/-- Ask the tree of scopes. -/
def ask (question : ScopeTree → Except ScopeTree.Fault α) : Walk α := do
  match question (← get).tree with
  | .ok answer => return answer
  | .error fault => crash (.fault fault)

/-- Change the tree of scopes. -/
def edit (change : ScopeTree.Edit α) : Walk α := do
  let state ← get
  let (result, tree) := change.run state.tree
  set { state with tree }
  match result with
  | .ok answer => return answer
  | .error fault => crash (.fault fault)

/-- Note what stands at a place of the source, if that is asked for. -/
def note (span : Span) (category : SemanticCategory) : Walk Unit :=
  modify fun state => { state with tokens := state.tokens.map (·.push ⟨span, category⟩) }

/-! ### Closures -/

def frame (id : ClosureId) : Walk ClosureFrame := do
  match (← get).closures[id.index]? with
  | some frame => return frame
  | none => crash (.unknownClosure id)

def changeFrame (id : ClosureId) (change : ClosureFrame → ClosureFrame) : Walk Unit :=
  modify fun state => { state with closures := state.closures.modify id.index change }

/-- Enter a closure: its number is the count of closures before it. -/
def openFrame (frame : ClosureFrame) : Walk ClosureId := do
  let state ← get
  set { state with closures := state.closures.push frame }
  return ⟨UInt32.ofNat state.closures.size⟩

/-! ### Places -/

/-- The scope of an expression that has to be a block. -/
def blockScope (e : Expr) : Walk ScopeId :=
  match e.blockScope? with
  | some scope => return scope
  | none => crash (.blockExpected e.kindName)

/-- The module that the analysis is in. -/
def currentModule (context : Context) : Walk ModuleId := do
  return (← ask (·.scope context.scope)).module

end Walk
end ShellSema
