import ShellSema.Analysis.Arguments

/-!
# What a call calls

The reserved names come first. Then a name is looked for in the standard library, then among the
functions of the script, and what is found nowhere is a program.
-/
namespace ShellSema

inductive Callee where
  | exec
  /-- The closure passed to a function. -/
  | closure (provider : FunctionId)
  | call
  | source
  | standard (function : StandardFunction)
  | user (id : FunctionId)
  | program
deriving DecidableEq, Repr

namespace Callee

def callType : Callee → CallType
  | .exec => .builtinExec
  | .closure _ => .builtinClosure
  | .call => .builtinCall
  | .source => .builtinSource
  | .standard _ => .standard
  | .user _ => .function
  | .program => .program

def category : Callee → SemanticCategory
  | .standard _ => .standardFunction
  | .user _ => .function
  | .program => .program
  | _ => .builtin

def findings (callee : Callee) (scope : ScopeId) : CallFindings :=
  { callType := some callee.callType
    standard := match callee with
      | .standard f => some f
      | _ => none
    function := match callee with
      | .user id => some id
      | _ => none
    closureProvider := match callee with
      | .closure provider => some provider
      | _ => none
    scope := some scope }

def isProgram (callee : Callee) : Bool := callee = .program

/-- Whether the output of a program on the left of a pipe is read as it comes. -/
def consumesPipe : Callee → Bool
  | .program => true
  | .standard f => f.consumesPipe
  | _ => false

/-- Whether the callee starts the processes among its arguments itself. -/
def startsPipe : Callee → Bool
  | .standard f => f.startsPipe
  | _ => false

end Callee

def Expr.mapCall (change : Call → Call) (e : Expr) : Expr :=
  match e.kind with
  | .call made => { e with kind := .call (change made) }
  | _ => e

namespace Walk

/-! ### Finding the callee -/

/-- Walk out through closures to the function around them, if there is one. -/
def ownerWithin : Nat → Option Enclosing → Walk (Option FunctionId)
  | _, none => return none
  | _, some (.function id) => return some id
  | 0, some (.closure _) => crash .endlessOwners
  | steps + 1, some (.closure id) => do ownerWithin steps (← frame id).owner

/-- The function whose closure is called. It has to take a closure. Called from within another
closure, that one captures the variable which holds the closure. -/
def closureProvider (context : Context) : Walk FunctionId := do
  match ← ownerWithin ((← get).closures.size + 1) context.enclosing with
  | none => fail .closureCallUnexpected
  | some provider =>
    if ((← get).closureSupport.lookup provider).getD false then
      match context.enclosing with
      | some (.closure nearest) =>
        modify fun state => { state with carrierCaptured := provider :: state.carrierCaptured }
        changeFrame nearest fun frame =>
          { frame with captured := frame.captured.insert closureCarrier }
        let _ ← edit (ScopeTree.Edit.capture context.scope closureCarrier)
        return provider
      | _ => return provider
    else fail .closureCallUnexpected

/-- A function of the standard library. A path to a standard module has to lead to one. -/
def standardCallee (context : Context) (name : String) (path : List String) :
    Walk (Option StandardFunction) :=
  match context.registry.function? name path with
  | some f => return some f
  | none =>
    if !path.isEmpty ∧ context.registry.hasModule path then fail (.notFound name)
    else return none

/-- A function of the script. One of another module, found by a path, has to be exported. -/
def userCallee (context : Context) (name : String) (path : List String) :
    Walk (Option FunctionId) := do
  let current ← currentModule context
  match ← ask (·.findModule current path true) with
  | none => fail (.moduleNotFound path)
  | some module =>
    match ← ask (·.findFunction module name true) with
    | none => return none
    | some id =>
      let function ← ask (·.function id)
      if function.module ≠ current ∧ module ≠ current ∧ function.access ≠ .exported then
        fail (.accessDenied function.access name)
      return some id

/-- The callee of a name that is not reserved. -/
def ordinaryCallee (context : Context) (name : String) (path : List String) : Walk Callee := do
  match ← standardCallee context name path with
  | some f => return .standard f
  | none =>
    match ← userCallee context name path with
    | some id => return .user id
    | none => return .program

def callee (context : Context) (name : String) (path : List String) : Walk Callee :=
  match CallType.builtin? name with
  | some .builtinExec => return .exec
  | some .builtinClosure => do return .closure (← closureProvider context)
  | some .builtinCall => return .call
  | some .builtinSource => return .source
  | _ => ordinaryCallee context name path

/-! ### Pipes -/

/-- The left side of a pipe, told which of its streams is handed over. Only a program has other
streams than its output. -/
def redirect (op : BinaryOp) (redirection : Redirection) (left : Expr) : Walk Expr :=
  if left.isProgramCall then
    return left.mapCall fun made =>
      { made with mode := { made.mode with redirection } }
  else if op = .pipe then return left
  else fail (.invalidRedirection op.render)

/-- A program on the left of a pipe is told whether its output is read as it comes. -/
def tellReader (callee : Callee) (left : Expr) : Expr :=
  left.mapCall fun made =>
    if made.findings.callType = some .program then
      { made with mode := { made.mode with unbuffered := callee.consumesPipe } }
    else made

/-- The arguments and the piped expression of a call: a program reads the left side of a pipe, every
other callee gets it as first argument. -/
def placePiped (callee : Callee) (piped : Option Expr) (arguments : List Expr) :
    List Expr × Option Expr :=
  match piped with
  | none => (arguments, none)
  | some left =>
    let left := tellReader callee left
    if callee.isProgram then (arguments, some left) else (left :: arguments, none)

/-! ### Checking a call -/

/-- Whether a callee is called with a closure. -/
def takesClosure (callee : Callee) : Walk Bool :=
  match callee with
  | .standard f => return f.takesClosure
  | .user id => do return (← ask (·.function id)).takesClosure
  | _ => return false

def checkClosure (callee : Callee) (hasClosure : Bool) : Walk Unit := do
  let wanted ← takesClosure callee
  if hasClosure && !wanted then fail (.closureUnexpected callee.isProgram)
  if !hasClosure && wanted then fail .closureExpected

def checkArguments (callee : Callee) (isReference : Bool) (actual : Nat) : Walk Unit :=
  match callee with
  | .standard f => checkCount f.name (.ofStandardFunction f) isReference actual
  | .user id => do
    let function ← ask (·.function id)
    checkCount function.name (.ofParameters function.parameters) isReference actual
  | _ => return ()

/-- The processes among the arguments wait for a callee that starts them itself. -/
def holdProcesses (callee : Callee) (arguments : List Expr) : List Expr :=
  if callee.startsPipe then
    arguments.map fun argument => argument.mapCall fun made =>
      { made with mode := { made.mode with startsItself := false } }
  else arguments

/-- Note the path and name of a call. -/
def noteCall (name : Token) (path : List Token) (callee : Callee) : Walk Unit := do
  path.forM fun segment => note segment.span .module
  note name.span callee.category

/-! ### Assignments -/

/-- What can be assigned to: variables, elements and fields. -/
def checkTarget (e : Expr) : Walk Unit :=
  match e.kind with
  | .variableRef .. | .indexer .. | .fieldAccess .. => return ()
  | .call _ => fail (.invalidAssignment true)
  | _ => fail (.invalidAssignment false)

end Walk
end ShellSema
