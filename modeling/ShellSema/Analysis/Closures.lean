import ShellSema.Analysis.Names

/-!
# Closures

A closure captures the names that its body uses from outside. What a closure within another one
captures from outside of both, both capture. A body that is a bare reference to a function becomes
a call of it with parameters made up for the purpose.
-/
namespace ShellSema

namespace Walk

/-- Enter a closure and declare its parameters in the scope of its body. -/
def enterClosure (context : Context) (bodyScope : ScopeId) (parameters : List Token)
    (captured : NameSet) : Walk ClosureId := do
  let id ← openFrame
    { bodyScope, parameters := parameters.map Token.text, captured, owner := context.enclosing }
  parameters.forM (declare bodyScope .parameter)
  return id

/-! ### Closures within closures -/

/-- Whether a capture of a closure lies outside of the closure around it too. -/
def reachesOut (inner outer : ClosureFrame) (outside : ScopeId) (name : String) : Walk Bool := do
  if !(← ask (·.isVisible outer.bodyScope name)) then return false
  if outer.parameters.contains name then return false
  if ← ask (·.declaresHere inner.bodyScope name) then return false
  return !(← ask (·.declaredBetween name outside outer.bodyScope))

/-- Hand the captures of a closure to the closure around it. -/
def propagateCaptures (inner : ClosureId) (enclosing : Option Enclosing) : Walk Unit := do
  match enclosing with
  | some (.closure outer) =>
    let innerFrame ← frame inner
    let outerFrame ← frame outer
    match (← ask (·.scope innerFrame.bodyScope)).parent with
    | none => return ()
    | some outside =>
      let names ← innerFrame.captured.names.filterM (reachesOut innerFrame outerFrame outside)
      changeFrame outer fun frame => { frame with captured := frame.captured.union names }
  | _ => return ()

/-! ### References to functions -/

/-- The call of a body that is a block of one bare reference. -/
def reference? (body : Expr) : Option (Expr × Call) :=
  match body.kind with
  | .block [e] _ _ =>
    match e.kind with
    | .call made => if made.mode.isReference then some (e, made) else none
    | _ => none
  | _ => none

/-- The names of made-up parameters: as many as the closure of a standard function gets, or named
after the parameters of a function of the script, or a single one. -/
def impliedNames (attached : Call) : Walk (List String) := do
  match attached.findings.standard.bind (·.closureParameters) with
  | some count => return (List.range count.toNat).map toString
  | none =>
    match attached.findings.function with
    | some id => return (← ask (·.function id)).parameters.map (·.name.text)
    | none => return ["a"]

/-- A made-up parameter is marked by a quote, which no name of a script has. -/
def impliedParameter (anchor : Token) (name : String) : Token := anchor.withText ("'" ++ name)

def impliedArgument (id : ClosureId) (scope : ScopeId) (parameter : Token) : Expr :=
  { kind := .variableRef parameter (some scope) false
    span := parameter.span
    isRoot := false
    enclosing := some (.closure id) }

/-- The call that a bare reference becomes. -/
def expandedCall (id : ClosureId) (scope : ScopeId) (parameters : List Token) (made : Call) :
    Call :=
  { made with
    arguments := parameters.map (impliedArgument id scope) ++ made.arguments
    mode := { made.mode with isReference := false } }

/-- Replace the only expression of a block. -/
def replaceOnly (body e : Expr) : Expr :=
  match body.kind with
  | .block _ role scope => { body with kind := .block [e] role scope }
  | _ => body

/-- The parameters and body of a closure after a bare reference in it is expanded. -/
def expandReference (id : ClosureId) (attached : Call) (bodyScope : ScopeId)
    (parameters : List Token) (body : Expr) : Walk (List Token × Expr) := do
  match reference? body with
  | none => return (parameters, body)
  | some (e, made) =>
    let parameters := (← impliedNames attached).map (impliedParameter made.name)
    parameters.forM fun parameter => edit (ScopeTree.Edit.addVariable bodyScope parameter.text)
    changeFrame id fun frame => { frame with parameters := parameters.map Token.text }
    let e := { e with kind := .call (expandedCall id bodyScope parameters made) }
    return (parameters, replaceOnly body e)

/-- The call that a closure is attached to. -/
def attachedCall (e : Expr) : Walk Call :=
  match e.call? with
  | some made => return made
  | none => crash (.closureAttached e.kindName)

end Walk
end ShellSema
