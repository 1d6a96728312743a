import ShellSema.Analysis.Literals
import ShellSema.Analysis.Callee
import ShellSema.Analysis.Construction
import ShellSema.Analysis.Closures

/-!
# Going over a tree

`Walk.expr` analyses an expression and gives the expression that takes its place. What surrounds an
expression decides three things about it, its slot: whether its value is used, whether it stands on
the left in a chain of commands, and whether it has to be a call, to which a pipe or a closure is
attached.
-/
namespace ShellSema

/-- What is attached to a call: the analysed left side of a pipe, and a closure. -/
structure Attachment where
  piped : Option Expr := none
  hasClosure : Bool := false

/-- The place of an expression in the one around it. -/
structure Slot where
  isRoot : Bool
  /-- It is the left side of `&&` or `||`, so a chain in its place uses no value of its parts. -/
  inChain : Bool := false
  attachment : Option Attachment := none

/-- The slot of an expression that keeps its own root flag. -/
def Expr.slot (e : Expr) : Slot := { isRoot := e.isRoot }

namespace Slot

/-- An expression that something is attached to has to be a call, or a closure on a call. -/
def admits (slot : Slot) : ExprKind → Bool
  | .call _ | .closure .. => true
  | _ => slot.attachment.isNone

def piped (slot : Slot) : Option Expr := slot.attachment.bind (·.piped)

def hasClosure (slot : Slot) : Bool :=
  match slot.attachment with
  | some attachment => attachment.hasClosure
  | none => false

end Slot

namespace Walk

/-! ### Declarations -/

/-- Run the analysis of a function; if the script has an error there, the function has failed. -/
def orFailFunction {α : Type} (id : FunctionId) (action : Walk α) : Walk α :=
  tryCatch action fun
    | .failed error => do
      edit (ScopeTree.Edit.changeFunction id fun f => { f with status := .failed })
      throw (.failed error)
    | .crashed crash => throw (.crashed crash)

/-- Declare the parameters of a function in its body, and the variable that holds its closure. -/
def declareParameters (bodyScope : ScopeId) (parameters : List Parameter) (takesClosure : Bool) :
    Walk Unit := do
  parameters.forM fun p => edit (ScopeTree.Edit.addVariable bodyScope p.name.text)
  if takesClosure then edit (ScopeTree.Edit.addVariable bodyScope closureCarrier)

/-- The place of a function's body before its block is entered: the root scope of its module. -/
def functionContext (context : Context) (id : FunctionId) (module : ModuleId) : Walk Context := do
  return { context with
    scope := (← ask (·.module module)).scope
    enclosing := some (.function id) }

/-- Enter an analysed function in its module. -/
def registerFunction (access : Access) (name : Token) (parameters : List Parameter)
    (module : ModuleId) (takesClosure : Bool) (id : FunctionId) : Walk Unit := do
  let carrierCaptured := (← get).carrierCaptured.contains id
  edit (ScopeTree.Edit.registerFunction id
    { name := name.text, access, module, parameters, takesClosure, carrierCaptured
      status := .analysed })

mutual
/-- Analyse an expression. It is marked with the function or closure around it, and an error that
has no place yet gets the place of the expression. -/
def expr (context : Context) (slot : Slot) : Expr → Walk Expr
  | ⟨kind, span, _, _⟩ => do
    let analysed ← locate span (if slot.admits kind then node context slot span kind
      else fail .callExpectedAfterPipe)
    return { analysed with enclosing := context.enclosing }

/-- Analyse a node of a kind that its slot admits. -/
def node (context : Context) (slot : Slot) (span : Span) : ExprKind → Walk Expr
  | .moduleDecl access name body => do
    note name.span .module
    let _ ← blockScope body
    let body ← expr context { isRoot := true } body
    return ⟨.moduleDecl access name body, span, slot.isRoot, none⟩
  | .structDecl access name parameters module => do
    note name.span .struct
    let parameters ← parameterList context false parameters
    checkFields name parameters
    let _ ← edit (ScopeTree.Edit.registerStruct { name := name.text, access, module, parameters })
    return ⟨.structDecl access name parameters module, span, slot.isRoot, none⟩
  | .functionDecl access name parameters body module takesClosure id => do
    -- A function that is met again, as in a stored tree, keeps what was found the first time.
    if (← ask (·.function id)).status ≠ .pending then
      return ⟨.functionDecl access name parameters body module takesClosure id, span,
        slot.isRoot, none⟩
    note name.span .function
    modify fun state => { state with closureSupport := (id, takesClosure) :: state.closureSupport }
    let (parameters, body) ← orFailFunction id do
      -- Defaults belong to the surroundings of the function.
      let parameters ← parameterList context false parameters
      let bodyScope ← blockScope body
      declareParameters bodyScope parameters takesClosure
      let inner ← functionContext context id module
      let body ← expr inner body.slot body
      return (parameters, body)
    registerFunction access name parameters module takesClosure id
    return ⟨.functionDecl access name parameters body module takesClosure id, span,
      slot.isRoot, none⟩
  | .letIn identifiers value _ => do
    checkBinding identifiers
    let value ← expr context value.slot value
    identifiers.forM (bind context)
    return ⟨.letIn identifiers value (some context.scope), span, slot.isRoot, none⟩
  | .construct name path arguments _ => do
    let target ← structTarget context name.text (path.map Token.text) arguments.length
    noteConstruction name path
    let arguments ← exprs context arguments
    return ⟨.construct name path arguments (some target), span, slot.isRoot, none⟩
  | .ifElse condition thenBranch elseBranch => do
    let condition ← expr context condition.slot condition
    let thenBranch ← expr context { isRoot := slot.isRoot } thenBranch
    let elseBranch ← option context (some slot.isRoot) elseBranch
    return ⟨.ifElse condition thenBranch elseBranch, span, slot.isRoot, none⟩
  | .forEach identifiers value body => do
    let value ← expr context value.slot value
    let bodyScope ← blockScope body
    identifiers.forM (declare bodyScope .variableName)
    let body ← expr context { isRoot := true } body
    return ⟨.forEach identifiers value body, span, slot.isRoot, none⟩
  | .whileDo condition body => do
    let condition ← expr context condition.slot condition
    let _ ← blockScope body
    let body ← expr context { isRoot := true } body
    return ⟨.whileDo condition body, span, slot.isRoot, none⟩
  | .sequence form items => do
    return ⟨.sequence form (← exprs context items), span, slot.isRoot, none⟩
  | .dictionary entries => do
    return ⟨.dictionary (← pairs context entries), span, slot.isRoot, none⟩
  | .block expressions role scope => do
    let expressions ← statements { context with scope } slot.isRoot expressions
    return ⟨.block expressions role scope, span, slot.isRoot, none⟩
  | .keyword token value => do
    note token.span .keyword
    let value ← option context none value
    return ⟨.keyword token value, span, slot.isRoot, none⟩
  | .binary left op right => do
    match op.redirection? with
    | some redirection =>
      let left ← expr context left.slot left
      let left ← redirect op redirection left
      -- The right side takes the place of the whole pipe.
      expr context { isRoot := slot.isRoot, attachment := some { piped := some left } } right
    | none =>
      if op = .assign then checkTarget left
      let left ← expr context
        { isRoot := op.isSequencing || left.isRoot, inChain := op.isSequencing } left
      let right ← expr context
        { isRoot := (op.isSequencing && slot.inChain) || right.isRoot } right
      return ⟨.binary left op right, span, slot.isRoot, none⟩
  | .unary op value => do
    let value ← expr context value.slot value
    return ⟨.unary op value, span, slot.isRoot, none⟩
  | .fieldAccess object field _ => do
    let object ← expr context object.slot object
    note field.span .property
    return ⟨.fieldAccess object field (some (.ofText field.text)), span, slot.isRoot, none⟩
  | .range lower upper inclusive => do
    let lower ← option context none lower
    let upper ← option context none upper
    return ⟨.range lower upper inclusive, span, slot.isRoot, none⟩
  | .indexer value index => do
    let value ← expr context value.slot value
    let index ← expr context index.slot index
    return ⟨.indexer value index, span, slot.isRoot, none⟩
  | .typeRef name _ => do
    return ⟨← typeUse context name, span, slot.isRoot, none⟩
  | .variableRef name _ _ => do
    return ⟨← variableUse context name, span, slot.isRoot, none⟩
  | .call ⟨name, path, arguments, _, environment, mode, _⟩ => do
    let callee ← callee context name.text (path.map Token.text)
    noteCall name path callee
    let arguments ← exprs context arguments
    let (arguments, piped) := placePiped callee slot.piped arguments
    -- Arguments may declare functions, so signatures are read after them.
    checkClosure callee slot.hasClosure
    checkArguments callee mode.isReference arguments.length
    let arguments := holdProcesses callee arguments
    let environment ← environmentValues context environment
    let findings := callee.findings context.scope
    return ⟨.call ⟨name, path, arguments, piped, environment, mode, findings⟩, span,
      slot.isRoot, none⟩
  | .literal token _ => do
    return ⟨← literal context span token, span, slot.isRoot, none⟩
  | .closure attached parameters body captured _ => do
    -- The attached call belongs to the code around the closure.
    let attached ← expr context
      { isRoot := attached.isRoot, attachment := some { piped := slot.piped, hasClosure := true } }
      attached
    let made ← attachedCall attached
    let bodyScope ← blockScope body
    let id ← enterClosure context bodyScope parameters captured
    let body ← expr { context with enclosing := some (.closure id) } body.slot body
    propagateCaptures id context.enclosing
    -- The body is analysed by now, so no closure captures a made-up parameter.
    let (parameters, body) ← expandReference id made bodyScope parameters body
    let captured := (← frame id).captured
    return ⟨.closure attached parameters body captured (some id), span, slot.isRoot, none⟩
  | .tryCatch body catches => do
    let _ ← blockScope body
    let body ← expr context { isRoot := slot.isRoot } body
    let catches ← catchList context slot.isRoot catches
    return ⟨.tryCatch body catches, span, slot.isRoot, none⟩

/-- Analyse expressions that keep their root flags. -/
def exprs (context : Context) : List Expr → Walk (List Expr)
  | [] => return []
  | e :: es => do
    let e ← expr context e.slot e
    let es ← exprs context es
    return e :: es

/-- Analyse the expressions of a block; those of a root block are root. -/
def statements (context : Context) (isRoot : Bool) : List Expr → Walk (List Expr)
  | [] => return []
  | e :: es => do
    let e ← expr context { isRoot := isRoot || e.isRoot } e
    let es ← statements context isRoot es
    return e :: es

/-- Analyse an expression if there is one, with the given root flag or its own. -/
def option (context : Context) (isRoot : Option Bool) : Option Expr → Walk (Option Expr)
  | none => return none
  | some e => do return some (← expr context { isRoot := isRoot.getD e.isRoot } e)

def pairs (context : Context) : List (Expr × Expr) → Walk (List (Expr × Expr))
  | [] => return []
  | (key, value) :: entries => do
    let key ← expr context key.slot key
    let value ← expr context value.slot value
    let entries ← pairs context entries
    return (key, value) :: entries

def environmentValues (context : Context) : List (String × Expr) → Walk (List (String × Expr))
  | [] => return []
  | (name, value) :: entries => do
    let value ← expr context value.slot value
    let entries ← environmentValues context entries
    return (name, value) :: entries

/-- Analyse a parameter list. Only the last parameter may be variadic, the parameters after one with
a default have one or are variadic, and defaults are constant. -/
def parameterList (context : Context) (seenDefault : Bool) : List Parameter → Walk (List Parameter)
  | [] => return []
  | ⟨name, default?, isVariadic⟩ :: rest => do
    note name.span .parameter
    if isVariadic && !rest.isEmpty then fail .misplacedVariadic
    match default? with
    | some value =>
      if !value.isDefault then fail .nonLiteralDefault
      let value ← expr context value.slot value
      let rest ← parameterList context true rest
      return ⟨name, some value, isVariadic⟩ :: rest
    | none =>
      if seenDefault && !isVariadic then fail .misplacedDefault
      let rest ← parameterList context seenDefault rest
      return ⟨name, none, isVariadic⟩ :: rest

def catchList (context : Context) (isRoot : Bool) : List Catch → Walk (List Catch)
  | [] => return []
  | ⟨identifier, typeRef, body⟩ :: rest => do
    let typeRef ← option context none typeRef
    let bodyScope ← blockScope body
    identifier.forM (declare bodyScope .variableName)
    let body ← expr context { isRoot } body
    let rest ← catchList context isRoot rest
    return ⟨identifier, typeRef, body⟩ :: rest
end

end Walk
end ShellSema
