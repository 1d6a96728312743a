import ShellSema.Proofs.Actions

/-!
# The walk laid open

A walk over a node is a row of actions of its own with walks over subexpressions in between. A
`Plan` keeps the two apart: what a node does itself is an action, what it leaves to the walk over a
subexpression is a visit. `node_eq_run` says that the walk over a node is its plan with every visit
carried out, so what holds of all plans holds of the walk.
-/
namespace ShellSema

/-- What is left to do, with the visits of subexpressions marked. -/
inductive Plan : Type → Type 1 where
  | done {α : Type} (result : α) : Plan α
  | act {α β : Type} (action : Walk β) (next : β → Plan α) : Plan α
  | visit {α : Type} (context : Context) (slot : Slot) (e : Expr) (next : Expr → Plan α) : Plan α
  /-- A part during which an error of the script makes a function fail. -/
  | guarded {α β : Type} (id : FunctionId) (inner : Plan β) (next : β → Plan α) : Plan α

namespace Plan

variable {α β γ : Type}

def bind : Plan α → (α → Plan β) → Plan β
  | .done a, f => f a
  | .act action next, f => .act action fun b => (next b).bind f
  | .visit context slot e next, f => .visit context slot e fun r => (next r).bind f
  | .guarded id inner next, f => .guarded id inner fun b => (next b).bind f

instance : Monad Plan where
  pure := .done
  bind := .bind

instance : MonadLift Walk Plan := ⟨fun action => .act action .done⟩

/-- Carry a plan out. -/
def run : {α : Type} → Plan α → Walk α
  | _, .done a => pure a
  | _, .act action next => do (next (← action)).run
  | _, .visit context slot e next => do (next (← Walk.expr context slot e)).run
  | _, .guarded id inner next => do (next (← Walk.orFailFunction id inner.run)).run

/-! ### The plans of nodes -/

def enter (context : Context) (slot : Slot) (e : Expr) : Plan Expr := .visit context slot e .done

def guard (id : FunctionId) (inner : Plan α) : Plan α := .guarded id inner .done

/-- Visit expressions one after the other. -/
def each (context : Context) (slot : Expr → Slot) : List Expr → Plan (List Expr)
  | [] => return []
  | e :: es => do
    let e ← enter context (slot e) e
    let es ← each context slot es
    return e :: es

def option (context : Context) (isRoot : Option Bool) : Option Expr → Plan (Option Expr)
  | none => return none
  | some e => do return some (← enter context { isRoot := isRoot.getD e.isRoot } e)

def pairs (context : Context) : List (Expr × Expr) → Plan (List (Expr × Expr))
  | [] => return []
  | (key, value) :: entries => do
    let key ← enter context key.slot key
    let value ← enter context value.slot value
    let entries ← pairs context entries
    return (key, value) :: entries

def environmentValues (context : Context) : List (String × Expr) → Plan (List (String × Expr))
  | [] => return []
  | (name, value) :: entries => do
    let value ← enter context value.slot value
    let entries ← environmentValues context entries
    return (name, value) :: entries

/-- What a parameter list refuses about a parameter before its default is looked at. -/
def checkVariadic (isVariadic : Bool) (rest : List Parameter) : Walk Unit :=
  if isVariadic && !rest.isEmpty then Walk.fail .misplacedVariadic else return ()

def parameterList (context : Context) (seenDefault : Bool) : List Parameter → Plan (List Parameter)
  | [] => return []
  | ⟨name, default?, isVariadic⟩ :: rest => do
    Walk.note name.span .parameter
    checkVariadic isVariadic rest
    match default? with
    | some value =>
      (if !value.isDefault then Walk.fail .nonLiteralDefault else return () : Walk Unit)
      let value ← enter context value.slot value
      let rest ← parameterList context true rest
      return ⟨name, some value, isVariadic⟩ :: rest
    | none =>
      (if seenDefault && !isVariadic then Walk.fail .misplacedDefault else return () : Walk Unit)
      let rest ← parameterList context seenDefault rest
      return ⟨name, none, isVariadic⟩ :: rest

def catchList (context : Context) (isRoot : Bool) : List Catch → Plan (List Catch)
  | [] => return []
  | ⟨identifier, typeRef, body⟩ :: rest => do
    let typeRef ← option context none typeRef
    let bodyScope ← Walk.blockScope body
    (identifier.forM (Walk.declare bodyScope .variableName) : Walk PUnit)
    let body ← enter context { isRoot } body
    let rest ← catchList context isRoot rest
    return ⟨identifier, typeRef, body⟩ :: rest

/-- What is done at a function that is met for the first time. -/
def functionDecl (context : Context) (parameters : List Parameter) (body : Expr)
    (module : ModuleId) (takesClosure : Bool) (id : FunctionId) : Plan (List Parameter × Expr) :=
  guard id do
    let parameters ← parameterList context false parameters
    let bodyScope ← Walk.blockScope body
    Walk.declareParameters bodyScope parameters takesClosure
    let inner ← Walk.functionContext context id module
    let body ← enter inner body.slot body
    return (parameters, body)

/-- The plan of a node of a kind that its slot admits. -/
def node (context : Context) (slot : Slot) (span : Span) : ExprKind → Plan Expr
  | .moduleDecl access name body => do
    Walk.note name.span .module
    let _ ← Walk.blockScope body
    let body ← enter context { isRoot := true } body
    return ⟨.moduleDecl access name body, span, slot.isRoot, none⟩
  | .structDecl access name parameters module => do
    Walk.note name.span .struct
    let parameters ← parameterList context false parameters
    Walk.checkFields name parameters
    let _ ← Walk.edit
      (ScopeTree.Edit.registerStruct { name := name.text, access, module, parameters })
    return ⟨.structDecl access name parameters module, span, slot.isRoot, none⟩
  | .functionDecl access name parameters body module takesClosure id => do
    if (← Walk.ask (·.function id)).status ≠ .pending then
      return ⟨.functionDecl access name parameters body module takesClosure id, span,
        slot.isRoot, none⟩
    Walk.note name.span .function
    (modify fun state => { state with closureSupport := (id, takesClosure) :: state.closureSupport }
      : Walk PUnit)
    let (parameters, body) ← functionDecl context parameters body module takesClosure id
    Walk.registerFunction access name parameters module takesClosure id
    return ⟨.functionDecl access name parameters body module takesClosure id, span,
      slot.isRoot, none⟩
  | .letIn identifiers value _ => do
    Walk.checkBinding identifiers
    let value ← enter context value.slot value
    (identifiers.forM (Walk.bind context) : Walk PUnit)
    return ⟨.letIn identifiers value (some context.scope), span, slot.isRoot, none⟩
  | .construct name path arguments _ => do
    let target ← Walk.structTarget context name.text (path.map Token.text) arguments.length
    Walk.noteConstruction name path
    let arguments ← each context Expr.slot arguments
    return ⟨.construct name path arguments (some target), span, slot.isRoot, none⟩
  | .ifElse condition thenBranch elseBranch => do
    let condition ← enter context condition.slot condition
    let thenBranch ← enter context { isRoot := slot.isRoot } thenBranch
    let elseBranch ← option context (some slot.isRoot) elseBranch
    return ⟨.ifElse condition thenBranch elseBranch, span, slot.isRoot, none⟩
  | .forEach identifiers value body => do
    let value ← enter context value.slot value
    let bodyScope ← Walk.blockScope body
    (identifiers.forM (Walk.declare bodyScope .variableName) : Walk PUnit)
    let body ← enter context { isRoot := true } body
    return ⟨.forEach identifiers value body, span, slot.isRoot, none⟩
  | .whileDo condition body => do
    let condition ← enter context condition.slot condition
    let _ ← Walk.blockScope body
    let body ← enter context { isRoot := true } body
    return ⟨.whileDo condition body, span, slot.isRoot, none⟩
  | .sequence form items => do
    return ⟨.sequence form (← each context Expr.slot items), span, slot.isRoot, none⟩
  | .dictionary entries => do
    return ⟨.dictionary (← pairs context entries), span, slot.isRoot, none⟩
  | .block expressions role scope => do
    let expressions ← each { context with scope } (fun e => { isRoot := slot.isRoot || e.isRoot })
      expressions
    return ⟨.block expressions role scope, span, slot.isRoot, none⟩
  | .keyword token value => do
    Walk.note token.span .keyword
    let value ← option context none value
    return ⟨.keyword token value, span, slot.isRoot, none⟩
  | .binary left op right => do
    match op.redirection? with
    | some redirection =>
      let left ← enter context left.slot left
      let left ← Walk.redirect op redirection left
      enter context { isRoot := slot.isRoot, attachment := some { piped := some left } } right
    | none =>
      (if op = .assign then Walk.checkTarget left else return () : Walk Unit)
      let left ← enter context
        { isRoot := op.isSequencing || left.isRoot, inChain := op.isSequencing } left
      let right ← enter context
        { isRoot := (op.isSequencing && slot.inChain) || right.isRoot } right
      return ⟨.binary left op right, span, slot.isRoot, none⟩
  | .unary op value => do
    let value ← enter context value.slot value
    return ⟨.unary op value, span, slot.isRoot, none⟩
  | .fieldAccess object field _ => do
    let object ← enter context object.slot object
    Walk.note field.span .property
    return ⟨.fieldAccess object field (some (.ofText field.text)), span, slot.isRoot, none⟩
  | .range lower upper inclusive => do
    let lower ← option context none lower
    let upper ← option context none upper
    return ⟨.range lower upper inclusive, span, slot.isRoot, none⟩
  | .indexer value index => do
    let value ← enter context value.slot value
    let index ← enter context index.slot index
    return ⟨.indexer value index, span, slot.isRoot, none⟩
  | .typeRef name _ => do
    return ⟨← Walk.typeUse context name, span, slot.isRoot, none⟩
  | .variableRef name _ _ => do
    return ⟨← Walk.variableUse context name, span, slot.isRoot, none⟩
  | .call ⟨name, path, arguments, _, environment, mode, _⟩ => do
    let callee ← Walk.callee context name.text (path.map Token.text)
    Walk.noteCall name path callee
    let arguments ← each context Expr.slot arguments
    let (arguments, piped) := Walk.placePiped callee slot.piped arguments
    Walk.checkClosure callee slot.hasClosure
    Walk.checkArguments callee mode.isReference arguments.length
    let arguments := Walk.holdProcesses callee arguments
    let environment ← environmentValues context environment
    let findings := callee.findings context.scope
    return ⟨.call ⟨name, path, arguments, piped, environment, mode, findings⟩, span,
      slot.isRoot, none⟩
  | .literal token _ => do
    return ⟨← Walk.literal context span token, span, slot.isRoot, none⟩
  | .closure attached parameters body captured _ => do
    let attached ← enter context
      { isRoot := attached.isRoot, attachment := some { piped := slot.piped, hasClosure := true } }
      attached
    let made ← Walk.attachedCall attached
    let bodyScope ← Walk.blockScope body
    let id ← Walk.enterClosure context bodyScope parameters captured
    let body ← enter { context with enclosing := some (.closure id) } body.slot body
    Walk.propagateCaptures id context.enclosing
    let (parameters, body) ← Walk.expandReference id made bodyScope parameters body
    let captured := (← (Walk.frame id)).captured
    return ⟨.closure attached parameters body captured (some id), span, slot.isRoot, none⟩
  | .tryCatch body catches => do
    let _ ← Walk.blockScope body
    let body ← enter context { isRoot := slot.isRoot } body
    let catches ← catchList context slot.isRoot catches
    return ⟨.tryCatch body catches, span, slot.isRoot, none⟩

/-- What is done at a call once its callee is found. -/
def called (context : Context) (slot : Slot) (span : Span) (made : Call) (callee : Callee) :
    Plan Expr := do
  Walk.noteCall made.name made.path callee
  let arguments ← each context Expr.slot made.arguments
  let (arguments, piped) := Walk.placePiped callee slot.piped arguments
  Walk.checkClosure callee slot.hasClosure
  Walk.checkArguments callee made.mode.isReference arguments.length
  let arguments := Walk.holdProcesses callee arguments
  let environment ← environmentValues context made.environment
  let findings := callee.findings context.scope
  return ⟨.call { made with arguments, piped, environment, findings }, span, slot.isRoot, none⟩

theorem node_call (context : Context) (slot : Slot) (span : Span) (made : Call) :
    node context slot span (.call made) = (do
      let callee ← Walk.callee context made.name.text (made.path.map Token.text)
      called context slot span made callee) := by
  obtain ⟨name, path, arguments, piped, environment, mode, findings⟩ := made
  rfl

/-! ### Carrying plans out -/

@[simp] theorem run_pure (a : α) : (pure a : Plan α).run = pure a := rfl

@[simp] theorem run_lift (action : Walk α) : (liftM action : Plan α).run = action :=
  bind_pure action

@[simp] theorem run_modify (change : AnalysisState → AnalysisState) :
    (modify change : Plan PUnit).run = modify change :=
  bind_pure _

@[simp] theorem run_enter (context : Context) (slot : Slot) (e : Expr) :
    (enter context slot e).run = Walk.expr context slot e :=
  bind_pure _

@[simp] theorem run_guard (id : FunctionId) (inner : Plan α) :
    (guard id inner).run = Walk.orFailFunction id inner.run :=
  bind_pure _

@[simp] theorem run_bind (p : Plan α) (next : α → Plan β) :
    (p >>= next).run = p.run >>= fun a => (next a).run := by
  change (p.bind next).run = _
  induction p with
  | done a => simp [bind, run]
  | act action rest ih => simp [bind, run, ih]
  | visit context slot e rest ih => simp [bind, run, ih]
  | guarded id inner rest _ ih => simp [bind, run, ih]

/-- A check in front of a row of actions. -/
private theorem check_bind (refused : Prop) [Decidable refused] (complaint : Walk Unit)
    (next : Unit → Walk α) :
    ((if refused then complaint else pure ()) >>= next) =
      if refused then complaint >>= next else next () := by
  split <;> simp

theorem run_each (context : Context) (es : List Expr) :
    (each context Expr.slot es).run = Walk.exprs context es := by
  induction es with
  | nil => simp [each, Walk.exprs]
  | cons e es ih => simp [each, Walk.exprs, ih]

theorem run_statements (context : Context) (isRoot : Bool) (es : List Expr) :
    (each context (fun e => { isRoot := isRoot || e.isRoot }) es).run =
      Walk.statements context isRoot es := by
  induction es with
  | nil => simp [each, Walk.statements]
  | cons e es ih => simp [each, Walk.statements, ih]

theorem run_option (context : Context) (isRoot : Option Bool) (e : Option Expr) :
    (option context isRoot e).run = Walk.option context isRoot e := by
  cases e <;> simp [option, Walk.option]

theorem run_pairs (context : Context) (entries : List (Expr × Expr)) :
    (pairs context entries).run = Walk.pairs context entries := by
  induction entries with
  | nil => simp [pairs, Walk.pairs]
  | cons entry entries ih => simp [pairs, Walk.pairs, ih]

theorem run_environmentValues (context : Context) (entries : List (String × Expr)) :
    (environmentValues context entries).run = Walk.environmentValues context entries := by
  induction entries with
  | nil => simp [environmentValues, Walk.environmentValues]
  | cons entry entries ih => simp [environmentValues, Walk.environmentValues, ih]

theorem run_parameterList (context : Context) (seenDefault : Bool) (parameters : List Parameter) :
    (parameterList context seenDefault parameters).run =
      Walk.parameterList context seenDefault parameters := by
  induction parameters generalizing seenDefault with
  | nil => simp [parameterList, Walk.parameterList]
  | cons parameter rest ih =>
    obtain ⟨name, default?, isVariadic⟩ := parameter
    cases default? <;> simp [parameterList, Walk.parameterList, checkVariadic, check_bind, ih]

theorem run_catchList (context : Context) (isRoot : Bool) (catches : List Catch) :
    (catchList context isRoot catches).run = Walk.catchList context isRoot catches := by
  induction catches with
  | nil => simp [catchList, Walk.catchList]
  | cons clause rest ih =>
    obtain ⟨identifier, typeRef, body⟩ := clause
    simp [catchList, Walk.catchList, run_option, ih]

/-- The walk over a node is its plan with every visit carried out. -/
theorem node_eq_run (context : Context) (slot : Slot) (span : Span) (kind : ExprKind) :
    Walk.node context slot span kind = (node context slot span kind).run := by
  cases kind
  case call made =>
    obtain ⟨_, _, _, _, _, _, _⟩ := made
    simp [Walk.node, node, run_each, run_environmentValues]
  case functionDecl access name parameters body module takesClosure id =>
    simp only [Walk.node, node, run_bind, run_lift]
    congr 1
    funext found
    split
    · simp
    · simp [functionDecl, run_parameterList]
  case binary left op right =>
    simp only [Walk.node, node]
    cases op.redirection? <;> simp [check_bind]
  all_goals
    simp [Walk.node, node, run_each, run_statements, run_option, run_pairs, run_parameterList,
      run_catchList]

end Plan
end ShellSema
