import ShellSema.Proofs.Signatures

/-!
# Outlines of analysed trees

Two analyses of one tree number its closures differently if they go over different functions on the
way. The outline of an analysed tree has no regard to that: it leaves out which closure or function is
around a node, the numbers and the captured names of closures, and what is in function declarations.
All else stays, in particular what is found about calls, literals, variables and types. Only the mark of
a captured variable is left out where a scope between the variable and the body of the closure around it
declares the name in a given tree: a declaration that follows the use is met by the second analysis.

The walk makes new nodes from the results that it gets for their parts. Each of these operations only
depends on the outlines of the parts as far as the outline of the new node goes.
-/
namespace ShellSema

/-- No scope from a place up to the body of the closure around it declares the name. -/
def ScopeTree.unshadowed (tree : ScopeTree) (around place : Option ScopeId) (name : String) : Bool :=
  match around, place with
  | some body, some place =>
    match tree.declaredBetween name place body with
    | .ok declared => !declared
    | .error _ => false
  | _, _ => true

theorem ScopeTree.unshadowed_iff {tree : ScopeTree} {body place : ScopeId} {name : String} :
    tree.unshadowed (some body) (some place) name = true ↔
      tree.declaredBetween name place body = .ok false := by
  simp only [unshadowed]
  cases tree.declaredBetween name place body <;> simp

section Outlining

variable (tree : ScopeTree)

mutual
/-- The outline of an expression; the scope is that of the body of the closure around. -/
def Expr.outline (around : Option ScopeId) : Expr → Expr
  | ⟨kind, span, isRoot, _⟩ => ⟨kind.outline around, span, isRoot, none⟩

def ExprKind.outline (around : Option ScopeId) : ExprKind → ExprKind
  | .moduleDecl access name body => .moduleDecl access name (body.outline around)
  | .structDecl access name parameters module =>
    .structDecl access name (outlineParameters around parameters) module
  | .functionDecl access name _ _ module takesClosure id =>
    .functionDecl access name [] (.fresh (.sequence .tuple [])) module takesClosure id
  | .letIn identifiers value scope => .letIn identifiers (value.outline around) scope
  | .construct name path arguments target =>
    .construct name path (outlineAll around arguments) target
  | .ifElse condition thenBranch elseBranch =>
    .ifElse (condition.outline around) (thenBranch.outline around)
      (outlineOption around elseBranch)
  | .forEach identifiers value body =>
    .forEach identifiers (value.outline around) (body.outline around)
  | .whileDo condition body => .whileDo (condition.outline around) (body.outline around)
  | .sequence form items => .sequence form (outlineAll around items)
  | .dictionary entries => .dictionary (outlineEntries around entries)
  | .block expressions role scope => .block (outlineAll around expressions) role scope
  | .keyword token value => .keyword token (outlineOption around value)
  | .binary left op right => .binary (left.outline around) op (right.outline around)
  | .unary op value => .unary op (value.outline around)
  | .fieldAccess object field fieldValue =>
    .fieldAccess (object.outline around) field fieldValue
  | .range lower upper inclusive =>
    .range (outlineOption around lower) (outlineOption around upper) inclusive
  | .indexer value index => .indexer (value.outline around) (index.outline around)
  | .typeRef name target => .typeRef name target
  | .variableRef name place isCaptured =>
    .variableRef name place (isCaptured && tree.unshadowed around place name.text)
  | .call made => .call (outlineCall around made)
  | .literal token value => .literal token value
  | .closure attached parameters body _ _ =>
    .closure (attached.outline around) parameters (body.outline body.blockScope?) {} none
  | .tryCatch body catches =>
    .tryCatch (body.outline around) (outlineCatches around catches)

def outlineCall (around : Option ScopeId) : Call → Call
  | ⟨name, path, arguments, piped, environment, mode, findings⟩ =>
    ⟨name, path, outlineAll around arguments, outlineOption around piped,
      outlineEnvironment around environment, mode, findings⟩

def outlineAll (around : Option ScopeId) : List Expr → List Expr
  | [] => []
  | e :: es => e.outline around :: outlineAll around es

def outlineOption (around : Option ScopeId) : Option Expr → Option Expr
  | none => none
  | some e => some (e.outline around)

def outlineEntries (around : Option ScopeId) : List (Expr × Expr) → List (Expr × Expr)
  | [] => []
  | (key, value) :: entries =>
    (key.outline around, value.outline around) :: outlineEntries around entries

def outlineEnvironment (around : Option ScopeId) : List (String × Expr) → List (String × Expr)
  | [] => []
  | (name, value) :: entries => (name, value.outline around) :: outlineEnvironment around entries

def outlineParameters (around : Option ScopeId) : List Parameter → List Parameter
  | [] => []
  | ⟨name, default?, isVariadic⟩ :: parameters =>
    ⟨name, outlineOption around default?, isVariadic⟩ :: outlineParameters around parameters

def outlineCatches (around : Option ScopeId) : List Catch → List Catch
  | [] => []
  | ⟨identifier, typeRef, body⟩ :: catches =>
    ⟨identifier, outlineOption around typeRef, body.outline around⟩ ::
      outlineCatches around catches
end

def Ast.outline (ast : Ast) : Ast := ⟨outlineAll tree none ast.expressions⟩

end Outlining

section Outlines

variable {tree : ScopeTree} {around : Option ScopeId}

@[simp] theorem Expr.outline_kind (e : Expr) :
    (e.outline tree around).kind = e.kind.outline tree around := by
  cases e; rfl

@[simp] theorem Expr.outline_blockScope? (e : Expr) :
    (e.outline tree around).blockScope? = e.blockScope? := by
  simp only [blockScope?, outline_kind]
  cases e.kind <;> rfl

theorem outlineAll_eq (es : List Expr) :
    outlineAll tree around es = es.map (Expr.outline tree around) := by
  induction es with
  | nil => rfl
  | cons e es ih => simp [outlineAll, ih]

@[simp] theorem outlineAll_length (es : List Expr) :
    (outlineAll tree around es).length = es.length := by
  simp [outlineAll_eq]

/-- The same root flag and place, and the same kind up to the outline of it. -/
theorem Expr.outline_congr {e e' : Expr}
    (kind : e'.kind.outline tree around = e.kind.outline tree around) (span : e'.span = e.span)
    (isRoot : e'.isRoot = e.isRoot) :
    e'.outline tree around = e.outline tree around := by
  cases e
  cases e'
  simp only [outline] at *
  rw [kind, span, isRoot]

/-- Where a node stands does not show in its outline. -/
@[simp] theorem Expr.outline_enclosing (e : Expr) (enclosing : Option Enclosing) :
    Expr.outline tree around { e with enclosing } = e.outline tree around := by
  cases e; rfl

/-! ### Calls -/

@[simp] theorem Expr.outline_call? (e : Expr) :
    (e.outline tree around).call? = e.call?.map (outlineCall tree around) := by
  simp only [call?, outline_kind]
  cases e.kind <;> rfl

@[simp] theorem outlineCall_findings (made : Call) :
    (outlineCall tree around made).findings = made.findings := by
  cases made; rfl

@[simp] theorem outlineCall_mode (made : Call) :
    (outlineCall tree around made).mode = made.mode := by
  cases made; rfl

@[simp] theorem outlineCall_name (made : Call) :
    (outlineCall tree around made).name = made.name := by
  cases made; rfl

@[simp] theorem Expr.outline_isProgramCall (e : Expr) :
    (e.outline tree around).isProgramCall = e.isProgramCall := by
  simp only [isProgramCall, outline_call?]
  cases e.call? <;> simp

/-- A change of a call that can be made in the outline of the call is a change of the outline. -/
theorem Expr.outline_mapCall {change : Call → Call}
    (shown : ∀ made, outlineCall tree around (change made) = change (outlineCall tree around made))
    (e : Expr) :
    (e.mapCall change).outline tree around = (e.outline tree around).mapCall change := by
  obtain ⟨kind, span, isRoot, enclosing⟩ := e
  cases kind
  case call made => simp only [mapCall, outline, ExprKind.outline, shown]
  all_goals rfl

theorem Walk.outline_tellReader (callee : Callee) (left : Expr) :
    (Walk.tellReader callee left).outline tree around =
      Walk.tellReader callee (left.outline tree around) := by
  apply Expr.outline_mapCall
  intro made
  obtain ⟨name, path, arguments, piped, environment, mode, findings⟩ := made
  by_cases program : findings.callType = some .program <;> simp [outlineCall, program]

theorem Walk.outline_placePiped (callee : Callee) (piped : Option Expr) (arguments : List Expr) :
    Walk.placePiped callee (outlineOption tree around piped) (outlineAll tree around arguments) =
      (outlineAll tree around (Walk.placePiped callee piped arguments).1,
        outlineOption tree around (Walk.placePiped callee piped arguments).2) := by
  cases piped with
  | none => rfl
  | some left =>
    simp only [placePiped, outlineOption]
    split
    · simp [outlineOption, outline_tellReader]
    · simp [outlineOption, outlineAll, outline_tellReader]

theorem Walk.outline_holdProcesses (callee : Callee) (arguments : List Expr) :
    outlineAll tree around (Walk.holdProcesses callee arguments) =
      Walk.holdProcesses callee (outlineAll tree around arguments) := by
  unfold holdProcesses
  split
  · simp only [outlineAll_eq, List.map_map]
    apply List.map_congr_left
    intro argument _
    apply Expr.outline_mapCall
    intro made
    cases made
    rfl
  · rfl

/-! ### Bare references -/

theorem Walk.outline_reference? (body : Expr) :
    Walk.reference? (body.outline tree around) =
      (Walk.reference? body).map fun found =>
        (found.1.outline tree around, outlineCall tree around found.2) := by
  obtain ⟨kind, span, isRoot, enclosing⟩ := body
  cases kind
  case block expressions role scope =>
    rcases expressions with _ | ⟨e, _ | ⟨_, _⟩⟩
    · rfl
    · obtain ⟨kind, span, isRoot, enclosing⟩ := e
      cases kind
      case call made =>
        simp only [reference?, Expr.outline, ExprKind.outline, outlineAll, outlineCall_mode]
        split <;> rfl
      all_goals rfl
    · rfl
  all_goals rfl

theorem Walk.outline_replaceOnly (body e : Expr) :
    (Walk.replaceOnly body e).outline tree around =
      Walk.replaceOnly (body.outline tree around) (e.outline tree around) := by
  obtain ⟨kind, span, isRoot, enclosing⟩ := body
  cases kind <;> rfl

/-- The arguments that a bare reference gets differ in the closure around them only. -/
theorem Walk.outline_expandedCall {made made' : Call} (id id' : ClosureId) (scope : ScopeId)
    (parameters : List Token)
    (same : outlineCall tree around made' = outlineCall tree around made) :
    outlineCall tree around (Walk.expandedCall id' scope parameters made') =
      outlineCall tree around (Walk.expandedCall id scope parameters made) := by
  obtain ⟨name, path, arguments, piped, environment, mode, findings⟩ := made
  obtain ⟨name', path', arguments', piped', environment', mode', findings'⟩ := made'
  simp only [outlineCall, Call.mk.injEq, outlineAll_eq] at same
  obtain ⟨rfl, rfl, arguments, piped, environment, rfl, rfl⟩ := same
  simp only [expandedCall, outlineCall, outlineAll_eq, List.map_append, List.map_map, arguments,
    piped, environment]
  rfl

/-! ### Parameters -/

@[simp] theorem shapesOf_outlineParameters (parameters : List Parameter) :
    shapesOf (outlineParameters tree around parameters) = shapesOf parameters := by
  induction parameters with
  | nil => rfl
  | cons parameter rest ih =>
    obtain ⟨name, default?, isVariadic⟩ := parameter
    simp only [shapesOf, outlineParameters, List.map_cons] at ih ⊢
    rw [ih]
    cases default? <;> rfl

theorem firstRepeated?_outlineParameters (seen : List String) (parameters : List Parameter) :
    firstRepeated? seen (outlineParameters tree around parameters) = none ↔
      firstRepeated? seen parameters = none := by
  induction parameters generalizing seen with
  | nil => exact Iff.rfl
  | cons parameter rest ih =>
    obtain ⟨name, default?, isVariadic⟩ := parameter
    simp only [outlineParameters, firstRepeated?]
    split
    · simp
    · exact ih _

/-! ### Slots -/

/-- The slot with the outline of what is piped into it. -/
def Slot.outline (tree : ScopeTree) (around : Option ScopeId) (slot : Slot) : Slot :=
  { slot with attachment := slot.attachment.map fun attached =>
      { attached with piped := outlineOption tree around attached.piped } }

@[simp] theorem Slot.outline_isRoot (slot : Slot) : (slot.outline tree around).isRoot = slot.isRoot := rfl

@[simp] theorem Slot.outline_inChain (slot : Slot) :
    (slot.outline tree around).inChain = slot.inChain := rfl

@[simp] theorem Slot.outline_piped (slot : Slot) :
    (slot.outline tree around).piped = outlineOption tree around slot.piped := by
  obtain ⟨isRoot, inChain, _ | attached⟩ := slot <;> rfl

@[simp] theorem Slot.outline_hasClosure (slot : Slot) :
    (slot.outline tree around).hasClosure = slot.hasClosure := by
  obtain ⟨isRoot, inChain, _ | attached⟩ := slot <;> rfl

/-- What a slot admits does not depend on what is piped into it. -/
@[simp] theorem Slot.outline_admits (slot : Slot) (kind : ExprKind) :
    (slot.outline tree around).admits kind = slot.admits kind := by
  obtain ⟨isRoot, inChain, _ | attached⟩ := slot <;> cases kind <;> rfl

end Outlines
end ShellSema
