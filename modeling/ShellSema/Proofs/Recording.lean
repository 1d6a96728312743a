import ShellSema.Proofs.Edits
import ShellSema.Proofs.Visits

/-!
# Tokens are only noted

An analysis for an editor notes what the tokens of the source turned out to be; an analysis for a run
does not. Nothing else differs between the two: no action asks for what has been noted, so the walk
ends in the same way, with or without an error, and leaves the same tree of scopes.
-/
namespace ShellSema

/-- The state with nothing noted and nothing asked to be. -/
def AnalysisState.unrecorded (s : AnalysisState) : AnalysisState := { s with tokens := none }

/-- The action ends in the same way whether tokens are noted or not, and does the same to everything
but the tokens. -/
def Oblivious {α : Type} (action : Walk α) : Prop :=
  ∀ s, runFrom action s.unrecorded = ((runFrom action s).1, (runFrom action s).2.unrecorded)

section Actions

variable {α β : Type}

@[simp] theorem oblivious_pure (a : α) : Oblivious (pure a : Walk α) := fun _ => rfl

@[simp] theorem oblivious_throw (halt : Halt) : Oblivious (throw halt : Walk α) := fun _ => rfl

@[simp] theorem oblivious_fail (cause : ErrorCause) : Oblivious (Walk.fail cause : Walk α) :=
  fun _ => rfl

@[simp] theorem oblivious_failAt (cause : ErrorCause) (span : Span) :
    Oblivious (Walk.failAt cause span : Walk α) :=
  fun _ => rfl

@[simp] theorem oblivious_crash (crash : Crash) : Oblivious (Walk.crash crash : Walk α) :=
  fun _ => rfl

@[simp] theorem oblivious_bind {action : Walk α} {next : α → Walk β} (first : Oblivious action)
    (rest : ∀ a, Oblivious (next a)) : Oblivious (action >>= next) := by
  intro s
  simp only [runFrom_bind, first s]
  rcases runFrom action s with ⟨_ | a, t⟩
  · rfl
  · exact rest a t

@[simp] theorem oblivious_map {action : Walk α} (change : α → β) (first : Oblivious action) :
    Oblivious (change <$> action) := by
  rw [← bind_pure_comp]
  exact oblivious_bind first fun _ => oblivious_pure _

theorem oblivious_tryCatch {action : Walk α} {handler : Halt → Walk α} (first : Oblivious action)
    (handled : ∀ halt, Oblivious (handler halt)) : Oblivious (tryCatch action handler) := by
  intro s
  simp only [runFrom_tryCatch, first s]
  rcases runFrom action s with ⟨halt | _, t⟩
  · exact handled halt t
  · rfl

/-- What follows may look at the state, but not at what has been noted. -/
@[simp] theorem oblivious_get {next : AnalysisState → Walk α}
    (same : ∀ s : AnalysisState, next s.unrecorded = next s) (rest : ∀ s, Oblivious (next s)) :
    Oblivious (get >>= next) := by
  intro s
  simp only [runFrom_bind, runFrom_get, same]
  exact rest s s

theorem oblivious_modify {change : AnalysisState → AnalysisState}
    (same : ∀ s : AnalysisState, change s.unrecorded = (change s).unrecorded) :
    Oblivious (modify change : Walk PUnit) := by
  intro s
  simp only [runFrom_modify, same]

@[simp] theorem oblivious_forM {action : α → Walk PUnit} (each : ∀ x, Oblivious (action x))
    (xs : List α) : Oblivious (forM xs action) := by
  induction xs with
  | nil => exact oblivious_pure _
  | cons x xs ih =>
    rw [List.forM_cons]
    exact oblivious_bind (each x) fun _ => ih

@[simp] theorem oblivious_filterM {test : α → Walk Bool} (each : ∀ x, Oblivious (test x))
    (xs : List α) : Oblivious (xs.filterM test) := by
  have filtered (kept : List α) : Oblivious (xs.filterAuxM test kept) := by
    induction xs generalizing kept with
    | nil => exact oblivious_pure _
    | cons x xs ih =>
      rw [List.filterAuxM]
      exact oblivious_bind (each x) fun _ => ih _
  exact oblivious_bind (filtered []) fun _ => oblivious_pure _

@[simp] theorem oblivious_ite {refused : Prop} [Decidable refused] {action other : Walk α}
    (first : Oblivious action) (second : Oblivious other) :
    Oblivious (if refused then action else other) := by
  split
  · exact first
  · exact second

end Actions

/-! ### Actions of a walk -/

section Walking

variable {α : Type}

@[simp] theorem oblivious_note (span : Span) (category : SemanticCategory) :
    Oblivious (Walk.note span category) :=
  oblivious_modify fun _ => rfl

@[simp] theorem oblivious_changeFrame (id : ClosureId) (change : ClosureFrame → ClosureFrame) :
    Oblivious (Walk.changeFrame id change) :=
  oblivious_modify fun _ => rfl

@[simp] theorem oblivious_openFrame (frame : ClosureFrame) : Oblivious (Walk.openFrame frame) :=
  fun _ => rfl

@[simp] theorem oblivious_ask (question : ScopeTree → Except ScopeTree.Fault α) :
    Oblivious (Walk.ask question) := by
  refine oblivious_get (fun _ => rfl) fun state => ?_
  cases question state.tree <;> simp

@[simp] theorem oblivious_edit (change : ScopeTree.Edit α) : Oblivious (Walk.edit change) := by
  intro s
  simp only [runFrom_edit, AnalysisState.unrecorded]
  rcases runFrom change s.tree with ⟨_ | _, _⟩ <;> rfl

@[simp] theorem oblivious_frame (id : ClosureId) : Oblivious (Walk.frame id) := by
  refine oblivious_get (fun _ => rfl) fun state => ?_
  cases state.closures[id.index]? <;> simp

@[simp] theorem oblivious_blockScope (e : Expr) : Oblivious (Walk.blockScope e) := by
  unfold Walk.blockScope
  split <;> simp

@[simp] theorem oblivious_currentModule (context : Context) :
    Oblivious (Walk.currentModule context) := by
  simp [Walk.currentModule]

@[simp] theorem oblivious_checkCount (name : String) (arity : Arity) (isReference : Bool)
    (actual : Nat) : Oblivious (Walk.checkCount name arity isReference actual) := by
  simp [Walk.checkCount]

/-! ### Declarations and names -/

@[simp] theorem oblivious_declare (scope : ScopeId) (category : SemanticCategory) (name : Token) :
    Oblivious (Walk.declare scope category name) := by
  simp [Walk.declare]

@[simp] theorem oblivious_declareParameters (scope : ScopeId) (parameters : List Parameter)
    (takesClosure : Bool) : Oblivious (Walk.declareParameters scope parameters takesClosure) := by
  simp [Walk.declareParameters]

@[simp] theorem oblivious_registerFunction (access : Access) (name : Token)
    (parameters : List Parameter) (module : ModuleId) (takesClosure : Bool) (id : FunctionId) :
    Oblivious (Walk.registerFunction access name parameters module takesClosure id) :=
  oblivious_get (fun _ => rfl) fun _ => oblivious_edit _

@[simp] theorem oblivious_functionContext (context : Context) (id : FunctionId)
    (module : ModuleId) : Oblivious (Walk.functionContext context id module) := by
  simp [Walk.functionContext]

@[simp] theorem oblivious_bindName (context : Context) (name : Token) :
    Oblivious (Walk.bind context name) := by
  simp [Walk.bind]

@[simp] theorem oblivious_capturedFrom (context : Context) (frame : ClosureFrame) (name : String) :
    Oblivious (Walk.capturedFrom context frame name) := by
  refine oblivious_bind (oblivious_ask _) fun scope => ?_
  cases scope.parent with
  | none => exact oblivious_pure _
  | some outside =>
    refine oblivious_bind (oblivious_ask _) fun found => ?_
    cases found <;> simp

@[simp] theorem oblivious_captureName (context : Context) (name : String) :
    Oblivious (Walk.captureName context name) := by
  unfold Walk.captureName
  split
  next id _ =>
    refine oblivious_bind (oblivious_frame id) fun frame => ?_
    refine oblivious_bind (oblivious_capturedFrom _ _ _) fun found => ?_
    cases found <;> simp
  next => exact oblivious_pure _

@[simp] theorem oblivious_variableUse (context : Context) (name : Token) :
    Oblivious (Walk.variableUse context name) := by
  have found : Oblivious (do
      let isCaptured ← Walk.captureName context name.text
      Walk.note name.span .variableName
      return ExprKind.variableRef name (some context.scope) isCaptured) := by
    refine oblivious_bind (oblivious_captureName _ _) fun _ => ?_
    exact oblivious_bind (oblivious_note _ _) fun _ => oblivious_pure _
  unfold Walk.variableUse
  refine oblivious_ite (by simp) ?_
  refine oblivious_bind (oblivious_ask _) fun visible => ?_
  exact oblivious_ite (oblivious_bind (oblivious_fail _) fun _ => found) found

@[simp] theorem oblivious_typeUse (context : Context) (name : Token) :
    Oblivious (Walk.typeUse context name) := by
  refine oblivious_bind ?_ fun _ => by simp
  unfold Walk.typeTarget
  cases context.registry.type? name.text with
  | some type => exact oblivious_pure _
  | none =>
    refine oblivious_bind (oblivious_currentModule _) fun current => ?_
    refine oblivious_bind (oblivious_ask _) fun found => ?_
    cases found <;> simp

@[simp] theorem oblivious_literal (context : Context) (span : Span) (token : Token) :
    Oblivious (Walk.literal context span token) := by
  unfold Walk.literal
  split <;> simp

@[simp] theorem oblivious_structTarget (context : Context) (name : String) (path : List String)
    (actual : Nat) : Oblivious (Walk.structTarget context name path actual) := by
  refine oblivious_bind (oblivious_currentModule _) fun current => ?_
  refine oblivious_bind (oblivious_ask _) fun found => ?_
  cases found with
  | some module =>
    refine oblivious_bind (oblivious_ask _) fun found => ?_
    cases found with
    | none => exact oblivious_fail _
    | some id =>
      refine oblivious_bind (oblivious_ask _) fun struct => ?_
      exact oblivious_ite (by simp) (by simp)
  | none =>
    dsimp only
    unfold Walk.standardStruct
    split
    · exact oblivious_fail _
    · split <;> simp

/-! ### Calls and closures -/

@[simp] theorem oblivious_ownerWithin (steps : Nat) (owner : Option Enclosing) :
    Oblivious (Walk.ownerWithin steps owner) := by
  induction steps generalizing owner with
  | zero => rcases owner with _ | (_ | _) <;> simp [Walk.ownerWithin]
  | succ steps ih => rcases owner with _ | (_ | _) <;> simp [Walk.ownerWithin, ih]

@[simp] theorem oblivious_closureProvider (context : Context) :
    Oblivious (Walk.closureProvider context) := by
  refine oblivious_get (fun _ => rfl) fun state => ?_
  refine oblivious_bind (oblivious_ownerWithin _ _) fun owner => ?_
  cases owner with
  | none => exact oblivious_fail _
  | some provider =>
    refine oblivious_get (fun _ => rfl) fun state => ?_
    split
    · split
      · refine oblivious_bind (oblivious_modify fun _ => rfl) fun _ => ?_
        simp
      · exact oblivious_pure _
    · exact oblivious_fail _

@[simp] theorem oblivious_callee (context : Context) (name : String) (path : List String) :
    Oblivious (Walk.callee context name path) := by
  unfold Walk.callee Walk.ordinaryCallee Walk.standardCallee
  split
  all_goals try simp
  refine oblivious_bind (by split <;> simp) fun found => ?_
  cases found with
  | some f => exact oblivious_pure _
  | none =>
    refine oblivious_bind ?_ fun found => by cases found <;> simp
    refine oblivious_bind (oblivious_currentModule _) fun current => ?_
    refine oblivious_bind (oblivious_ask _) fun found => ?_
    cases found with
    | none => exact oblivious_fail _
    | some module =>
      refine oblivious_bind (oblivious_ask _) fun found => ?_
      cases found with
      | none => exact oblivious_pure _
      | some id => exact oblivious_bind (oblivious_ask _) fun _ => oblivious_ite (by simp) (by simp)

@[simp] theorem oblivious_noteCall (name : Token) (path : List Token) (callee : Callee) :
    Oblivious (Walk.noteCall name path callee) := by
  simp [Walk.noteCall]

@[simp] theorem oblivious_noteConstruction (name : Token) (path : List Token) :
    Oblivious (Walk.noteConstruction name path) := by
  simp [Walk.noteConstruction]

@[simp] theorem oblivious_checkClosure (callee : Callee) (hasClosure : Bool) :
    Oblivious (Walk.checkClosure callee hasClosure) := by
  have wanted : Oblivious (Walk.takesClosure callee) := by
    cases callee <;> simp [Walk.takesClosure]
  have expected (wanted : Bool) : Oblivious
      (if !hasClosure && wanted then Walk.fail .closureExpected else pure () : Walk Unit) := by
    simp
  refine oblivious_bind wanted fun _ => ?_
  exact oblivious_ite (oblivious_bind (oblivious_fail _) fun _ => expected _) (expected _)

@[simp] theorem oblivious_checkArguments (callee : Callee) (isReference : Bool) (actual : Nat) :
    Oblivious (Walk.checkArguments callee isReference actual) := by
  cases callee <;> simp [Walk.checkArguments]

@[simp] theorem oblivious_redirect (op : BinaryOp) (redirection : Redirection) (left : Expr) :
    Oblivious (Walk.redirect op redirection left) := by
  simp [Walk.redirect]

@[simp] theorem oblivious_checkTarget (e : Expr) : Oblivious (Walk.checkTarget e) := by
  unfold Walk.checkTarget
  split <;> simp

@[simp] theorem oblivious_attachedCall (e : Expr) : Oblivious (Walk.attachedCall e) := by
  unfold Walk.attachedCall
  split <;> simp

@[simp] theorem oblivious_enterClosure (context : Context) (bodyScope : ScopeId)
    (parameters : List Token) (captured : NameSet) :
    Oblivious (Walk.enterClosure context bodyScope parameters captured) := by
  refine oblivious_bind (oblivious_openFrame _) fun id => ?_
  exact oblivious_bind (oblivious_forM (oblivious_declare _ _) _) fun _ => oblivious_pure _

@[simp] theorem oblivious_reachesOut (inner outer : ClosureFrame) (outside : ScopeId)
    (name : String) : Oblivious (Walk.reachesOut inner outer outside name) := by
  refine oblivious_bind (oblivious_ask _) fun _ => oblivious_ite (oblivious_pure _) ?_
  refine oblivious_ite (oblivious_pure _) ?_
  refine oblivious_bind (oblivious_ask _) fun _ => oblivious_ite (oblivious_pure _) ?_
  exact oblivious_bind (oblivious_ask _) fun _ => oblivious_pure _

@[simp] theorem oblivious_propagateCaptures (inner : ClosureId) (enclosing : Option Enclosing) :
    Oblivious (Walk.propagateCaptures inner enclosing) := by
  unfold Walk.propagateCaptures
  split
  next outer =>
    refine oblivious_bind (oblivious_frame inner) fun _ => ?_
    refine oblivious_bind (oblivious_frame outer) fun _ => ?_
    refine oblivious_bind (oblivious_ask _) fun scope => ?_
    cases scope.parent <;> simp
  next => exact oblivious_pure _

@[simp] theorem oblivious_expandReference (id : ClosureId) (attached : Call) (bodyScope : ScopeId)
    (parameters : List Token) (body : Expr) :
    Oblivious (Walk.expandReference id attached bodyScope parameters body) := by
  unfold Walk.expandReference
  split
  · exact oblivious_pure _
  · refine oblivious_bind ?_ fun _ => by simp
    unfold Walk.impliedNames
    split
    · exact oblivious_pure _
    · split <;> simp

end Walking

/-! ### Plans -/

namespace Plan

variable {α β : Type}

/-- All actions of the plan itself are oblivious. -/
def Blind : {α : Type} → Plan α → Prop
  | _, .done _ => True
  | _, .act action next => Oblivious action ∧ ∀ b, (next b).Blind
  | _, .visit _ _ _ next => ∀ r, (next r).Blind
  | _, .guarded _ inner next => inner.Blind ∧ ∀ b, (next b).Blind

theorem blind_pure (a : α) : (pure a : Plan α).Blind := trivial

theorem blind_enter (context : Context) (slot : Slot) (e : Expr) : (enter context slot e).Blind :=
  fun _ => trivial

theorem blind_guard {id : FunctionId} {inner : Plan α} (blind : inner.Blind) :
    (guard id inner).Blind :=
  ⟨blind, fun _ => trivial⟩

theorem blind_bind {p : Plan α} {next : α → Plan β} (first : p.Blind)
    (rest : ∀ a, (next a).Blind) : (p >>= next).Blind := by
  change (p.bind next).Blind
  induction p with
  | done a => exact rest a
  | act action others ih => exact ⟨first.1, fun b => ih b (first.2 b) rest⟩
  | visit context slot e others ih => exact fun r => ih r (first r) rest
  | guarded id inner others _ ih => exact ⟨first.1, fun b => ih b (first.2 b) rest⟩

/-- An action of the node itself. -/
theorem blind_act {action : Walk α} {next : α → Plan β} (oblivious : Oblivious action)
    (rest : ∀ a, (next a).Blind) : (liftM action >>= next).Blind :=
  ⟨oblivious, rest⟩

/-- Nothing is done after the last part but to put the result together. -/
theorem Blind.map {p : Plan α} (blind : p.Blind) (f : α → β) :
    (p >>= fun a => pure (f a)).Blind :=
  blind_bind blind fun _ => blind_pure _

theorem blind_visit {context : Context} {slot : Slot} {e : Expr} {next : Expr → Plan β}
    (rest : ∀ r, (next r).Blind) : (enter context slot e >>= next).Blind :=
  blind_bind (blind_enter ..) rest

theorem blind_each (context : Context) (slot : Expr → Slot) (es : List Expr) :
    (each context slot es).Blind := by
  induction es with
  | nil => exact blind_pure _
  | cons e es ih => exact blind_visit fun _ => ih.map _

theorem blind_option (context : Context) (isRoot : Option Bool) (e : Option Expr) :
    (option context isRoot e).Blind := by
  cases e with
  | none => exact blind_pure _
  | some e => exact (blind_enter ..).map _

theorem blind_pairs (context : Context) (entries : List (Expr × Expr)) :
    (pairs context entries).Blind := by
  induction entries with
  | nil => exact blind_pure _
  | cons entry entries ih => exact blind_visit fun _ => blind_visit fun _ => ih.map _

theorem blind_environmentValues (context : Context) (entries : List (String × Expr)) :
    (environmentValues context entries).Blind := by
  induction entries with
  | nil => exact blind_pure _
  | cons entry entries ih => exact blind_visit fun _ => ih.map _

theorem blind_parameterList (context : Context) (seenDefault : Bool) (parameters : List Parameter) :
    (parameterList context seenDefault parameters).Blind := by
  induction parameters generalizing seenDefault with
  | nil => exact blind_pure _
  | cons parameter rest ih =>
    obtain ⟨name, default?, isVariadic⟩ := parameter
    refine blind_act (by simp) fun _ => blind_act (by simp [checkVariadic]) fun _ => ?_
    cases default? with
    | none => exact blind_act (by simp) fun _ => (ih seenDefault).map _
    | some value => exact blind_act (by simp) fun _ => blind_visit fun _ => (ih true).map _

theorem blind_catchList (context : Context) (isRoot : Bool) (catches : List Catch) :
    (catchList context isRoot catches).Blind := by
  induction catches with
  | nil => exact blind_pure _
  | cons clause rest ih =>
    obtain ⟨identifier, typeRef, body⟩ := clause
    refine blind_bind (blind_option ..) fun _ => blind_act (by simp) fun _ => ?_
    refine blind_act ?_ fun _ => blind_visit fun _ => ih.map _
    cases identifier with
    | none => exact oblivious_pure _
    | some name => exact oblivious_declare _ _ name

theorem blind_functionDecl (context : Context) (parameters : List Parameter) (body : Expr)
    (module : ModuleId) (takesClosure : Bool) (id : FunctionId) :
    (functionDecl context parameters body module takesClosure id).Blind := by
  apply blind_guard
  refine blind_bind (blind_parameterList ..) fun _ => blind_act (by simp) fun _ => ?_
  refine blind_act (by simp) fun _ => blind_act (by simp) fun _ => ?_
  exact (blind_enter ..).map _

/-- No action of a node depends on what has been noted. -/
theorem blind_node (context : Context) (slot : Slot) (span : Span) (kind : ExprKind) :
    (node context slot span kind).Blind := by
  cases kind with
  | moduleDecl access name body =>
    exact blind_act (by simp) fun _ => blind_act (by simp) fun _ => (blind_enter ..).map _
  | structDecl access name parameters module =>
    refine blind_act (by simp) fun _ => blind_bind (blind_parameterList ..) fun _ => ?_
    refine blind_act ?_ fun _ => blind_act (by simp) fun _ => blind_pure _
    unfold Walk.checkFields
    split <;> simp
  | functionDecl access name parameters body module takesClosure id =>
    refine blind_act (by simp) fun _ => ?_
    dsimp only
    split
    · exact blind_pure _
    · refine blind_act (by simp) fun _ => blind_act (oblivious_modify fun _ => rfl) fun _ => ?_
      refine blind_bind (blind_functionDecl ..) fun _ => ?_
      exact blind_act (by simp) fun _ => blind_pure _
  | letIn identifiers value scope =>
    refine blind_act (by simp [Walk.checkBinding]) fun _ => blind_visit fun _ => ?_
    exact blind_act (by simp) fun _ => blind_pure _
  | construct name path arguments target =>
    exact blind_act (by simp) fun _ => blind_act (by simp) fun _ => (blind_each ..).map _
  | ifElse condition thenBranch elseBranch =>
    exact blind_visit fun _ => blind_visit fun _ => (blind_option ..).map _
  | forEach identifiers value body =>
    refine blind_visit fun _ => blind_act (by simp) fun _ => blind_act (by simp) fun _ => ?_
    exact (blind_enter ..).map _
  | whileDo condition body =>
    exact blind_visit fun _ => blind_act (by simp) fun _ => (blind_enter ..).map _
  | sequence form items => exact (blind_each ..).map _
  | dictionary entries => exact (blind_pairs ..).map _
  | block expressions role scope => exact (blind_each ..).map _
  | keyword token value => exact blind_act (by simp) fun _ => (blind_option ..).map _
  | binary left op right =>
    simp only [node]
    cases op.redirection? with
    | some redirection => exact blind_visit fun _ => blind_act (by simp) fun _ => blind_enter ..
    | none => exact blind_act (by simp) fun _ => blind_visit fun _ => (blind_enter ..).map _
  | unary op value => exact (blind_enter ..).map _
  | fieldAccess object field fieldValue =>
    exact blind_visit fun _ => blind_act (by simp) fun _ => blind_pure _
  | range lower upper inclusive =>
    exact blind_bind (blind_option ..) fun _ => (blind_option ..).map _
  | indexer value index => exact blind_visit fun _ => (blind_enter ..).map _
  | typeRef name target => exact blind_act (by simp) fun _ => blind_pure _
  | variableRef name scope isCaptured => exact blind_act (by simp) fun _ => blind_pure _
  | call made =>
    obtain ⟨name, path, arguments, piped, environment, mode, findings⟩ := made
    refine blind_act (by simp) fun _ => blind_act (by simp) fun _ => ?_
    refine blind_bind (blind_each ..) fun _ => blind_act (by simp) fun _ => ?_
    exact blind_act (by simp) fun _ => (blind_environmentValues ..).map _
  | literal token value => exact blind_act (by simp) fun _ => blind_pure _
  | closure attached parameters body captured id =>
    refine blind_visit fun _ => blind_act (by simp) fun _ => blind_act (by simp) fun _ => ?_
    refine blind_act (by simp) fun _ => blind_visit fun _ => blind_act (by simp) fun _ => ?_
    exact blind_act (by simp) fun _ => blind_act (by simp) fun _ => blind_pure _
  | tryCatch body catches =>
    exact blind_act (by simp) fun _ => blind_visit fun _ => (blind_catchList ..).map _

/-- A plan is oblivious if its own actions and the walks over what it visits are. -/
theorem Blind.run {p : Plan α} {es : List Expr} (blind : p.Blind) (follows : p.Follows es)
    (visits : ∀ e ∈ es, ∀ context slot, Oblivious (Walk.expr context slot e)) :
    Oblivious p.run := by
  induction p generalizing es with
  | done a => exact oblivious_pure a
  | act action next ih => exact oblivious_bind blind.1 fun b => ih b (blind.2 b) (follows b) visits
  | visit context slot e next ih =>
    obtain ⟨rest, suffix, others⟩ := follows
    refine oblivious_bind (visits e (suffix.subset (by simp)) context slot) fun r => ?_
    exact ih r (blind r) (others r) fun c member =>
      visits c (suffix.subset (List.mem_cons_of_mem e member))
  | guarded id inner next innerIh ih =>
    obtain ⟨first, rest, rfl, inside, others⟩ := follows
    refine oblivious_bind ?_ fun b => ?_
    · have walked := innerIh blind.1 inside fun c member => visits c (List.mem_append_left _ member)
      -- A function that fails is marked as failed in both runs.
      refine oblivious_tryCatch walked fun halt => ?_
      cases halt <;> simp
    · exact ih b (blind.2 b) (others b) fun c member => visits c (List.mem_append_right _ member)

end Plan

/-! ### The walk and the analysis -/

theorem oblivious_expr (context : Context) (slot : Slot) (e : Expr) :
    Oblivious (Walk.expr context slot e) := by
  induction e using Expr.induction generalizing context slot with
  | inherited e ih =>
    have node : Oblivious (Walk.node context slot e.span e.kind) := by
      rw [Plan.node_eq_run]
      exact (Plan.blind_node ..).run (Plan.follows_node ..) fun c child context slot =>
        ih c child context slot
    obtain ⟨kind, span, isRoot, enclosing⟩ := e
    simp only [Walk.expr]
    refine oblivious_bind (oblivious_tryCatch ?_ fun halt => ?_) fun _ => oblivious_pure _
    · exact oblivious_ite node (oblivious_fail _)
    · cases halt <;> simp

namespace Analysis

theorem oblivious_resolveImports (module : ModuleId) : Oblivious (Walk.resolveImports module) := by
  refine oblivious_bind (oblivious_edit _) fun queue => oblivious_forM (fun queued => ?_) queue
  refine oblivious_bind (oblivious_ask _) fun found => ?_
  cases found with
  | none => exact oblivious_failAt _ _
  | some target => exact oblivious_bind (oblivious_ask _) fun _ => oblivious_ite (by simp) (by simp)

theorem oblivious_moduleWalk (registry : Registry) (mode : AnalysisMode) (module : ModuleId)
    (ast : Ast) : Oblivious (moduleWalk registry mode module ast) := by
  have walk (context : Context) : Oblivious (walkModule context module ast) := by
    refine oblivious_bind (oblivious_resolveImports module) fun _ => ?_
    refine oblivious_bind ?_ fun _ => oblivious_pure _
    rw [← Plan.run_each]
    exact (Plan.blind_each ..).run (Plan.follows_each ..) fun e _ context slot =>
      oblivious_expr context slot e
  refine oblivious_bind (oblivious_ask _) fun m => oblivious_bind (oblivious_edit _) fun _ => ?_
  refine oblivious_bind (oblivious_tryCatch (walk _) fun halt => ?_) fun _ => ?_
  · cases halt with
    | failed error => exact oblivious_bind (oblivious_edit _) fun _ => oblivious_throw _
    | crashed crash => exact oblivious_throw _
  · exact oblivious_ite (by simp [store]) (by simp)

/-- To ask a module for its semantic tokens is to analyse it in any case: the one succeeds if the other
one does, both halt with the same error at the same place otherwise, and they leave the same tree of
scopes either way. -/
theorem semanticTokens_agrees (registry : Registry) (tree : ScopeTree) (module : ModuleId)
    (ast : Ast) :
    (semanticTokens registry tree module ast).result.map (fun _ => ()) =
        (analyze registry .overwrite tree module ast).result.map (fun _ => ()) ∧
      (semanticTokens registry tree module ast).tree =
        (analyze registry .overwrite tree module ast).tree := by
  have runs := oblivious_moduleWalk registry .overwrite module ast { tree, tokens := some #[] }
  change runFrom (moduleWalk registry .overwrite module ast) { tree } = _ at runs
  simp only [runFrom, StateT.run] at runs
  simp only [semanticTokens, analyze, stored?, if_pos, runs]
  generalize (moduleWalk registry .overwrite module ast).run { tree, tokens := some #[] } = ended
  obtain ⟨_ | _, s⟩ := ended <;> exact ⟨rfl, rfl⟩

end Analysis
end ShellSema
