import ShellSema.Proofs.SafeActions
import ShellSema.Proofs.Trees

/-!
# Analysis does not crash

The checks of a unit go over each tree once, before the analysis. They are enough: from a sound
state the walk over a tree in which no node has a problem ends with a result or with an error of the
script, whatever it declares and builds on its way.
-/
namespace ShellSema

/-- No node of the tree has a problem. -/
def Expr.Fine (base : ScopeTree) (e : Expr) : Prop := ∀ n ∈ e.nodes, base.nodeProblem? n = none

variable {base : ScopeTree} {s : AnalysisState}

/-! ### What the checks tell -/

theorem Expr.Fine.child {c e : Expr} (fine : e.Fine base) (child : c ∈ e.children) : c.Fine base :=
  fun n inside => fine n (mem_nodes_of_child child inside)

theorem Expr.Fine.self {e : Expr} (fine : e.Fine base) :
    e.shapeProblem? = none ∧ base.handleProblem? e = none := by
  have problem := fine e e.mem_nodes_self
  rwa [ScopeTree.nodeProblem?, Option.or_eq_none_iff] at problem

/-- Where a block is expected, there is one. -/
theorem Expr.Fine.body {e body : Expr} (fine : e.Fine base) (member : body ∈ e.kind.bodies) :
    body.isBlock = true := by
  have shape : e.bodyProblem? = none := by
    have shape := fine.self.1
    unfold Expr.shapeProblem? at shape
    split at shape
    · split at shape
      · exact shape
      · cases shape
    · exact shape
  simp only [Expr.bodyProblem?, Option.map_eq_none_iff, List.find?_eq_none] at shape
  simpa using shape body member

/-- A closure is attached to a call. -/
theorem Expr.Fine.attached {span : Span} {isRoot : Bool} {enclosing : Option Enclosing}
    {attached body : Expr} {parameters : List Token} {captured : NameSet} {id : Option ClosureId}
    (fine : Expr.Fine base
      ⟨.closure attached parameters body captured id, span, isRoot, enclosing⟩) :
    attached.isCall = true := by
  have shape := fine.self.1
  simp only [Expr.shapeProblem?] at shape
  split at shape
  · assumption
  · cases shape

/-- A block has a scope of the tree. -/
theorem Expr.Fine.blockScope {e : Expr} {scope : ScopeId} (fine : e.Fine base)
    (found : e.blockScope? = some scope) : base.hasScope scope = true := by
  have handle := fine.self.2
  unfold Expr.blockScope? at found
  split at found
  next same =>
    cases found
    simp only [ScopeTree.handleProblem?, same] at handle
    split at handle
    · assumption
    · cases handle
  next => cases found

/-! ### The walk over a tree -/

/-- What becomes of a call is a call, and a function of the script that it calls is in the tree. -/
def StaysCall (base : ScopeTree) (e r : Expr) : Prop :=
  e.isCall = true → ∃ made, r.call? = some made ∧
    ∀ id, made.findings.function = some id → base.hasFunction id = true

/-- The walk over the expression does not crash, wherever it starts. -/
def Expr.Walkable (base : ScopeTree) (e : Expr) : Prop :=
  ∀ context slot s, Sound base s → context.Known base s →
    Safely base (Walk.expr context slot e) s fun r _ => StaysCall base e r

section Lists

variable {context : Context} (sound : Sound base s) (known : context.Known base s)

include sound known

theorem safely_exprs (es : List Expr) (walkable : ∀ e ∈ es, e.Walkable base) :
    Safely base (Walk.exprs context es) s fun _ _ => True := by
  induction es generalizing s with
  | nil => exact safely_pure sound trivial
  | cons e es ih =>
    refine (walkable e (by simp) context e.slot s sound known).bind fun _ t continues _ => ?_
    exact (ih continues.sound (known.after continues) fun e member => walkable e (by simp [
      member])).returning

theorem safely_statements (isRoot : Bool) (es : List Expr)
    (walkable : ∀ e ∈ es, e.Walkable base) :
    Safely base (Walk.statements context isRoot es) s fun _ _ => True := by
  induction es generalizing s with
  | nil => exact safely_pure sound trivial
  | cons e es ih =>
    refine (walkable e (by simp) context _ s sound known).bind fun _ t continues _ => ?_
    exact (ih continues.sound (known.after continues) fun e member => walkable e (by simp [
      member])).returning

theorem safely_option (isRoot : Option Bool) (e : Option Expr)
    (walkable : ∀ c ∈ e.toList, c.Walkable base) :
    Safely base (Walk.option context isRoot e) s fun _ _ => True := by
  cases e with
  | none => exact safely_pure sound trivial
  | some e =>
    exact (walkable e (by simp) context _ s sound known).returning

theorem safely_pairs (entries : List (Expr × Expr))
    (walkable : ∀ c ∈ entries.flatMap fun entry => [entry.1, entry.2], c.Walkable base) :
    Safely base (Walk.pairs context entries) s fun _ _ => True := by
  induction entries generalizing s with
  | nil => exact safely_pure sound trivial
  | cons entry entries ih =>
    obtain ⟨key, value⟩ := entry
    refine (walkable key (by simp) context _ s sound known).bind fun _ t continues _ => ?_
    refine (walkable value (by simp) context _ t continues.sound (known.after continues)).bind
      fun _ u later _ => ?_
    exact (ih later.sound ((known.after continues).after later) fun c member => walkable c (by
      simp [member])).returning

theorem safely_environmentValues (entries : List (String × Expr))
    (walkable : ∀ c ∈ entries.map Prod.snd, c.Walkable base) :
    Safely base (Walk.environmentValues context entries) s fun _ _ => True := by
  induction entries generalizing s with
  | nil => exact safely_pure sound trivial
  | cons entry entries ih =>
    obtain ⟨name, value⟩ := entry
    refine (walkable value (by simp) context _ s sound known).bind fun _ t continues _ => ?_
    exact (ih continues.sound (known.after continues) fun c member => walkable c (by
      simp [member])).returning

theorem safely_parameterList (seenDefault : Bool) (parameters : List Parameter)
    (walkable : ∀ c ∈ parameters.flatMap Parameter.children, c.Walkable base) :
    Safely base (Walk.parameterList context seenDefault parameters) s fun _ _ => True := by
  rw [← Plan.run_parameterList]
  induction parameters generalizing s seenDefault with
  | nil => exact safely_pure sound trivial
  | cons parameter rest ih =>
    obtain ⟨name, default?, isVariadic⟩ := parameter
    have later (seen : Bool) {t : AnalysisState} (continues : Continues base s t) :=
      ih continues.sound (known.after continues) seen fun c member => walkable c (by simp [member])
    simp only [Plan.parameterList, Plan.run_bind, Plan.run_lift]
    refine (safely_note sound _ _).bind fun _ t noted _ => ?_
    refine (safely_check noted.sound).bind ?_
    rintro _ u checked same
    subst same
    -- The two checks of a parameter may refuse it, but they change nothing.
    cases default? with
    | none =>
      simp only [Plan.run_bind, Plan.run_lift]
      refine (safely_check checked.sound).bind ?_
      rintro _ v again same
      subst same
      exact (later seenDefault noted).bind fun _ w last _ => safely_pure last.sound trivial
    | some value =>
      simp only [Plan.run_bind, Plan.run_lift, Plan.run_enter]
      refine (safely_check checked.sound).bind ?_
      rintro _ v again same
      subst same
      refine (walkable value (by simp [Parameter.children]) context _ _ again.sound
        (known.after noted)).bind fun _ w walked _ => ?_
      exact (later true (noted.trans walked)).bind fun _ x last _ => safely_pure last.sound trivial

theorem safely_catchList (isRoot : Bool) (catches : List Catch)
    (walkable : ∀ c ∈ catches.flatMap Catch.children, c.Walkable base)
    (blocks : ∀ clause ∈ catches, clause.body.isBlock = true)
    (fine : ∀ clause ∈ catches, clause.body.Fine base) :
    Safely base (Walk.catchList context isRoot catches) s fun _ _ => True := by
  induction catches generalizing s with
  | nil => exact safely_pure sound trivial
  | cons clause rest ih =>
    obtain ⟨identifier, typeRef, body⟩ := clause
    have bodyFine : body.Fine base := fine _ List.mem_cons_self
    simp only [Walk.catchList]
    refine (safely_option sound known none typeRef fun c member => walkable c (by
      simp [Catch.children, Option.mem_toList.mp member])).bind fun _ t typed _ => ?_
    -- The name of a clause is declared in the scope of its body, which is a block.
    refine (safely_blockScope typed.sound (blocks _ List.mem_cons_self)).bind ?_
    rintro bodyScope u here ⟨found, same⟩
    subst same
    refine (safely_declareOption here.sound (bodyFine.blockScope found) _ identifier).bind
      fun _ v declared _ => ?_
    have after := (typed.trans here).trans declared
    refine (walkable body (by simp [Catch.children]) context _ v declared.sound
      (known.after after)).bind fun _ w walked _ => ?_
    exact (ih walked.sound (known.after (after.trans walked))
      (fun c member => walkable c (by simp [member]))
      (fun clause member => blocks clause (by simp [member]))
      fun clause member => fine clause (by simp [member])).returning

end Lists

/-- A function that fails is in the tree, so that it can be marked. -/
theorem safely_orFailFunction {α : Type} {action : Walk α} {P : α → AnalysisState → Prop}
    {id : FunctionId} (known : base.hasFunction id = true) (safely : Safely base action s P) :
    Safely base (Walk.orFailFunction id action) s P := by
  refine safely_onError (ScopeTree.Edit.changeFunction id fun f => { f with status := .failed })
    safely fun t fits => ?_
  have marked : ScopeTree.Fits base { t.tree with
      functions := t.tree.functions.modify id.index fun f => { f with status := .failed } } :=
    fits.modifyFunction id.index fun _ before => before
  refine ⟨_, ?_, marked⟩
  rw [ScopeTree.Edit.runFrom_changeFunction, fits.hasFunction, if_pos known]

/-- The scope of a body, once it is known to be a block. -/
private theorem safely_bodyBlock (sound : Sound base s) {e body : Expr} (fine : e.Fine base)
    (member : body ∈ e.kind.bodies) (child : body ∈ e.children) :
    Safely base (Walk.blockScope body) s fun scope _ => base.hasScope scope = true :=
  (safely_blockScope sound (fine.body member)).mono fun _ _ holds =>
    (fine.child child).blockScope holds.1

/-- The analysis of a function that is met for the first time. -/
private theorem safely_functionBody (sound : Sound base s) {context : Context}
    (known : context.Known base s) {e body : Expr} {parameters : List Parameter}
    {module : ModuleId} {takesClosure : Bool} {id : FunctionId} (fine : e.Fine base)
    (member : body ∈ e.kind.bodies) (child : body ∈ e.children)
    (defaults : ∀ c ∈ parameters.flatMap Parameter.children, c.Walkable base)
    (walkable : body.Walkable base) (declared : base.hasFunction id = true)
    (moduleKnown : base.hasModule module = true) :
    Safely base (Walk.orFailFunction id do
      let parameters ← Walk.parameterList context false parameters
      let bodyScope ← Walk.blockScope body
      Walk.declareParameters bodyScope parameters takesClosure
      let inner ← Walk.functionContext context id module
      let body ← Walk.expr inner body.slot body
      return (parameters, body)) s fun _ _ => True := by
  -- Whatever fails within, the function is there to be marked as failed.
  refine safely_orFailFunction declared ?_
  refine (safely_parameterList sound known false parameters defaults).bind fun _ t listed _ => ?_
  refine (safely_bodyBlock listed.sound fine member child).bind fun bodyScope u here owned => ?_
  refine (safely_declareParameters here.sound owned _ _).bind fun _ v entered _ => ?_
  refine (safely_functionContext entered.sound context id moduleKnown).bind fun inner w placed
    innerKnown => ?_
  exact (walkable inner _ w placed.sound innerKnown).returning

section Nodes

variable {context : Context} (sound : Sound base s) (known : context.Known base s) (slot : Slot)
  (span : Span)

include sound known

/-- A call remains a call. What is found for it is in the tree. -/
private theorem safely_call {made : Call} (walkable : ∀ c ∈ made.children, c.Walkable base) :
    Safely base (Walk.node context slot span (.call made)) s fun r _ =>
      ∃ given, r.call? = some given ∧
        ∀ id, given.findings.function = some id → base.hasFunction id = true := by
  obtain ⟨name, path, arguments, piped, environment, mode, findings⟩ := made
  simp only [Call.children] at walkable
  simp only [Walk.node]
  refine (safely_callee sound known name.text _).bind fun callee t called user => ?_
  refine (safely_noteCall called.sound name path callee).bind fun _ u noted _ => ?_
  have here := called.trans noted
  refine (safely_exprs noted.sound (known.after here) arguments fun c member => walkable c (by
    simp [member])).bind fun arguments v given _ => ?_
  -- Signatures are read after the arguments, in a tree that still holds the function.
  refine (safely_checkClosure given.sound user slot.hasClosure).bind fun _ w checked _ => ?_
  refine (safely_checkArguments checked.sound user _ _).bind fun _ x counted _ => ?_
  have after := ((here.trans given).trans checked).trans counted
  refine (safely_environmentValues counted.sound (known.after after) environment fun c member =>
    walkable c (List.mem_append_right _ member)).bind fun _ y last _ => ?_
  refine safely_pure last.sound ⟨_, rfl, fun id found => user id ?_⟩
  cases callee <;> simp_all [Callee.findings]

private theorem safely_function {access : Access} {name : Token} {parameters : List Parameter}
    {body : Expr} {module : ModuleId} {takesClosure : Bool} {id : FunctionId} {isRoot : Bool}
    {enclosing : Option Enclosing} (fine : Expr.Fine base
      ⟨.functionDecl access name parameters body module takesClosure id, span, isRoot, enclosing⟩)
    (defaults : ∀ c ∈ parameters.flatMap Parameter.children, c.Walkable base)
    (walkable : body.Walkable base) :
    Safely base (Walk.node context slot span
      (.functionDecl access name parameters body module takesClosure id)) s fun _ _ => True := by
  have declared : base.hasFunction id = true ∧ base.hasModule module = true := by
    have handle := fine.self.2
    simp only [ScopeTree.handleProblem?] at handle
    -- A function that has been met keeps what was found then.
    split at handle
    · cases handle
    split at handle
    · cases handle
    · simp_all
  refine (safely_ask sound (sound.fits.function_answers declared.1)).bind ?_
  rintro f t found ⟨-, same⟩
  subst same
  dsimp only
  split
  · exact safely_pure found.sound trivial
  refine (safely_note found.sound _ _).bind fun _ t noted _ => ?_
  refine (safely_modify noted.sound (by rfl) (by rfl)).bind fun _ u entered _ => ?_
  have here := noted.trans entered
  refine (safely_functionBody entered.sound (known.after here) fine (by simp [ExprKind.bodies])
    (by simp [Expr.children, ExprKind.children]) defaults walkable declared.1 declared.2).bind
    fun _ v walked _ => ?_
  exact (safely_registerAnalysed walked.sound declared.1 declared.2).returning

private theorem safely_binary {left right : Expr} {op : BinaryOp} (first : left.Walkable base)
    (second : right.Walkable base) :
    Safely base (Walk.node context slot span (.binary left op right)) s fun _ _ => True := by
  simp only [Walk.node]
  cases op.redirection? with
  | some redirection =>
    refine (first context _ s sound known).bind fun _ t walked _ => ?_
    refine (safely_redirect walked.sound).bind fun _ u told _ => ?_
    exact (second context _ u told.sound (known.after (walked.trans told))).mono
      fun _ _ _ => trivial
  | none =>
    -- Only an assignment is checked before its sides are gone over.
    have rest {r : AnalysisState} (checked : Continues base s r) :
        Safely base (do
          let left ← Walk.expr context
            { isRoot := op.isSequencing || left.isRoot, inChain := op.isSequencing } left
          let right ← Walk.expr context
            { isRoot := (op.isSequencing && slot.inChain) || right.isRoot } right
          return (⟨.binary left op right, span, slot.isRoot, none⟩ : Expr)) r fun _ _ => True := by
      refine (first context _ r checked.sound (known.after checked)).bind fun _ t walked _ => ?_
      exact (second context _ t walked.sound (known.after (checked.trans walked))).returning
    dsimp only
    split
    · exact (safely_checkTarget sound).bind fun _ _ checked _ => rest checked
    · exact rest sound.continues

/-- The frame of a closure is there from the entry on, since no frame is lost. -/
private theorem safely_closure {attached body : Expr} {parameters : List Token}
    {captured : NameSet} {handle : Option ClosureId} {isRoot : Bool} {enclosing : Option Enclosing}
    (fine : Expr.Fine base
      ⟨.closure attached parameters body captured handle, span, isRoot, enclosing⟩)
    (call : attached.Walkable base) (walkable : body.Walkable base) :
    Safely base (Walk.node context slot span (.closure attached parameters body captured handle)) s
      fun _ _ => True := by
  refine (call context _ s sound known).bind fun call t first stays => ?_
  obtain ⟨made, isMade, called⟩ := stays fine.attached
  refine (safely_attachedCall first.sound isMade).bind ?_
  rintro _ u given rfl
  refine (safely_bodyBlock given.sound fine (by simp [ExprKind.bodies]) (by
    simp [Expr.children, ExprKind.children])).bind fun bodyScope v here owned => ?_
  have outside := (first.trans given).trans here
  refine (safely_enterClosure here.sound (known.after outside) owned parameters captured).bind
    fun id w entered inside => ?_
  have placed := outside.trans entered
  -- The body stands in the new frame, everything else in the frame around.
  have within : Context.Known base w { context with enclosing := some (.closure id) } :=
    ⟨known.scope, by rintro _ ⟨⟩; exact inside⟩
  refine (walkable _ _ w entered.sound within).bind fun _ x walked _ => ?_
  have around := placed.trans walked
  have inside := Nat.lt_of_lt_of_le inside walked.frames
  refine (safely_propagateCaptures walked.sound inside (known.after around)).bind
    fun _ y handed _ => ?_
  refine (safely_expandReference handed.sound id called owned parameters _).bind
    fun _ z expanded _ => ?_
  have inside := Nat.lt_of_lt_of_le inside (handed.trans expanded).frames
  exact (safely_frame expanded.sound inside).returning

private theorem safely_tryCatch {body : Expr} {catches : List Catch} {isRoot : Bool}
    {enclosing : Option Enclosing}
    (fine : Expr.Fine base ⟨.tryCatch body catches, span, isRoot, enclosing⟩)
    (walkable : ∀ c ∈ body :: catches.flatMap Catch.children, c.Walkable base) :
    Safely base (Walk.node context slot span (.tryCatch body catches)) s fun _ _ => True := by
  have blocks (clause : Catch) (member : clause ∈ catches) : clause.body.isBlock = true :=
    fine.body (by simpa [ExprKind.bodies] using .inr ⟨clause, member, rfl⟩)
  have fines (clause : Catch) (member : clause ∈ catches) : clause.body.Fine base := by
    have child : clause.body ∈ catches.flatMap Catch.children :=
      List.mem_flatMap.mpr ⟨clause, member, by simp [Catch.children]⟩
    exact fine.child (List.mem_cons_of_mem _ child)
  refine (safely_bodyBlock sound fine (by simp [ExprKind.bodies]) (by
    simp [Expr.children, ExprKind.children])).bind fun _ t here _ => ?_
  refine (walkable body (by simp) context _ t here.sound (known.after here)).bind
    fun _ u walked _ => ?_
  exact (safely_catchList walked.sound (known.after (here.trans walked)) _ catches
    (fun c member => walkable c (List.mem_cons_of_mem _ member)) blocks fines).returning

end Nodes

/-- The walk over a node does not crash if the walk over its subexpressions does not. -/
theorem safely_node (sound : Sound base s) {context : Context} (known : context.Known base s)
    {e : Expr} (fine : e.Fine base) (walkable : ∀ c ∈ e.children, c.Walkable base) (slot : Slot) :
    Safely base (Walk.node context slot e.span e.kind) s fun r _ => StaysCall base e r := by
  have handle := fine.self.2
  obtain ⟨kind, span, isRoot, enclosing⟩ := e
  simp only [Expr.children] at walkable
  cases kind
  case call made => exact (safely_call sound known slot span walkable).mono fun _ _ given _ => given
  -- No other node is a call, so nothing is wanted of what becomes of it.
  all_goals
    refine Safely.mono (P := fun _ _ => True) ?_ fun _ _ _ call => by
      simp [Expr.isCall, Expr.call?] at call
    simp only [ExprKind.children] at walkable
  case moduleDecl access name body =>
    refine (safely_note sound _ _).bind fun _ t noted _ => ?_
    refine (safely_bodyBlock noted.sound fine (by simp [ExprKind.bodies]) (by
      simp [Expr.children, ExprKind.children])).bind fun _ u here _ => ?_
    exact (walkable body (by simp) context _ u here.sound
      (known.after (noted.trans here))).returning
  case structDecl access name parameters module =>
    have moduleKnown : base.hasModule module = true := by
      simpa [ScopeTree.handleProblem?] using handle
    refine (safely_note sound _ _).bind fun _ t noted _ => ?_
    refine (safely_parameterList noted.sound (known.after noted) false parameters walkable).bind
      fun parameters u listed _ => ?_
    refine (safely_checkFields listed.sound).bind fun _ v checked _ => ?_
    exact Safely.returning (safely_registerStruct checked.sound moduleKnown)
  case functionDecl access name parameters body module takesClosure id =>
    exact safely_function sound known slot span fine (fun c member => walkable c (by simp [member]))
      (walkable body (by simp))
  case letIn identifiers value scope =>
    refine (safely_check sound).bind ?_
    rintro _ t checked -
    refine (walkable value (by simp) context _ t checked.sound (known.after checked)).bind
      fun _ u walked _ => ?_
    exact (safely_bindAll walked.sound (known.after (checked.trans walked)) identifiers).returning
  case construct name path arguments target =>
    refine (safely_structTarget sound known name.text _ _).bind fun _ t found _ => ?_
    refine (safely_noteConstruction found.sound name path).bind fun _ u noted _ => ?_
    exact (safely_exprs noted.sound (known.after (found.trans noted)) arguments walkable).returning
  case ifElse condition thenBranch elseBranch =>
    refine (walkable condition (by simp) context _ s sound known).bind fun _ t first _ => ?_
    refine (walkable thenBranch (by simp) context _ t first.sound (known.after first)).bind
      fun _ u second _ => ?_
    exact (safely_option second.sound (known.after (first.trans second)) _ elseBranch
      fun c member => walkable c (by simp [Option.mem_toList.mp member])).returning
  case forEach identifiers value body =>
    refine (walkable value (by simp) context _ s sound known).bind fun _ t first _ => ?_
    refine (safely_bodyBlock first.sound fine (by simp [ExprKind.bodies]) (by
      simp [Expr.children, ExprKind.children])).bind fun bodyScope u here owned => ?_
    refine (safely_declareAll here.sound owned _ identifiers).bind fun _ v declared _ => ?_
    exact (walkable body (by simp) context _ v declared.sound
      (known.after ((first.trans here).trans declared))).returning
  case whileDo condition body =>
    refine (walkable condition (by simp) context _ s sound known).bind fun _ t first _ => ?_
    refine (safely_bodyBlock first.sound fine (by simp [ExprKind.bodies]) (by
      simp [Expr.children, ExprKind.children])).bind fun _ u here _ => ?_
    exact (walkable body (by simp) context _ u here.sound
      (known.after (first.trans here))).returning
  case sequence form items => exact (safely_exprs sound known items walkable).returning
  case dictionary entries => exact (safely_pairs sound known entries walkable).returning
  case block expressions role scope =>
    have owned : base.hasScope scope = true := by simpa [ScopeTree.handleProblem?] using handle
    have inside : Context.Known base s { context with scope } := ⟨owned, known.enclosing⟩
    exact (safely_statements sound inside _ expressions walkable).returning
  case keyword token value =>
    refine (safely_note sound _ _).bind fun _ t noted _ => ?_
    exact (safely_option noted.sound (known.after noted) _ value walkable).returning
  case binary left op right =>
    exact safely_binary sound known slot span (walkable left (by simp)) (walkable right (by simp))
  case unary op value =>
    exact (walkable value (by simp) context _ s sound known).returning
  case fieldAccess object field fieldValue =>
    refine (walkable object (by simp) context _ s sound known).bind fun _ t walked _ => ?_
    exact (safely_note walked.sound _ _).returning
  case range lower upper inclusive =>
    refine (safely_option sound known _ lower fun c member => walkable c (by
      simp [Option.mem_toList.mp member])).bind fun _ t first _ => ?_
    exact (safely_option first.sound (known.after first) _ upper fun c member => walkable c (by
      simp [Option.mem_toList.mp member])).returning
  case indexer value index =>
    refine (walkable value (by simp) context _ s sound known).bind fun _ t first _ => ?_
    exact (walkable index (by simp) context _ t first.sound (known.after first)).returning
  case typeRef name target => exact (safely_typeUse sound known name).returning
  case variableRef name scope isCaptured => exact (safely_variableUse sound known name).returning
  case literal token value => exact (safely_literal sound).returning
  case closure attached parameters body captured id =>
    exact safely_closure sound known slot span fine (walkable attached (by simp))
      (walkable body (by simp))
  case tryCatch body catches => exact safely_tryCatch sound known slot span fine walkable

theorem safely_locate {α : Type} {span : Span} {action : Walk α}
    {P : α → AnalysisState → Prop} (safely : Safely base action s P) :
    Safely base (Walk.locate span action) s P := by
  unfold Safely at *
  simp only [Walk.locate, runFrom_tryCatch]
  rcases ended : runFrom action s with ⟨(error | crash) | a, t⟩
  all_goals simpa [ended] using safely

/-- The walk over a tree in which no node has a problem does not crash. -/
theorem Expr.Fine.walkable {e : Expr} (fine : e.Fine base) : e.Walkable base := by
  induction e using Expr.induction with
  | inherited e ih =>
    intro context slot s sound known
    have node := safely_node sound known fine (fun c child => ih c child (fine.child child)) slot
    obtain ⟨kind, span, isRoot, enclosing⟩ := e
    simp only [Walk.expr]
    refine (safely_locate (P := fun r _ => StaysCall base ⟨kind, span, isRoot, enclosing⟩ r) ?_).bind
      fun r t continues stays => ?_
    · split
      · exact node
      · exact safely_fail sound
    · refine safely_pure continues.sound fun call => ?_
      obtain ⟨made, isMade, called⟩ := stays call
      exact ⟨made, isMade, called⟩

end ShellSema
