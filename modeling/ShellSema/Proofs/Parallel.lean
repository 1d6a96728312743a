import ShellSema.Proofs.InStep
import ShellSema.Proofs.Lookups

/-!
# A walk with and without a change elsewhere

Walks that keep in step ask about scopes of their own, about functions by names that their module
has, and about other modules by paths. As long as no path leads to a name under which a stranger has
come to have something else, they get the same answers, so they give the same tree.
-/
namespace ShellSema

/-- What a node names by a path in the stranger is the same in two trees. -/
def ExprKind.FindsSame (here there : ScopeTree) (home : Territory) (stranger : ModuleId) :
    ExprKind → Prop
  | .call made => ∀ current, home.modules current →
    here.findModule current (made.path.map Token.text) true = .ok (some stranger) →
    there.functionSeen? stranger made.name.text = here.functionSeen? stranger made.name.text
  | .construct name path _ _ => ∀ current, home.modules current →
    here.findModule current (path.map Token.text) true = .ok (some stranger) →
    there.structSeen? stranger name.text = here.structSeen? stranger name.text
  | _ => True

def Expr.FindsSame (here there : ScopeTree) (home : Territory) (stranger : ModuleId) (e : Expr) :
    Prop :=
  ∀ n ∈ e.nodes, n.kind.FindsSame here there home stranger

theorem Expr.FindsSame.child {here there : ScopeTree} {home : Territory} {stranger : ModuleId}
    {c e : Expr} (finds : e.FindsSame here there home stranger) (child : c ∈ e.children) :
    c.FindsSame here there home stranger :=
  fun n inside => finds n (mem_nodes_of_child child inside)

section Steps

variable {here there : ScopeTree} {home foreign : Territory} {stranger : ModuleId}

/-! ### Questions in step -/

theorem alike_currentModule (context : Context) :
    Alike (InStep here there home foreign stranger) (Walk.currentModule context) := by
  refine unchanging_currentModule.alike fun s t current current' step one other => ?_
  have belongs := (gives_currentModule.mp one).1
  have belongs' := (gives_currentModule.mp other).1
  -- A scope belongs to the same module in both trees, whosever scope it is.
  rw [step.changed.belongs, belongs] at belongs'
  exact (Option.some.inj belongs').symm

theorem alike_functionContext (context : Context) (id : FunctionId) (module : ModuleId) :
    Alike (InStep here there home foreign stranger) (Walk.functionContext context id module) := by
  refine alike_read (fun s t m m' step found found' => ?_) fun _ _ _ _ _ => alike_pure _
  rcases step.changed.module_cases module with ⟨missing, -⟩ | ⟨_, _, one, other, core, -⟩
  · rw [missing] at found
    cases found
  · rw [found] at one
    rw [found'] at other
    cases one
    cases other
    -- The root scope is in the core of the module, which is the same even for the stranger.
    have scope : m'.scope = m.scope := congrArg (·.scope) core
    rw [scope]

/-- A function of the walk's own territory is as it is without the change. -/
theorem alike_askFunction (apart : home.Apart foreign) {id : FunctionId} {module : ModuleId}
    (owner : here.moduleOfFunction? id = some module) (own : home.modules module) :
    Alike (InStep here there home foreign stranger) (Walk.ask (·.function id)) := by
  refine unchanging_ask.alike fun s t f f' step one other => ?_
  have found := ScopeTree.function_eq_ok.mp (gives_ask.mp one).1
  have found' := ScopeTree.function_eq_ok.mp (gives_ask.mp other).1
  rw [← step.owners, ScopeTree.moduleOfFunction?, found, Option.map_some, Option.some_inj] at owner
  rw [step.changed.functions id f found (owner ▸ apart.modules module own)] at found'
  exact (Option.some.inj found').symm

theorem alike_impliedNames (attached : Call) :
    Alike (InStep here there home foreign stranger) (Walk.impliedNames attached) := by
  unfold Walk.impliedNames
  split
  · exact alike_pure _
  split
  next id _ =>
    refine alike_read (fun s t f f' step found found' => ?_) fun _ _ _ _ _ => alike_pure _
    have signature := step.changed.signature_eq found found'
    -- The names are made up from those of the parameters, which the signature shows.
    rw [names_of_shapes (congrArg FunctionSignature.parameters signature)]
  next => exact alike_pure _

theorem alike_expandReference (id : ClosureId) (attached : Call) (scope : ScopeId)
    (parameters : List Token) (body : Expr) :
    Alike (InStep here there home foreign stranger)
      (Walk.expandReference id attached scope parameters body) := by
  unfold Walk.expandReference
  split
  · exact alike_pure _
  · refine alike_bind (alike_impliedNames attached) fun names _ _ _ _ _ => ?_
    refine alike_bind (alike_forM _ fun _ _ => alike_addVariable _ _) fun _ _ _ _ _ _ => ?_
    exact alike_bind (alike_changeFrame id fun _ => rfl) fun _ _ _ _ _ _ => alike_pure _

theorem alike_ownerWithin (steps : Nat) (owner : Option Enclosing) :
    Alike (InStep here there home foreign stranger) (Walk.ownerWithin steps owner) := by
  induction steps generalizing owner with
  | zero =>
    rcases owner with _ | (id | id)
    · exact alike_pure _
    · exact alike_pure _
    · exact alike_crash
  | succ steps ih =>
    rcases owner with _ | (id | id)
    · exact alike_pure _
    · exact alike_pure _
    · exact alike_bind (alike_frame id) fun _ _ _ _ _ _ => ih _

section Own

variable (closed : home.Closed here) (apart : home.Apart foreign)

include closed apart

theorem alike_isVisible {scope : ScopeId} (inside : home.scopes scope) (name : String) :
    Alike (InStep here there home foreign stranger) (Walk.ask (·.isVisible scope name)) :=
  alike_ask fun _ _ step => step.changed.isVisible_eq (step.outward closed) apart.scopes inside

theorem alike_declaringScope {scope : ScopeId} (inside : home.scopes scope) (name : String) :
    Alike (InStep here there home foreign stranger) (Walk.ask (·.declaringScope scope name)) :=
  alike_ask fun _ _ step => step.changed.declaringScope_eq (step.outward closed) apart.scopes inside

theorem alike_declaredBetween {first : ScopeId} (inside : home.scopes first) (name : String)
    (last : ScopeId) :
    Alike (InStep here there home foreign stranger) (Walk.ask (·.declaredBetween name first last)) :=
  alike_ask fun _ _ step => step.changed.declaredBetween_eq (step.outward closed) apart.scopes inside

omit apart in
/-- Of a scope the one around it is read, which is again one of the territory. -/
theorem alike_askParent {α : Type} {scope : ScopeId} (inside : home.scopes scope)
    {next : Scope → Walk α} (only : ∀ a b : Scope, b.parent = a.parent → next b = next a)
    (rest : ∀ a : Scope, (∀ outer, a.parent = some outer → home.scopes outer) →
      Alike (InStep here there home foreign stranger) (next a)) :
    Alike (InStep here there home foreign stranger) (Walk.ask (·.scope scope) >>= next) := by
  refine alike_read (fun s t a b step found found' => only a b ?_) fun a s t step found => rest a ?_
  · have parents := congrFun step.changed.parents scope
    rwa [ScopeTree.parentScope?_eq found, ScopeTree.parentScope?_eq found'] at parents
  · intro outer same
    exact step.outward closed scope outer inside ((ScopeTree.parentScope?_eq found).trans same)

theorem alike_capturedFrom {context : Context} {frame : ClosureFrame}
    (inside : home.scopes context.scope) (body : home.scopes frame.bodyScope) (name : String) :
    Alike (InStep here there home foreign stranger) (Walk.capturedFrom context frame name) := by
  refine alike_askParent closed body (fun a b same => by rw [same]) fun a around => ?_
  cases outer : a.parent with
  | none => exact alike_pure _
  | some outside =>
    refine alike_bind (alike_declaringScope closed apart (around outside outer) name)
      fun found _ _ _ _ _ => ?_
    cases found with
    | none => exact alike_pure _
    | some declaring =>
      refine alike_bind (alike_declaredBetween closed apart inside name _) fun between _ _ _ _ _ => ?_
      split <;> exact alike_pure _

theorem alike_captureName {context : Context} (inside : home.scopes context.scope)
    (name : String) :
    Alike (InStep here there home foreign stranger) (Walk.captureName context name) := by
  unfold Walk.captureName
  split
  next id _ =>
    refine alike_bind (alike_frame id) fun frame s t s' step given => ?_
    have body : home.scopes frame.bodyScope := step.bodies _ frame (gives_frame.mp given).1
    -- The search starts around the body of the closure, which is in the territory.
    refine alike_bind (alike_capturedFrom closed apart inside body name) fun found _ _ _ _ _ => ?_
    cases found with
    | none => exact alike_pure _
    | some declaring =>
      refine alike_bind (alike_changeFrame id fun _ => rfl) fun _ _ _ _ _ _ => ?_
      exact alike_bind (alike_captureHere declaring name) fun _ _ _ _ _ _ => alike_pure _
  next => exact alike_pure _

theorem alike_variableUse {context : Context} (inside : home.scopes context.scope) (name : Token) :
    Alike (InStep here there home foreign stranger) (Walk.variableUse context name) := by
  unfold Walk.variableUse
  split
  · exact alike_bind (alike_note _ _) fun _ _ _ _ _ _ => alike_pure _
  refine alike_bind (alike_isVisible closed apart inside name.text) fun visible _ _ _ _ _ => ?_
  -- What follows is the same whether the check before it was made or not.
  have found : Alike (InStep here there home foreign stranger) (do
      let isCaptured ← Walk.captureName context name.text
      Walk.note name.span .variableName
      return ExprKind.variableRef name (some context.scope) isCaptured) :=
    alike_bind (alike_captureName closed apart inside _) fun _ _ _ _ _ _ =>
      alike_bind (alike_note _ _) fun _ _ _ _ _ _ => alike_pure _
  dsimp only
  split
  · exact alike_bind alike_fail fun _ _ _ _ _ _ => found
  · exact found

theorem alike_reachesOut {inner outer : ClosureFrame} {outside : ScopeId}
    (innerBody : home.scopes inner.bodyScope) (outerBody : home.scopes outer.bodyScope)
    (around : home.scopes outside) (name : String) :
    Alike (InStep here there home foreign stranger) (Walk.reachesOut inner outer outside name) := by
  refine alike_bind (alike_isVisible closed apart outerBody name) fun _ _ _ _ _ _ => ?_
  split
  · exact alike_pure _
  split
  · exact alike_pure _
  refine alike_bind (alike_ask fun _ _ step => step.changed.declaresHere_eq apart.scopes innerBody)
    fun _ _ _ _ _ _ => ?_
  split
  · exact alike_pure _
  · exact alike_bind (alike_declaredBetween closed apart around name _) fun _ _ _ _ _ _ => alike_pure _

theorem alike_propagateCaptures (inner : ClosureId) (enclosing : Option Enclosing) :
    Alike (InStep here there home foreign stranger) (Walk.propagateCaptures inner enclosing) := by
  unfold Walk.propagateCaptures
  split
  next outer =>
    refine alike_bind (alike_frame inner) fun innerFrame _ _ _ step given => ?_
    have innerBody := step.bodies _ innerFrame (gives_frame.mp given).1
    refine alike_bind (alike_frame outer) fun outerFrame _ _ _ step given => ?_
    have outerBody := step.bodies _ outerFrame (gives_frame.mp given).1
    refine alike_askParent closed innerBody (fun a b same => by rw [same]) fun a around => ?_
    cases parent : a.parent with
    | none => exact alike_pure _
    | some outside =>
      refine alike_bind (alike_filterM fun name => ?_) fun _ _ _ _ _ _ => ?_
      · exact alike_reachesOut closed apart innerBody outerBody (around outside parent) name
      exact alike_changeFrame outer fun _ => rfl
  next => exact alike_pure _

/-- To mark the variable that a scope sees is to mark it in the scope that declares it. -/
theorem alike_markVisible {scope : ScopeId} (inside : home.scopes scope) (name : String) :
    Alike (InStep here there home foreign stranger)
      (Walk.edit (ScopeTree.Edit.capture scope name)) := by
  unfold ScopeTree.Edit.capture
  rw [edit_bind, edit_ask]
  refine alike_bind (alike_declaringScope closed apart inside name) fun found _ _ _ _ _ => ?_
  cases found with
  | none => rw [edit_pure]; exact alike_pure _
  | some declaring =>
    rw [edit_bind]
    refine alike_bind (alike_captureHere declaring name) fun _ _ _ _ _ _ => ?_
    rw [edit_pure]
    exact alike_pure _

theorem alike_closureProvider {context : Context} (inside : home.scopes context.scope) :
    Alike (InStep here there home foreign stranger) (Walk.closureProvider context) := by
  refine alike_get (fun _ _ step => by rw [step.closures]) fun state => ?_
  refine alike_bind (alike_ownerWithin _ _) fun owner _ _ _ _ _ => ?_
  cases owner with
  | none => exact alike_fail
  | some provider =>
    refine alike_get (fun _ _ step => by rw [step.support]) fun state => ?_
    split
    · split
      next nearest _ =>
        refine alike_bind (alike_modify fun _ _ step =>
          { step with carriers := congrArg (provider :: ·) step.carriers }) fun _ _ _ _ _ _ => ?_
        refine alike_bind (alike_changeFrame nearest fun _ => rfl) fun _ _ _ _ _ _ => ?_
        exact alike_bind (alike_markVisible closed apart inside _) fun _ _ _ _ _ _ => alike_pure _
      next => exact alike_pure _
    · exact alike_fail

variable (strange : foreign.modules stranger)

include strange

/-- What is looked up from a place of the territory is looked up from a module of it. -/
theorem alike_fromCurrent {α : Type} {context : Context} (inside : home.scopes context.scope)
    {next : ModuleId → Walk α} (rest : ∀ current, home.modules current → current ≠ stranger →
      Alike (InStep here there home foreign stranger) (next current)) :
    Alike (InStep here there home foreign stranger) (Walk.currentModule context >>= next) := by
  refine alike_bind (alike_currentModule context) fun current _ _ _ step given => ?_
  obtain ⟨own, apart⟩ :=
    step.current_ne closed apart strange inside (gives_currentModule.mp given).1
  exact rest current own apart

theorem alike_typeUse {context : Context} (inside : home.scopes context.scope) (name : Token) :
    Alike (InStep here there home foreign stranger) (Walk.typeUse context name) := by
  refine alike_bind ?_ fun target _ _ _ _ _ =>
    alike_bind (alike_note _ _) fun _ _ _ _ _ _ => alike_pure _
  unfold Walk.typeTarget
  split
  · exact alike_pure _
  · refine alike_fromCurrent closed apart strange inside fun current _ other => ?_
    refine alike_bind (alike_ask fun _ _ step => step.changed.findStruct_eq fun _ => .inl other)
      fun found _ _ _ _ _ => ?_
    cases found with
    | none => exact alike_fail
    | some id => exact alike_pure _

theorem alike_userCallee {context : Context} (inside : home.scopes context.scope) {name : String}
    {path : List String} (finds : ∀ current, home.modules current →
      here.findModule current path true = .ok (some stranger) →
      there.functionSeen? stranger name = here.functionSeen? stranger name) :
    Alike (InStep here there home foreign stranger) (Walk.userCallee context name path) := by
  refine alike_fromCurrent closed apart strange inside fun current own other => ?_
  refine alike_bind (alike_ask fun _ _ step => step.changed.findModule_eq other path true)
    fun found s _ _ step given => ?_
  have reached := (gives_ask.mp given).1
  rw [step.findModule] at reached
  cases found with
  | none => exact alike_fail
  | some module =>
    -- If the path has led to the stranger, what it sees under the name is the same in both trees.
    have known (s t : AnalysisState) (step : InStep here there home foreign stranger s t) :
        module ≠ stranger ∨ t.tree.functionSeen? module name = s.tree.functionSeen? module name := by
      by_cases same : module = stranger
      · subst same
        exact .inr (step.functionSeen? (finds current own reached))
      · exact .inl same
    refine alike_bind (alike_ask fun s t step => step.changed.findFunction_eq fun _ => known s t step)
      fun found _ _ _ _ _ => ?_
    cases found with
    | none => exact alike_pure _
    | some id =>
      refine alike_read (fun s t f f' step found found' => ?_) fun f _ _ _ _ => ?_
      -- Whether the function may be called from here shows in its signature.
      · have signature := step.changed.signature_eq found found'
        have module := congrArg FunctionSignature.module signature
        have access := congrArg FunctionSignature.access signature
        dsimp only [ScriptFunction.signature] at module access
        rw [module, access]
      · dsimp only
        split
        · exact alike_fail
        · exact alike_pure _

theorem alike_callee {context : Context} (inside : home.scopes context.scope) {name : String}
    {path : List String} (finds : ∀ current, home.modules current →
      here.findModule current path true = .ok (some stranger) →
      there.functionSeen? stranger name = here.functionSeen? stranger name) :
    Alike (InStep here there home foreign stranger) (Walk.callee context name path) := by
  unfold Walk.callee
  split
  · exact alike_pure _
  · exact alike_bind (alike_closureProvider closed apart inside) fun _ _ _ _ _ _ => alike_pure _
  · exact alike_pure _
  · exact alike_pure _
  · refine alike_bind ?_ fun found _ _ _ _ _ => ?_
    · unfold Walk.standardCallee
      split
      · exact alike_pure _
      · split
        · exact alike_fail
        · exact alike_pure _
    cases found with
    -- A function of the standard library hides those of the script.
    | some f => exact alike_pure _
    | none =>
      refine alike_bind (alike_userCallee closed apart strange inside finds) fun found _ _ _ _ _ => ?_
      cases found <;> exact alike_pure _

omit closed apart strange in
theorem alike_standardStruct (context : Context) (name : String) (path : List String)
    (actual : Nat) :
    Alike (InStep here there home foreign stranger) (Walk.standardStruct context name path actual) := by
  unfold Walk.standardStruct
  split
  · exact alike_fail
  · split
    · exact alike_fail
    · exact alike_bind unchanging_checkCount.alike_check fun _ _ _ _ _ _ => alike_pure _

omit closed apart strange in
/-- What is checked about a struct does not show in the target that it makes. -/
theorem alike_userStruct {current module : ModuleId} {name : String}
    (known : ∀ s t, InStep here there home foreign stranger s t → module ≠ stranger ∨
      t.tree.structSeen? module name = s.tree.structSeen? module name) (actual : Nat) :
    Alike (InStep here there home foreign stranger) (Walk.userStruct current module name actual) := by
  refine alike_bind (alike_ask fun s t step => step.changed.findStruct_eq fun _ => known s t step)
    fun found _ _ _ _ _ => ?_
  cases found with
  | none => exact alike_fail
  | some id =>
    -- The struct itself may differ, but it is only compared, and its handle is given.
    refine alike_of_gives (fun s a t given => ?_) (alike_pure (StructTarget.user id))
    obtain ⟨struct, _, asked, rest⟩ := gives_bind.mp given
    obtain rfl := unchanging_ask.of_gives asked
    dsimp only at rest
    split at rest
    · simp at rest
    · obtain ⟨_, _, checked, last⟩ := gives_bind.mp rest
      obtain rfl := unchanging_checkCount.of_gives checked
      exact last

theorem alike_structTarget {context : Context} (inside : home.scopes context.scope)
    {name : String} {path : List String} (finds : ∀ current, home.modules current →
      here.findModule current path true = .ok (some stranger) →
      there.structSeen? stranger name = here.structSeen? stranger name) (actual : Nat) :
    Alike (InStep here there home foreign stranger) (Walk.structTarget context name path actual) := by
  refine alike_fromCurrent closed apart strange inside fun current own other => ?_
  refine alike_bind (alike_ask fun _ _ step => step.changed.findModule_eq other path true)
    fun found s _ _ step given => ?_
  have reached := (gives_ask.mp given).1
  rw [step.findModule] at reached
  cases found with
  | none => exact alike_standardStruct context name path actual
  | some module =>
    refine alike_userStruct (fun s t step => ?_) actual
    by_cases same : module = stranger
    · subst same
      -- As for functions, only the stranger may see something else.
      exact .inr (step.structSeen? (finds current own reached))
    · exact .inl same

end Own

theorem alike_noteCall (name : Token) (path : List Token) (callee : Callee) :
    Alike (InStep here there home foreign stranger) (Walk.noteCall name path callee) :=
  alike_bind (alike_noteAll path .module) fun _ _ _ _ _ _ => alike_note _ _

theorem alike_noteConstruction (name : Token) (path : List Token) :
    Alike (InStep here there home foreign stranger) (Walk.noteConstruction name path) :=
  alike_bind (alike_noteAll path .module) fun _ _ _ _ _ _ => alike_note _ _

/-! ### Nodes -/

namespace Plan

theorem steady_parameterList (context : Context) (seenDefault : Bool) (parameters : List Parameter) :
    (parameterList context seenDefault parameters).Steady (InStep here there home foreign stranger) := by
  induction parameters generalizing seenDefault with
  | nil => exact steady_pure _
  | cons parameter rest ih =>
    obtain ⟨name, default?, isVariadic⟩ := parameter
    refine steady_act (alike_note _ _) fun _ _ _ _ => ?_
    refine steady_act unchanging_checkVariadic.alike_check fun _ _ _ _ => ?_
    cases default? with
    | none =>
      refine steady_act unchanging_check.alike_check fun _ _ _ _ => ?_
      exact steady_bind (ih seenDefault) fun _ => steady_pure _
    | some value =>
      refine steady_act unchanging_check.alike_check fun _ _ _ _ => ?_
      exact steady_visit fun _ => steady_bind (ih true) fun _ => steady_pure _

theorem steady_catchList (context : Context) (isRoot : Bool) (catches : List Catch) :
    (catchList context isRoot catches).Steady (InStep here there home foreign stranger) := by
  induction catches with
  | nil => exact steady_pure _
  | cons clause rest ih =>
    obtain ⟨identifier, typeRef, body⟩ := clause
    refine steady_bind (steady_option _ _ _) fun _ => ?_
    refine steady_act alike_blockScope fun bodyScope _ _ _ => ?_
    refine steady_act (alike_declareOption _ _ _) fun _ _ _ _ => ?_
    exact steady_visit fun _ => steady_bind ih fun _ => steady_pure _

theorem steady_functionDecl (context : Context) (parameters : List Parameter) (body : Expr)
    (module : ModuleId) (takesClosure : Bool) (id : FunctionId) :
    (functionDecl context parameters body module takesClosure id).Steady
      (InStep here there home foreign stranger) := by
  refine steady_guard (steady_bind (steady_parameterList _ _ _) fun _ => ?_)
  refine steady_act alike_blockScope fun _ _ _ _ => ?_
  refine steady_act (alike_declareParameters _ _ _) fun _ _ _ _ => ?_
  refine steady_act (alike_functionContext _ _ _) fun _ _ _ _ => ?_
  exact steady_visit fun _ => steady_pure _

/-- The actions of a node keep in step if it stands in the territory and declares what is declared. -/
theorem steady_node (closed : home.Closed here) (apart : home.Apart foreign)
    (strange : foreign.modules stranger) {context : Context} {slot : Slot} {e : Expr}
    (declared : e.Declared here home) (finds : e.FindsSame here there home stranger)
    (stands : e.MayStand (Permit.onScopes home.scopes) context.scope) :
    (node context slot e.span e.kind).Steady (InStep here there home foreign stranger) := by
  have permitted := declared.permitted
  replace declared : e.kind.Declared here home := declared e e.mem_nodes_self
  replace finds : e.kind.FindsSame here there home stranger := finds e e.mem_nodes_self
  obtain ⟨kind, span, isRoot, enclosing⟩ := e
  -- Only a block may stand where no variable may be declared.
  cases kind
  case block expressions role scope =>
    exact steady_bind (steady_each _ _ _) fun _ => steady_pure _
  all_goals
    have inside : home.scopes context.scope := stands.resolve_right (by simp [Expr.isBlock,
      Expr.blockScope?])
  case moduleDecl access name body =>
    refine steady_act (alike_note _ _) fun _ _ _ _ => ?_
    exact steady_act alike_blockScope fun _ _ _ _ => steady_visit fun _ => steady_pure _
  case structDecl access name parameters module =>
    refine steady_act (alike_note _ _) fun _ _ _ _ => ?_
    refine steady_bind (steady_parameterList _ _ _) fun _ => ?_
    refine steady_act unchanging_checkFields.alike_check fun _ _ _ _ => ?_
    exact steady_act (alike_registerStruct declared) fun _ _ _ _ => steady_pure _
  case functionDecl access name parameters body module takesClosure id =>
    obtain ⟨own, named, signature⟩ := declared
    have owner : here.moduleOfFunction? id = some module :=
      ScopeTree.moduleOfFunction?_of_signature signature
    refine steady_act (alike_askFunction apart owner own) fun found _ _ _ => ?_
    dsimp only
    split
    -- If it has been met before, it has been in both walks.
    · exact steady_pure _
    refine steady_act (alike_note _ _) fun _ _ _ _ => ?_
    refine steady_act (alike_modify fun _ _ step =>
      { step with support := congrArg ((id, takesClosure) :: ·) step.support }) fun _ _ _ _ => ?_
    refine steady_bind (steady_functionDecl _ _ _ _ _ _) fun _ => ?_
    exact steady_act (alike_registerFunction named owner _ _) fun _ _ _ _ => steady_pure _
  case letIn identifiers value scope =>
    refine steady_act unchanging_checkBinding.alike_check fun _ _ _ _ => ?_
    exact steady_visit fun _ => steady_act (alike_bindAll _ _) fun _ _ _ _ => steady_pure _
  case construct name path arguments target =>
    refine steady_act (alike_structTarget closed apart strange inside finds _) fun _ _ _ _ => ?_
    refine steady_act (alike_noteConstruction _ _) fun _ _ _ _ => ?_
    exact steady_bind (steady_each _ _ _) fun _ => steady_pure _
  case ifElse condition thenBranch elseBranch =>
    exact steady_visit fun _ => steady_visit fun _ =>
      steady_bind (steady_option _ _ _) fun _ => steady_pure _
  case forEach identifiers value body =>
    refine steady_visit fun _ => steady_act alike_blockScope fun _ _ _ _ => ?_
    refine steady_act (alike_declareAll _ _ _) fun _ _ _ _ => ?_
    exact steady_visit fun _ => steady_pure _
  case whileDo condition body =>
    refine steady_visit fun _ => steady_act alike_blockScope fun _ _ _ _ => ?_
    exact steady_visit fun _ => steady_pure _
  case sequence form items => exact steady_bind (steady_each _ _ _) fun _ => steady_pure _
  case dictionary entries => exact steady_bind (steady_pairs _ _) fun _ => steady_pure _
  case keyword token value =>
    refine steady_act (alike_note _ _) fun _ _ _ _ => ?_
    exact steady_bind (steady_option _ _ _) fun _ => steady_pure _
  case binary left op right =>
    simp only [node]
    cases op.redirection? with
    | some redirection =>
      refine steady_visit fun _ => steady_act alike_redirect fun _ _ _ _ => ?_
      exact steady_enter _ _ _
    | none =>
      refine steady_act unchanging_checkAssign.alike_check fun _ _ _ _ => ?_
      exact steady_visit fun _ => steady_visit fun _ => steady_pure _
  case unary op value => exact steady_visit fun _ => steady_pure _
  case fieldAccess object field fieldValue =>
    exact steady_visit fun _ => steady_act (alike_note _ _) fun _ _ _ _ => steady_pure _
  case range lower upper inclusive =>
    exact steady_bind (steady_option _ _ _) fun _ => steady_bind (steady_option _ _ _) fun _ =>
      steady_pure _
  case indexer value index => exact steady_visit fun _ => steady_visit fun _ => steady_pure _
  case typeRef name target =>
    exact steady_act (alike_typeUse closed apart strange inside _) fun _ _ _ _ => steady_pure _
  case variableRef name scope isCaptured =>
    exact steady_act (alike_variableUse closed apart inside _) fun _ _ _ _ => steady_pure _
  case call made =>
    obtain ⟨name, path, arguments, piped, environment, mode, findings⟩ := made
    refine steady_act (alike_callee closed apart strange inside finds) fun callee _ _ _ => ?_
    refine steady_act (alike_noteCall _ _ _) fun _ _ _ _ => ?_
    refine steady_bind (steady_each _ _ _) fun _ => ?_
    refine steady_act unchanging_checkClosure.alike_check fun _ _ _ _ => ?_
    refine steady_act unchanging_checkArguments.alike_check fun _ _ _ _ => ?_
    exact steady_bind (steady_environmentValues _ _) fun _ => steady_pure _
  case literal token value =>
    exact steady_act (alike_literal _ _ _) fun _ _ _ _ => steady_pure _
  case closure attached parameters body captured id =>
    have child : body ∈ ExprKind.children (.closure attached parameters body captured id) := by
      simp [ExprKind.children]
    refine steady_visit fun _ => steady_act alike_attachedCall fun _ _ _ _ => ?_
    refine steady_act alike_blockScope fun bodyScope _ _ given => ?_
    -- The frame of the closure asks for names around the scope of the body.
    have block : home.scopes bodyScope :=
      permitted.here.blocks body child bodyScope (gives_blockScope.mp given).1
    refine steady_act (alike_enterClosure _ block _ _) fun _ _ _ _ => ?_
    refine steady_visit fun _ => ?_
    refine steady_act (alike_propagateCaptures closed apart _ _) fun _ _ _ _ => ?_
    refine steady_act (alike_expandReference _ _ _ _ _) fun _ _ _ _ => ?_
    exact steady_act (alike_frame _) fun _ _ _ _ => steady_pure _
  case tryCatch body catches =>
    refine steady_act alike_blockScope fun _ _ _ _ => ?_
    exact steady_visit fun _ => steady_bind (steady_catchList _ _ _) fun _ => steady_pure _

end Plan

/-! ### Trees -/

/-- Nothing is asked of what a walk does to the state. -/
theorem nothing_preserved (may : Permit) : Preserved (fun _ _ => True) may :=
  preserved_of_sameSymbols (fun _ _ _ _ _ => trivial) (fun _ _ _ => trivial)
    (fun _ _ _ _ _ _ _ _ => trivial) (fun _ _ _ _ _ _ => trivial) fun _ _ _ _ _ _ _ => trivial

section Trees

variable (closed : home.Closed here) (apart : home.Apart foreign) (strange : foreign.modules stranger)

include closed apart strange

/-- The walk over an expression gives the same in both walks. -/
theorem alike_expr {e : Expr} : ∀ {context : Context} {slot : Slot}, e.Declared here home →
    e.FindsSame here there home stranger →
    e.MayStand (Permit.onScopes home.scopes) context.scope →
    Alike (InStep here there home foreign stranger) (Walk.expr context slot e) := by
  induction e using Expr.induction with
  | inherited e ih =>
    intro context slot declared finds stands
    have kept : Preserved (fun _ _ => True) (Permit.onScopes home.scopes) := nothing_preserved _
    have node : Alike (InStep here there home foreign stranger)
        (Plan.node context slot e.span e.kind).run := by
      refine Plan.alike_run (Plan.steady_node closed apart strange declared finds stands)
        (kept.within_children declared.permitted stands) ?_
      rintro inner slot c ⟨wanted, child⟩
      exact ih c child (declared.child child) (finds.child child) wanted.1
    intro s t r r' s' t' step one other
    -- Around its plan, a visit checks what is attached and marks the result; both are up to the node.
    obtain ⟨-, made, first, rfl⟩ := gives_expr.mp one
    obtain ⟨-, made', second, rfl⟩ := gives_expr.mp other
    obtain ⟨rfl, step'⟩ := node s t made made' s' t' step first second
    exact ⟨rfl, step'⟩

theorem alike_exprs {context : Context} (inside : home.scopes context.scope) {es : List Expr}
    (declared : ∀ e ∈ es, e.Declared here home)
    (finds : ∀ e ∈ es, e.FindsSame here there home stranger) :
    Alike (InStep here there home foreign stranger) (Walk.exprs context es) := by
  rw [← Plan.run_each]
  have within : (Plan.each context Expr.slot es).Within (fun _ _ => True) fun inner _ _ =>
      inner = context := Plan.within_each (fun _ _ => rfl) _ es
  refine Plan.alike_run (Plan.steady_each ..) (within.follow (Plan.follows_each ..)) ?_
  rintro _ slot e ⟨rfl, member⟩
  exact alike_expr closed apart strange (declared e member) (finds e member) (.inl inside)

end Trees

end Steps
end ShellSema
