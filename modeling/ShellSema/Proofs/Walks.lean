import ShellSema.Proofs.Keeping

/-!
# The whole walk keeps what its actions keep

The plan of each kind of node consists of actions for which `Settled` and `Preserved` have an
obligation, and of visits of subexpressions. So the walk over an expression keeps the relation, by
induction on the expression.
-/
namespace ShellSema

/-- Where a node visits its subexpressions: a block in its own scope, a closure in part as that
closure, a function in part in its module, and all other nodes where they stand. -/
def ExprKind.Places (kind : ExprKind) (context inner : Context) : Prop :=
  match kind with
  | .block _ _ scope => inner = { context with scope }
  | .closure .. => inner = context ∨ ∃ id, inner = { context with enclosing := some (.closure id) }
  | .functionDecl .. => True
  | _ => inner = context

/-- The node takes the name for a variable of the scope: it is one of a loop's names, of a function's
or a closure's parameters or the name for what a clause catches, and the scope is that of the block
that follows. -/
inductive ExprKind.Takes (scope : ScopeId) (name : Token) : ExprKind → Prop where
  | item {names : List Token} {value body : Expr} (member : name ∈ names)
      (block : body.blockScope? = some scope) : Takes scope name (.forEach names value body)
  | caught {body : Expr} {catches : List Catch} {clause : Catch} (member : clause ∈ catches)
      (named : clause.identifier = some name) (block : clause.body.blockScope? = some scope) :
      Takes scope name (.tryCatch body catches)
  | parameter {access : Access} {called : Token} {parameters : List Parameter} {body : Expr}
      {module : ModuleId} {takesClosure : Bool} {id : FunctionId} {p : Parameter}
      (member : p ∈ parameters) (named : p.name = name) (block : body.blockScope? = some scope) :
      Takes scope name (.functionDecl access called parameters body module takesClosure id)
  | passed {attached body : Expr} {parameters : List Token} {captured : NameSet}
      {id : Option ClosureId} (member : name ∈ parameters) (block : body.blockScope? = some scope) :
      Takes scope name (.closure attached parameters body captured id)

/-- A node that stands in the first scope may declare a variable of the name in the second one. -/
inductive ExprKind.MayDeclare (here : ScopeId) : ExprKind → ScopeId → String → Prop where
  | taken {kind : ExprKind} {scope : ScopeId} {name : Token} (takes : kind.Takes scope name) :
      MayDeclare here kind scope name.text
  | bound {names : List Token} {value : Expr} {place : Option ScopeId} {name : Token}
      (member : name ∈ names) (script : name.isEnvironmentName = false) :
      MayDeclare here (.letIn names value place) here name.text
  /-- The closure that a function takes. -/
  | carrier {access : Access} {name : Token} {parameters : List Parameter} {body : Expr}
      {module : ModuleId} {id : FunctionId} {scope : ScopeId}
      (block : body.blockScope? = some scope) :
      MayDeclare here (.functionDecl access name parameters body module true id) scope closureCarrier
  /-- A parameter that is made up for a bare reference. -/
  | madeUp {attached body : Expr} {parameters : List Token} {captured : NameSet}
      {id : Option ClosureId} {name : String} {scope : ScopeId}
      (block : body.blockScope? = some scope) :
      MayDeclare here (.closure attached parameters body captured id) scope ("'" ++ name)

theorem Expr.PermittedHere.takes {may : Permit} {e : Expr} {scope : ScopeId} {name : Token}
    (permitted : e.PermittedHere may) (taken : e.kind.Takes scope name) : may.scope scope := by
  obtain ⟨kind, span, isRoot, enclosing⟩ := e
  cases taken with
  | @caught _ _ clause member _ block =>
    refine permitted.blocks clause.body ?_ _ block
    simpa [Expr.children, ExprKind.children, Catch.children] using .inr ⟨clause, member, by simp⟩
  | item _ block | parameter _ _ block | passed _ block =>
    exact permitted.blocks _ (by simp [Expr.children, ExprKind.children]) _ block

/-- Where a node declares variables, that is permitted. -/
theorem Expr.PermittedHere.declares {may : Permit} {e : Expr} {here scope : ScopeId} {name : String}
    (permitted : e.PermittedHere may) (stands : e.MayStand may here)
    (declared : e.kind.MayDeclare here scope name) : may.scope scope := by
  obtain ⟨kind, span, isRoot, enclosing⟩ := e
  cases declared with
  | taken takes => exact permitted.takes takes
  | bound => exact stands.resolve_right (by simp [Expr.isBlock, Expr.blockScope?])
  | carrier block | madeUp block =>
    exact permitted.blocks _ (by simp [Expr.children, ExprKind.children]) _ block

/-- What the visits of a node satisfy if the node declares variables only where it is permitted. -/
def Standing (may : Permit) (kind : ExprKind) (context inner : Context) (_ : Slot) (c : Expr) :
    Prop :=
  c.MayStand may inner.scope ∧ kind.Places context inner

namespace Plan

variable {R : AnalysisState → AnalysisState → Prop} {may : Permit}

section Lists

variable {context : Context} {V : Context → Slot → Expr → Prop}
  (wanted : ∀ slot e, V context slot e)

include wanted

theorem within_each (slot : Expr → Slot) (es : List Expr) : (each context slot es).Within R V := by
  induction es with
  | nil => exact within_pure _
  | cons e es ih => exact within_visit (wanted _ _) fun _ => ih.map _

theorem within_option (isRoot : Option Bool) (e : Option Expr) :
    (option context isRoot e).Within R V := by
  cases e with
  | none => exact within_pure _
  | some e => exact (within_enter (wanted _ _)).map _

theorem within_pairs (entries : List (Expr × Expr)) : (pairs context entries).Within R V := by
  induction entries with
  | nil => exact within_pure _
  | cons entry entries ih =>
    exact within_visit (wanted _ _) fun _ => within_visit (wanted _ _) fun _ => ih.map _

theorem within_environmentValues (entries : List (String × Expr)) :
    (environmentValues context entries).Within R V := by
  induction entries with
  | nil => exact within_pure _
  | cons entry entries ih => exact within_visit (wanted _ _) fun _ => ih.map _

theorem within_parameterList (kept : Calm R may) (seenDefault : Bool)
    (parameters : List Parameter) : (parameterList context seenDefault parameters).Within R V := by
  induction parameters generalizing seenDefault with
  | nil => exact within_pure _
  | cons parameter rest ih =>
    obtain ⟨name, default?, isVariadic⟩ := parameter
    refine within_act (kept.keeps_note _ _) fun _ _ _ _ => ?_
    refine within_act (kept.keeps_unchanging unchanging_checkVariadic) fun _ _ _ _ => ?_
    cases default? with
    | none =>
      refine within_act (kept.keeps_unchanging unchanging_check) fun _ _ _ _ => ?_
      exact (ih seenDefault).map _
    | some value =>
      refine within_act (kept.keeps_unchanging unchanging_check) fun _ _ _ _ => ?_
      refine within_visit (wanted _ _) fun _ => ?_
      exact (ih true).map _

theorem within_catchList (kept : Calm R may) (isRoot : Bool) (catches : List Catch)
    (declares : ∀ clause ∈ catches, ∀ scope, clause.body.blockScope? = some scope →
      ∀ name ∈ clause.identifier,
        Keeps R (Walk.edit (ScopeTree.Edit.addVariable scope name.text))) :
    (catchList context isRoot catches).Within R V := by
  induction catches with
  | nil => exact within_pure _
  | cons clause rest ih =>
    obtain ⟨identifier, typeRef, body⟩ := clause
    refine within_bind (within_option wanted _ _) fun _ => ?_
    refine within_act (kept.keeps_unchanging unchanging_blockScope) fun bodyScope _ _ given => ?_
    obtain ⟨found, -⟩ := gives_blockScope.mp given
    refine within_act (kept.keeps_declareOption _ (declares _ List.mem_cons_self _ found))
      fun _ _ _ _ => ?_
    refine within_visit (wanted _ _) fun _ => ?_
    exact (ih fun clause member => declares clause (by simp [member])).map _

end Lists

/-- Whatever its actions and its visits give, the plan ends with such a result. -/
def Returns {α : Type} (wanted : α → Prop) : Plan α → Prop
  | .done a => wanted a
  | .act _ next => ∀ b, (next b).Returns wanted
  | .visit _ _ _ next => ∀ r, (next r).Returns wanted
  | .guarded _ _ next => ∀ b, (next b).Returns wanted

theorem returns_act {α β : Type} {wanted : β → Prop} {action : Walk α} {next : α → Plan β}
    (rest : ∀ a, (next a).Returns wanted) : (liftM action >>= next).Returns wanted :=
  rest

theorem returns_enter {β : Type} {wanted : β → Prop} {context : Context} {slot : Slot} {e : Expr}
    {next : Expr → Plan β} (rest : ∀ r, (next r).Returns wanted) :
    (enter context slot e >>= next).Returns wanted :=
  rest

theorem returns_bind {α β : Type} {first : α → Prop} {wanted : β → Prop} {p : Plan α}
    {next : α → Plan β} (returns : p.Returns first) (rest : ∀ a, first a → (next a).Returns wanted) :
    (p >>= next).Returns wanted := by
  change (p.bind next).Returns wanted
  induction p with
  | done a => exact rest a returns
  | act action others ih => exact fun b => ih b (returns b) rest
  | visit context slot e others ih => exact fun r => ih r (returns r) rest
  | guarded id inner others _ ih => exact fun b => ih b (returns b) rest

/-- What follows a plan may rely on what the plan ends with. -/
theorem within_bind_of_returns {α β : Type} {V : Context → Slot → Expr → Prop} {wanted : α → Prop}
    {p : Plan α} {next : α → Plan β} (first : p.Within R V) (returns : p.Returns wanted)
    (rest : ∀ a, wanted a → (next a).Within R V) : (p >>= next).Within R V := by
  change (p.bind next).Within R V
  induction p with
  | done a => exact rest a returns
  | act action others ih =>
    exact ⟨first.1, fun b s t given => ih b (first.2 b s t given) (returns b) rest⟩
  | visit context slot e others ih => exact ⟨first.1, fun r => ih r (first.2 r) (returns r) rest⟩
  | guarded id inner others _ ih =>
    exact ⟨first.1, first.2.1, fun b => ih b (first.2.2 b) (returns b) rest⟩

/-- The parameters of a list keep their names. -/
theorem returns_parameterList (context : Context) (seenDefault : Bool) (parameters : List Parameter) :
    (parameterList context seenDefault parameters).Returns fun listed =>
      listed.map Parameter.name = parameters.map Parameter.name := by
  induction parameters generalizing seenDefault with
  | nil => rfl
  | cons parameter rest ih =>
    obtain ⟨name, default?, isVariadic⟩ := parameter
    refine returns_act fun _ => returns_act fun _ => ?_
    cases default? with
    | none =>
      refine returns_act fun _ => ?_
      exact returns_bind (ih seenDefault) fun listed same => congrArg (name :: ·) same
    | some value =>
      refine returns_act fun _ => returns_enter fun _ => ?_
      exact returns_bind (ih true) fun listed same => congrArg (name :: ·) same

/-- The actions of a function that is met for the first time. -/
theorem within_functionDecl (kept : Calm R may) {context : Context}
    {V : Context → Slot → Expr → Prop} (wanted : ∀ slot e, V context slot e)
    {parameters : List Parameter} {body : Expr} {takesClosure : Bool}
    (declares : ∀ scope, body.blockScope? = some scope → ∀ p ∈ parameters,
      Keeps R (Walk.edit (ScopeTree.Edit.addVariable scope p.name.text)))
    (carrier : ∀ scope, body.blockScope? = some scope → takesClosure = true →
      Keeps R (Walk.edit (ScopeTree.Edit.addVariable scope closureCarrier)))
    (module : ModuleId) (id : FunctionId)
    (failing : Keeps R
      (Walk.edit (ScopeTree.Edit.changeFunction id fun f => { f with status := .failed })))
    (inside : body.isBlock = true → ∀ inner slot, V inner slot body) :
    (functionDecl context parameters body module takesClosure id).Within R V := by
  refine within_guard failing ?_
  -- The names that are declared are those of the source, since the analysed parameters keep theirs.
  refine within_bind_of_returns (within_parameterList wanted kept _ _)
    (returns_parameterList context false parameters) fun listed names => ?_
  refine within_act (kept.keeps_unchanging unchanging_blockScope) fun bodyScope _ _ given => ?_
  obtain ⟨found, -⟩ := gives_blockScope.mp given
  refine within_act (kept.keeps_declareParameters (fun p member => ?_) (carrier _ found))
    fun _ _ _ _ => ?_
  · have named : p.name ∈ parameters.map Parameter.name := names ▸ List.mem_map_of_mem member
    obtain ⟨written, member, same⟩ := List.mem_map.mp named
    exact same ▸ declares _ found written member
  refine within_act (kept.keeps_unchanging unchanging_functionContext) fun _ _ _ _ => ?_
  refine within_visit (inside (Expr.isBlock_of_blockScope? found) _ _) fun _ => ?_
  exact within_pure _

/-- The actions of a call once its callee is found. -/
theorem within_called (calm : Calm R may) {context : Context} {V : Context → Slot → Expr → Prop}
    (wanted : ∀ slot e, V context slot e) (slot : Slot) (span : Span) (made : Call) (callee : Callee) :
    (called context slot span made callee).Within R V := by
  refine within_act (calm.keeps_noteCall _ _ _) fun _ _ _ _ => ?_
  refine within_bind (within_each wanted _ _) fun _ => ?_
  refine within_act (calm.keeps_unchanging unchanging_checkClosure) fun _ _ _ _ => ?_
  refine within_act (calm.keeps_unchanging unchanging_checkArguments) fun _ _ _ _ => ?_
  exact (within_environmentValues wanted _).map _

/-- The actions of a function, whose parts are visited only if it has not been met before. -/
theorem within_function (calm : Calm R may) {context : Context}
    {V : Context → Slot → Expr → Prop} (wanted : ∀ slot e, V context slot e) (slot : Slot)
    (span : Span) {access : Access} {name : Token} {parameters : List Parameter} {body : Expr}
    {module : ModuleId} {takesClosure : Bool} {id : FunctionId}
    (permitted : may.function access name module takesClosure id)
    (declares : ∀ scope, body.blockScope? = some scope → ∀ p ∈ parameters,
      Keeps R (Walk.edit (ScopeTree.Edit.addVariable scope p.name.text)))
    (carrier : ∀ scope, body.blockScope? = some scope → takesClosure = true →
      Keeps R (Walk.edit (ScopeTree.Edit.addVariable scope closureCarrier)))
    (inside : body.isBlock = true → ∀ inner slot, V inner slot body) :
    (node context slot span
      (.functionDecl access name parameters body module takesClosure id)).Within R V := by
  refine within_act (calm.keeps_unchanging unchanging_ask) fun found _ _ _ => ?_
  dsimp only
  split
  · exact within_pure _
  refine within_act (calm.keeps_note _ _) fun _ _ _ _ => ?_
  refine within_act (fun s => calm.support s _ _ _ _ _ permitted) fun _ _ _ _ => ?_
  have failing := calm.failFunction _ _ _ _ _ permitted
  refine within_bind (within_functionDecl calm wanted declares carrier module id failing inside)
    fun _ => ?_
  exact within_act (calm.registerFunction _ _ _ _ _ _ permitted) fun _ _ _ _ => within_pure _

/-- The actions of a node that is no closure keep what the other actions keep that change the state,
if this goes for the variables that the node declares, for the use of a variable and for the search
for a callee. Its visits stand where the node stands, if it is no block, or they are visits of
blocks. -/
theorem within_declaring (calm : Calm R may) {context : Context} {slot : Slot} {e : Expr}
    (registers : e.isBlock = true ∨ e.kind.Permitted may)
    (declares : ∀ scope name, e.kind.MayDeclare context.scope scope name →
      Keeps R (Walk.edit (ScopeTree.Edit.addVariable scope name)))
    (uses : ∀ name place flag, e.kind = .variableRef name place flag →
      Keeps R (Walk.variableUse context name))
    (calls : ∀ made, e.kind = .call made →
      Keeps R (Walk.callee context made.name.text (made.path.map Token.text)))
    (other : e.kindName ≠ "closure") :
    (node context slot e.span e.kind).Within R fun inner _ c => e.kind.Places context inner ∧
      (e.isBlock = false ∧ inner.scope = context.scope ∨ e.blockScope? = some inner.scope ∨
        c.isBlock = true) := by
  obtain ⟨kind, span, isRoot, enclosing⟩ := e
  cases kind
  case block expressions role scope =>
    exact (within_each (fun _ _ => ⟨rfl, .inr (.inl rfl)⟩) _ _).map _
  case closure attached parameters body captured id => exact absurd rfl other
  all_goals
    -- What is left is no block, so all that it registers is permitted.
    have self := registers.resolve_left (by simp [Expr.isBlock, Expr.blockScope?])
  case functionDecl access name parameters body module takesClosure id =>
    refine within_function calm (fun _ _ => ⟨trivial, .inl ⟨rfl, rfl⟩⟩) slot span self
      (fun scope block p member => declares _ _ (.taken (.parameter member rfl block)))
      (fun scope block takes => ?_) fun block _ _ => ⟨trivial, .inr (.inr block)⟩
    subst takes
    exact declares _ _ (.carrier block)
  all_goals
    -- No kind that is left has a visit elsewhere than in the scope of the node itself.
    have here : false = false ∧ context.scope = context.scope := ⟨rfl, rfl⟩
  case moduleDecl access name body =>
    refine within_act (calm.keeps_note _ _) fun _ _ _ _ => ?_
    refine within_act (calm.keeps_unchanging unchanging_blockScope) fun _ _ _ _ => ?_
    exact (within_enter ⟨rfl, .inl here⟩).map _
  case structDecl access name parameters module =>
    refine within_act (calm.keeps_note _ _) fun _ _ _ _ => ?_
    refine within_bind (within_parameterList (fun _ _ => ⟨rfl, .inl here⟩) calm _ _) fun _ => ?_
    refine within_act (calm.keeps_unchanging unchanging_checkFields) fun _ _ _ _ => ?_
    exact within_act (calm.registerStruct _ _ _ _ self) fun _ _ _ _ => within_pure _
  case letIn identifiers value scope =>
    refine within_act (calm.keeps_unchanging unchanging_checkBinding) fun _ _ _ _ => ?_
    refine within_visit ⟨rfl, .inl here⟩ fun _ => ?_
    exact within_act (calm.keeps_bindAll fun name member script => declares _ _ (.bound member script))
      fun _ _ _ _ => within_pure _
  case construct name path arguments target =>
    refine within_act (calm.keeps_unchanging unchanging_structTarget) fun _ _ _ _ => ?_
    refine within_act (calm.keeps_noteConstruction _ _) fun _ _ _ _ => ?_
    exact (within_each (fun _ _ => ⟨rfl, .inl here⟩) _ _).map _
  case ifElse condition thenBranch elseBranch =>
    refine within_visit ⟨rfl, .inl here⟩ fun _ => ?_
    refine within_visit ⟨rfl, .inl here⟩ fun _ => ?_
    exact (within_option (fun _ _ => ⟨rfl, .inl here⟩) _ _).map _
  case forEach identifiers value body =>
    refine within_visit ⟨rfl, .inl here⟩ fun _ => ?_
    refine within_act (calm.keeps_unchanging unchanging_blockScope) fun bodyScope _ _ given => ?_
    obtain ⟨found, -⟩ := gives_blockScope.mp given
    refine within_act (calm.keeps_declareAll _ fun name member =>
      declares _ _ (.taken (.item member found))) fun _ _ _ _ => ?_
    exact (within_enter ⟨rfl, .inl here⟩).map _
  case whileDo condition body =>
    refine within_visit ⟨rfl, .inl here⟩ fun _ => ?_
    refine within_act (calm.keeps_unchanging unchanging_blockScope) fun _ _ _ _ => ?_
    exact (within_enter ⟨rfl, .inl here⟩).map _
  case sequence form items =>
    exact (within_each (fun _ _ => ⟨rfl, .inl here⟩) _ _).map _
  case dictionary entries =>
    exact (within_pairs (fun _ _ => ⟨rfl, .inl here⟩) _).map _
  case keyword token value =>
    refine within_act (calm.keeps_note _ _) fun _ _ _ _ => ?_
    exact (within_option (fun _ _ => ⟨rfl, .inl here⟩) _ _).map _
  case binary left op right =>
    simp only [node]
    cases op.redirection? with
    | some redirection =>
      refine within_visit ⟨rfl, .inl here⟩ fun _ => ?_
      refine within_act (calm.keeps_unchanging unchanging_redirect) fun _ _ _ _ => ?_
      exact within_enter ⟨rfl, .inl here⟩
    | none =>
      refine within_act (calm.keeps_unchanging unchanging_checkAssign) fun _ _ _ _ => ?_
      refine within_visit ⟨rfl, .inl here⟩ fun _ => ?_
      exact (within_enter ⟨rfl, .inl here⟩).map _
  case unary op value => exact (within_enter ⟨rfl, .inl here⟩).map _
  case fieldAccess object field fieldValue =>
    refine within_visit ⟨rfl, .inl here⟩ fun _ => ?_
    exact within_act (calm.keeps_note _ _) fun _ _ _ _ => within_pure _
  case range lower upper inclusive =>
    refine within_bind (within_option (fun _ _ => ⟨rfl, .inl here⟩) _ _) fun _ => ?_
    exact (within_option (fun _ _ => ⟨rfl, .inl here⟩) _ _).map _
  case indexer value index =>
    refine within_visit ⟨rfl, .inl here⟩ fun _ => ?_
    exact (within_enter ⟨rfl, .inl here⟩).map _
  case typeRef name target =>
    exact within_act (calm.keeps_typeUse _ _) fun _ _ _ _ => within_pure _
  case variableRef name scope isCaptured =>
    exact within_act (uses _ _ _ rfl) fun _ _ _ _ => within_pure _
  case call made =>
    rw [node_call]
    exact within_act (calls _ rfl) fun callee _ _ _ =>
      within_called calm (fun _ _ => ⟨rfl, .inl here⟩) slot span _ callee
  case literal token value =>
    exact within_act (calm.keeps_literal _ _ _) fun _ _ _ _ => within_pure _
  case tryCatch body catches =>
    refine within_act (calm.keeps_unchanging unchanging_blockScope) fun _ _ _ _ => ?_
    refine within_visit ⟨rfl, .inl here⟩ fun _ => ?_
    refine (within_catchList (fun _ _ => ⟨rfl, .inl here⟩) calm _ _ ?_).map _
    exact fun clause member scope block name named => declares _ _ (.taken (.caught member named block))

/-- If all that a node declares is permitted, its visits stand where variables may be declared. -/
theorem within_calm (calm : Calm R may) {context : Context} {slot : Slot} {e : Expr}
    (permitted : e.PermittedHere may) (stands : e.MayStand may context.scope)
    (uses : ∀ name place flag, e.kind = .variableRef name place flag →
      Keeps R (Walk.variableUse context name))
    (calls : ∀ made, e.kind = .call made →
      Keeps R (Walk.callee context made.name.text (made.path.map Token.text)))
    (other : e.kindName ≠ "closure") :
    (node context slot e.span e.kind).Within R (Standing may e.kind context) := by
  have declares (scope : ScopeId) (name : String) (may' : e.kind.MayDeclare context.scope scope name) :
      Keeps R (Walk.edit (ScopeTree.Edit.addVariable scope name)) :=
    calm.declare scope name (permitted.declares stands may')
  refine (within_declaring calm (.inr permitted.self) declares uses calls other).mono ?_
  rintro inner slot c ⟨place, ⟨noBlock, same⟩ | own | block⟩
  · exact ⟨.inl (same ▸ stands.resolve_right (by simp [noBlock])), place⟩
  · obtain ⟨_, _, kind⟩ := Expr.kind_of_blockScope? own
    have self := permitted.self
    rw [kind] at self
    exact ⟨.inl self, place⟩
  · exact ⟨.inr block, place⟩

/-- The actions of a node that is no closure keep what the actions that change the state keep. -/
theorem within_other (settled : Settled R may)
    (carriers : ∀ s provider, (s.closureSupport.lookup provider).getD false = true →
      R s { s with carrierCaptured := provider :: s.carrierCaptured })
    {context : Context} {slot : Slot} {e : Expr} (permitted : e.PermittedHere may)
    (stands : e.MayStand may context.scope) (other : e.kindName ≠ "closure") :
    (node context slot e.span e.kind).Within R (Standing may e.kind context) :=
  within_calm settled.toCalm permitted stands (fun name _ _ _ => settled.keeps_variableUse context name)
    (fun _ _ => settled.keeps_callee carriers context _ _) other

/-- The actions of a closure keep a relation if those do at its start and at its end. -/
theorem within_opened (refl : ∀ s, R s s) {context : Context} {slot : Slot} {span : Span}
    {attached body : Expr} {parameters : List Token} {captured : NameSet} {id : Option ClosureId}
    (enter : ∀ scope, body.blockScope? = some scope →
      Keeps R (Walk.enterClosure context scope parameters captured))
    (propagate : ∀ inner, Keeps R (Walk.propagateCaptures inner context.enclosing))
    (expand : ∀ id made scope analysed, body.blockScope? = some scope →
      Keeps R (Walk.expandReference id made scope parameters analysed)) :
    (node context slot span (.closure attached parameters body captured id)).Within R
      fun inner _ _ => ExprKind.Places (.closure attached parameters body captured id) context inner ∧
        inner.scope = context.scope := by
  refine within_visit ⟨.inl rfl, rfl⟩ fun _ => ?_
  refine within_act (unchanging_attachedCall.keeps refl) fun _ _ _ _ => ?_
  refine within_act (unchanging_blockScope.keeps refl) fun bodyScope _ _ given => ?_
  obtain ⟨found, -⟩ := gives_blockScope.mp given
  refine within_act (enter _ found) fun _ _ _ _ => ?_
  refine within_visit ⟨.inr ⟨_, rfl⟩, rfl⟩ fun _ => ?_
  refine within_act (propagate _) fun _ _ _ _ => ?_
  refine within_act (expand _ _ _ _ found) fun _ _ _ _ => ?_
  exact within_act (unchanging_frame.keeps refl) fun _ _ _ _ => within_pure _

/-- The actions of a closure keep what the actions that change the state keep, if it is opened and
expanded by actions that do. -/
theorem within_closure (settled : Settled R may)
    (enter : ∀ context scope parameters captured, may.scope scope →
      Keeps R (Walk.enterClosure context scope parameters captured))
    (expand : ∀ id attached scope parameters body, may.scope scope →
      Keeps R (Walk.expandReference id attached scope parameters body))
    {context : Context} {slot : Slot} {e : Expr} (permitted : e.PermittedHere may)
    (stands : e.MayStand may context.scope) (closure : e.kindName = "closure") :
    (node context slot e.span e.kind).Within R (Standing may e.kind context) := by
  obtain ⟨attached, parameters, body, captured, id, kind⟩ := Expr.closure_of_kindName closure
  obtain ⟨_, span, isRoot, enclosing⟩ := e
  cases kind
  have allowed : may.scope context.scope :=
    stands.resolve_right (by simp [Expr.isBlock, Expr.blockScope?])
  have owned (scope : ScopeId) (block : body.blockScope? = some scope) : may.scope scope :=
    permitted.blocks body (by simp [Expr.children, ExprKind.children]) scope block
  refine (within_opened settled.refl (fun scope block => enter _ _ _ _ (owned scope block))
    (fun inner => settled.keeps_propagateCaptures inner _)
    fun _ _ scope _ block => expand _ _ _ _ _ (owned scope block)).mono ?_
  rintro inner slot c ⟨place, same⟩
  exact ⟨.inl (same ▸ allowed), place⟩

/-- The actions of a node keep what the actions that change the state keep, and its visits stand
where variables may be declared. -/
theorem within_node (kept : Preserved R may) {context : Context} {slot : Slot} {e : Expr}
    (permitted : e.PermittedHere may) (stands : e.MayStand may context.scope) :
    (node context slot e.span e.kind).Within R (Standing may e.kind context) := by
  by_cases closure : e.kindName = "closure"
  · exact within_closure kept.toSettled kept.enter kept.expand permitted stands closure
  · exact within_other kept.toSettled kept.carriers permitted stands closure

end Plan

/-! ### The walk over an expression -/

/-- The visits of the plan of an expression are visits of its subexpressions. -/
theorem Preserved.within_children {R : AnalysisState → AnalysisState → Prop} {may : Permit}
    (kept : Preserved R may) {context : Context} {slot : Slot} {e : Expr}
    (permitted : e.Permitted may) (stands : e.MayStand may context.scope) :
    (Plan.node context slot e.span e.kind).Within R
      fun inner slot c => Standing may e.kind context inner slot c ∧ c ∈ e.children :=
  (Plan.within_node kept permitted.here stands).follow (Plan.follows_node ..)

/-- The walk over an expression changes nothing besides what the walk over its node changes. -/
theorem keeps_expr_of_node {R : AnalysisState → AnalysisState → Prop} (refl : ∀ s, R s s)
    (trans : ∀ r s t, R r s → R s t → R r t) {context : Context} {slot : Slot} {e : Expr}
    (node : Keeps R (Walk.node context slot e.span e.kind)) : Keeps R (Walk.expr context slot e) := by
  obtain ⟨kind, span, isRoot, enclosing⟩ := e
  simp only [Walk.expr]
  refine keeps_bind trans (keeps_tryCatch trans ?_ fun halt => ?_) fun _ => ?_
  · split
    · exact node
    · exact unchanging_fail.keeps refl
  · cases halt <;> exact keeps_throw refl _
  · exact keeps_pure refl _

/-- The walk over an expression keeps a relation, also when it halts. -/
theorem Preserved.keeps_expr {R : AnalysisState → AnalysisState → Prop} {may : Permit}
    (kept : Preserved R may) {e : Expr} :
    ∀ {context : Context} {slot : Slot}, e.Permitted may → e.MayStand may context.scope →
      Keeps R (Walk.expr context slot e) := by
  induction e using Expr.induction with
  | inherited e ih =>
    intro context slot permitted stands
    have node : Keeps R (Walk.node context slot e.span e.kind) := by
      rw [Plan.node_eq_run]
      refine (kept.within_children permitted stands).keeps_run kept.refl kept.trans ?_
      rintro inner slot c ⟨wanted, child⟩
      exact ih c child (permitted.child child) wanted.1
    exact keeps_expr_of_node kept.refl kept.trans node

/-- A list of expressions is walked over like its members. -/
theorem Preserved.keeps_exprs {R : AnalysisState → AnalysisState → Prop} {may : Permit}
    (kept : Preserved R may) {context : Context} (allowed : may.scope context.scope)
    (es : List Expr) (permitted : ∀ e ∈ es, e.Permitted may) :
    Keeps R (Walk.exprs context es) := by
  rw [← Plan.run_each]
  have within : (Plan.each context Expr.slot es).Within R fun inner _ _ => inner = context :=
    Plan.within_each (fun _ _ => rfl) _ es
  refine (within.follow (Plan.follows_each ..)).keeps_run kept.refl kept.trans ?_
  rintro _ slot e ⟨rfl, member⟩
  exact kept.keeps_expr (permitted e member) (.inl allowed)

namespace Visit

variable {R : AnalysisState → AnalysisState → Prop} {may : Permit}

/-- What a visit has to satisfy for relations between states to be kept in its course. -/
structure Allowed (may : Permit) (v : Visit) : Prop where
  permitted : v.source.Permitted may
  stands : v.source.MayStand may v.context.scope

/-- A visit of a subexpression starts from a related state. -/
theorem Allowed.enters (kept : Preserved R may) {v w : Visit} (allowed : v.Allowed may)
    (entered : v.Enters w) : w.Allowed may ∧ w.source ∈ v.source.children ∧
      v.source.kind.Places v.context w.context ∧ R v.before w.before := by
  obtain ⟨⟨⟨stands, place⟩, child⟩, related⟩ :=
    (kept.within_children allowed.permitted allowed.stands).enters kept.refl kept.trans
      (fun _ _ _ wanted given =>
        (kept.keeps_expr (allowed.permitted.child wanted.2) wanted.1.1).of_gives given) entered.2
  exact ⟨⟨allowed.permitted.child child, stands⟩, child, place, related⟩

/-- The walk over an expression ends in a state that is related to the one in which the visit of a
subexpression ended. -/
theorem Allowed.leaves (kept : Preserved R may) {v w : Visit} (allowed : v.Allowed may)
    (entered : v.Enters w) {r r' : Expr} {t t' : AnalysisState} (left : w.Gives r t)
    (whole : v.Gives r' t') : R t t' := by
  obtain ⟨_, made, carried, -⟩ := gives_iff.mp whole
  refine (kept.within_children allowed.permitted allowed.stands).leaves kept.refl kept.trans ?_
    entered.2 left carried
  intro w r t wanted given
  exact (kept.keeps_expr (allowed.permitted.child wanted.2) wanted.1.1).of_gives given

end Visit
end ShellSema
