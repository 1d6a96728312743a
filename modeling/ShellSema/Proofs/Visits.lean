import Mathlib.Logic.Relation
import ShellSema.Proofs.Trees
import ShellSema.Proofs.Plan

/-!
# The visits of a walk

A visit is the walk over one expression from the state that the walk has reached there. Statements
about a moment of the analysis are statements about a visit: the plan of an expression tells which
visits it enters and from which state each of them starts.
-/
namespace ShellSema

/-- The walk over an expression: where it stands, and the state from which it starts. -/
structure Visit where
  context : Context
  slot : Slot
  source : Expr
  before : AnalysisState

/-- The subexpressions that a walk may visit. What an earlier analysis has piped into a call is none of
them. -/
def ExprKind.walked : ExprKind → List Expr
  | .call made => made.arguments ++ made.environment.map Prod.snd
  | kind => kind.children

theorem ExprKind.walked_suffix (kind : ExprKind) : kind.walked <:+ kind.children := by
  cases kind
  case call made =>
    rw [children, Call.children, List.append_assoc]
    exact List.suffix_append _ _
  all_goals exact List.suffix_refl _

/-- What is piped into the call at a node. -/
def Expr.piped? (e : Expr) : Option Expr := e.call?.bind Call.piped

theorem Expr.children_eq_piped (e : Expr) : e.children = e.piped?.toList ++ e.kind.walked := by
  obtain ⟨kind, span, isRoot, enclosing⟩ := e
  cases kind
  case call made => exact List.append_assoc ..
  all_goals rfl

namespace Plan

variable {α β : Type}

/-- The plan, carried out from a state, comes to a visit of its own. -/
def Enters : {α : Type} → Plan α → AnalysisState → Visit → Prop
  | _, .done _, _, _ => False
  | _, .act action next, s, v => ∃ b t, Gives action s b t ∧ (next b).Enters t v
  | _, .visit context slot e next, s, v =>
    v = ⟨context, slot, e, s⟩ ∨ ∃ r t, Gives (Walk.expr context slot e) s r t ∧ (next r).Enters t v
  | _, .guarded _ inner next, s, v =>
    inner.Enters s v ∨ ∃ b t, Gives inner.run s b t ∧ (next b).Enters t v

/-- The visits that follow on an action. -/
def visitsAfter (action : Walk α) (s : AnalysisState) (next : α → AnalysisState → List Visit) :
    List Visit :=
  match runFrom action s with
  | (.ok b, t) => next b t
  | (.error _, _) => []

/-- The visits to which the plan comes, in their order. -/
def visits : {α : Type} → Plan α → AnalysisState → List Visit
  | _, .done _, _ => []
  | _, .act action next, s => visitsAfter action s fun b t => (next b).visits t
  | _, .visit context slot e next, s =>
    ⟨context, slot, e, s⟩ :: visitsAfter (Walk.expr context slot e) s fun r t => (next r).visits t
  | _, .guarded _ inner next, s =>
    inner.visits s ++ visitsAfter inner.run s fun b t => (next b).visits t

/-- Every visit is to the next expression of a list or to one further on. -/
def Follows : {α : Type} → List Expr → Plan α → Prop
  | _, _, .done _ => True
  | _, es, .act _ next => ∀ b, (next b).Follows es
  | _, es, .visit _ _ e next => ∃ rest, e :: rest <:+ es ∧ ∀ r, (next r).Follows rest
  | _, es, .guarded _ inner next =>
    ∃ first rest, es = first ++ rest ∧ inner.Follows first ∧ ∀ b, (next b).Follows rest

theorem mem_visitsAfter {action : Walk α} {s : AnalysisState}
    {next : α → AnalysisState → List Visit} {v : Visit} :
    v ∈ visitsAfter action s next ↔ ∃ b t, Gives action s b t ∧ v ∈ next b t := by
  unfold visitsAfter Gives
  rcases runFrom action s with ⟨_ | b, t⟩
  · simp
  · simp only [Prod.mk.injEq, Except.ok.injEq]
    constructor
    · exact fun member => ⟨b, t, ⟨rfl, rfl⟩, member⟩
    · rintro ⟨_, _, ⟨rfl, rfl⟩, member⟩
      exact member

/-- The visits of a plan can be listed. -/
theorem mem_visits {p : Plan α} {s : AnalysisState} {v : Visit} :
    v ∈ p.visits s ↔ p.Enters s v := by
  induction p generalizing s with
  | done a => exact iff_of_false List.not_mem_nil id
  | act action next ih => simp only [visits, Enters, mem_visitsAfter, ih]
  | visit context slot e next ih =>
    simp only [visits, Enters, List.mem_cons, mem_visitsAfter, ih]
  | guarded id inner next innerIh ih =>
    simp only [visits, Enters, List.mem_append, mem_visitsAfter, innerIh, ih]

/-! ### Entering visits -/

@[simp] theorem enters_pure {a : α} {s : AnalysisState} {v : Visit} :
    (pure a : Plan α).Enters s v ↔ False := Iff.rfl

@[simp] theorem enters_lift {action : Walk α} {s : AnalysisState} {v : Visit} :
    (liftM action : Plan α).Enters s v ↔ False := by
  constructor
  · rintro ⟨_, _, _, impossible⟩
    exact impossible
  · exact False.elim

@[simp] theorem enters_enter {context : Context} {slot : Slot} {e : Expr} {s : AnalysisState}
    {v : Visit} : (enter context slot e).Enters s v ↔ v = ⟨context, slot, e, s⟩ := by
  constructor
  · rintro (same | ⟨_, _, _, impossible⟩)
    · exact same
    · exact impossible.elim
  · exact .inl

@[simp] theorem gives_orFailFunction {id : FunctionId} {action : Walk α} {s t : AnalysisState}
    {a : α} : Gives (Walk.orFailFunction id action) s a t ↔ Gives action s a t := by
  refine gives_tryCatch fun halt s a t => ?_
  cases halt <;> simp

@[simp] theorem enters_guard {id : FunctionId} {inner : Plan α} {s : AnalysisState} {v : Visit} :
    (guard id inner).Enters s v ↔ inner.Enters s v := by
  constructor
  · rintro (entered | ⟨_, _, _, impossible⟩)
    · exact entered
    · exact impossible.elim
  · exact .inl

/-- What an action in two parts gives is given by the second part, from where the first one ends. -/
theorem exists_gives_bind {action : Walk α} {next : α → Walk β} {s : AnalysisState}
    {P : β → AnalysisState → Prop} :
    (∃ b t, Gives (action >>= next) s b t ∧ P b t) ↔
      ∃ a r, Gives action s a r ∧ ∃ b t, Gives (next a) r b t ∧ P b t := by
  simp only [gives_bind]
  constructor
  · rintro ⟨b, t, ⟨a, r, first, second⟩, holds⟩
    exact ⟨a, r, first, b, t, second, holds⟩
  · rintro ⟨a, r, first, b, t, second, holds⟩
    exact ⟨b, t, ⟨a, r, first, second⟩, holds⟩

@[simp] theorem enters_bind {p : Plan α} {next : α → Plan β} {s : AnalysisState} {v : Visit} :
    (p >>= next).Enters s v ↔
      p.Enters s v ∨ ∃ a t, Gives p.run s a t ∧ (next a).Enters t v := by
  change (p.bind next).Enters s v ↔ _
  induction p generalizing s with
  | done a =>
    constructor
    · exact fun entered => .inr ⟨a, s, by simp [run], entered⟩
    · rintro (impossible | ⟨_, _, gives, entered⟩)
      · exact impossible.elim
      · obtain ⟨rfl, rfl⟩ := gives_pure.mp gives
        exact entered
  | act action rest ih =>
    simp only [bind, run, Enters, exists_gives_bind, ih, and_or_left, exists_or]
  | visit context slot e rest ih =>
    simp only [bind, run, Enters, exists_gives_bind, ih, and_or_left, exists_or, or_assoc]
  | guarded id inner rest _ ih =>
    simp only [bind, run, Enters, exists_gives_bind, gives_orFailFunction, ih, and_or_left,
      exists_or, or_assoc]

/-! ### Following a list of expressions -/

theorem Follows.mono {p : Plan α} {es fs : List Expr} (follows : p.Follows es)
    (suffix : es <:+ fs) : p.Follows fs := by
  induction p generalizing es fs with
  | done => trivial
  | act action next ih => exact fun b => ih b (follows b) suffix
  | visit context slot e next ih =>
    obtain ⟨rest, found, others⟩ := follows
    exact ⟨rest, found.trans suffix, others⟩
  | guarded id inner next innerIh _ =>
    obtain ⟨first, rest, rfl, inside, others⟩ := follows
    obtain ⟨skipped, rfl⟩ := suffix
    exact ⟨skipped ++ first, rest, by simp, innerIh inside (List.suffix_append _ _), others⟩

theorem follows_pure (a : α) : (pure a : Plan α).Follows [] := trivial

theorem follows_lift (action : Walk α) : (liftM action : Plan α).Follows [] := fun _ => trivial

theorem follows_enter (context : Context) (slot : Slot) (e : Expr) :
    (enter context slot e).Follows [e] :=
  ⟨[], List.suffix_refl _, fun _ => trivial⟩

theorem follows_guard {id : FunctionId} {inner : Plan α} {es : List Expr}
    (follows : inner.Follows es) : (guard id inner).Follows es :=
  ⟨es, [], by simp, follows, fun _ => trivial⟩

theorem follows_bind {p : Plan α} {next : α → Plan β} {es fs : List Expr} (first : p.Follows es)
    (rest : ∀ a, (next a).Follows fs) : (p >>= next).Follows (es ++ fs) := by
  change (p.bind next).Follows (es ++ fs)
  induction p generalizing es with
  | done a => exact (rest a).mono (List.suffix_append _ _)
  | act action others ih => exact fun b => ih b (first b) rest
  | visit context slot e others ih =>
    obtain ⟨ahead, found, after⟩ := first
    obtain ⟨skipped, rfl⟩ := found
    exact ⟨ahead ++ fs, ⟨skipped, by simp⟩, fun r => ih r (after r) rest⟩
  | guarded id inner others _ ih =>
    obtain ⟨inside, ahead, rfl, within, after⟩ := first
    exact ⟨inside, ahead ++ fs, by simp, within, fun b => ih b (after b) rest⟩

/-- An action of the node itself comes before the visits. -/
theorem follows_act {action : Walk α} {next : α → Plan β} {es : List Expr}
    (rest : ∀ a, (next a).Follows es) : (liftM action >>= next).Follows es :=
  follows_bind (follows_lift action) rest

/-- Nothing is left to visit after the last visit. -/
theorem Follows.finish {p : Plan α} {next : α → Plan β} {es : List Expr} (first : p.Follows es)
    (rest : ∀ a, (next a).Follows []) : (p >>= next).Follows es := by
  simpa using follows_bind first rest

theorem Follows.map {p : Plan α} {es : List Expr} (follows : p.Follows es) (f : α → β) :
    (p >>= fun a => pure (f a)).Follows es :=
  follows.finish fun _ => follows_pure _

theorem follows_visit {context : Context} {slot : Slot} {e : Expr} {next : Expr → Plan β}
    {es : List Expr} (rest : ∀ r, (next r).Follows es) :
    (enter context slot e >>= next).Follows (e :: es) :=
  follows_bind (follows_enter ..) rest

theorem follows_each (context : Context) (slot : Expr → Slot) (es : List Expr) :
    (each context slot es).Follows es := by
  induction es with
  | nil => exact follows_pure _
  | cons e es ih => exact follows_visit fun _ => ih.map _

theorem follows_option (context : Context) (isRoot : Option Bool) (e : Option Expr) :
    (option context isRoot e).Follows e.toList := by
  cases e with
  | none => exact follows_pure _
  | some e => exact (follows_enter ..).map _

theorem follows_pairs (context : Context) (entries : List (Expr × Expr)) :
    (pairs context entries).Follows (entries.flatMap fun entry => [entry.1, entry.2]) := by
  induction entries with
  | nil => exact follows_pure _
  | cons entry entries ih =>
    obtain ⟨key, value⟩ := entry
    change Follows ([key] ++ ([value] ++ entries.flatMap fun entry => [entry.1, entry.2])) _
    exact follows_visit fun _ => follows_visit fun _ => ih.map _

theorem follows_environmentValues (context : Context) (entries : List (String × Expr)) :
    (environmentValues context entries).Follows (entries.map Prod.snd) := by
  induction entries with
  | nil => exact follows_pure _
  | cons entry entries ih => exact follows_visit fun _ => ih.map _

theorem follows_parameterList (context : Context) (seenDefault : Bool)
    (parameters : List Parameter) :
    (parameterList context seenDefault parameters).Follows
      (parameters.flatMap Parameter.children) := by
  induction parameters generalizing seenDefault with
  | nil => exact follows_pure _
  | cons parameter rest ih =>
    obtain ⟨name, default?, isVariadic⟩ := parameter
    refine follows_act fun _ => follows_act fun _ => ?_
    cases default? with
    | none => exact follows_act fun _ => (ih seenDefault).map _
    | some value => exact follows_act fun _ => follows_visit fun _ => (ih true).map _

theorem follows_catchList (context : Context) (isRoot : Bool) (catches : List Catch) :
    (catchList context isRoot catches).Follows (catches.flatMap Catch.children) := by
  induction catches with
  | nil => exact follows_pure _
  | cons clause rest ih =>
    obtain ⟨identifier, typeRef, body⟩ := clause
    simp only [List.flatMap_cons, Catch.children, List.append_assoc]
    exact follows_bind (follows_option ..) fun _ => follows_act fun _ => follows_act fun _ =>
      follows_visit fun _ => ih.map _

theorem follows_functionDecl (context : Context) (parameters : List Parameter) (body : Expr)
    (module : ModuleId) (takesClosure : Bool) (id : FunctionId) :
    (functionDecl context parameters body module takesClosure id).Follows
      (parameters.flatMap Parameter.children ++ [body]) := by
  apply follows_guard
  exact follows_bind (follows_parameterList ..) fun _ => follows_act fun _ => follows_act fun _ =>
    follows_act fun _ => (follows_enter ..).map _

/-- The subexpressions of a node that are visited are visited in the order of the source, each at most
once. -/
theorem follows_walked (context : Context) (slot : Slot) (span : Span) (kind : ExprKind) :
    (node context slot span kind).Follows kind.walked := by
  cases kind with
  | moduleDecl access name body =>
    exact follows_act fun _ => follows_act fun _ => (follows_enter ..).map _
  | structDecl access name parameters module =>
    exact follows_act fun _ => (follows_parameterList ..).finish fun _ => follows_act fun _ =>
      follows_act fun _ => follows_pure _
  | functionDecl access name parameters body module takesClosure id =>
    refine follows_act fun _ => ?_
    dsimp only
    split
    -- Nothing in a function that has been met before is visited.
    · exact (follows_pure _).mono (List.nil_suffix ..)
    refine follows_act fun _ => follows_act fun _ => ?_
    exact (follows_functionDecl ..).finish fun _ => follows_act fun _ => follows_pure _
  | letIn identifiers value scope =>
    exact follows_act fun _ => (follows_enter ..).finish fun _ => follows_act fun _ => follows_pure _
  | construct name path arguments target =>
    exact follows_act fun _ => follows_act fun _ => (follows_each ..).map _
  | ifElse condition thenBranch elseBranch =>
    exact follows_visit fun _ => follows_visit fun _ => (follows_option ..).map _
  | forEach identifiers value body =>
    exact follows_visit fun _ => follows_act fun _ => follows_act fun _ => (follows_enter ..).map _
  | whileDo condition body =>
    exact follows_visit fun _ => follows_act fun _ => (follows_enter ..).map _
  | sequence form items => exact (follows_each ..).map _
  | dictionary entries => exact (follows_pairs ..).map _
  | block expressions role scope => exact (follows_each ..).map _
  | keyword token value => exact follows_act fun _ => (follows_option ..).map _
  | binary left op right =>
    simp only [node]
    cases op.redirection? with
    | some redirection =>
      exact follows_visit fun _ => follows_act fun _ => follows_enter ..
    | none => exact follows_act fun _ => follows_visit fun _ => (follows_enter ..).map _
  | unary op value => exact (follows_enter ..).map _
  | fieldAccess object field fieldValue =>
    exact (follows_enter ..).finish fun _ => follows_act fun _ => follows_pure _
  | range lower upper inclusive =>
    exact follows_bind (follows_option ..) fun _ => (follows_option ..).map _
  | indexer value index => exact follows_visit fun _ => (follows_enter ..).map _
  | typeRef name target => exact follows_act fun _ => follows_pure _
  | variableRef name scope isCaptured => exact follows_act fun _ => follows_pure _
  | call made =>
    obtain ⟨name, path, arguments, piped, environment, mode, findings⟩ := made
    exact follows_act fun _ => follows_act fun _ => follows_bind (follows_each ..) fun _ =>
      follows_act fun _ => follows_act fun _ => (follows_environmentValues ..).map _
  | literal token value => exact follows_act fun _ => follows_pure _
  | closure attached parameters body captured id =>
    exact follows_visit fun _ => follows_act fun _ => follows_act fun _ =>
      follows_act fun _ => (follows_enter ..).finish fun _ => follows_act fun _ =>
        follows_act fun _ => follows_act fun _ => follows_pure _
  | tryCatch body catches =>
    exact follows_act fun _ => follows_visit fun _ => (follows_catchList ..).map _

theorem follows_node (context : Context) (slot : Slot) (span : Span) (kind : ExprKind) :
    (node context slot span kind).Follows kind.children :=
  (follows_walked context slot span kind).mono kind.walked_suffix

end Plan

/-! ### The walk over an expression -/

theorem gives_locate {α : Type} {span : Span} {action : Walk α} {s t : AnalysisState} {a : α} :
    Gives (Walk.locate span action) s a t ↔ Gives action s a t := by
  refine gives_tryCatch fun halt s a t => ?_
  cases halt <;> simp

@[simp] theorem gives_fail {α : Type} {cause : ErrorCause} {s t : AnalysisState} {a : α} :
    Gives (Walk.fail cause : Walk α) s a t ↔ False := gives_throw

@[simp] theorem gives_failAt {α : Type} {cause : ErrorCause} {span : Span} {s t : AnalysisState}
    {a : α} : Gives (Walk.failAt cause span : Walk α) s a t ↔ False := gives_throw

@[simp] theorem gives_crash {α : Type} {crash : Crash} {s t : AnalysisState} {a : α} :
    Gives (Walk.crash crash : Walk α) s a t ↔ False := gives_throw

@[simp] theorem gives_ask {α : Type} {question : ScopeTree → Except ScopeTree.Fault α}
    {s t : AnalysisState} {a : α} :
    Gives (Walk.ask question) s a t ↔ question s.tree = .ok a ∧ t = s := by
  simp only [Walk.ask, gives_bind, gives_get]
  constructor
  · rintro ⟨_, _, ⟨rfl, rfl⟩, given⟩
    split at given
    next answer answered =>
      obtain ⟨rfl, rfl⟩ := gives_pure.mp given
      exact ⟨answered, rfl⟩
    next => exact (gives_crash.mp given).elim
  · rintro ⟨answered, rfl⟩
    exact ⟨t, t, ⟨rfl, rfl⟩, by simp [answered]⟩

theorem gives_frame {id : ClosureId} {s t : AnalysisState} {frame : ClosureFrame} :
    Gives (Walk.frame id) s frame t ↔ s.closures[id.index]? = some frame ∧ t = s := by
  simp only [Walk.frame, gives_bind, gives_get]
  constructor
  · rintro ⟨_, _, ⟨rfl, rfl⟩, given⟩
    split at given
    next frame found =>
      obtain ⟨rfl, rfl⟩ := gives_pure.mp given
      exact ⟨found, rfl⟩
    next => exact (gives_crash.mp given).elim
  · rintro ⟨found, rfl⟩
    exact ⟨t, t, ⟨rfl, rfl⟩, by simp [found]⟩

theorem gives_blockScope {e : Expr} {s t : AnalysisState} {scope : ScopeId} :
    Gives (Walk.blockScope e) s scope t ↔ e.blockScope? = some scope ∧ t = s := by
  unfold Walk.blockScope
  cases e.blockScope? with
  | some found => simp [eq_comm]
  | none => simp

theorem gives_attachedCall {e : Expr} {s t : AnalysisState} {made : Call} :
    Gives (Walk.attachedCall e) s made t ↔ e.call? = some made ∧ t = s := by
  unfold Walk.attachedCall
  cases e.call? with
  | some found => simp [eq_comm]
  | none => simp

/-- A name of the environment is only noted. Any other one is seen where it is used, and may be
captured there. -/
theorem gives_variableUse {context : Context} {name : Token} {kind : ExprKind}
    {s t : AnalysisState} :
    Gives (Walk.variableUse context name) s kind t ↔
      (name.isEnvironmentName = true ∧ kind = .variableRef name (some context.scope) false ∧
        Gives (Walk.note name.span .environmentVariable) s () t) ∨
      (name.isEnvironmentName = false ∧ s.tree.isVisible context.scope name.text = .ok true ∧
        ∃ isCaptured u, kind = .variableRef name (some context.scope) isCaptured ∧
          Gives (Walk.captureName context name.text) s isCaptured u ∧
          Gives (Walk.note name.span .variableName) u () t) := by
  unfold Walk.variableUse
  cases name.isEnvironmentName with
  | true =>
    simp only [if_true, gives_bind, gives_pure, true_and, Bool.true_eq_false, false_and, or_false]
    constructor
    · rintro ⟨_, _, noted, rfl, rfl⟩
      exact ⟨rfl, noted⟩
    · rintro ⟨rfl, noted⟩
      exact ⟨(), t, noted, rfl, rfl⟩
  | false =>
    simp only [Bool.false_eq_true, if_false, gives_bind, gives_ask, false_and, false_or, true_and]
    constructor
    · rintro ⟨visible, _, ⟨asked, rfl⟩, given⟩
      -- A name that no scope around declares is an error.
      cases visible with
      | false => simp at given
      | true =>
        simp only [Bool.not_true, Bool.false_eq_true, if_false, gives_bind, gives_pure] at given
        obtain ⟨isCaptured, u, caught, _, _, noted, rfl, rfl⟩ := given
        exact ⟨asked, isCaptured, u, rfl, caught, noted⟩
    · rintro ⟨asked, isCaptured, u, rfl, caught, noted⟩
      refine ⟨true, s, ⟨asked, rfl⟩, ?_⟩
      simp only [Bool.not_true, Bool.false_eq_true, if_false, gives_bind, gives_pure]
      exact ⟨isCaptured, u, caught, (), t, noted, rfl, rfl⟩

/-- The walk over an expression carries out the plan of its kind and marks the result. -/
theorem gives_expr {context : Context} {slot : Slot} {e r : Expr} {s t : AnalysisState} :
    Gives (Walk.expr context slot e) s r t ↔
      slot.admits e.kind = true ∧ ∃ made,
        Gives (Plan.node context slot e.span e.kind).run s made t ∧
          r = { made with enclosing := context.enclosing } := by
  obtain ⟨kind, span, isRoot, enclosing⟩ := e
  simp only [Walk.expr, gives_bind, gives_locate, gives_pure, Plan.node_eq_run]
  by_cases admitted : slot.admits kind = true
  · simp only [admitted, if_true, true_and]
    constructor
    · rintro ⟨made, _, gives, rfl, rfl⟩
      exact ⟨made, gives, rfl⟩
    · rintro ⟨made, gives, rfl⟩
      exact ⟨made, t, gives, rfl, rfl⟩
  · simp [admitted]

namespace Visit

def plan (v : Visit) : Plan Expr := Plan.node v.context v.slot v.source.span v.source.kind

/-- The visit ends without a halt: with a result, and in a state. -/
def Gives (v : Visit) (result : Expr) (after : AnalysisState) : Prop :=
  ShellSema.Gives (Walk.expr v.context v.slot v.source) v.before result after

/-- The state that the visit leaves, however it ends. -/
def after (v : Visit) : AnalysisState := (runFrom (Walk.expr v.context v.slot v.source) v.before).2

/-- In the course of the first visit, the second one is a visit of a subexpression. -/
def Enters (v w : Visit) : Prop :=
  v.slot.admits v.source.kind = true ∧ v.plan.Enters v.before w

/-- The visits of subexpressions in the course of a visit. -/
def visits (v : Visit) : List Visit :=
  if v.slot.admits v.source.kind then v.plan.visits v.before else []

theorem enters_of_mem_visits {v w : Visit} (member : w ∈ v.visits) : v.Enters w := by
  unfold visits at member
  split at member
  next admitted => exact ⟨admitted, Plan.mem_visits.mp member⟩
  next => exact absurd member List.not_mem_nil

/-- The second visit is part of the first. -/
def Reaches : Visit → Visit → Prop := Relation.ReflTransGen Enters

theorem after_of_gives {v : Visit} {r : Expr} {t : AnalysisState} (given : v.Gives r t) :
    v.after = t :=
  congrArg Prod.snd given

/-- To place an error changes nothing else. -/
theorem state_expr (context : Context) (slot : Slot) (e : Expr) (s : AnalysisState) :
    (runFrom (Walk.expr context slot e) s).2 = if slot.admits e.kind then
      (runFrom (Plan.node context slot e.span e.kind).run s).2 else s := by
  obtain ⟨kind, span, isRoot, enclosing⟩ := e
  have placed (action : Walk Expr) : (runFrom (do
      let analysed ← Walk.locate span action
      return { analysed with enclosing := context.enclosing } : Walk Expr) s).2 =
        (runFrom action s).2 := by
    unfold Walk.locate
    rw [runFrom_bind, runFrom_tryCatch]
    rcases runFrom action s with ⟨halt | made, t⟩
    · cases halt <;> rfl
    · rfl
  simp only [Walk.expr, placed, Plan.node_eq_run]
  split <;> rfl

theorem after_of_admitted {v : Visit} (admitted : v.slot.admits v.source.kind = true) :
    v.after = (runFrom v.plan.run v.before).2 := by
  rw [after, state_expr, if_pos admitted, plan]

theorem after_of_refused {v : Visit} (refused : ¬ v.slot.admits v.source.kind = true) :
    v.after = v.before := by
  rw [after, state_expr, if_neg refused]

theorem gives_iff {v : Visit} {result : Expr} {after : AnalysisState} :
    v.Gives result after ↔
      v.slot.admits v.source.kind = true ∧ ∃ made, ShellSema.Gives v.plan.run v.before made after ∧
        result = { made with enclosing := v.context.enclosing } :=
  gives_expr

/-- In a walk that does not halt, no visit halts. -/
theorem gives_of_planEnters {α : Type} {p : Plan α} {s u : AnalysisState} {a : α} {v : Visit}
    (entered : p.Enters s v) (whole : ShellSema.Gives p.run s a u) : ∃ r t, v.Gives r t := by
  induction p generalizing s u with
  | done a => exact entered.elim
  -- An action gives one result from one state, so the visit is part of this very run.
  | act action next ih =>
    obtain ⟨b, s', given, entered⟩ := entered
    obtain ⟨b', s'', given', rest⟩ := gives_bind.mp whole
    obtain ⟨rfl, rfl⟩ := given.unique given'
    exact ih b entered rest
  | visit context slot e next ih =>
    obtain ⟨b', s'', given', rest⟩ := gives_bind.mp whole
    obtain rfl | ⟨b, s', given, entered⟩ := entered
    · exact ⟨b', s'', given'⟩
    · obtain ⟨rfl, rfl⟩ := given.unique given'
      exact ih b entered rest
  | guarded id inner next innerIh ih =>
    obtain ⟨b', s'', given', rest⟩ := gives_bind.mp whole
    have given' := Plan.gives_orFailFunction.mp given'
    obtain entered | ⟨b, s', given, entered⟩ := entered
    · exact innerIh entered given'
    · obtain ⟨rfl, rfl⟩ := given.unique given'
      exact ih b entered rest

theorem gives_of_enters {v w : Visit} (entered : v.Enters w) {r : Expr} {t : AnalysisState}
    (given : v.Gives r t) : ∃ r' t', w.Gives r' t' := by
  obtain ⟨-, made, carried, -⟩ := gives_iff.mp given
  exact gives_of_planEnters entered.2 carried

end Visit
end ShellSema
