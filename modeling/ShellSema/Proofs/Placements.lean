import ShellSema.Proofs.Bodies
import ShellSema.Proofs.Results

/-!
# Where results are placed

The result of every visit has its place in the result of the visit that enters it. Most nodes hold the
results of their visits as parts. A pipe hands the result of its left side over to its right side, and a
closure expands its body, so of these it is said which nodes are still enclosed in the end.
-/
namespace ShellSema

/-! ### Parts that are told how they are run -/

/-- The first expression is a part of the node, apart from how it is run if it is a call. -/
def Expr.Takes (made r : Expr) : Prop :=
  ∃ change, Call.OnlyMode change ∧ r.mapCall change ∈ made.children

theorem Expr.takes_of_mem {made r : Expr} (member : r ∈ made.children) : made.Takes r :=
  ⟨id, Call.onlyMode_id, by rwa [Expr.mapCall_id]⟩

/-- What is piped into a call and what it is called with are both held by the call in the end. -/
theorem Walk.mem_placed (callee : Callee) (piped : Option Expr) (arguments : List Expr) {old : Expr}
    (given : piped = some old ∨ old ∈ arguments) :
    ∃ change, Call.OnlyMode change ∧ old.mapCall change ∈
      (Walk.placePiped callee piped arguments).2.toList ++
        Walk.holdProcesses callee (Walk.placePiped callee piped arguments).1 := by
  obtain ⟨hold, held, same⟩ := Walk.holdProcesses_eq callee (Walk.placePiped callee piped arguments).1
  rw [same]
  cases piped with
  | none =>
    have argument : old ∈ arguments := given.resolve_left (by simp)
    refine ⟨hold, held, ?_⟩
    simpa [Walk.placePiped] using List.mem_map_of_mem argument
  | some left =>
    obtain ⟨tell, told, same'⟩ := Walk.tellReader_eq callee left
    simp only [Walk.placePiped, same']
    rcases given with ⟨⟨⟩⟩ | argument
    -- A program reads what is piped, any other callee has it held along with its arguments.
    · split
      · exact ⟨tell, told, by simp⟩
      · refine ⟨hold ∘ tell, told.comp held, ?_⟩
        rw [← Expr.mapCall_mapCall]
        simp
    · refine ⟨hold, held, ?_⟩
      have mapped := List.mem_map_of_mem (f := Expr.mapCall hold) argument
      split
      · exact List.mem_append_right _ mapped
      · exact List.mem_append_right _ (List.mem_cons_of_mem _ mapped)

/-! ### Captured variables that are used -/

/-- The expression contains the node, and no function is declared on the way to it. -/
inductive Expr.Encloses : Expr → Expr → Prop where
  | self {e : Expr} : Encloses e e
  | inner {e c n : Expr} (function : e.kindName ≠ "function") (child : c ∈ e.children)
      (deeper : Encloses c n) : Encloses e n

/-- A variable of this name is used in the expression and marked as captured, not counting the
functions that are declared there. -/
def Expr.UsesCaptured (e : Expr) (name : String) : Prop :=
  ∃ n token scope, e.Encloses n ∧ n.kind = .variableRef token scope true ∧ token.text = name

section Using

variable {e : Expr} {name : String}

theorem Expr.usesCaptured_of_child {c : Expr} (function : e.kindName ≠ "function")
    (child : c ∈ e.children) (uses : c.UsesCaptured name) : e.UsesCaptured name := by
  obtain ⟨n, token, scope, deeper, kind⟩ := uses
  exact ⟨n, token, scope, .inner function child deeper, kind⟩

/-- A use is the variable itself, or lies in a part. -/
theorem Expr.UsesCaptured.in_child (uses : e.UsesCaptured name) (other : e.kindName ≠ "variable") :
    ∃ c ∈ e.children, c.UsesCaptured name := by
  obtain ⟨n, token, scope, inside, kind, named⟩ := uses
  cases inside with
  | self => simp [Expr.kindName, ExprKind.name, kind] at other
  | inner function child deeper => exact ⟨_, child, n, token, scope, deeper, kind, named⟩

theorem Expr.UsesCaptured.mapCall (uses : e.UsesCaptured name) {change : Call → Call}
    (only : Call.OnlyMode change) : (e.mapCall change).UsesCaptured name := by
  by_cases call : e.kindName = "call"
  · obtain ⟨c, child, deeper⟩ := uses.in_child (by simp [call])
    rw [← Expr.children_mapCall only] at child
    exact Expr.usesCaptured_of_child (by simp [Expr.kindName_mapCall, call]) child deeper
  · rwa [Expr.mapCall_of_name call]

/-- What a part uses, the node uses that takes it. -/
theorem Expr.Takes.uses {r : Expr} (takes : e.Takes r) (function : e.kindName ≠ "function")
    (uses : r.UsesCaptured name) : e.UsesCaptured name := by
  obtain ⟨change, only, child⟩ := takes
  exact Expr.usesCaptured_of_child function child (uses.mapCall only)

/-- When a bare reference in the body of a closure is expanded, its parts stay. -/
theorem Walk.Expands.uses {id : ClosureId} {scope : ScopeId} {attached : Call} {s : AnalysisState}
    {parameters : List Token} {body : Expr} {result : List Token × Expr}
    (expands : Walk.Expands id scope attached s parameters body result)
    (uses : body.UsesCaptured name) : result.2.UsesCaptured name := by
  cases expands with
  | plain none => exact uses
  | @bare e reference names r found named =>
    obtain ⟨⟨role, blockScope, block⟩, kind, -⟩ := reference?_eq_some found
    -- The body is a block of nothing but the reference, so the use lies in a part of that call.
    obtain ⟨c, listed, used⟩ := uses.in_child (by simp [Expr.kindName, ExprKind.name, block])
    obtain rfl : c = e := by simpa [Expr.children, ExprKind.children, block] using listed
    obtain ⟨part, child, deeper⟩ := used.in_child (by simp [Expr.kindName, ExprKind.name, kind])
    have whole : Expr.UsesCaptured { c with kind := .call (Walk.expandedCall id scope
        (names.map (Walk.impliedParameter reference.name)) reference) } name := by
      refine Expr.usesCaptured_of_child (by simp [Expr.kindName, ExprKind.name]) ?_ deeper
      simp only [Expr.children, kind, ExprKind.children, Call.children, Walk.expandedCall,
        List.mem_append] at child ⊢
      rcases child with (piped | argument) | value
      · exact .inl (.inl piped)
      · exact .inl (.inr (.inr argument))
      · exact .inr value
    refine Expr.usesCaptured_of_child ?_ ?_ whole
    · simp [Walk.replaceOnly, block, Expr.kindName, ExprKind.name]
    · simp [Walk.replaceOnly, block, Expr.children, ExprKind.children]

end Using

/-! ### Results of visits -/

namespace Plan

variable {α β : Type}

/-- What the plan gives stands in a relation to the results of its visits. -/
def Deals : {α : Type} → Plan α → (List Expr → α → Prop) → Prop
  | _, .done a, related => related [] a
  | _, .act _ next, related => ∀ b, (next b).Deals related
  | _, .visit _ _ _ next, related => ∀ r, (next r).Deals fun rs => related (r :: rs)
  | _, .guarded _ inner next, related =>
    inner.Deals fun rs b => (next b).Deals fun rs' => related (rs ++ rs')

theorem Deals.mono {p : Plan α} {P Q : List Expr → α → Prop} (deals : p.Deals P)
    (weaker : ∀ rs a, P rs a → Q rs a) : p.Deals Q := by
  induction p with
  | done a => exact weaker [] a deals
  | act action next ih => exact fun b => ih b (deals b) weaker
  | visit context slot e next ih => exact fun r => ih r (deals r) fun rs => weaker (r :: rs)
  | guarded id inner next innerIh ih =>
    exact innerIh deals fun rs b rest => ih b rest fun rs' => weaker (rs ++ rs')

variable {P : List Expr → α → Prop} {Q : List Expr → β → Prop}

@[simp] theorem deals_pure {a : α} : (pure a : Plan α).Deals P ↔ P [] a := Iff.rfl

@[simp] theorem deals_enter {context : Context} {slot : Slot} {e : Expr} {P : List Expr → Expr → Prop} :
    (enter context slot e).Deals P ↔ ∀ r, P [r] r := Iff.rfl

@[simp] theorem deals_lift {action : Walk α} : (liftM action : Plan α).Deals P ↔ ∀ a, P [] a := Iff.rfl

@[simp] theorem deals_guard {id : FunctionId} {inner : Plan α} :
    (guard id inner).Deals P ↔ inner.Deals P := by
  simp [guard, Deals]

@[simp] theorem deals_bind {p : Plan α} {next : α → Plan β} :
    (p >>= next).Deals Q ↔ p.Deals fun rs a => (next a).Deals fun rs' => Q (rs ++ rs') := by
  change (p.bind next).Deals Q ↔ _
  induction p generalizing Q with
  | done a => simp [bind, Deals]
  | act action rest ih => simp only [bind, Deals, ih]
  | visit context slot e rest ih => simp only [bind, Deals, ih, List.cons_append]
  | guarded id inner rest _ ih => simp only [bind, Deals, ih, List.append_assoc]

theorem deals_each {context : Context} {slot : Expr → Slot} {es : List Expr}
    {P : List Expr → List Expr → Prop} (related : ∀ rs, P rs rs) : (each context slot es).Deals P := by
  induction es generalizing P with
  | nil => exact related []
  | cons e es ih =>
    simp only [each, deals_bind, deals_enter, deals_pure, List.append_nil]
    exact fun r => ih fun rs => related (r :: rs)

theorem deals_option {context : Context} {isRoot : Option Bool} {e : Option Expr}
    {P : List Expr → Option Expr → Prop} (related : ∀ r : Option Expr, P r.toList r) :
    (option context isRoot e).Deals P := by
  cases e with
  | none => exact related none
  | some e => exact fun r => related (some r)

theorem deals_pairs {context : Context} {entries : List (Expr × Expr)}
    {P : List Expr → List (Expr × Expr) → Prop}
    (related : ∀ rs, P (rs.flatMap fun entry => [entry.1, entry.2]) rs) :
    (pairs context entries).Deals P := by
  induction entries generalizing P with
  | nil => exact related []
  | cons entry entries ih =>
    simp only [pairs, deals_bind, deals_enter, deals_pure, List.append_nil]
    exact fun key value => ih fun rs => related ((key, value) :: rs)

theorem deals_environmentValues {context : Context} {entries : List (String × Expr)}
    {P : List Expr → List (String × Expr) → Prop} (related : ∀ rs, P (rs.map Prod.snd) rs) :
    (environmentValues context entries).Deals P := by
  induction entries generalizing P with
  | nil => exact related []
  | cons entry entries ih =>
    simp only [environmentValues, deals_bind, deals_enter, deals_pure, List.append_nil]
    exact fun value => ih fun rs => related ((entry.1, value) :: rs)

theorem deals_parameterList {context : Context} {seenDefault : Bool} {parameters : List Parameter}
    {P : List Expr → List Parameter → Prop}
    (related : ∀ rs, P (rs.flatMap Parameter.children) rs) :
    (parameterList context seenDefault parameters).Deals P := by
  induction parameters generalizing seenDefault P with
  | nil => exact related []
  | cons parameter rest ih =>
    obtain ⟨name, default?, isVariadic⟩ := parameter
    simp only [parameterList, deals_bind, deals_lift]
    intro _ _
    cases default? with
    | none =>
      simp only [deals_bind, deals_lift, deals_pure, List.append_nil]
      exact fun _ => ih fun rs => related (⟨name, none, isVariadic⟩ :: rs)
    | some value =>
      simp only [deals_bind, deals_lift, deals_enter, deals_pure, List.append_nil]
      exact fun _ value => ih fun rs => related (⟨name, some value, isVariadic⟩ :: rs)

theorem deals_catchList {context : Context} {isRoot : Bool} {catches : List Catch}
    {P : List Expr → List Catch → Prop} (related : ∀ rs, P (rs.flatMap Catch.children) rs) :
    (catchList context isRoot catches).Deals P := by
  induction catches generalizing P with
  | nil => exact related []
  | cons clause rest ih =>
    obtain ⟨identifier, typeRef, body⟩ := clause
    simp only [catchList, deals_bind]
    refine deals_option fun typeRef => ?_
    simp only [deals_lift, deals_enter, deals_pure, List.append_nil]
    intro _ _ body
    refine ih fun rs => ?_
    simpa [Catch.children] using related (⟨identifier, typeRef, body⟩ :: rs)

theorem deals_functionDecl {context : Context} {parameters : List Parameter} {body : Expr}
    {module : ModuleId} {takesClosure : Bool} {id : FunctionId}
    {P : List Expr → List Parameter × Expr → Prop}
    (related : ∀ parameters body,
      P (parameters.flatMap Parameter.children ++ [body]) (parameters, body)) :
    (functionDecl context parameters body module takesClosure id).Deals P := by
  simp only [functionDecl, deals_guard, deals_bind]
  refine deals_parameterList fun parameters => ?_
  simp only [deals_lift, deals_enter, deals_pure, List.nil_append, List.append_nil]
  exact fun _ _ _ body => related parameters body

/-- A call holds its arguments, which are told how they are run. -/
theorem deals_call {context : Context} {slot : Slot} {span : Span} {called : Call} :
    (node context slot span (.call called)).Deals fun rs made => ∀ r ∈ rs, made.Takes r := by
  obtain ⟨name, path, arguments, piped, environment, mode, findings⟩ := called
  simp only [node, deals_bind, deals_lift]
  refine fun callee _ => deals_each fun arguments => ?_
  obtain ⟨held, piped, placed⟩ : ∃ held piped, Walk.placePiped callee slot.piped arguments =
    (held, piped) := ⟨_, _, rfl⟩
  simp only [placed]
  refine fun _ _ => deals_environmentValues fun environment r member => ?_
  simp only [List.nil_append, List.append_nil, List.mem_append] at member
  rcases member with argument | value
  · obtain ⟨change, only, there⟩ := Walk.mem_placed callee slot.piped arguments (.inr argument)
    rw [placed] at there
    exact ⟨change, only, List.mem_append_left _ there⟩
  · exact Expr.takes_of_mem (List.mem_append_right _ value)

/-- Most nodes hold what their visits give. -/
theorem deals_node {context : Context} {slot : Slot} {span : Span} {e : Expr}
    (pipe : e.isPipe = false) (call : e.call? = none) (closure : e.kindName ≠ "closure") :
    (node context slot span e.kind).Deals fun rs made => ∀ r ∈ rs, r ∈ made.children := by
  obtain ⟨kind, _, isRoot, enclosing⟩ := e
  cases kind
  case binary left op right =>
    have plain : op.redirection? = none := by simpa [Expr.isPipe] using pipe
    simp [node, plain, Expr.children, ExprKind.children]
  case structDecl access name parameters module =>
    simp only [node, deals_bind, deals_lift]
    refine fun _ => deals_parameterList fun parameters => ?_
    simp [Expr.children, ExprKind.children]
  case functionDecl access name parameters body module takesClosure id =>
    simp only [node, deals_bind, deals_lift]
    intro f
    split
    · simp
    simp only [deals_bind, deals_lift]
    intro _
    refine fun _ => deals_functionDecl fun parameters body => ?_
    simp [Expr.children, ExprKind.children]
  case construct name path arguments target =>
    simp only [node, deals_bind, deals_lift]
    refine fun _ _ => deals_each fun arguments => ?_
    simp [Expr.children, ExprKind.children]
  case ifElse condition thenBranch elseBranch =>
    simp only [node, deals_bind, deals_enter]
    refine fun condition thenBranch => deals_option fun elseBranch => ?_
    exact fun r member => by simpa [Expr.children, ExprKind.children] using member
  case sequence form items =>
    simp only [node, deals_bind]
    refine deals_each fun items => ?_
    simp [Expr.children, ExprKind.children]
  case dictionary entries =>
    simp only [node, deals_bind]
    refine deals_pairs fun entries => ?_
    simp [Expr.children, ExprKind.children]
  case block expressions role scope =>
    simp only [node, deals_bind]
    refine deals_each fun expressions => ?_
    simp [Expr.children, ExprKind.children]
  case keyword token value =>
    simp only [node, deals_bind, deals_lift]
    refine fun _ => deals_option fun value => ?_
    simp [Expr.children, ExprKind.children]
  case range lower upper inclusive =>
    simp only [node, deals_bind]
    refine deals_option fun lower => deals_option fun upper => ?_
    simp [Expr.children, ExprKind.children]
  case tryCatch body catches =>
    simp only [node, deals_bind, deals_lift, deals_enter]
    refine fun _ body => deals_catchList fun catches => ?_
    exact fun r member => by simpa [Expr.children, ExprKind.children] using member
  case call => simp [Expr.call?] at call
  case closure => exact absurd rfl closure
  -- The parts of these nodes are entered one by one and put back in place.
  all_goals simp [node, Expr.children, ExprKind.children]

/-- In a run of the plan, the result of every visit is among those that it deals with. -/
theorem Deals.of_gives {p : Plan α} {P : List Expr → α → Prop} (deals : p.Deals P)
    {s t : AnalysisState} {a : α} (given : Gives p.run s a t) :
    ∃ rs, P rs a ∧ ∀ w r u, p.Enters s w → w.Gives r u → r ∈ rs := by
  -- The results are collected in the order in which the plan enters their sources.
  induction p generalizing s t with
  | done result =>
    obtain ⟨rfl, -⟩ := gives_pure.mp given
    exact ⟨[], deals, fun _ _ _ entered => entered.elim⟩
  | act action next ih =>
    obtain ⟨b, s', first, rest⟩ := gives_bind.mp given
    obtain ⟨rs, related, listed⟩ := ih b (deals b) rest
    refine ⟨rs, related, fun w r u entered left => ?_⟩
    obtain ⟨b', s'', first', entered⟩ := entered
    obtain ⟨rfl, rfl⟩ := first.unique first'
    exact listed w r u entered left
  | visit context slot e next ih =>
    obtain ⟨r, s', first, rest⟩ := gives_bind.mp given
    obtain ⟨rs, related, listed⟩ := ih r (deals r) rest
    refine ⟨r :: rs, related, fun w r' u entered left => ?_⟩
    obtain rfl | ⟨r'', s'', first', entered⟩ := entered
    · obtain ⟨rfl, rfl⟩ := Gives.unique first left
      exact List.mem_cons_self
    · obtain ⟨rfl, rfl⟩ := first.unique first'
      exact List.mem_cons_of_mem _ (listed w r' u entered left)
  | guarded id inner next innerIh ih =>
    obtain ⟨b, s', first, rest⟩ := gives_bind.mp given
    have first := gives_orFailFunction.mp first
    obtain ⟨early, deals, inside⟩ := innerIh deals first
    obtain ⟨late, related, after⟩ := ih b deals rest
    refine ⟨early ++ late, related, fun w r u entered left => ?_⟩
    obtain entered | ⟨b', s'', first', entered⟩ := entered
    · exact List.mem_append_left _ (inside w r u entered left)
    · obtain ⟨rfl, rfl⟩ := first.unique first'
      exact List.mem_append_right _ (after w r u entered left)

end Plan

namespace Visit

variable {v w : Visit} {r r' : Expr} {t t' : AnalysisState}

/-- Apart from pipes and closures, the result of a visit takes the results of those it enters. -/
theorem takes_of_enters (given : v.Gives r t) (entered : v.Enters w) (left : w.Gives r' t')
    (pipe : v.source.isPipe = false) (closure : v.source.kindName ≠ "closure") : r.Takes r' := by
  obtain ⟨-, made, carried, rfl⟩ := gives_iff.mp given
  change made.Takes r'
  have deals : v.plan.Deals fun rs made => ∀ r ∈ rs, made.Takes r := by
    cases call : v.source.call? with
    | some called =>
      simp only [plan, Expr.kind_of_call? call]
      exact Plan.deals_call
    | none =>
      refine (Plan.deals_node pipe call closure).mono fun rs made all r member => ?_
      exact Expr.takes_of_mem (all r member)
  obtain ⟨rs, all, listed⟩ := deals.of_gives carried
  exact all r' (listed w r' t' entered.2 left)

section Closures

variable {attached body : Expr} {parameters : List Token} {captured : NameSet}
  {old : Option ClosureId} {name : String}

/-- What is used in the call of a closure is used in the closure. -/
theorem uses_of_attached (source : v.source.kind = .closure attached parameters body captured old)
    (first : (v.attachedVisit attached).Gives r' t') (given : v.Gives r t)
    (uses : r'.UsesCaptured name) : r.UsesCaptured name := by
  obtain ⟨_, _, _, _, kind⟩ := attached_of_gives source first given
  refine Expr.usesCaptured_of_child (by simp [Expr.kindName, ExprKind.name, kind]) ?_ uses
  simp [Expr.children, ExprKind.children, kind]

/-- What is used in the body of a closure is used in the body that it has in the end. -/
theorem uses_of_body (source : v.source.kind = .closure attached parameters body captured old)
    {scope : ScopeId} {id : ClosureId} {opened : AnalysisState}
    (opens : v.Opens attached body parameters captured scope id opened)
    (visited : (v.bodyVisit body id opened).Gives r' t') (given : v.Gives r t)
    (uses : r'.UsesCaptured name) :
    ∃ call parameters' body' captured', r.kind = .closure call parameters' body' captured' (some id) ∧
      body'.UsesCaptured name := by
  obtain ⟨_, _, _, _, _, _, _, _, _, _, _, opens', visited', -, expanded, -, kind⟩ :=
    closure_of_gives source given
  obtain ⟨rfl, rfl, rfl⟩ := opens.unique opens'
  obtain ⟨rfl, -⟩ := Gives.unique visited visited'
  exact ⟨_, _, _, _, kind, (Walk.expands_of_gives expanded).uses uses⟩

end Closures

/-- What is piped into a call or closure stands in the result. -/
theorem uses_of_piped {left : Expr} {name : String} (piped : v.slot.piped = some left)
    (uses : left.UsesCaptured name) (given : v.Gives r t) : r.UsesCaptured name := by
  induction same : v.source using Expr.induction generalizing v r t with
  | inherited e ih =>
    subst same
    -- Nothing is piped into nodes of any other kind.
    have attached : ¬ (v.source.kindName ≠ "call" ∧ v.source.kindName ≠ "closure") := by
      rintro ⟨call, closure⟩
      simp [Slot.piped, detached_of_gives given call closure] at piped
    cases course_of_gives given with
    | @call written callee arguments environment source argumentParts valueParts kind =>
      obtain ⟨change, only, placed⟩ := Walk.mem_placed callee v.slot.piped arguments (.inl piped)
      refine Expr.usesCaptured_of_child (by simp [Expr.kindName, ExprKind.name, kind]) ?_
        (uses.mapCall only)
      simp only [Expr.children, kind, ExprKind.children, Call.children]
      exact List.mem_append_left _ placed
    | @closure call body _ _ _ _ _ _ _ _ _ _ _ _ source =>
      obtain ⟨_, _, _, _, _, _, _, _, _, _, _, ⟨made, s, first, -⟩, -⟩ := closure_of_gives source given
      have child : call ∈ v.source.children := by simp [Expr.children, ExprKind.children, source]
      -- What is piped into a closure goes to its call.
      have used := ih call child (v := v.attachedVisit call) piped first rfl
      exact uses_of_attached source first given used
    | pipe source => simp [Expr.kindName, ExprKind.name, source] at attached
    | constant source => simp [Expr.kindName, ExprKind.name, source] at attached
    | fragment source => simp [Expr.kindName, ExprKind.name, source] at attached
    | skipped skips =>
      obtain ⟨access, name, parameters, body, module, takesClosure, id, f, source, -⟩ := skips
      simp [Expr.kindName, ExprKind.name, source] at attached
    | parts named pipe call literal closure => exact absurd ⟨call, closure⟩ attached

/-- A captured variable that is used in the result of a visit is used in what comes of it. -/
theorem uses_of_enters {name : String} (given : v.Gives r t) (entered : v.Enters w)
    (left : w.Gives r' t') (function : v.source.kindName ≠ "function")
    (closure : v.source.kindName ≠ "closure") (uses : r'.UsesCaptured name) : r.UsesCaptured name := by
  cases pipe : v.source.isPipe with
  | true =>
    obtain ⟨_, op, second, redirection, source, redirects⟩ := Expr.kind_of_isPipe pipe
    obtain ⟨left', s, told, u, before, redirected, rest, enters⟩ :=
      pipe_of_gives source redirects given
    rcases (enters w).mp entered with rfl | rfl
    · -- The left side is handed over, and stands in what the right side gives.
      obtain ⟨rfl, rfl⟩ := Gives.unique before left
      obtain ⟨change, only, rfl⟩ := Walk.redirect_eq redirected
      exact uses_of_piped (v := ⟨_, _, second, u⟩) rfl (uses.mapCall only) rest
    · obtain ⟨rfl, rfl⟩ := Gives.unique rest left
      exact uses
  | false =>
    have named := kindName_ne_of_gives given pipe function (by decide) (by decide)
    exact (takes_of_enters given entered left pipe closure).uses named uses

end Visit
end ShellSema
