import Mathlib.Algebra.BigOperators.Group.List.Basic
import Mathlib.Algebra.Order.Group.Multiset
import Mathlib.Tactic.Abel
import ShellSema.Proofs.Walks

/-!
# What a walk notes

What is noted about the tokens of a node does not depend on where the node stands or on what is found
there, as long as the walk does not halt. So the places that are noted can be counted: an action notes
a multiset of them, and a node notes its own tokens and what its subexpressions are worth.
-/
namespace ShellSema

/-! ### The tokens of a source -/

/-- The tokens of a node itself, without those of its subexpressions. -/
def ExprKind.tokens : ExprKind → List Token
  | .moduleDecl _ name _ => [name]
  | .structDecl _ name parameters _ => name :: parameters.map (·.name)
  | .functionDecl _ name parameters _ _ _ _ => name :: parameters.map (·.name)
  | .letIn identifiers _ _ => identifiers
  | .construct name path _ _ => path ++ [name]
  | .forEach identifiers _ _ => identifiers
  | .keyword token _ => [token]
  | .fieldAccess _ field _ => [field]
  | .typeRef name _ => [name]
  | .variableRef name _ _ => [name]
  | .call made => made.path ++ [made.name]
  | .literal token _ => [token]
  | .closure _ parameters _ _ _ => parameters
  | .tryCatch _ catches => catches.filterMap (·.identifier)
  | _ => []

/-- All tokens of a tree. -/
def Expr.tokens (e : Expr) : List Token := e.nodes.flatMap (·.kind.tokens)

def Ast.tokens (ast : Ast) : List Token := ast.nodes.flatMap (·.kind.tokens)

theorem Expr.tokens_eq (e : Expr) : e.tokens = e.kind.tokens ++ e.children.flatMap Expr.tokens := by
  unfold tokens
  rw [Expr.nodes_eq, List.flatMap_cons, List.flatMap_assoc]

theorem Ast.tokens_eq (ast : Ast) : ast.tokens = ast.expressions.flatMap Expr.tokens := by
  rw [tokens, Ast.nodes, nodesOfAll_eq, List.flatMap_assoc]
  rfl

/-- Where tokens stand, each as often as it occurs. -/
def places (tokens : List Token) : Multiset Span := (tokens.map Token.span : List Span)

@[simp] theorem places_nil : places [] = 0 := rfl

@[simp] theorem places_cons (token : Token) (tokens : List Token) :
    places (token :: tokens) = {token.span} + places tokens := rfl

@[simp] theorem places_append (tokens others : List Token) :
    places (tokens ++ others) = places tokens + places others := by
  simp [places]

theorem places_flatMap {α : Type} (f : α → List Token) (xs : List α) :
    places (xs.flatMap f) = (xs.map fun x => places (f x)).sum := by
  induction xs with
  | nil => rfl
  | cons x xs ih => simp [ih]

/-! ### Noting -/

/-- The places that have been noted, if places are noted at all. -/
def AnalysisState.noted? (s : AnalysisState) : Option (Multiset Span) :=
  s.tokens.map fun tokens => (tokens.toList.map SemanticToken.span : List Span)

/-- When it gives a value, the action has noted these places. -/
def Notes {α : Type} (action : Walk α) (spans : Multiset Span) : Prop :=
  ∀ s a t, Gives action s a t → t.noted? = s.noted?.map (· + spans)

/-- The action notes nothing, also when it halts. -/
def Silent {α : Type} (action : Walk α) : Prop := Keeps (fun s t => t.tokens = s.tokens) action

section Actions

variable {α β : Type}

theorem Silent.notes {action : Walk α} (silent : Silent action) : Notes action 0 := by
  intro s a t given
  have same : t.tokens = s.tokens := silent.of_gives given
  cases tokens : s.tokens <;> simp [AnalysisState.noted?, same, tokens]

theorem notes_bind {action : Walk α} {next : α → Walk β} {spans more : Multiset Span}
    (first : Notes action spans) (rest : ∀ a, Notes (next a) more) :
    Notes (action >>= next) (spans + more) := by
  intro s b t given
  obtain ⟨a, r, given, given'⟩ := gives_bind.mp given
  rw [rest a r b t given', first s a r given, Option.map_map]
  congr 1
  funext noted
  exact add_assoc noted spans more

theorem notes_note (span : Span) (category : SemanticCategory) :
    Notes (Walk.note span category) {span} := by
  intro s a t given
  obtain rfl : t = _ := gives_modify.mp given
  cases tokens : s.tokens <;> simp [AnalysisState.noted?, tokens, ← Multiset.coe_add]

/-- Each of several actions notes its token. -/
theorem notes_forM {action : Token → Walk PUnit} (tokens : List Token)
    (each : ∀ token, Notes (action token) {token.span}) :
    Notes (forM tokens action) (places tokens) := by
  induction tokens with
  | nil => exact Silent.notes fun _ => rfl
  | cons token tokens ih =>
    rw [List.forM_cons, places_cons]
    exact notes_bind (each token) fun _ => ih

/-- After an action that notes nothing, what is noted is noted by the rest. -/
theorem notes_after {action : Walk α} {next : α → Walk β} {spans : Multiset Span}
    (first : Silent action) (rest : ∀ a, Notes (next a) spans) : Notes (action >>= next) spans := by
  have both := notes_bind first.notes rest
  rwa [zero_add] at both

/-- Nothing is noted after the last token. -/
theorem Notes.finish {action : Walk α} {next : α → Walk β} {spans : Multiset Span}
    (first : Notes action spans) (rest : ∀ a, Silent (next a)) : Notes (action >>= next) spans := by
  have both := notes_bind first fun a => (rest a).notes
  rwa [add_zero] at both

/-! ### Actions that note nothing -/

theorem Unchanging.silent {action : Walk α} (unchanging : Unchanging action) : Silent action :=
  unchanging.keeps fun _ => rfl

theorem silent_bind {action : Walk α} {next : α → Walk β} (first : Silent action)
    (rest : ∀ a, Silent (next a)) : Silent (action >>= next) :=
  keeps_bind (fun _ _ _ one two => two.trans one) first rest

theorem silent_edit (change : ScopeTree.Edit α) : Silent (Walk.edit change) := by
  intro s
  rw [runFrom_edit_state]

theorem silent_changeFrame (id : ClosureId) (change : ClosureFrame → ClosureFrame) :
    Silent (Walk.changeFrame id change) :=
  fun _ => rfl

theorem silent_forM {action : β → Walk PUnit} (xs : List β) (each : ∀ x, Silent (action x)) :
    Silent (forM xs action) := by
  induction xs with
  | nil => exact fun _ => rfl
  | cons x xs ih =>
    rw [List.forM_cons]
    exact silent_bind (each x) fun _ => ih

theorem silent_declareParameters (scope : ScopeId) (parameters : List Parameter)
    (takesClosure : Bool) : Silent (Walk.declareParameters scope parameters takesClosure) := by
  refine silent_bind (silent_forM parameters fun _ => silent_edit _) fun _ => ?_
  split
  · exact silent_edit _
  · exact fun _ => rfl

theorem silent_registerFunction (access : Access) (name : Token) (parameters : List Parameter)
    (module : ModuleId) (takesClosure : Bool) (id : FunctionId) :
    Silent (Walk.registerFunction access name parameters module takesClosure id) :=
  silent_bind (fun _ => rfl) fun _ => silent_edit _

theorem silent_captureName (context : Context) (name : String) :
    Silent (Walk.captureName context name) := by
  unfold Walk.captureName
  split
  next id _ =>
    refine silent_bind unchanging_frame.silent fun frame => ?_
    refine silent_bind unchanging_capturedFrom.silent fun found => ?_
    cases found with
    | none => exact fun _ => rfl
    | some declaring =>
      exact silent_bind (silent_changeFrame _ _) fun _ => silent_bind (silent_edit _) fun _ _ => rfl
  next => exact fun _ => rfl

theorem silent_callee (context : Context) (name : String) (path : List String) :
    Silent (Walk.callee context name path) := by
  -- Only the callee `closure` changes anything: it captures the carrier, and that is not noted.
  have provider : Silent (Walk.closureProvider context) := by
    refine silent_bind (fun _ => rfl) fun state => ?_
    refine silent_bind unchanging_ownerWithin.silent fun owner => ?_
    cases owner with
    | none => exact fun _ => rfl
    | some provider =>
      refine silent_bind (fun _ => rfl) fun state => ?_
      split
      · split
        · refine silent_bind (fun _ => rfl) fun _ => ?_
          exact silent_bind (silent_changeFrame _ _) fun _ => silent_bind (silent_edit _) fun _ _ => rfl
        · exact fun _ => rfl
      · exact fun _ => rfl
  unfold Walk.callee
  split
  · exact fun _ => rfl
  · exact silent_bind provider fun _ _ => rfl
  · exact fun _ => rfl
  · exact fun _ => rfl
  · exact unchanging_ordinaryCallee.silent

theorem silent_propagateCaptures (inner : ClosureId) (enclosing : Option Enclosing) :
    Silent (Walk.propagateCaptures inner enclosing) := by
  unfold Walk.propagateCaptures
  split
  next outer =>
    refine silent_bind unchanging_frame.silent fun _ => ?_
    refine silent_bind unchanging_frame.silent fun _ => ?_
    refine silent_bind unchanging_ask.silent fun scope => ?_
    cases scope.parent with
    | none => exact fun _ => rfl
    | some outside =>
      refine silent_bind (Unchanging.silent ?_) fun _ => silent_changeFrame _ _
      exact unchanging_filterM fun _ => unchanging_reachesOut
  next => exact fun _ => rfl

theorem silent_expandReference (id : ClosureId) (attached : Call) (scope : ScopeId)
    (parameters : List Token) (body : Expr) :
    Silent (Walk.expandReference id attached scope parameters body) := by
  unfold Walk.expandReference
  split
  · exact fun _ => rfl
  · refine silent_bind unchanging_impliedNames.silent fun names => ?_
    refine silent_bind (silent_forM _ fun _ => silent_edit _) fun _ => ?_
    exact silent_bind (silent_changeFrame _ _) fun _ _ => rfl

/-! ### Actions that note tokens -/

theorem notes_declare (scope : ScopeId) (category : SemanticCategory) (name : Token) :
    Notes (Walk.declare scope category name) {name.span} :=
  notes_after (silent_edit _) fun _ => notes_note _ _

theorem notes_bindName (context : Context) (name : Token) :
    Notes (Walk.bind context name) {name.span} := by
  unfold Walk.bind
  split
  · exact notes_note _ _
  · exact notes_declare _ _ name

theorem notes_path (path : List Token) (name : Token) (category : SemanticCategory) :
    Notes (do path.forM fun segment => Walk.note segment.span .module; Walk.note name.span category)
      (places (path ++ [name])) := by
  rw [places_append, places_cons, places_nil, add_zero]
  exact notes_bind (notes_forM path fun _ => notes_note _ _) fun _ => notes_note _ _

theorem notes_variableUse (context : Context) (name : Token) :
    Notes (Walk.variableUse context name) {name.span} := by
  have found : Notes (do
      let isCaptured ← Walk.captureName context name.text
      Walk.note name.span .variableName
      return ExprKind.variableRef name (some context.scope) isCaptured) {name.span} :=
    notes_after (silent_captureName _ _) fun _ => (notes_note _ _).finish fun _ _ => rfl
  unfold Walk.variableUse
  split
  · exact (notes_note _ _).finish fun _ _ => rfl
  · refine notes_after unchanging_ask.silent fun visible => ?_
    dsimp only
    split
    · exact notes_after (fun _ => rfl) fun _ => found
    · exact found

theorem notes_typeUse (context : Context) (name : Token) :
    Notes (Walk.typeUse context name) {name.span} :=
  notes_after unchanging_typeTarget.silent fun _ => (notes_note _ _).finish fun _ _ => rfl

theorem notes_literal (context : Context) (span : Span) (token : Token) :
    Notes (Walk.literal context span token) {token.span} := by
  unfold Walk.literal
  split
  · exact (notes_note _ _).finish fun _ _ => rfl
  · exact (notes_note _ _).finish fun _ _ => rfl
  · exact fun _ _ _ impossible => (gives_fail.mp impossible).elim

theorem notes_enterClosure (context : Context) (bodyScope : ScopeId) (parameters : List Token)
    (captured : NameSet) :
    Notes (Walk.enterClosure context bodyScope parameters captured) (places parameters) :=
  notes_after (fun _ => rfl) fun _ =>
    (notes_forM parameters fun _ => notes_declare _ _ _).finish fun _ _ => rfl

end Actions

/-! ### Plans -/

namespace Plan

variable {α β : Type} {worth : Expr → Multiset Span}

/-- What the actions of the plan note, together with what the visited expressions are worth. -/
def Notes (worth : Expr → Multiset Span) : {α : Type} → Plan α → Multiset Span → Prop
  | _, .done _, spans => spans = 0
  | _, .act action next, spans =>
    ∃ own rest, spans = own + rest ∧ ShellSema.Notes action own ∧ ∀ b, (next b).Notes worth rest
  | _, .visit _ _ e next, spans => ∃ rest, spans = worth e + rest ∧ ∀ r, (next r).Notes worth rest
  | _, .guarded _ inner next, spans =>
    ∃ own rest, spans = own + rest ∧ inner.Notes worth own ∧ ∀ b, (next b).Notes worth rest

theorem notes_pure (a : α) : (pure a : Plan α).Notes worth 0 := rfl

theorem notes_enter (context : Context) (slot : Slot) (e : Expr) :
    (enter context slot e).Notes worth (worth e) :=
  ⟨0, (add_zero _).symm, fun _ => rfl⟩

theorem notes_guard {id : FunctionId} {inner : Plan α} {spans : Multiset Span}
    (notes : inner.Notes worth spans) : (guard id inner).Notes worth spans :=
  ⟨spans, 0, (add_zero _).symm, notes, fun _ => rfl⟩

theorem notes_bind {p : Plan α} {next : α → Plan β} {spans more : Multiset Span}
    (first : p.Notes worth spans) (rest : ∀ a, (next a).Notes worth more) :
    (p >>= next).Notes worth (spans + more) := by
  change (p.bind next).Notes worth (spans + more)
  induction p generalizing spans with
  | done a =>
    obtain rfl : spans = 0 := first
    rw [zero_add]
    exact rest a
  | act action others ih =>
    obtain ⟨own, late, rfl, noted, after⟩ := first
    exact ⟨own, late + more, add_assoc .., noted, fun b => ih b (after b) rest⟩
  | visit context slot e others ih =>
    obtain ⟨late, rfl, after⟩ := first
    exact ⟨late + more, add_assoc .., fun r => ih r (after r) rest⟩
  | guarded id inner others _ ih =>
    obtain ⟨own, late, rfl, inside, after⟩ := first
    exact ⟨own, late + more, add_assoc .., inside, fun b => ih b (after b) rest⟩

/-- An action of the node itself. -/
theorem notes_act {action : Walk α} {next : α → Plan β} {own rest : Multiset Span}
    (first : ShellSema.Notes action own) (others : ∀ a, (next a).Notes worth rest) :
    (liftM action >>= next).Notes worth (own + rest) :=
  ⟨own, rest, rfl, first, others⟩

/-- An action that notes nothing. -/
theorem notes_silent {action : Walk α} {next : α → Plan β} {spans : Multiset Span}
    (silent : Silent action) (rest : ∀ a, (next a).Notes worth spans) :
    (liftM action >>= next).Notes worth spans :=
  ⟨0, spans, (zero_add _).symm, silent.notes, rest⟩

theorem notes_visit {context : Context} {slot : Slot} {e : Expr} {next : Expr → Plan β}
    {spans : Multiset Span} (rest : ∀ r, (next r).Notes worth spans) :
    (enter context slot e >>= next).Notes worth (worth e + spans) :=
  notes_bind (notes_enter ..) rest

/-- Nothing is noted when the result is put together. -/
theorem Notes.map {p : Plan α} {spans : Multiset Span} (notes : p.Notes worth spans) (f : α → β) :
    (p >>= fun a => pure (f a)).Notes worth spans := by
  have both : (p >>= fun a => pure (f a)).Notes worth (spans + 0) :=
    notes_bind notes fun a => notes_pure (f a)
  rwa [add_zero] at both

theorem notes_each (context : Context) (slot : Expr → Slot) (es : List Expr) :
    (each context slot es).Notes worth (es.map worth).sum := by
  induction es with
  | nil => exact notes_pure _
  | cons e es ih => exact notes_visit fun _ => ih.map _

theorem notes_option (context : Context) (isRoot : Option Bool) (e : Option Expr) :
    (option context isRoot e).Notes worth (e.toList.map worth).sum := by
  cases e with
  | none => exact notes_pure _
  | some e => exact notes_visit fun _ => notes_pure _

theorem notes_pairs (context : Context) (entries : List (Expr × Expr)) :
    (pairs context entries).Notes worth
      ((entries.flatMap fun entry => [entry.1, entry.2]).map worth).sum := by
  induction entries with
  | nil => exact notes_pure _
  | cons entry entries ih => exact notes_visit fun _ => notes_visit fun _ => ih.map _

theorem notes_environmentValues (context : Context) (entries : List (String × Expr)) :
    (environmentValues context entries).Notes worth ((entries.map Prod.snd).map worth).sum := by
  induction entries with
  | nil => exact notes_pure _
  | cons entry entries ih => exact notes_visit fun _ => ih.map _

theorem notes_parameterList (context : Context) (seenDefault : Bool) (parameters : List Parameter) :
    (parameterList context seenDefault parameters).Notes worth
      (places (parameters.map (·.name)) + ((parameters.flatMap Parameter.children).map worth).sum) := by
  induction parameters generalizing seenDefault with
  | nil => exact notes_pure _
  | cons parameter rest ih =>
    obtain ⟨name, default?, isVariadic⟩ := parameter
    -- The token of a parameter is noted before its default is visited.
    have noted : (parameterList context seenDefault (⟨name, default?, isVariadic⟩ :: rest)).Notes worth
        ({name.span} + ((default?.toList.map worth).sum + (places (rest.map (·.name)) +
          ((rest.flatMap Parameter.children).map worth).sum))) := by
      refine notes_act (notes_note _ _) fun _ => ?_
      refine notes_silent unchanging_checkVariadic.silent fun _ => ?_
      cases default? with
      | none =>
        refine notes_silent unchanging_check.silent fun _ => ?_
        simpa using (ih seenDefault).map _
      | some value =>
        refine notes_silent unchanging_check.silent fun _ => ?_
        simpa using notes_visit fun _ => (ih true).map _
    convert noted using 1
    simp only [List.map_cons, places_cons, List.flatMap_cons, Parameter.children, List.map_append,
      List.sum_append]
    abel

theorem notes_catchList (context : Context) (isRoot : Bool) (catches : List Catch) :
    (catchList context isRoot catches).Notes worth
      (places (catches.filterMap (·.identifier)) +
        ((catches.flatMap Catch.children).map worth).sum) := by
  induction catches with
  | nil => exact notes_pure _
  | cons clause rest ih =>
    obtain ⟨identifier, typeRef, body⟩ := clause
    have declared (scope : ScopeId) :
        ShellSema.Notes (identifier.forM (Walk.declare scope .variableName) : Walk PUnit)
          (places identifier.toList) := by
      cases identifier with
      | none => exact Silent.notes fun _ => rfl
      | some name => exact notes_declare scope _ name
    have noted : (catchList context isRoot (⟨identifier, typeRef, body⟩ :: rest)).Notes worth
        ((typeRef.toList.map worth).sum + (places identifier.toList + (worth body +
          (places (rest.filterMap (·.identifier)) +
            ((rest.flatMap Catch.children).map worth).sum)))) := by
      refine notes_bind (notes_option ..) fun _ => ?_
      refine notes_silent unchanging_blockScope.silent fun scope => ?_
      exact notes_act (declared scope) fun _ => notes_visit fun _ => ih.map _
    -- The places were added clause by clause, and are put in the order of the children.
    convert noted using 1
    have own : (⟨identifier, typeRef, body⟩ :: rest : List Catch).filterMap (·.identifier) =
        identifier.toList ++ rest.filterMap (·.identifier) := by
      cases identifier <;> rfl
    rw [own]
    simp only [places_append, List.flatMap_cons, Catch.children, List.map_append, List.map_cons,
      List.map_nil, List.sum_append, List.sum_cons, List.sum_nil, add_zero]
    abel

/-- A function that is met for the first time. -/
theorem notes_functionDecl (context : Context) (parameters : List Parameter) (body : Expr)
    (module : ModuleId) (takesClosure : Bool) (id : FunctionId) :
    (functionDecl context parameters body module takesClosure id).Notes worth
      (places (parameters.map (·.name)) + ((parameters.flatMap Parameter.children).map worth).sum +
        worth body) := by
  apply notes_guard
  refine notes_bind (notes_parameterList ..) fun parameters => ?_
  refine notes_silent unchanging_blockScope.silent fun scope => ?_
  refine notes_silent (silent_declareParameters _ _ _) fun _ => ?_
  refine notes_silent unchanging_functionContext.silent fun inner => ?_
  exact (notes_enter ..).map _

section Nodes

variable (context : Context) (slot : Slot) (span : Span)

/-- The name of a struct is noted before those of its fields. -/
private theorem notes_struct (access : Access) (name : Token) (parameters : List Parameter)
    (module : ModuleId) :
    (node context slot span (.structDecl access name parameters module)).Notes worth
      (places (ExprKind.structDecl access name parameters module).tokens +
        ((ExprKind.structDecl access name parameters module).children.map worth).sum) := by
  simp only [ExprKind.tokens, places_cons, ExprKind.children, add_assoc]
  refine notes_act (notes_note _ _) fun _ => ?_
  rw [← add_zero (_ + _)]
  refine notes_bind (notes_parameterList ..) fun parameters => ?_
  exact notes_silent unchanging_checkFields.silent fun _ => notes_silent (silent_edit _) fun _ => rfl

/-- The items of a loop are noted after the value, in the scope of the body. -/
private theorem notes_forEach (identifiers : List Token) (value body : Expr) :
    (node context slot span (.forEach identifiers value body)).Notes worth
      (places (ExprKind.forEach identifiers value body).tokens +
        ((ExprKind.forEach identifiers value body).children.map worth).sum) := by
  have noted : (node context slot span (.forEach identifiers value body)).Notes worth
      (worth value + (places identifiers + worth body)) := by
    refine notes_visit fun _ => notes_silent unchanging_blockScope.silent fun scope => ?_
    refine notes_act (notes_forM identifiers fun name => notes_declare scope _ name) fun _ => ?_
    exact (notes_enter ..).map _
  simpa [ExprKind.tokens, ExprKind.children, add_left_comm] using noted

/-- Both operands are visited, also where the right one is redirected to. -/
private theorem notes_binary (left : Expr) (op : BinaryOp) (right : Expr) :
    (node context slot span (.binary left op right)).Notes worth
      (places (ExprKind.binary left op right).tokens +
        ((ExprKind.binary left op right).children.map worth).sum) := by
  have noted : (node context slot span (.binary left op right)).Notes worth
      (worth left + worth right) := by
    simp only [node]
    cases op.redirection? with
    | some redirection =>
      exact notes_visit fun _ => notes_silent unchanging_redirect.silent fun _ => notes_enter ..
    | none =>
      refine notes_silent unchanging_checkAssign.silent fun _ => ?_
      exact notes_visit fun _ => (notes_enter ..).map _
  simpa [ExprKind.tokens, ExprKind.children] using noted

/-- The path and the name of a call are noted before what it is passed. -/
private theorem notes_call {made : Call} (unpiped : made.piped = none) :
    (node context slot span (.call made)).Notes worth
      (places (ExprKind.call made).tokens + ((ExprKind.call made).children.map worth).sum) := by
  obtain ⟨name, path, arguments, piped, environment, mode, findings⟩ := made
  obtain rfl : piped = none := unpiped
  simp only [ExprKind.children, Call.children, Option.toList_none, List.nil_append, List.map_append,
    List.sum_append]
  refine notes_silent (silent_callee _ _ _) fun callee => ?_
  refine notes_act (notes_path path name _) fun _ => notes_bind (notes_each ..) fun _ => ?_
  refine notes_silent unchanging_checkClosure.silent fun _ => ?_
  refine notes_silent unchanging_checkArguments.silent fun _ => ?_
  exact (notes_environmentValues ..).map _

/-- The parameters of a closure are noted between the call it is attached to and its body. -/
private theorem notes_closure (attached : Expr) (parameters : List Token) (body : Expr)
    (captured : NameSet) (id : Option ClosureId) :
    (node context slot span (.closure attached parameters body captured id)).Notes worth
      (places (ExprKind.closure attached parameters body captured id).tokens +
        ((ExprKind.closure attached parameters body captured id).children.map worth).sum) := by
  have noted : (node context slot span (.closure attached parameters body captured id)).Notes worth
      (worth attached + (places parameters + (worth body + 0))) := by
    refine notes_visit fun _ => notes_silent unchanging_attachedCall.silent fun _ => ?_
    refine notes_silent unchanging_blockScope.silent fun _ => ?_
    refine notes_act (notes_enterClosure _ _ _ _) fun id => notes_visit fun _ => ?_
    refine notes_silent (silent_propagateCaptures _ _) fun _ => ?_
    refine notes_silent (silent_expandReference _ _ _ _ _) fun _ => ?_
    exact notes_silent unchanging_frame.silent fun _ => notes_pure _
  simpa [ExprKind.tokens, ExprKind.children, add_left_comm] using noted

end Nodes

/-- A node notes its own tokens and what its subexpressions are worth, unless it is a function, which
may have been met before. Nothing is piped into a call in the source. -/
theorem notes_node (context : Context) (slot : Slot) (span : Span) {kind : ExprKind}
    (function : kind.name ≠ "function")
    (unpiped : ∀ made, kind = .call made → made.piped = none) :
    (node context slot span kind).Notes worth
      (places kind.tokens + (kind.children.map worth).sum) := by
  cases kind with
  -- The cases come one for each kind. What changes no tokens is passed over as silent.
  | functionDecl => exact absurd rfl function
  | moduleDecl access name body =>
    refine notes_act (notes_note _ _) fun _ => ?_
    exact notes_silent unchanging_blockScope.silent fun _ => notes_visit fun _ => notes_pure _
  | structDecl access name parameters module => exact notes_struct ..
  | letIn identifiers value scope =>
    have noted : (node context slot span (.letIn identifiers value scope)).Notes worth
        (worth value + places identifiers) := by
      refine notes_silent unchanging_checkBinding.silent fun _ => notes_visit fun _ => ?_
      have bound := notes_forM identifiers fun name => notes_bindName context name
      rw [← add_zero (places identifiers)]
      exact notes_act bound fun _ => notes_pure _
    simpa [ExprKind.tokens, ExprKind.children, add_comm] using noted
  | construct name path arguments target =>
    refine notes_silent unchanging_structTarget.silent fun _ => ?_
    exact notes_act (notes_path path name _) fun _ => (notes_each ..).map _
  | ifElse condition thenBranch elseBranch =>
    simp only [ExprKind.tokens, places_nil, zero_add, ExprKind.children, List.map_cons, List.sum_cons]
    exact notes_visit fun _ => notes_visit fun _ => (notes_option ..).map _
  | forEach identifiers value body => exact notes_forEach ..
  | whileDo condition body =>
    have noted : (node context slot span (.whileDo condition body)).Notes worth
        (worth condition + worth body) :=
      notes_visit fun _ => notes_silent unchanging_blockScope.silent fun _ => (notes_enter ..).map _
    simpa [ExprKind.tokens, ExprKind.children] using noted
  | sequence form items =>
    simp only [ExprKind.tokens, places_nil, zero_add]
    exact (notes_each ..).map _
  | dictionary entries =>
    simp only [ExprKind.tokens, places_nil, zero_add]
    exact (notes_pairs ..).map _
  | block expressions role scope =>
    simp only [ExprKind.tokens, places_nil, zero_add]
    exact (notes_each ..).map _
  | keyword token value => exact notes_act (notes_note _ _) fun _ => (notes_option ..).map _
  | binary left op right => exact notes_binary ..
  | unary op value =>
    have noted : (node context slot span (.unary op value)).Notes worth (worth value) :=
      (notes_enter ..).map _
    simpa [ExprKind.tokens, ExprKind.children] using noted
  | fieldAccess object field fieldValue =>
    have noted : (node context slot span (.fieldAccess object field fieldValue)).Notes worth
        (worth object + ({field.span} + 0)) :=
      notes_visit fun _ => notes_act (notes_note _ _) fun _ => notes_pure _
    simpa [ExprKind.tokens, ExprKind.children, add_comm] using noted
  | range lower upper inclusive =>
    simp only [ExprKind.tokens, places_nil, zero_add, ExprKind.children, List.map_append,
      List.sum_append]
    exact notes_bind (notes_option ..) fun _ => (notes_option ..).map _
  | indexer value index =>
    have noted : (node context slot span (.indexer value index)).Notes worth
        (worth value + worth index) :=
      notes_visit fun _ => (notes_enter ..).map _
    simpa [ExprKind.tokens, ExprKind.children] using noted
  | typeRef name target => exact notes_act (notes_typeUse _ _) fun _ => notes_pure _
  | variableRef name scope isCaptured => exact notes_act (notes_variableUse _ _) fun _ => notes_pure _
  | call made => exact notes_call _ _ _ (unpiped made rfl)
  | literal token value => exact notes_act (notes_literal _ _ _) fun _ => notes_pure _
  | closure attached parameters body captured id => exact notes_closure ..
  | tryCatch body catches =>
    have noted : (node context slot span (.tryCatch body catches)).Notes worth
        (worth body + (places (catches.filterMap (·.identifier)) +
          ((catches.flatMap Catch.children).map worth).sum)) :=
      notes_silent unchanging_blockScope.silent fun _ =>
        notes_visit fun _ => (notes_catchList ..).map _
    simpa [ExprKind.tokens, ExprKind.children, add_left_comm] using noted

/-- A function that has not been met notes its own tokens and what its parts are worth. -/
theorem notes_unmet (context : Context) (slot : Slot) (span : Span) (access : Access) (name : Token)
    (parameters : List Parameter) (body : Expr) (module : ModuleId) (takesClosure : Bool)
    (id : FunctionId) :
    (do
      Walk.note name.span .function
      (modify fun state => { state with closureSupport := (id, takesClosure) :: state.closureSupport }
        : Walk PUnit)
      let (parameters, body) ← functionDecl context parameters body module takesClosure id
      Walk.registerFunction access name parameters module takesClosure id
      return ⟨.functionDecl access name parameters body module takesClosure id, span,
        slot.isRoot, none⟩ : Plan Expr).Notes worth
      ({name.span} + (places (parameters.map (·.name)) +
        ((parameters.flatMap Parameter.children).map worth).sum + worth body)) := by
  refine notes_act (notes_note _ _) fun _ => notes_silent (fun _ => rfl) fun _ => ?_
  rw [← add_zero (_ + worth body)]
  refine notes_bind (notes_functionDecl ..) fun _ => ?_
  exact notes_silent (silent_registerFunction _ _ _ _ _ _) fun _ => rfl

/-- What is piped into a call in the source is not noted. -/
theorem notes_node_within (context : Context) (slot : Slot) (span : Span) {kind : ExprKind}
    (function : kind.name ≠ "function") :
    ∃ spans ≤ places kind.tokens + (kind.children.map worth).sum,
      (node context slot span kind).Notes worth spans := by
  by_cases call : ∃ made, kind = .call made
  · obtain ⟨⟨name, path, arguments, piped, environment, mode, findings⟩, rfl⟩ := call
    have notes : (node context slot span
        (.call ⟨name, path, arguments, none, environment, mode, findings⟩)).Notes worth _ :=
      notes_node context slot span (by simp [ExprKind.name]) fun made same => by cases same; rfl
    refine ⟨_, ?_, notes⟩
    apply add_le_add_right
    simp only [ExprKind.children, Call.children, Option.toList_none, List.nil_append, List.append_assoc,
      List.map_append, List.sum_append]
    exact Multiset.le_add_left _ _
  · have plain : (node context slot span kind).Notes worth _ :=
      notes_node context slot span function fun made same => absurd ⟨made, same⟩ call
    exact ⟨_, le_rfl, plain⟩

/-- A relation between spans that sums keep holds between what the plan notes and what its actions
note and its visits are worth, if it holds between what each visit notes and what its source is
worth. -/
theorem Notes.related (close : Multiset Span → Multiset Span → Prop) (refl : ∀ spans, close spans spans)
    (add : ∀ a b c d, close a b → close c d → close (a + c) (b + d)) {p : Plan α}
    {spans : Multiset Span} (notes : p.Notes worth spans) {s t : AnalysisState} {a : α}
    (given : Gives p.run s a t)
    (visits : ∀ v r t, p.Enters s v → v.Gives r t →
      ∃ own, close own (worth v.source) ∧ t.noted? = v.before.noted?.map (· + own)) :
    ∃ own, close own spans ∧ t.noted? = s.noted?.map (· + own) := by
  induction p generalizing s t spans with
  | done result =>
    obtain rfl : spans = 0 := notes
    obtain ⟨-, rfl⟩ := gives_pure.mp given
    exact ⟨0, refl 0, by simp⟩
  | act action next ih =>
    obtain ⟨own, rest, rfl, first, others⟩ := notes
    obtain ⟨b, r, given, given'⟩ := gives_bind.mp given
    obtain ⟨more, near, after⟩ := ih b (others b) given' fun v _ _ entered left =>
      visits v _ _ ⟨b, r, given, entered⟩ left
    refine ⟨own + more, add _ _ _ _ (refl own) near, ?_⟩
    rw [after, first s b r given, Option.map_map]
    simp [Function.comp_def, add_assoc]
  | visit context slot e next ih =>
    obtain ⟨rest, rfl, others⟩ := notes
    obtain ⟨b, r, given, given'⟩ := gives_bind.mp given
    obtain ⟨own, within, first⟩ := visits ⟨context, slot, e, s⟩ b r (.inl rfl) given
    obtain ⟨more, near, after⟩ := ih b (others b) given' fun v _ _ entered left =>
      visits v _ _ (.inr ⟨b, r, given, entered⟩) left
    refine ⟨own + more, add _ _ _ _ within near, ?_⟩
    rw [after, first, Option.map_map]
    simp [Function.comp_def, add_assoc]
  | guarded id inner next innerIh ih =>
    obtain ⟨own, rest, rfl, inside, others⟩ := notes
    obtain ⟨b, r, given, given'⟩ := gives_bind.mp given
    have given := gives_orFailFunction.mp given
    obtain ⟨own, within, first⟩ := innerIh inside given fun v _ _ entered left =>
      visits v _ _ (.inl entered) left
    obtain ⟨more, near, after⟩ := ih b (others b) given' fun v _ _ entered left =>
      visits v _ _ (.inr ⟨b, r, given, entered⟩) left
    refine ⟨own + more, add _ _ _ _ within near, ?_⟩
    rw [after, first, Option.map_map]
    simp [Function.comp_def, add_assoc]

/-- The plan notes what its actions note and what its visits are worth, if each of these notes what its
source is worth. -/
theorem Notes.of_gives {p : Plan α} {spans : Multiset Span} (notes : p.Notes worth spans)
    {s t : AnalysisState} {a : α} (given : Gives p.run s a t)
    (visits : ∀ v r t, p.Enters s v → v.Gives r t →
      t.noted? = v.before.noted?.map (· + worth v.source)) :
    t.noted? = s.noted?.map (· + spans) := by
  have sums (a b c d : Multiset Span) (first : a = b) (second : c = d) : a + c = b + d := by
    rw [first, second]
  obtain ⟨own, rfl, noted⟩ := notes.related Eq (fun _ => rfl) sums given fun v r t entered left =>
    ⟨_, rfl, visits v r t entered left⟩
  exact noted

/-- The plan notes no more than its actions note and its visits are worth, if each of these notes no more
than its source is worth. -/
theorem Notes.at_most {p : Plan α} {spans : Multiset Span} (notes : p.Notes worth spans)
    {s t : AnalysisState} {a : α} (given : Gives p.run s a t)
    (visits : ∀ v r t, p.Enters s v → v.Gives r t →
      ∃ own ≤ worth v.source, t.noted? = v.before.noted?.map (· + own)) :
    ∃ own ≤ spans, t.noted? = s.noted?.map (· + own) :=
  notes.related (· ≤ ·) (fun _ => le_rfl) (fun _ _ _ _ first second => add_le_add first second) given
    visits

end Plan
end ShellSema
