import Mathlib.Data.List.Flatten
import ShellSema.Proofs.Counts
import ShellSema.Proofs.ModuleRuns

/-!
# Annotations that a tree brings along

A tree is of the same type before and after its analysis, so it may come with findings of an earlier
analysis, or with made-up ones. The walk looks at none of them: it does the same on a tree that is
stripped of them. Only a function that has been met before is given back as it came.
-/
namespace ShellSema

/-! ### Trees without findings -/

mutual
/-- The expression without what an analysis finds out. Everything else stays, in particular the
captures that a closure starts with and the way in which a call is run. -/
def Expr.stripped : Expr → Expr
  | ⟨kind, span, isRoot, _⟩ => ⟨kind.stripped, span, isRoot, none⟩

def ExprKind.stripped : ExprKind → ExprKind
  | .moduleDecl access name body => .moduleDecl access name body.stripped
  | .structDecl access name parameters module =>
    .structDecl access name (strippedParameters parameters) module
  | .functionDecl access name parameters body module takesClosure id =>
    .functionDecl access name (strippedParameters parameters) body.stripped module takesClosure id
  | .letIn identifiers value _ => .letIn identifiers value.stripped none
  | .construct name path arguments _ => .construct name path (strippedAll arguments) none
  | .ifElse condition thenBranch elseBranch =>
    .ifElse condition.stripped thenBranch.stripped (strippedOption elseBranch)
  | .forEach identifiers value body => .forEach identifiers value.stripped body.stripped
  | .whileDo condition body => .whileDo condition.stripped body.stripped
  | .sequence form items => .sequence form (strippedAll items)
  | .dictionary entries => .dictionary (strippedEntries entries)
  | .block expressions role scope => .block (strippedAll expressions) role scope
  | .keyword token value => .keyword token (strippedOption value)
  | .binary left op right => .binary left.stripped op right.stripped
  | .unary op value => .unary op value.stripped
  | .fieldAccess object field _ => .fieldAccess object.stripped field none
  | .range lower upper inclusive => .range (strippedOption lower) (strippedOption upper) inclusive
  | .indexer value index => .indexer value.stripped index.stripped
  | .typeRef name _ => .typeRef name none
  | .variableRef name _ _ => .variableRef name none false
  | .call made => .call (strippedCall made)
  | .literal token _ => .literal token none
  | .closure attached parameters body captured _ =>
    .closure attached.stripped parameters body.stripped captured none
  | .tryCatch body catches => .tryCatch body.stripped (strippedCatches catches)

def strippedCall : Call → Call
  | ⟨name, path, arguments, _, environment, mode, _⟩ =>
    ⟨name, path, strippedAll arguments, none, strippedEnvironment environment, mode, {}⟩

def strippedAll : List Expr → List Expr
  | [] => []
  | e :: es => e.stripped :: strippedAll es

def strippedOption : Option Expr → Option Expr
  | none => none
  | some e => some e.stripped

def strippedEntries : List (Expr × Expr) → List (Expr × Expr)
  | [] => []
  | (key, value) :: entries => (key.stripped, value.stripped) :: strippedEntries entries

def strippedEnvironment : List (String × Expr) → List (String × Expr)
  | [] => []
  | (name, value) :: entries => (name, value.stripped) :: strippedEnvironment entries

def strippedParameters : List Parameter → List Parameter
  | [] => []
  | ⟨name, default?, isVariadic⟩ :: parameters =>
    ⟨name, strippedOption default?, isVariadic⟩ :: strippedParameters parameters

def strippedCatches : List Catch → List Catch
  | [] => []
  | ⟨identifier, typeRef, body⟩ :: catches =>
    ⟨identifier, strippedOption typeRef, body.stripped⟩ :: strippedCatches catches
end

def Ast.stripped (ast : Ast) : Ast := ⟨strippedAll ast.expressions⟩

/-! ### What stripping leaves -/

section Stripping

@[simp] theorem Expr.stripped_kind (e : Expr) : e.stripped.kind = e.kind.stripped := by
  cases e; rfl

@[simp] theorem Expr.stripped_span (e : Expr) : e.stripped.span = e.span := by cases e; rfl

@[simp] theorem Expr.stripped_isRoot (e : Expr) : e.stripped.isRoot = e.isRoot := by cases e; rfl

@[simp] theorem Expr.stripped_slot (e : Expr) : e.stripped.slot = e.slot := by simp [Expr.slot]

@[simp] theorem Slot.admits_stripped (slot : Slot) (kind : ExprKind) :
    slot.admits kind.stripped = slot.admits kind := by
  cases kind <;> rfl

@[simp] theorem Expr.stripped_kindName (e : Expr) : e.stripped.kindName = e.kindName := by
  simp only [Expr.kindName, Expr.stripped_kind]
  cases e.kind <;> rfl

@[simp] theorem Expr.stripped_blockScope? (e : Expr) : e.stripped.blockScope? = e.blockScope? := by
  simp only [Expr.blockScope?, Expr.stripped_kind]
  cases e.kind <;> rfl

@[simp] theorem Walk.blockScope_stripped (e : Expr) :
    Walk.blockScope e.stripped = Walk.blockScope e := by
  simp [Walk.blockScope]

@[simp] theorem Walk.checkTarget_stripped (e : Expr) :
    Walk.checkTarget e.stripped = Walk.checkTarget e := by
  simp only [Walk.checkTarget, Expr.stripped_kind]
  cases e.kind <;> rfl

@[simp] theorem Expr.stripped_isLiteral (e : Expr) : e.stripped.isLiteral = e.isLiteral := by
  simp only [Expr.isLiteral, Expr.stripped_kind]
  cases e.kind <;> rfl

theorem strippedAll_eq (es : List Expr) : strippedAll es = es.map Expr.stripped := by
  induction es with
  | nil => rfl
  | cons e es ih => simp [strippedAll, ih]

@[simp] theorem strippedAll_isEmpty (es : List Expr) : (strippedAll es).isEmpty = es.isEmpty := by
  simp [strippedAll_eq]

@[simp] theorem strippedAll_length (es : List Expr) : (strippedAll es).length = es.length := by
  simp [strippedAll_eq]

/-- Whether something is a constant can be seen without its value. -/
@[simp] theorem Expr.stripped_isDefault (e : Expr) : e.stripped.isDefault = e.isDefault := by
  simp only [Expr.isDefault, Expr.stripped_kind]
  cases e.kind with
  | sequence form items =>
    cases form with
    | list => simp [ExprKind.stripped]
    | interpolation =>
      rcases items with _ | ⟨part, _ | ⟨_, _⟩⟩
      · rfl
      · simp [ExprKind.stripped, strippedAll]
      · rfl
    | _ => rfl
  | dictionary entries => cases entries <;> rfl
  | _ => rfl

theorem strippedOption_toList (e : Option Expr) :
    (strippedOption e).toList = e.toList.map Expr.stripped := by
  cases e <;> rfl

theorem strippedEntries_parts (entries : List (Expr × Expr)) :
    ((strippedEntries entries).flatMap fun entry => [entry.1, entry.2]) =
      (entries.flatMap fun entry => [entry.1, entry.2]).map Expr.stripped := by
  induction entries with
  | nil => rfl
  | cons entry entries ih => simp [strippedEntries, ih]

theorem strippedEnvironment_parts (entries : List (String × Expr)) :
    (strippedEnvironment entries).map Prod.snd = (entries.map Prod.snd).map Expr.stripped := by
  induction entries with
  | nil => rfl
  | cons entry entries ih => simp [strippedEnvironment] at ih ⊢; exact ih

theorem strippedParameters_parts (parameters : List Parameter) :
    (strippedParameters parameters).flatMap Parameter.children =
      (parameters.flatMap Parameter.children).map Expr.stripped := by
  induction parameters with
  | nil => rfl
  | cons parameter parameters ih =>
    obtain ⟨_, _, _⟩ := parameter
    simp [strippedParameters, Parameter.children, strippedOption_toList, ih]

theorem strippedCatches_parts (catches : List Catch) :
    (strippedCatches catches).flatMap Catch.children =
      (catches.flatMap Catch.children).map Expr.stripped := by
  induction catches with
  | nil => rfl
  | cons clause catches ih =>
    obtain ⟨_, _, _⟩ := clause
    simp [strippedCatches, Catch.children, strippedOption_toList, ih]

/-- Stripping keeps the parts of a node, but for what has been piped into a call. -/
theorem Expr.stripped_children (e : Expr) :
    e.stripped.children.Sublist (e.children.map Expr.stripped) := by
  simp only [Expr.children, Expr.stripped_kind]
  cases e.kind
  case call made =>
    obtain ⟨_, _, _, _, _, _, _⟩ := made
    simp [ExprKind.stripped, strippedCall, ExprKind.children, Call.children, strippedAll_eq,
      strippedEnvironment_parts]
  all_goals
    simp [ExprKind.stripped, ExprKind.children, strippedAll_eq, strippedOption_toList,
      strippedEntries_parts, strippedParameters_parts, strippedCatches_parts]

theorem Expr.stripped_declaredFunction? (e : Expr) :
    e.stripped.declaredFunction? = e.declaredFunction? := by
  simp only [Expr.declaredFunction?, Expr.stripped_kind]
  cases e.kind <;> rfl

/-- A stripped tree declares no functions besides those of the tree. -/
theorem Expr.stripped_functionIds (e : Expr) : e.stripped.functionIds.Sublist e.functionIds := by
  induction e using Expr.induction with
  | inherited e ih =>
    rw [Expr.functionIds_eq, Expr.functionIds_eq e, Expr.stripped_declaredFunction?]
    refine List.Sublist.append_left ?_ _
    have fewer := e.stripped_children.flatMap Expr.functionIds
    rw [List.flatMap_map] at fewer
    exact fewer.trans (List.Sublist.flatMap_right _ ih)

theorem Ast.stripped_functionIds (ast : Ast) :
    ast.stripped.functionIds.Sublist ast.functionIds := by
  rw [Ast.functionIds_eq, Ast.functionIds_eq, Ast.stripped, strippedAll_eq, List.flatMap_map]
  exact List.Sublist.flatMap_right _ fun e _ => e.stripped_functionIds

end Stripping

/-! ### Plans for stripped sources -/

namespace Plan

variable {α β : Type}

/-- The plan with stripped sources in the places of the expressions that it visits. -/
def stripped : {α : Type} → Plan α → Plan α
  | _, .done a => .done a
  | _, .act action next => .act action fun b => (next b).stripped
  | _, .visit context slot e next => .visit context slot e.stripped fun r => (next r).stripped
  | _, .guarded id inner next => .guarded id inner.stripped fun b => (next b).stripped

@[simp] theorem stripped_pure (a : α) : (pure a : Plan α).stripped = pure a := rfl

@[simp] theorem stripped_lift (action : Walk α) : (liftM action : Plan α).stripped = liftM action := rfl

@[simp] theorem stripped_modify (change : AnalysisState → AnalysisState) :
    (modify change : Plan PUnit).stripped = modify change := rfl

@[simp] theorem stripped_enter (context : Context) (slot : Slot) (e : Expr) :
    (enter context slot e).stripped = enter context slot e.stripped := rfl

@[simp] theorem stripped_guard (id : FunctionId) (inner : Plan α) :
    (guard id inner).stripped = guard id inner.stripped := rfl

@[simp] theorem stripped_bind (p : Plan α) (next : α → Plan β) :
    (p >>= next).stripped = p.stripped >>= fun a => (next a).stripped := by
  change (p.bind next).stripped = p.stripped.bind fun a => (next a).stripped
  induction p with
  | done a => rfl
  | act action rest ih => simp only [bind, stripped, ih]
  | visit context slot e rest ih => simp only [bind, stripped, ih]
  | guarded id inner rest _ ih => simp only [bind, stripped, ih]

theorem stripped_each (context : Context) {slot : Expr → Slot}
    (same : ∀ e : Expr, slot e.stripped = slot e) (es : List Expr) :
    (each context slot es).stripped = each context slot (strippedAll es) := by
  induction es with
  | nil => rfl
  | cons e es ih => simp [each, strippedAll, ih, same]

theorem stripped_option (context : Context) (isRoot : Option Bool) (e : Option Expr) :
    (option context isRoot e).stripped = option context isRoot (strippedOption e) := by
  cases e <;> simp [option, strippedOption]

theorem stripped_pairs (context : Context) (entries : List (Expr × Expr)) :
    (pairs context entries).stripped = pairs context (strippedEntries entries) := by
  induction entries with
  | nil => rfl
  | cons entry entries ih => simp [pairs, strippedEntries, ih]

theorem stripped_environmentValues (context : Context) (entries : List (String × Expr)) :
    (environmentValues context entries).stripped =
      environmentValues context (strippedEnvironment entries) := by
  induction entries with
  | nil => rfl
  | cons entry entries ih => simp [environmentValues, strippedEnvironment, ih]

theorem stripped_parameterList (context : Context) (seenDefault : Bool)
    (parameters : List Parameter) :
    (parameterList context seenDefault parameters).stripped =
      parameterList context seenDefault (strippedParameters parameters) := by
  induction parameters generalizing seenDefault with
  | nil => rfl
  | cons parameter rest ih =>
    obtain ⟨name, default?, isVariadic⟩ := parameter
    have last : checkVariadic isVariadic (strippedParameters rest) = checkVariadic isVariadic rest := by
      rcases rest with _ | ⟨⟨_, _, _⟩, _⟩ <;> rfl
    cases default? <;> simp [parameterList, strippedParameters, strippedOption, ih, last]

theorem stripped_catchList (context : Context) (isRoot : Bool) (catches : List Catch) :
    (catchList context isRoot catches).stripped =
      catchList context isRoot (strippedCatches catches) := by
  induction catches with
  | nil => rfl
  | cons clause rest ih =>
    obtain ⟨identifier, typeRef, body⟩ := clause
    simp [catchList, strippedCatches, stripped_option, ih]

theorem stripped_functionDecl (context : Context) (parameters : List Parameter) (body : Expr)
    (module : ModuleId) (takesClosure : Bool) (id : FunctionId) :
    (functionDecl context parameters body module takesClosure id).stripped =
      functionDecl context (strippedParameters parameters) body.stripped module takesClosure id := by
  simp [functionDecl, stripped_parameterList]

/-- The plan of a stripped node is that of the node, apart from the expressions that it visits. -/
theorem stripped_node (context : Context) (slot : Slot) (span : Span) {kind : ExprKind}
    (function : kind.name ≠ "function") :
    (node context slot span kind).stripped = node context slot span kind.stripped := by
  cases kind
  case functionDecl => exact absurd rfl function
  case call made =>
    obtain ⟨_, _, _, _, _, _, _⟩ := made
    simp [node, ExprKind.stripped, strippedCall, stripped_each, stripped_environmentValues]
  case binary left op right =>
    simp only [node, ExprKind.stripped]
    cases op.redirection? <;> simp
  all_goals
    simp [node, ExprKind.stripped, stripped_each, stripped_option, stripped_pairs,
      stripped_parameterList, stripped_catchList]

/-- A plan does the same with stripped sources, if the walks over these do what those over the sources
do. -/
theorem run_stripped (p : Plan α) {s : AnalysisState}
    (alike : ∀ w, p.stripped.Enters s w → ∀ e : Expr, e.stripped = w.source →
      runFrom (Walk.expr w.context w.slot e) w.before =
        runFrom (Walk.expr w.context w.slot w.source) w.before) :
    runFrom p.run s = runFrom p.stripped.run s := by
  induction p generalizing s with
  | done a => rfl
  | act action next ih =>
    refine runFrom_bind_congr rfl fun b t given => ih b fun w entered => ?_
    exact alike w ⟨b, t, given, entered⟩
  | visit context slot e next ih =>
    have first := alike ⟨context, slot, e.stripped, s⟩ (.inl rfl) e rfl
    refine runFrom_bind_congr first fun r t given => ih r fun w entered => ?_
    rw [Gives, first] at given
    exact alike w (.inr ⟨r, t, given, entered⟩)
  | guarded id inner next innerIh ih =>
    have inside := innerIh fun w entered => alike w (.inl entered)
    -- Inside, both fail with the same state, and the function is marked as failed in it.
    have first : runFrom (Walk.orFailFunction id inner.run) s =
        runFrom (Walk.orFailFunction id inner.stripped.run) s := by
      simp only [Walk.orFailFunction, runFrom_tryCatch, inside]
    refine runFrom_bind_congr first fun b t given => ih b fun w entered => ?_
    rw [Gives, first] at given
    exact alike w (.inr ⟨b, t, gives_orFailFunction.mp given, entered⟩)

/-- So it is with a function that has not been met, which is not given back as it came. -/
theorem run_stripped_function {context : Context} {slot : Slot} {span : Span} {access : Access}
    {name : Token} {parameters : List Parameter} {body : Expr} {module : ModuleId} {takesClosure : Bool}
    {id : FunctionId} {s : AnalysisState}
    (pending : ∀ f, s.tree.function id = .ok f → ¬ f.status ≠ .pending)
    (alike : ∀ w, (node context slot span (ExprKind.functionDecl access name parameters body module
        takesClosure id).stripped).Enters s w → ∀ e : Expr, e.stripped = w.source →
      runFrom (Walk.expr w.context w.slot e) w.before =
        runFrom (Walk.expr w.context w.slot w.source) w.before) :
    runFrom (node context slot span
        (.functionDecl access name parameters body module takesClosure id)).run s =
      runFrom (node context slot span (ExprKind.functionDecl access name parameters body module
        takesClosure id).stripped).run s := by
  simp only [ExprKind.stripped, node, run_bind, run_lift, enters_bind, enters_lift, false_or] at alike ⊢
  refine runFrom_bind_congr rfl fun f t asked => ?_
  have awaited := pending f (gives_ask.mp asked).1
  -- Of a function that had been met, the answer would be the node itself, with its annotations.
  rw [if_neg awaited, if_neg awaited]
  refine (run_stripped _ fun w entered => alike w ⟨f, t, asked, ?_⟩).trans ?_
  · rw [if_neg awaited]
    simpa [stripped_functionDecl] using entered
  · simp [stripped_functionDecl]

end Plan

/-! ### Walks over stripped trees -/

namespace Visit

variable {v : Visit}

/-- A walk over a tree does what the walk over the stripped tree does, if that meets no function for
the second time. -/
theorem runFrom_stripped (fresh : v.Fresh) {e : Expr} (same : e.stripped = v.source) :
    runFrom (Walk.expr v.context v.slot e) v.before =
      runFrom (Walk.expr v.context v.slot v.source) v.before := by
  -- The induction is on the stripped tree: what the walk over that one enters is stripped again.
  induction source : v.source using Expr.induction generalizing v e with
  | inherited c ih =>
    subst source
    have alike (w : Visit) (entered : v.Enters w) (e : Expr) (same : e.stripped = w.source) :
        runFrom (Walk.expr w.context w.slot e) w.before =
          runFrom (Walk.expr w.context w.slot w.source) w.before :=
      ih w.source (mem_children_of_enters entered) (fresh.enters entered) same rfl
    obtain ⟨context, slot, c, s⟩ := v
    obtain ⟨kind, span, isRoot, enclosing⟩ := e
    subst same
    simp only [Expr.stripped, Walk.expr, Plan.node_eq_run, Slot.admits_stripped]
    refine runFrom_bind_congr ?_ fun _ _ _ => rfl
    simp only [Walk.locate, runFrom_tryCatch]
    by_cases admitted : slot.admits kind = true
    · have enters {w : Visit} (entered : (Plan.node context slot span kind.stripped).Enters s w) :
          Visit.Enters ⟨context, slot, ⟨kind.stripped, span, isRoot, none⟩, s⟩ w :=
        ⟨by simpa using admitted, entered⟩
      suffices nodes : runFrom (Plan.node context slot span kind).run s =
          runFrom (Plan.node context slot span kind.stripped).run s by
        rw [if_pos admitted, if_pos admitted, nodes]
      cases kind
      case functionDecl access name parameters body module takesClosure id =>
        refine Plan.run_stripped_function ?_ fun w entered => alike w (enters entered)
        exact fun f found before => fresh.not_skips
          ⟨access, name, _, _, module, takesClosure, id, f, rfl, found, before⟩
      case' sequence form items => cases form
      all_goals
        rw [← Plan.stripped_node _ _ _ (by simp [ExprKind.name, Sequence.name])] at enters ⊢
        exact Plan.run_stripped _ fun w entered => alike w (enters entered)
    · rw [if_neg admitted, if_neg admitted]

end Visit

namespace Analysis

variable {registry : Registry} {mode : AnalysisMode} {module : ModuleId} {ast : Ast}

/-- The analysis of a module does on a tree what it does on the stripped tree. -/
theorem runFrom_moduleWalk_stripped {s : AnalysisState} (once : ast.stripped.functionIds.Nodup)
    (awaits : s.tree.Awaits ast.stripped.functionIds) :
    runFrom (moduleWalk registry mode module ast) s =
      runFrom (moduleWalk registry mode module ast.stripped) s := by
  unfold moduleWalk
  -- Up to the first expression, the walk does not look at the tree.
  refine runFrom_bind_congr rfl fun m r asked => ?_
  obtain ⟨found, rfl⟩ := gives_ask.mp asked
  refine runFrom_bind_congr rfl fun _ t marked => ?_
  refine runFrom_bind_congr ?_ fun _ _ _ => rfl
  suffices walks : runFrom (walkModule ⟨registry, m.scope, none⟩ module ast) t =
      runFrom (walkModule ⟨registry, m.scope, none⟩ module ast.stripped) t by
    rw [runFrom_tryCatch, runFrom_tryCatch, walks]
  refine runFrom_bind_congr rfl fun _ start resolved => ?_
  refine runFrom_bind_congr ?_ fun _ _ _ => rfl
  have begins : Begins registry module r ⟨registry, m.scope, none⟩ start :=
    ⟨m, found, rfl, gives_bind.mpr ⟨_, t, marked, resolved⟩⟩
  have sources := Plan.stripped_each ⟨registry, m.scope, none⟩ Expr.stripped_slot ast.expressions
  rw [← Plan.run_each, ← Plan.run_each, Ast.stripped, ← sources]
  refine Plan.run_stripped _ fun w entered e same => Visit.runFrom_stripped ?_ same
  rw [sources] at entered
  exact Visited.fresh once awaits ⟨_, start, w, begins, entered, .refl⟩

/-- The analysis does not depend on the findings that a tree brings along: it ends in the same way for
two trees that differ in nothing else, with the same annotated tree or the same error, and with the
same tree of scopes. No function is declared twice or has been met before. -/
theorem analyze_eq_of_stripped (registry : Registry) (mode : AnalysisMode) (tree : ScopeTree)
    (module : ModuleId) {ast ast' : Ast} (same : ast.stripped = ast'.stripped)
    (once : ast.functionIds.Nodup) (awaits : tree.Awaits ast.functionIds) :
    analyze registry mode tree module ast = analyze registry mode tree module ast' := by
  have once' : ast.stripped.functionIds.Nodup := ast.stripped_functionIds.nodup once
  have awaits' : tree.Awaits ast.stripped.functionIds :=
    fun id member => awaits id (ast.stripped_functionIds.subset member)
  have runs : runFrom (moduleWalk registry mode module ast) { tree } =
      runFrom (moduleWalk registry mode module ast') { tree } := by
    rw [runFrom_moduleWalk_stripped once' awaits', same,
      ← runFrom_moduleWalk_stripped (same ▸ once') (same ▸ awaits')]
  simp only [runFrom, StateT.run] at runs
  simp only [analyze, runs]

/-- A script with a function, a closure, and the output of a program that goes to another one. -/
def unannotated : Ast :=
  ⟨[Build.letIn ["x"] (Build.integer "1"),
    Build.function { name := "f", access := .restricted, module := ⟨0⟩ } ⟨0⟩
      (Build.blockOf .function ⟨1⟩ [
        Build.binary (Build.command "ls" ["."]) .pipeError (Build.command "grep" ["a"])]),
    Build.closure (Build.call "reduce" [Build.list []]) [] (Build.block ⟨2⟩ [Build.variableRef "x"])]⟩

/-- The same script with findings that are wrong: a number is nil, a program is a function with
something piped into it, and a variable belongs to the block that uses it. -/
def misannotated : Ast :=
  ⟨[{ Build.letIn ["x"] ⟨.literal ⟨.integer, "1", {}⟩ (some .nil), {}, false, none⟩ with
      enclosing := some (.function ⟨0⟩) },
    Build.function { name := "f", access := .restricted, module := ⟨0⟩ } ⟨0⟩
      (Build.blockOf .function ⟨1⟩ [
        Build.binary
          ((Build.command "ls" ["."]).mapCall fun made => { made with
            piped := some (Build.string "b")
            findings := { callType := some .function, function := some ⟨0⟩ } })
          .pipeError (Build.command "grep" ["a"])]),
    .fresh (.closure (Build.call "reduce" [Build.list []]) []
      (Build.block ⟨2⟩ [.fresh (.variableRef (Build.name "x") (some ⟨2⟩) false)]) {} (some ⟨7⟩))]⟩

def annotationScopes : ScopeTree :=
  { ScopeTree.ofRoot "main" with
    scopes := #[⟨none, ⟨0⟩, {}⟩, ⟨some ⟨0⟩, ⟨0⟩, {}⟩, ⟨some ⟨0⟩, ⟨0⟩, {}⟩]
    functions := #[{ name := "f", access := .restricted, module := ⟨0⟩ }] }

/-- Both scripts are analysed, with the same result. -/
theorem analyze_eq_of_stripped_misannotated :
    (∃ analysed, (analyze globalsOnly .overwrite annotationScopes ⟨0⟩ misannotated).result =
      .ok analysed) ∧
    analyze globalsOnly .overwrite annotationScopes ⟨0⟩ misannotated =
      analyze globalsOnly .overwrite annotationScopes ⟨0⟩ unannotated := by
  have declared : misannotated.functionIds = [⟨0⟩] := by decide +kernel
  have pending : annotationScopes.statusOf? ⟨0⟩ = some .pending := by decide +kernel
  constructor
  · have succeeds : (analyze globalsOnly .overwrite annotationScopes ⟨0⟩ misannotated).result.isOk =
        true := by decide +kernel
    cases result : (analyze globalsOnly .overwrite annotationScopes ⟨0⟩ misannotated).result with
    | ok analysed => exact ⟨analysed, rfl⟩
    | error halt => rw [result] at succeeds; cases succeeds
  · refine analyze_eq_of_stripped _ _ _ _ rfl (by simp [declared]) ?_
    intro id member status found
    rw [declared, List.mem_singleton] at member
    subst member
    exact Option.some.inj (found.symm.trans pending)

end Analysis
end ShellSema
