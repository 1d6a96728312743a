import ShellSema.Proofs.CaptureSources
import ShellSema.Proofs.FunctionRuns
import ShellSema.Proofs.Noting
import ShellSema.Proofs.Resolved

/-!
# References as bodies of closures

A closure whose body is a bare reference to a function gets parameters that are made up, and the
reference becomes a call that is given them before its own arguments. How many there are depends on
the call that the closure is attached to. All other closures keep their parameters, and their body
stays as it was analysed. No closure comes to capture a made-up parameter.
-/
namespace ShellSema

/-! ### Bare references -/

/-- The expression is a block of this call only, which is a bare reference. -/
structure Expr.IsReference (body e : Expr) (role : BlockRole) (scope : ScopeId) (reference : Call) :
    Prop where
  block : body.kind = .block [e] role scope
  call : e.kind = .call reference
  bare : reference.mode.isReference = true

theorem reference?_eq_some_iff {body e : Expr} {reference : Call} :
    Walk.reference? body = some (e, reference) ↔
      ∃ role scope, body.IsReference e role scope reference := by
  constructor
  · intro found
    obtain ⟨⟨role, scope, block⟩, call, bare⟩ := reference?_eq_some found
    exact ⟨role, scope, block, call, bare⟩
  · rintro ⟨role, scope, block, call, bare⟩
    simp [Walk.reference?, block, call, bare]

/-- Names for what a call passes to its closure: a number for each of as many values as the standard
function says, or else the names of the parameters of the function of the script, or else a single
letter. -/
inductive Call.NamesValues (tree : ScopeTree) (made : Call) : List String → Prop where
  | counted {f : StandardFunction} {count : UInt64} (standard : made.findings.standard = some f)
      (known : f.closureParameters = some count) :
      NamesValues tree made ((List.range count.toNat).map toString)
  | declared {id : FunctionId} {f : ScriptFunction}
      (unknown : ∀ f ∈ made.findings.standard, f.closureParameters = none)
      (function : made.findings.function = some id) (found : tree.function id = .ok f) :
      NamesValues tree made (f.parameters.map (·.name.text))
  | single (unknown : ∀ f ∈ made.findings.standard, f.closureParameters = none)
      (none : made.findings.function = none) : NamesValues tree made ["a"]

theorem namesValues_of_gives {made : Call} {names : List String} {s t : AnalysisState}
    (given : Gives (Walk.impliedNames made) s names t) : made.NamesValues s.tree names := by
  unfold Walk.impliedNames at given
  split at given
  next count known =>
    obtain ⟨rfl, -⟩ := gives_pure.mp given
    obtain ⟨f, standard, known⟩ := Option.bind_eq_some_iff.mp known
    exact .counted standard known
  next unknown =>
    have unknown : ∀ f ∈ made.findings.standard, f.closureParameters = none :=
      Option.bind_eq_none_iff.mp unknown
    split at given
    next id function =>
      simp only [gives_bind, gives_ask, gives_pure] at given
      obtain ⟨f, _, ⟨found, -⟩, rfl, -⟩ := given
      exact .declared unknown function found
    next none =>
      obtain ⟨rfl, -⟩ := gives_pure.mp given
      exact .single unknown none

theorem Call.NamesValues.congr {tree later : ScopeTree} {made : Call} {names : List String}
    (named : made.NamesValues tree names) (same : ∀ id, later.function id = tree.function id) :
    made.NamesValues later names := by
  cases named with
  | counted standard known => exact .counted standard known
  | declared unknown function found => exact .declared unknown function ((same _).trans found)
  | single unknown none => exact .single unknown none

/-! ### Names that no closure captures -/

/-- The expression uses no variable of the name, and no closure in it starts with it as captured. -/
def Expr.Ignores (e : Expr) (name : String) : Prop :=
  ∀ n ∈ e.nodes, (∀ token ∈ n.usedName?, token.text ≠ name) ∧ ∀ captured ∈ n.captured?, name ∉ captured

theorem Expr.Ignores.child {c e : Expr} {name : String} (ignores : e.Ignores name)
    (child : c ∈ e.children) : c.Ignores name :=
  fun n inside => ignores n (Expr.mem_nodes_of_child child inside)

/-- No closure captures the name. -/
def AnalysisState.Uncaptured (s : AnalysisState) (name : String) : Prop := ∀ id, ¬ s.Captures id name

section Uncaptured

variable {name : String}

/-- A name that no closure captures stays one. -/
def KeepsUncaptured (name : String) (s t : AnalysisState) : Prop :=
  s.Uncaptured name → t.Uncaptured name

theorem keepsUncaptured_of_capturedBefore {s t : AnalysisState}
    (before : ∀ id, CapturedBefore id name s t) : KeepsUncaptured name s t :=
  fun uncaptured id captured => uncaptured id (before id captured)

theorem keepsUncaptured_refl (s : AnalysisState) : KeepsUncaptured name s s :=
  fun uncaptured => uncaptured

theorem KeepsUncaptured.trans (r s t : AnalysisState) (first : KeepsUncaptured name r s)
    (rest : KeepsUncaptured name s t) : KeepsUncaptured name r t :=
  fun uncaptured => rest (first uncaptured)

theorem calm_keepsUncaptured : Calm (KeepsUncaptured name) (Permit.onScopes fun _ => True) :=
  calm_of_closures keepsUncaptured_refl KeepsUncaptured.trans fun _ _ same =>
    keepsUncaptured_of_capturedBefore fun _ => capturedBefore_of_same same

theorem keepsUncaptured_variableUse {token : Token} (other : token.text ≠ name) (context : Context)
    {s t : AnalysisState} {kind : ExprKind} (given : Gives (Walk.variableUse context token) s kind t) :
    KeepsUncaptured name s t := by
  rcases variableUse_cases given with ⟨-, same⟩ | ⟨-, id', -, -, -, -, -, -, -, closures⟩
  · exact keepsUncaptured_of_capturedBefore fun _ => capturedBefore_of_same same
  · intro uncaptured id captured
    rcases captures_of_modify closures captured with before | ⟨rfl, frame, -, now, not⟩
    · exact uncaptured _ before
    · exact other ((NameSet.mem_insert.mp now).resolve_right not).symm

/-- A closure hands on only what it captures itself. -/
theorem keepsUncaptured_propagateCaptures {inner : ClosureId} {enclosing : Option Enclosing}
    {u : Unit} {s t : AnalysisState}
    (given : Gives (Walk.propagateCaptures inner enclosing) s u t) : KeepsUncaptured name s t := by
  intro uncaptured id captured
  have nothing (captured : s.Captures inner name) : s.MarksAround inner name :=
    absurd captured (uncaptured inner)
  exact uncaptured inner (Visit.marksAround_of_handed given nothing (uncaptured id) captured).2.1

theorem keepsUncaptured_enterClosure {context : Context} {scope : ScopeId} {parameters : List Token}
    {captured : NameSet} {id : ClosureId} {s t : AnalysisState} (fresh : name ∉ captured)
    (given : Gives (Walk.enterClosure context scope parameters captured) s id t) :
    KeepsUncaptured name s t := by
  obtain ⟨-, closures, -⟩ := gives_enterClosure given
  rintro uncaptured id ⟨frame, found, member⟩
  rw [closures] at found
  rcases getElem?_push_cases found with ⟨-, rfl⟩ | before
  · exact fresh member
  · exact uncaptured id ⟨frame, before, member⟩

/-- A closure captures only what its parts do, if it has not captured the name before. -/
private theorem Visit.keepsUncaptured_of_closure {v : Visit} {r : Expr} {t : AnalysisState}
    {attached body : Expr} {parameters : List Token} {captured : NameSet} {old : Option ClosureId}
    (source : v.source.kind = .closure attached parameters body captured old)
    (fresh : name ∉ captured) (given : v.Gives r t)
    (call : ∀ (w : Visit) r t, w.source = attached → w.Gives r t → KeepsUncaptured name w.before t)
    (inside : ∀ (w : Visit) r t, w.source = body → w.Gives r t → KeepsUncaptured name w.before t) :
    KeepsUncaptured name v.before t := by
  obtain ⟨scope, id, opened, body', walked, handed, made, parameters', body'', frame, attached',
    ⟨call', s, first, -, entered⟩, visited, passed, expanded, -, -⟩ := closure_of_gives source given
  have expansion : KeepsUncaptured name handed t := keepsUncaptured_of_capturedBefore fun _ =>
    (capturedBefore_expandReference _ _ _ _ _).of_gives expanded
  intro uncaptured
  have opening := keepsUncaptured_enterClosure fresh entered (call _ _ _ rfl first uncaptured)
  exact expansion (keepsUncaptured_propagateCaptures passed (inside _ _ _ rfl visited opening))

/-- A visit captures no name that its source ignores, apart from the variable that holds a
closure. -/
theorem Visit.keepsUncaptured_of_gives (other : name ≠ closureCarrier) {v : Visit} {r : Expr}
    {t : AnalysisState} (ignores : v.source.Ignores name) (given : v.Gives r t) :
    KeepsUncaptured name v.before t := by
  induction same : v.source using Expr.induction generalizing v r t with
  | inherited e ih =>
    subst same
    by_cases closure : v.source.kindName = "closure"
    · obtain ⟨attached, parameters, body, captured, old, source⟩ := Expr.closure_of_kindName closure
      have children : attached ∈ v.source.children ∧ body ∈ v.source.children := by
        simp [Expr.children, ExprKind.children, source]
      have fresh : name ∉ captured :=
        (ignores v.source v.source.mem_nodes_self).2 captured (by simp [Expr.captured?, source])
      refine keepsUncaptured_of_closure source fresh given (fun w r t part given => ?_)
        fun w r t part given => ?_
      · exact ih attached children.1 (part ▸ ignores.child children.1) given part
      · exact ih body children.2 (part ▸ ignores.child children.2) given part
    cases use : v.source.usedName? with
    | some token =>
      obtain ⟨place, flag, source⟩ := Expr.kind_of_usedName? use
      have apart := (ignores v.source v.source.mem_nodes_self).1 token use
      exact keepsUncaptured_variableUse apart v.context (variable_of_gives source given)
    | none =>
      obtain ⟨-, made, carried, -⟩ := gives_iff.mp given
      have within : v.plan.Within (KeepsUncaptured name) fun context slot c =>
          Standing (Permit.onScopes fun _ => True) v.source.kind v.context context slot c ∧
            c ∈ v.source.children := by
        refine (Plan.within_calm calm_keepsUncaptured v.source.permitted_everywhere.here
          (.inl trivial) ?_ ?_ closure).follow (Plan.follows_node ..)
        · intro token place flag used
          simp [Expr.usedName?, used] at use
        · intro written called s
          exact keepsUncaptured_of_capturedBefore fun _ => capturedBefore_callee other _ _ _ s
      refine within.of_gives keepsUncaptured_refl KeepsUncaptured.trans ?_ carried
      intro w r t wanted given
      exact ih w.source wanted.2 (ignores.child wanted.2) given rfl

end Uncaptured

/-! ### The end of a closure -/

/-- What a closure, attached to a call, does with its parameters and its analysed body, by the state in
which it ends. A bare reference becomes a call with a variable for each of the parameters that are made
up, before its own arguments; anything else stays as it is. -/
structure Call.Finishes (made : Call) (id : ClosureId) (tree : ScopeTree) (parameters : List Token)
    (body : Expr) (parameters' : List Token) (body' : Expr) : Prop where
  expanded : ∀ e role scope reference, body.IsReference e role scope reference →
    ∃ names implied, made.NamesValues tree names ∧
      parameters' = names.map (fun name => reference.name.withText ("'" ++ name)) ∧
      List.Forall₂ (fun parameter argument =>
        argument.kind = .variableRef parameter (some scope) false ∧
          argument.enclosing = some (.closure id)) parameters' implied ∧
      (∀ parameter ∈ parameters', tree.Declares scope parameter.text) ∧
      body' = { body with kind := .block [{ e with kind := .call { reference with
        arguments := implied ++ reference.arguments
        mode := { reference.mode with isReference := false } } }] role scope }
  kept : (∀ e role scope reference, ¬ body.IsReference e role scope reference) →
    parameters' = parameters ∧ body' = body

theorem finishes_of_expandReference {made : Call} {id : ClosureId} {scope : ScopeId}
    {parameters parameters' : List Token} {body body' : Expr} {s t : AnalysisState}
    (block : body.blockScope? = some scope)
    (given : Gives (Walk.expandReference id made scope parameters body) s (parameters', body') t) :
    made.Finishes id t.tree parameters body parameters' body' := by
  constructor
  · intro e role scope' reference bare
    obtain rfl : scope' = scope := by
      simpa [Expr.blockScope?, bare.block] using block
    have found : Walk.reference? body = some (e, reference) :=
      reference?_eq_some_iff.mpr ⟨role, scope', bare⟩
    have declares := declares_of_expandReference given found
    -- Functions are not changed on the way.
    have same (f : FunctionId) : t.tree.function f = s.tree.function f :=
      ((keepsRecord_preserved f).expand id made scope' parameters body trivial).of_gives given
    simp only [Walk.expandReference, found, gives_bind, gives_pure] at given
    obtain ⟨names, _, named, -, -, -, -, -, -, result, -⟩ := given
    obtain ⟨rfl, rfl⟩ := Prod.mk.inj result
    refine ⟨names,
      (names.map (Walk.impliedParameter reference.name)).map (Walk.impliedArgument id scope'),
      (namesValues_of_gives named).congr same, rfl, ?_, declares, ?_⟩
    · exact List.forall₂_map_right_iff.mpr (List.forall₂_same.mpr fun _ _ => ⟨rfl, rfl⟩)
    · simp [Walk.replaceOnly, Walk.expandedCall, bare.block]
  · intro other
    have none : Walk.reference? body = none := by
      rw [Option.eq_none_iff_forall_ne_some]
      rintro ⟨e, reference⟩ found
      obtain ⟨role, scope, bare⟩ := reference?_eq_some_iff.mp found
      exact other _ _ _ _ bare
    simp only [Walk.expandReference, none, gives_pure, Prod.mk.injEq] at given
    exact given.1

/-- What the expansion of a reference leaves of the captures of all closures. -/
theorem captures_of_expandReference {made : Call} {id : ClosureId} {scope : ScopeId}
    {parameters : List Token} {body : Expr} {result : List Token × Expr} {s t : AnalysisState}
    (given : Gives (Walk.expandReference id made scope parameters body) s result t) (other : ClosureId)
    (name : String) : t.Captures other name ↔ s.Captures other name := by
  have grows : Grows (fun _ => True) s t :=
    ((grows_preserved fun _ => True).expand _ _ _ _ _ trivial).of_gives given
  exact ⟨(capturedBefore_expandReference _ _ _ _ _).of_gives given, fun captured => captured.grown grows⟩

theorem madeUp_ne_closureCarrier (name : String) : "'" ++ name ≠ closureCarrier := by
  intro same
  have first := congrArg (fun text => text.toList.head?) same
  simp [closureCarrier] at first

namespace Visit

variable {v : Visit} {attached body : Expr} {parameters : List Token} {captured : NameSet}
  {old : Option ClosureId} {r : Expr} {t : AnalysisState}

/-- A closure that is analysed ends with the parameters and the body that `Call.Finishes` says, by what
the visits of its call and of its body gave, and with the names that it has been found to capture. No
closure captures a name through this last step, and over the whole visit no closure, nor this node, comes
to capture a made-up name that the source does not use itself. -/
theorem finishes_of_gives (source : v.source.kind = .closure attached parameters body captured old)
    (given : v.Gives r t) :
    ∃ call made s scope id opened body' walked handed parameters' body'' frame,
      (v.attachedVisit attached).Gives call s ∧ call.call? = some made ∧
      v.Opens attached body parameters captured scope id opened ∧
      (v.bodyVisit body id opened).Gives body' walked ∧ body'.blockScope? = some scope ∧
      ShellSema.Gives (Walk.propagateCaptures id v.context.enclosing) walked () handed ∧
      made.Finishes id t.tree parameters body' parameters' body'' ∧
      (∀ other name, t.Captures other name ↔ handed.Captures other name) ∧
      t.closures[id.index]? = some frame ∧
      r.kind = .closure call parameters' body'' frame.captured (some id) ∧
      ∀ name, v.source.Ignores ("'" ++ name) → v.before.Uncaptured ("'" ++ name) →
        t.Uncaptured ("'" ++ name) ∧ "'" ++ name ∉ frame.captured := by
  have uncaptured (name : String) (ignores : v.source.Ignores ("'" ++ name)) :
      v.before.Uncaptured ("'" ++ name) → t.Uncaptured ("'" ++ name) :=
    keepsUncaptured_of_gives (madeUp_ne_closureCarrier name) ignores given
  obtain ⟨-, node, carried, rfl⟩ := gives_iff.mp given
  simp only [plan, source, Plan.node, Plan.run_bind, Plan.run_lift, Plan.run_enter, Plan.run_pure,
    gives_bind, gives_pure, gives_attachedCall, gives_blockScope, gives_frame] at carried
  obtain ⟨call, s, first, made, _, ⟨isCall, rfl⟩, scope, _, ⟨block, rfl⟩, id, opened, entered, body',
    walked, visited, _, handed, passed, ⟨parameters', body''⟩, _, expanded, frame, _,
    ⟨found, rfl⟩, rfl, rfl⟩ := carried
  -- The analysed body is a block with the scope of its source, so the parameters are declared in
  -- that scope.
  have analysed : body'.blockScope? = some scope :=
    blockScope_of_gives (v := v.bodyVisit body id opened) block visited
  refine ⟨call, made, _, scope, id, opened, body', walked, handed, parameters', body'', frame,
    first, isCall, ⟨call, _, first, block, entered⟩, visited, analysed, passed,
    finishes_of_expandReference analysed expanded, captures_of_expandReference expanded, found, rfl, ?_⟩
  intro name ignores before
  have after := uncaptured name ignores before
  exact ⟨after, fun member => after id ⟨frame, found, member⟩⟩

/-- A script with a function that takes a closure. -/
def keepingScopes : ScopeTree :=
  { Analysis.lenOfTwoScopes with
    modules := Analysis.lenOfTwoScopes.modules.map fun m =>
      { m with functions := m.functions.insert "keep" ⟨0⟩ }
    functions := #[{ name := "keep", module := ⟨0⟩, parameters := [Build.parameter "input"]
                     takesClosure := true }] }

/-- The visit of a closure on a call, whose body is a reference to a function. -/
def passingLength (called : String) : Visit where
  context := { registry := Analysis.globalsOnly, scope := ⟨0⟩, enclosing := none }
  slot := { isRoot := false }
  source := Build.closure (Build.call called [Build.list []]) []
    (Build.block ⟨1⟩ [Build.reference [] "len"])
  before := { tree := keepingScopes }

/-- The visit gives a closure whose call finishes it, with parameters of these names. -/
def FinishesWith (v : Visit) (names : List String) : Prop :=
  ∃ r t call made id body captured body' parameters', v.Gives r t ∧
    r.kind = .closure call parameters' body' captured (some id) ∧ call.call? = some made ∧
    made.Finishes id t.tree [] body parameters' body' ∧ parameters'.map Token.text = names

/-- The call of a standard function passes two values, and the call of the other function one. -/
theorem finishes_of_gives_passingLength :
    (passingLength "reduce").FinishesWith ["'0", "'1"] ∧
      (passingLength "keep").FinishesWith ["'input"] := by
  have finishes {called : String} {names : List String}
      (ends : endsWith (Walk.expr (passingLength called).context (passingLength called).slot
        (passingLength called).source) (passingLength called).before
          (fun r _ => r.kind.tokens.map Token.text == names) = true) :
      (passingLength called).FinishesWith names := by
    obtain ⟨r, t, given, reached⟩ := gives_of_endsWith ends
    obtain ⟨call, made, s, scope, id, opened, body, walked, handed, parameters', body', frame, -,
      isCall, -, -, -, -, finishes, -, -, kind, -⟩ := finishes_of_gives (v := passingLength called) rfl given
    rw [kind, ExprKind.tokens, beq_iff_eq] at reached
    exact ⟨r, t, call, made, id, body, frame.captured, body', parameters', given, kind, isCall,
      finishes, reached⟩
  exact ⟨finishes (by decide +kernel), finishes (by decide +kernel)⟩

end Visit
end ShellSema
