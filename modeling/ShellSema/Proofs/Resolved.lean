import ShellSema.Proofs.Counts
import ShellSema.Proofs.Moments

/-!
# Analysed trees are complete

What runs a script relies on the findings of the analysis: each call has a type, each literal a
value, each variable a scope that sees it. Every visit of an expression fills in what belongs to it,
and what is put into a tree besides the results of visits comes with its findings. Only functions that
were met before stay as they were.
-/
namespace ShellSema

/-- The scope, or one around it, declares the name. -/
def ScopeTree.Sees (tree : ScopeTree) (scope : ScopeId) (name : String) : Prop :=
  ∃ declaring, tree.Inside scope declaring ∧ tree.Declares declaring name

/-- The findings about a call name what is called, as its type says, and nothing else. -/
structure CallFindings.Complete (findings : CallFindings) : Prop where
  callType : findings.callType.isSome = true
  scope : findings.scope.isSome = true
  standard : findings.standard.isSome = true ↔ findings.callType = some .standard
  function : findings.function.isSome = true ↔ findings.callType = some .function
  closureProvider :
    findings.closureProvider.isSome = true ↔ findings.callType = some .builtinClosure

/-- The analysis has found out about a node what belongs to it. -/
def Expr.Resolved (tree : ScopeTree) (n : Expr) : Prop :=
  match n.kind with
  | .call made => made.findings.Complete
  | .literal token value => value.isSome = true ∧ token.kind ≠ .shellFragment
  | .binary _ op _ => op.isPipe = false
  | .construct _ _ _ target => target.isSome = true
  | .typeRef _ target => target.isSome = true
  | .fieldAccess _ _ value => value.isSome = true
  | .letIn _ _ scope => scope.isSome = true
  | .closure _ _ _ _ id => id.isSome = true
  | .variableRef name scope _ =>
    ∃ place, scope = some place ∧ (name.isEnvironmentName = false → tree.Sees place name.text)
  | _ => True

/-! ### Names that are seen -/

namespace ScopeTree

variable {tree later : ScopeTree} {scopes : ScopeId → Prop} {scope : ScopeId} {name : String}

theorem Declares.sees (declares : tree.Declares scope name) : tree.Sees scope name :=
  ⟨scope, .refl, declares⟩

theorem Sees.grown (sees : tree.Sees scope name) (grows : GrowsTo scopes tree later) :
    later.Sees scope name := by
  obtain ⟨declaring, inside, declares⟩ := sees
  refine ⟨declaring, ?_, grows.declared _ _ declares⟩
  rwa [inside_congr grows.parents]

theorem sees_of_isVisible (visible : tree.isVisible scope name = .ok true) :
    tree.Sees scope name := by
  unfold isVisible declaringScope at visible
  cases answered : tree.declaringWithin name (tree.scopes.size + 1) scope with
  | error fault =>
    rw [answered] at visible
    cases visible
  | ok answer =>
    rw [answered] at visible
    cases answer with
    | none => cases visible
    | some declaring =>
      obtain ⟨declares, inside⟩ := declares_of_declaringWithin answered
      exact ⟨declaring, inside, declares⟩

end ScopeTree

/-- A variable that is used is seen where it is used. -/
theorem sees_of_variableUse {context : Context} {name : Token} {kind : ExprKind}
    {s t : AnalysisState} (given : Gives (Walk.variableUse context name) s kind t) :
    ∃ isCaptured, kind = .variableRef name (some context.scope) isCaptured ∧
      (name.isEnvironmentName = false → s.tree.Sees context.scope name.text) := by
  rcases gives_variableUse.mp given with ⟨environment, rfl, -⟩ | ⟨-, asked, isCaptured, -, rfl, -⟩
  · -- The shell has a variable of this name, whatever the script declares.
    exact ⟨_, rfl, fun script => by rw [environment] at script; cases script⟩
  · exact ⟨isCaptured, rfl, fun _ => ScopeTree.sees_of_isVisible asked⟩

/-- The parameters that are made up for a reference are declared in the body of the closure. -/
theorem declares_of_expandReference {id : ClosureId} {attached reference : Call} {scope : ScopeId}
    {parameters : List Token} {body e : Expr} {result : List Token × Expr} {s t : AnalysisState}
    (given : Gives (Walk.expandReference id attached scope parameters body) s result t)
    (found : Walk.reference? body = some (e, reference)) :
    ∀ parameter ∈ result.1, t.tree.Declares scope parameter.text := by
  simp only [Walk.expandReference, found, gives_bind, gives_pure] at given
  obtain ⟨names, s₁, -, _, s₂, declared, _, s₃, changed, rfl, rfl⟩ := given
  have settled := (grows_preserved fun _ => True).toSettled
  have declares := declares_of_forM (fun _ => settled.declare _ _ trivial)
    (fun _ _ _ _ added => declares_of_addVariable added) declared
  -- The frame of the closure is changed last, and no scope with it.
  simp only [Walk.changeFrame, gives_modify] at changed
  subst changed
  exact declares

/-! ### What visits find out -/

theorem Callee.findings_complete (callee : Callee) (scope : ScopeId) :
    (callee.findings scope).Complete := by
  cases callee <;> constructor <;> simp [Callee.findings, Callee.callType]

theorem Expr.resolved_of_name {tree : ScopeTree} {n : Expr}
    (other : n.kindName ∉ ["call", "literal", "binary", "new", "type", "field access", "let",
      "closure", "variable"]) : n.Resolved tree := by
  unfold Expr.Resolved
  split
  all_goals
    next kind => first
      | trivial
      | simp [kindName, ExprKind.name, kind] at other

theorem Token.kind_of_constant {token : Token} {value : Constant}
    (means : token.meaning = .constant value) : token.kind ≠ .shellFragment := by
  intro fragment
  simp [Token.meaning, fragment] at means

/-- The call that a shell fragment becomes. -/
theorem Expr.resolved_fragment {tree : ScopeTree} {n : Expr} {context : Context} {token : Token}
    {span : Span} {code : String} (kind : n.kind = .call (fragmentCall context token span code)) :
    n.Resolved tree := by
  simp only [Expr.Resolved, kind]
  constructor <;> simp [fragmentCall]

/-- What a visit makes itself is complete, also for a tree of scopes that has grown since. -/
theorem Visit.resolved_of_gives {tree : ScopeTree} {v : Visit} {r : Expr} {t : AnalysisState}
    (given : v.Gives r t) (pipe : v.source.isPipe = false)
    (later : ScopeTree.GrowsTo (fun _ => True) v.before.tree tree) : r.Resolved tree := by
  cases kind : v.source.kind
  case call written =>
    obtain ⟨made, callee, -, kind, -, findings, -⟩ := call_of_gives kind given
    simp only [Expr.Resolved, kind, findings]
    exact callee.findings_complete v.context.scope
  case literal token old =>
    rcases literal_of_gives kind given with ⟨value, means, kind⟩ | ⟨code, -, kind⟩
    · simp only [Expr.Resolved, kind]
      exact ⟨rfl, Token.kind_of_constant means⟩
    · exact Expr.resolved_fragment kind
  case construct name path arguments old =>
    obtain ⟨arguments', target, -, kind, -⟩ := construct_of_gives kind given
    simp [Expr.Resolved, kind]
  case typeRef name old =>
    obtain ⟨target, -, -, kind⟩ := typeRef_of_gives kind given
    simp [Expr.Resolved, kind]
  case variableRef name old flag =>
    obtain ⟨isCaptured, kind, sees⟩ := sees_of_variableUse (variable_of_gives kind given)
    simp only [Expr.Resolved, kind]
    -- What was seen when the variable was used is seen in the end.
    exact ⟨_, rfl, fun script => (sees script).grown later⟩
  case closure attached parameters body captured old =>
    obtain ⟨_, id, _, _, _, _, _, _, _, _, _, -, -, -, -, -, kind⟩ := closure_of_gives kind given
    simp [Expr.Resolved, kind]
  case binary left op right =>
    have plain : op.redirection? = none := by simpa [Expr.isPipe, kind] using pipe
    obtain ⟨-, made, carried, rfl⟩ := gives_iff.mp given
    simp only [plan, kind, Plan.node, plain, Plan.run_bind, Plan.run_pure, gives_bind,
      gives_pure] at carried
    obtain ⟨-, -, -, -, -, -, -, -, -, rfl, -⟩ := carried
    simp [Expr.Resolved, BinaryOp.isPipe, plain]
  case letIn identifiers value scope =>
    obtain ⟨-, made, carried, rfl⟩ := gives_iff.mp given
    simp only [plan, kind, Plan.node, Plan.run_bind, Plan.run_pure, gives_bind, gives_pure] at carried
    obtain ⟨-, -, -, -, -, -, -, -, -, rfl, -⟩ := carried
    simp [Expr.Resolved]
  case fieldAccess object field value =>
    obtain ⟨-, made, carried, rfl⟩ := gives_iff.mp given
    simp only [plan, kind, Plan.node, Plan.run_bind, Plan.run_pure, gives_bind, gives_pure] at carried
    obtain ⟨-, -, -, -, -, -, rfl, -⟩ := carried
    simp [Expr.Resolved]
  case' sequence form items => cases form
  all_goals
    -- For nodes of the other kinds there is nothing to find out.
    have named : v.source.kindName ∉ ["call", "literal", "binary", "new", "type", "field access",
        "let", "closure", "variable"] := by
      simp [Expr.kindName, ExprKind.name, Sequence.name, kind]
    have literal : v.source.kindName ≠ "literal" := by
      simp [Expr.kindName, ExprKind.name, Sequence.name, kind]
    rw [← kindName_of_gives given pipe literal] at named
    exact Expr.resolved_of_name named

/-! ### Analysed trees -/

namespace Analysis

variable {registry : Registry} {mode : AnalysisMode} {module : ModuleId} {ast analysed : Ast}
  {s t : AnalysisState}

/-- The walk has left this function as it is: it had been met before. -/
def LeftAlone (registry : Registry) (module : ModuleId) (ast : Ast) (s : AnalysisState) (e : Expr) :
    Prop :=
  ∃ v t, Visited registry module ast s v ∧ v.Skips ∧ v.Gives e t

theorem LeftAlone.kindName {e : Expr} (left : LeftAlone registry module ast s e) :
    e.kindName = "function" := by
  obtain ⟨v, t, -, ⟨access, name, parameters, body, module, takesClosure, id, f, source, -⟩, given⟩ :=
    left
  rw [Visit.kindName_of_gives given (by simp [Expr.isPipe, source])
    (by simp [Expr.kindName, ExprKind.name, source])]
  simp [Expr.kindName, ExprKind.name, source]

/-- What comes into a tree besides the results of visits is complete as well. -/
theorem spreads_resolved (given : Gives (moduleWalk registry mode module ast) s analysed t) :
    Spreads (Visited registry module ast s) (LeftAlone registry module ast s)
      fun _ n => n.Resolved t.tree where
  ending _ left := left.kindName
  made v r t' visited left pipe := by
    have within : Grows (fun _ => True) v.before t' := Visit.grows_of_gives left
    exact v.resolved_of_gives left pipe (within.tree.trans (visited.grows given left).tree)
  mode _ e change only resolved := by
    unfold Expr.mapCall
    split
    next made kind =>
      obtain ⟨mode, changed, -⟩ := only made
      simp only [Expr.Resolved, kind, changed] at resolved ⊢
      exact resolved
    next => exact resolved
  block _ e block := by
    obtain ⟨scope, found⟩ := Option.isSome_iff_exists.mp block
    obtain ⟨expressions, role, kind⟩ := Expr.kind_of_blockScope? found
    simp [Expr.Resolved, kind]
  fragment _ _ _ _ _ := by simp [Expr.Resolved, fragmentArgument]
  implied v r t' attached id scope parameters body e reference u result visited left expanded found
      parameter member _ := by
    -- The body declared the made-up parameter before the visit of the closure ended.
    have declares : t.tree.Declares scope parameter.text :=
      (visited.grows given left).tree.declared _ _
        (declares_of_expandReference expanded found parameter member)
    simp only [Expr.Resolved, Walk.impliedArgument]
    exact ⟨scope, rfl, fun _ => declares.sees⟩
  expanded _ _ _ e _ reference _ _ _ _ _ _ _ _ resolved kind _ := by
    simp only [Expr.Resolved, kind, Walk.expandedCall] at resolved ⊢
    exact resolved
  skipped v r t' visited skips left goes := absurd ⟨v, t', visited, skips, left⟩ goes

/-- It does not matter in which scope a tree stands if nothing is said about scopes. -/
theorem allAbove_anywhere {ends wanted : Expr → Prop} {outer : ScopeId} {e : Expr}
    (all : e.AllAbove ends (fun _ n => wanted n) outer) (other : ScopeId) :
    e.AllAbove ends (fun _ n => wanted n) other := by
  intro place n inside
  obtain ⟨place', inside'⟩ : ∃ place', Expr.ContainsAbove ends outer e place' n := by
    clear all
    induction inside generalizing outer with
    | self => exact ⟨outer, .self⟩
    | inner goes child _ ih =>
      obtain ⟨place', deeper⟩ := ih
      exact ⟨place', .inner goes child deeper⟩
  exact all place' n inside'

/-- In an analysed tree all nodes are complete, but for those in functions that had been met before. In
the end, each variable that is no environment variable is declared in the scope it has been given
or around it, also those that are made up for references. -/
theorem resolved_of_analysed (given : Gives (moduleWalk registry mode module ast) s analysed t) :
    ∀ e ∈ analysed.expressions, ∀ outer,
      e.AllAbove (LeftAlone registry module ast s) (fun _ n => n.Resolved t.tree) outer := by
  intro e member outer
  obtain ⟨m, -, all⟩ := all_of_gives (spreads_resolved given) given
  exact allAbove_anywhere (all e member) outer

/-- The output of a shell fragment is piped to a program, and `len` is the closure of `reduce`. -/
def pipedFragment : Ast :=
  ⟨[Build.pipe (Build.literal .shellFragment "$:ls") (Build.call "grep" [Build.string "x"]),
    Build.closure (Build.call "reduce" [Build.list []]) []
      (Build.block ⟨1⟩ [Build.reference [] "len"])]⟩

/-- All nodes of that script are complete in the end. -/
theorem resolved_of_analysed_pipe :
    ∃ analysed t, Gives (moduleWalk globalsOnly .overwrite ⟨0⟩ pipedFragment)
      { tree := lenOfTwoScopes } analysed t ∧ analysed.expressions.length = 2 ∧
      ∀ e ∈ analysed.expressions, ∀ outer,
        e.AllAbove (LeftAlone globalsOnly ⟨0⟩ pipedFragment { tree := lenOfTwoScopes })
          (fun _ n => n.Resolved t.tree) outer := by
  have ends : endsWith (moduleWalk globalsOnly .overwrite ⟨0⟩ pipedFragment)
      { tree := lenOfTwoScopes } (fun analysed _ => analysed.expressions.length == 2) = true := by
    decide +kernel
  obtain ⟨analysed, t, ended, two⟩ := gives_of_endsWith ends
  exact ⟨analysed, t, ended, eq_of_beq two, resolved_of_analysed ended⟩

end Analysis
end ShellSema
