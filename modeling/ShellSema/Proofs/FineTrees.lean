import ShellSema.Proofs.ClosureRuns
import ShellSema.Proofs.CrashFree
import ShellSema.Proofs.Results

/-!
# What becomes of a tree without problems

The checks of a unit look at each node by itself: at the kinds of the expressions in some of its
places and at its handles. A visit moves left sides of pipes into calls, makes up arguments and
expands references, but the nodes that it makes pass these checks again, if those of its source do
and those of what is piped into it.
-/
namespace ShellSema

/-! ### The checks of a node -/

/-- Where a node of this kind has to hold a block or a call, it does. -/
structure ExprKind.Shaped (kind : ExprKind) : Prop where
  bodies : ∀ body ∈ kind.bodies, body.isBlock = true
  attached : ∀ attached parameters body captured id,
    kind = .closure attached parameters body captured id → attached.isCall = true

/-- The handles of a node of this kind lead to entries of the tree. -/
def ScopeTree.Leads (tree : ScopeTree) : ExprKind → Prop
  | .block _ _ scope => tree.hasScope scope = true
  | .functionDecl _ _ _ _ module _ id => tree.hasFunction id = true ∧ tree.hasModule module = true
  | .structDecl _ _ _ module => tree.hasModule module = true
  | _ => True

variable {base : ScopeTree} {e r : Expr}

theorem Expr.bodyProblem?_eq_none :
    e.bodyProblem? = none ↔ ∀ body ∈ e.kind.bodies, body.isBlock = true := by
  simp [bodyProblem?, List.find?_eq_none]

theorem Expr.shapeProblem?_eq_none : e.shapeProblem? = none ↔ e.kind.Shaped := by
  unfold shapeProblem?
  split
  next attached parameters body captured id kind =>
    constructor
    · intro fine
      split at fine
      next call =>
        refine ⟨bodyProblem?_eq_none.mp fine, ?_⟩
        rw [kind]
        rintro _ _ _ _ _ ⟨⟩
        exact call
      next => cases fine
    · rintro ⟨bodies, call⟩
      rw [if_pos (call _ _ _ _ _ kind)]
      exact bodyProblem?_eq_none.mpr bodies
  next other =>
    rw [bodyProblem?_eq_none]
    exact ⟨fun bodies => ⟨bodies, fun _ _ _ _ _ kind => absurd kind (other _ _ _ _ _)⟩,
      ExprKind.Shaped.bodies⟩

theorem ScopeTree.handleProblem?_eq_none : base.handleProblem? e = none ↔ base.Leads e.kind := by
  unfold handleProblem? Leads
  cases e.kind <;> simp [ite_eq_iff]

theorem ScopeTree.nodeProblem?_eq_none :
    base.nodeProblem? e = none ↔ e.kind.Shaped ∧ base.Leads e.kind := by
  rw [nodeProblem?, Option.or_eq_none_iff, Expr.shapeProblem?_eq_none, handleProblem?_eq_none]

/-- A tree has no problems if its root has none and the trees below it have none. -/
theorem Expr.fine_iff :
    e.Fine base ↔ (e.kind.Shaped ∧ base.Leads e.kind) ∧ ∀ c ∈ e.children, c.Fine base := by
  unfold Fine
  rw [e.nodes_eq]
  simp only [List.mem_cons, List.mem_flatMap, forall_eq_or_imp, ← ScopeTree.nodeProblem?_eq_none]
  exact and_congr_right fun _ =>
    ⟨fun all c child n inside => all n ⟨c, child, inside⟩, fun all n ⟨c, child, inside⟩ =>
      all c child n inside⟩

/-- The kinds of nodes that have to hold blocks. -/
def bodyKinds : List String := ["module", "function", "for", "while", "closure", "try"]

/-- The kinds of nodes that have handles of their own. -/
def handleKinds : List String := ["function", "struct", "block"]

/-- The kinds of nodes that the checks look at. -/
def checkedKinds : List String := bodyKinds ++ handleKinds

theorem ExprKind.bodies_of_name {kind : ExprKind} (other : kind.name ∉ bodyKinds) :
    kind.bodies = [] := by
  cases kind <;> first | rfl | simp [name, bodyKinds] at other

theorem ExprKind.leads_of_name {kind : ExprKind} (other : kind.name ∉ handleKinds) :
    base.Leads kind := by
  cases kind <;> first | trivial | simp [name, handleKinds] at other

/-- Nodes of other kinds pass the checks. -/
theorem ExprKind.passes_of_name {kind : ExprKind} (other : kind.name ∉ checkedKinds) :
    kind.Shaped ∧ base.Leads kind := by
  rw [checkedKinds, List.mem_append, not_or] at other
  refine ⟨⟨by simp [bodies_of_name other.1], ?_⟩, leads_of_name other.2⟩
  rintro _ _ _ _ _ rfl
  simp [name, bodyKinds] at other

/-- The checks look at each node by itself, wherever it stands. -/
theorem Expr.allAbove_iff_fine {place : ScopeId} :
    e.AllAbove (fun _ => False) (fun _ n => n.kind.Shaped ∧ base.Leads n.kind) place ↔
      e.Fine base := by
  induction e using Expr.induction generalizing place with
  | inherited e ih =>
    rw [allAbove_iff, fine_iff]
    refine and_congr_right fun _ => ⟨fun below c child => ?_, fun below _ c child => ?_⟩
    · exact (ih c child).mp (below not_false c child)
    · exact (ih c child).mpr (below c child)

/-! ### Along a walk -/

namespace Visit

variable {v : Visit} {t : AnalysisState}

/-- A struct stays in its module. -/
theorem struct_of_gives {access : Access} {name : Token} {parameters : List Parameter}
    {module : ModuleId} (source : v.source.kind = .structDecl access name parameters module)
    (given : v.Gives r t) : ∃ parameters', r.kind = .structDecl access name parameters' module := by
  obtain ⟨-, made, carried, rfl⟩ := gives_iff.mp given
  simp only [plan, source, Plan.node, Plan.run_bind, Plan.run_lift, Plan.run_pure, gives_bind,
    gives_pure] at carried
  obtain ⟨_, _, -, parameters', _, -, _, _, -, _, _, -, rfl, -⟩ := carried
  exact ⟨parameters', rfl⟩

/-- Where the source of a visit has blocks, its result has what these have become. -/
theorem bodies_of_gives (given : v.Gives r t) (pipe : v.source.isPipe = false)
    (literal : v.source.kindName ≠ "literal") (closure : v.source.kindName ≠ "closure")
    (met : ¬ v.Skips) :
    List.Forall₂ (fun e e' => ∃ context, v.Part context e e') v.source.kind.bodies
      r.kind.bodies := by
  -- The body of a function is analysed elsewhere than its other parts, so it has a description of
  -- its own.
  by_cases function : v.source.kindName = "function"
  · obtain ⟨access, name, parameters, body, module, takesClosure, id, source⟩ :=
      Expr.function_of_kindName function
    obtain ⟨_, _, _, kind, -, -, part, -⟩ := function_of_gives source given met
    rw [source, kind]
    exact .cons ⟨_, part⟩ .nil
  have named := kindName_of_gives given pipe literal
  obtain ⟨admitted, made, carried, rfl⟩ := gives_iff.mp given
  change made.kindName = v.source.kindName at named
  suffices parts : v.plan.Yields v.Passes v.before fun made => made.kindName = v.source.kindName →
      List.Forall₂ (fun e e' => ∃ context, v.Part context e e') v.source.kind.bodies
        made.kind.bodies by
    have bodies := yields_of_gives parts admitted carried named
    exact bodies
  have single {context : Context} {e e' : Expr} (part : v.Part context e e') :
      List.Forall₂ (fun e e' => ∃ context, v.Part context e e') [e] [e'] :=
    .cons ⟨context, part⟩ .nil
  -- Of the kinds that are left only four have bodies.
  by_cases other : v.source.kindName ∉ bodyKinds
  · refine (Plan.yields_any _).mono fun made _ named => ?_
    rw [ExprKind.bodies_of_name other]
    rw [← named] at other
    rw [ExprKind.bodies_of_name other]
    exact .nil
  obtain ⟨context, slot, ⟨kind, span, isRoot, enclosing⟩, s⟩ := v
  simp only [plan]
  cases kind
  case moduleDecl access name body =>
    refine Plan.yields_act fun _ _ _ => Plan.yields_act fun _ _ _ => ?_
    exact Plan.yields_bind Plan.yields_plain fun body _ part => Plan.yields_pure fun _ => single part
  case forEach identifiers value body =>
    refine Plan.yields_bind Plan.yields_plain fun value _ _ => ?_
    refine Plan.yields_act fun _ _ _ => Plan.yields_act fun _ _ _ => ?_
    exact Plan.yields_bind Plan.yields_plain fun body _ part => Plan.yields_pure fun _ => single part
  case whileDo condition body =>
    refine Plan.yields_bind Plan.yields_plain fun condition _ _ => ?_
    refine Plan.yields_act fun _ _ _ => ?_
    exact Plan.yields_bind Plan.yields_plain fun body _ part => Plan.yields_pure fun _ => single part
  case tryCatch body catches =>
    refine Plan.yields_act fun _ _ _ => ?_
    refine Plan.yields_bind Plan.yields_plain fun body _ part => ?_
    refine Plan.yields_bind (Plan.yields_catches ..) fun catches _ clauses => Plan.yields_pure ?_
    intro _
    refine .cons ⟨_, part⟩ ?_
    rw [List.forall₂_map_left_iff, List.forall₂_map_right_iff]
    exact clauses.imp fun _ _ parts => ⟨_, _, rfl, parts.2⟩
  case functionDecl => exact absurd rfl function
  case closure => exact absurd rfl closure
  case' sequence form items => cases form
  all_goals exact absurd (by simp [Expr.kindName, ExprKind.name, Sequence.name, bodyKinds]) other

/-- A visit that puts results in the places of subexpressions makes a node that passes the checks. -/
theorem passes_of_gives (passes : v.source.kind.Shaped ∧ base.Leads v.source.kind)
    (given : v.Gives r t) (pipe : v.source.isPipe = false) (literal : v.source.kindName ≠ "literal")
    (closure : v.source.kindName ≠ "closure") (met : ¬ v.Skips) :
    r.kind.Shaped ∧ base.Leads r.kind := by
  have named := kindName_of_gives given pipe literal
  refine ⟨⟨?_, ?_⟩, ?_⟩
  · have parts := bodies_of_gives given pipe literal closure met
    have bodies := (List.forall₂_and_left _ _).mpr ⟨passes.1.bodies, parts⟩
    exact forall_of_forall₂ bodies fun _ _ ⟨block, _, part⟩ => part.isBlock block
  · intro _ _ _ _ _ kind
    rw [← named] at closure
    exact absurd (by rw [Expr.kindName, kind, ExprKind.name]) closure
  · have leads := passes.2
    -- Only a block, a function and a struct lead to the tree, and each keeps its handles.
    by_cases other : v.source.kindName ∉ handleKinds
    · rw [← named] at other
      exact ExprKind.leads_of_name other
    cases source : v.source.kind
    case block expressions role scope =>
      have found : v.source.blockScope? = some scope := by rw [Expr.blockScope?, source]
      obtain ⟨expressions', role', kind⟩ :=
        Expr.kind_of_blockScope? (blockScope_of_gives found given)
      rw [source] at leads
      rw [kind]
      exact leads
    case functionDecl =>
      obtain ⟨_, _, _, kind, -⟩ := function_of_gives source given met
      rw [source] at leads
      rw [kind]
      exact leads
    case structDecl =>
      obtain ⟨_, kind⟩ := struct_of_gives source given
      rw [source] at leads
      rw [kind]
      exact leads
    case' sequence form items => cases form
    all_goals
      refine absurd ?_ other
      simp [Expr.kindName, source, ExprKind.name, Sequence.name, handleKinds]

/-- The node that a visit makes passes the checks, if its source has no problems. -/
theorem node_passes (fine : v.source.Fine base) (given : v.Gives r t)
    (pipe : v.source.isPipe = false) : r.kind.Shaped ∧ base.Leads r.kind := by
  cases course_of_gives given with
  | pipe source redirects => simp [Expr.isPipe, source, redirects] at pipe
  | call _ _ _ kind =>
    exact ExprKind.passes_of_name (by simp [kind, ExprKind.name, checkedKinds, bodyKinds, handleKinds])
  | constant _ _ kind =>
    exact ExprKind.passes_of_name (by simp [kind, ExprKind.name, checkedKinds, bodyKinds, handleKinds])
  | fragment _ _ kind =>
    exact ExprKind.passes_of_name (by simp [kind, ExprKind.name, checkedKinds, bodyKinds, handleKinds])
  | closure _ called isCall block walked expanded kind =>
    rw [kind]
    refine ⟨⟨?_, ?_⟩, trivial⟩
    -- The body may be exchanged for the call that it refers to, but it stays a block.
    · have stays : Expr.isBlock _ = true := walked.isBlock (Expr.isBlock_of_blockScope? block)
      rw [Expr.isBlock, ← (Walk.expands_of_gives expanded).blockScope] at stays
      simpa [ExprKind.bodies, Expr.isBlock] using stays
    · rintro _ _ _ _ _ ⟨⟩
      rw [Expr.isCall, isCall]
      rfl
  | skipped _ kind =>
    rw [kind]
    exact (Expr.fine_iff.mp fine).1
  | parts _ pipe _ literal closure met =>
    exact passes_of_gives (Expr.fine_iff.mp fine).1 given pipe literal closure met

theorem composes_passes (base : ScopeTree) :
    Composes (fun v => v.source.Fine base) (fun _ => False)
      fun _ n => n.kind.Shaped ∧ base.Leads n.kind where
  ending _ ended := ended.elim
  made _ _ _ fine given pipe := node_passes fine given pipe
  mode _ e change only passes := by
    by_cases call : e.kindName = "call"
    · apply ExprKind.passes_of_name
      change (e.mapCall change).kindName ∉ checkedKinds
      rw [Expr.kindName_mapCall, call]
      simp [checkedKinds, bodyKinds, handleKinds]
    · rwa [Expr.mapCall_of_name call]
  fragment _ _ _ _ _ := ExprKind.passes_of_name
    (by simp [fragmentArgument, ExprKind.name, checkedKinds, bodyKinds, handleKinds])
  implied := by
    intros
    exact ExprKind.passes_of_name
      (by simp [Walk.impliedArgument, ExprKind.name, checkedKinds, bodyKinds, handleKinds])
  expanded := by
    intros
    exact ExprKind.passes_of_name (by simp [ExprKind.name, checkedKinds, bodyKinds, handleKinds])
  skipped _ _ _ fine _ _ _ c child := Expr.allAbove_iff_fine.mpr (fine.child child)
  moved _ _ _ _ passes := passes
  replaced _ body e reference made role scope block _ passes := by
    -- The new body is a block with the same scope.
    rw [block] at passes
    simp only [Walk.replaceOnly, block]
    exact ⟨⟨by simp [ExprKind.bodies], by simp⟩, passes.2⟩

/-- What a visit makes of an expression without problems has none, if what is piped into it has none. -/
theorem fine_of_gives (fine : v.source.Fine base) (given : v.Gives r t)
    (piped : ∀ left, v.slot.piped = some left → left.Fine base) : r.Fine base :=
  Expr.allAbove_iff_fine.mp ((composes_passes base).all_of_gives
    (fun _ _ fine enters => fine.child (mem_children_of_enters enters)) fine
    (fun left attached => Expr.allAbove_iff_fine.mpr (piped left attached)) given)

end Visit
end ShellSema
