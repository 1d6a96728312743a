import ShellSema.Proofs.Resolved

/-!
# Root flags

An expression at the root is run for what it does: nobody reads its value, so the output of a command
there is not collected. A walk sets the flags of subexpressions before it goes over them, and
whatever takes the place of a subexpression has the flag that was set for it.
-/
namespace ShellSema

/-- The parts of a node are marked as the node asks for. The bodies of modules and loops are always run
for what they do, those of `if` and `try` as what they belong to. In a row of commands that are joined
by `&&` and `||`, only the value of the last one may be read. -/
def Expr.MarksParts (e : Expr) : Prop :=
  match e.kind with
  | .block expressions _ _ => e.isRoot = true → ∀ c ∈ expressions, c.isRoot = true
  | .moduleDecl _ _ body | .forEach _ _ body | .whileDo _ body => body.isRoot = true
  | .ifElse _ thenBranch elseBranch =>
    thenBranch.isRoot = e.isRoot ∧ ∀ branch ∈ elseBranch.toList, branch.isRoot = e.isRoot
  | .tryCatch body catches =>
    body.isRoot = e.isRoot ∧ ∀ clause ∈ catches, clause.body.isRoot = e.isRoot
  | .binary left op _ => op.isSequencing = true → left.isRoot = true ∧
    ∀ first inner second, left.kind = .binary first inner second → inner.isSequencing = true →
      second.isRoot = true
  | _ => True

theorem Expr.marksParts_of_name {e : Expr}
    (other : e.kindName ∉ ["block", "module", "for", "while", "if", "try", "binary"]) :
    e.MarksParts := by
  unfold Expr.MarksParts
  split
  all_goals
    next kind => first
      | trivial
      | simp [kindName, ExprKind.name, kind] at other

/-! ### Chains of commands -/

/-- Commands in a row, joined by `&&` and `||` and nested to the left: the operands before the last one,
in the order of the source, and the last one. -/
inductive Expr.Chain : Expr → List Expr → Expr → Prop
  | two {e left right : Expr} {op : BinaryOp} (kind : e.kind = .binary left op right)
      (sequencing : op.isSequencing = true) : Chain e [left] right
  | longer {e left right last : Expr} {op : BinaryOp} {earlier : List Expr}
      (kind : e.kind = .binary left op right) (sequencing : op.isSequencing = true)
      (chain : Chain left earlier last) : Chain e (earlier ++ [last]) right

/-- The last operand of a chain is the right side of the whole. -/
theorem Expr.Chain.kind {e last : Expr} {earlier : List Expr} (chain : e.Chain earlier last) :
    ∃ left op, e.kind = .binary left op last ∧ op.isSequencing = true := by
  cases chain with
  | two kind sequencing => exact ⟨_, _, kind, sequencing⟩
  | longer kind sequencing chain => exact ⟨_, _, kind, sequencing⟩

/-- If all nodes mark their parts, a chain of any length is run for what it does, up to its last
operand. -/
theorem Expr.Chain.isRoot {ends : Expr → Prop} {outer : ScopeId} {e last : Expr}
    {earlier : List Expr} (chain : e.Chain earlier last)
    (ending : ∀ n, ends n → n.kindName = "function")
    (all : e.AllAbove ends (fun _ n => n.MarksParts) outer) :
    ∀ operand ∈ earlier, operand.isRoot = true := by
  induction chain generalizing outer with
  | two kind sequencing =>
    have marks := (Expr.allAbove_iff.mp all).1
    simp only [MarksParts, kind] at marks
    exact List.forall_mem_singleton.mpr (marks sequencing).1
  | @longer e left right last op earlier kind sequencing chain ih =>
    obtain ⟨marks, below⟩ := Expr.allAbove_iff.mp all
    have goes : ¬ ends e := fun ended => by
      have named := ending e ended
      simp [kindName, ExprKind.name, kind] at named
    have left := below goes left (by simp [children, ExprKind.children, kind])
    -- The operand before the last one is the right side of the left side.
    obtain ⟨first, inner, kind', sequencing'⟩ := chain.kind
    simp only [MarksParts, kind] at marks
    have before := (marks sequencing).2 first inner last kind' sequencing'
    exact List.forall_mem_append.mpr ⟨ih left, List.forall_mem_singleton.mpr before⟩

/-! ### Visits -/

theorem Expr.kind_of_binary {e : Expr} (named : e.kindName = "binary") :
    ∃ left op right, e.kind = .binary left op right := by
  cases kind : e.kind
  case binary left op right => exact ⟨left, op, right, rfl⟩
  case' sequence form items => cases form
  all_goals simp [kindName, ExprKind.name, Sequence.name, kind] at named

namespace Visit

variable {v : Visit} {r : Expr} {t : AnalysisState}

/-- Nothing is attached to a pipe. -/
theorem isPipe_of_attached (given : v.Gives r t) (attached : v.slot.attachment ≠ none) :
    v.source.isPipe = false := by
  cases pipe : v.source.isPipe with
  | false => rfl
  | true =>
    obtain ⟨left, op, right, redirection, kind, -⟩ := Expr.kind_of_isPipe pipe
    have detached : v.slot.attachment = none := by
      apply detached_of_gives given
      all_goals simp [Expr.kindName, ExprKind.name, kind]
    exact absurd detached attached

/-- What a visit gives has the root flag that was set for its place, also if it is the right side of a
pipe or the call that a shell fragment becomes. -/
theorem isRoot_of_gives (given : v.Gives r t) : r.isRoot = v.slot.isRoot := by
  cases pipe : v.source.isPipe with
  | false => exact (made_of_gives given pipe).1
  | true =>
    obtain ⟨left, op, right, redirection, source, redirects⟩ := Expr.kind_of_isPipe pipe
    obtain ⟨_, _, told, _, -, -, second, -⟩ := pipe_of_gives source redirects given
    have handed := (made_of_gives second (isPipe_of_attached second (by simp))).1
    exact handed

/-- An operator that is left in a tree does not come through a pipe: what stands to the right of a pipe
is a call or a closure. -/
theorem source_of_binary {left right : Expr} {op : BinaryOp} (given : v.Gives r t)
    (kind : r.kind = .binary left op right) :
    ∃ left' op' right', v.source.kind = .binary left' op' right' ∧ op'.redirection? = none := by
  have same {v : Visit} (given : v.Gives r t) (pipe : v.source.isPipe = false) :
      v.source.kindName = "binary" := by
    by_contra other
    refine kindName_ne_of_gives given pipe other (by decide) (by decide) ?_
    simp [Expr.kindName, ExprKind.name, kind]
  cases pipe : v.source.isPipe with
  | false =>
    obtain ⟨left', op', right', source⟩ := Expr.kind_of_binary (same given pipe)
    exact ⟨left', op', right', source, by simpa [Expr.isPipe, source] using pipe⟩
  | true =>
    obtain ⟨_, _, right, _, source, redirects⟩ := Expr.kind_of_isPipe pipe
    obtain ⟨_, _, told, u, -, -, second, -⟩ := pipe_of_gives source redirects given
    have handed : right.kindName = "binary" := same second (isPipe_of_attached second (by simp))
    have detached := detached_of_gives second (by simp [handed]) (by simp [handed])
    cases detached

/-- The operands of an operator are visited one after the other. The left operand of `&&` and `||` is
run for what it does, and knows that it stands in a chain. If the whole stands in one, its right operand is
run for what it does as well. -/
theorem operands_of_gives {left right : Expr} {op : BinaryOp} (given : v.Gives r t)
    (kind : r.kind = .binary left op right) :
    ∃ (w : Visit) (u : AnalysisState), w.Gives left u ∧
      (op.isSequencing = true → w.slot.isRoot = true ∧ w.slot.inChain = true) ∧
      (op.isSequencing = true → v.slot.inChain = true → right.isRoot = true) := by
  obtain ⟨left', op', right', source, plain⟩ := source_of_binary given kind
  obtain ⟨-, made, carried, rfl⟩ := gives_iff.mp given
  simp only [plan, source, Plan.node, plain, Plan.run_bind, Plan.run_lift, Plan.run_enter,
    Plan.run_pure, gives_bind, gives_pure] at carried
  obtain ⟨_, s, -, first, u, visited, second, _, visited', rfl, -⟩ := carried
  cases kind
  refine ⟨⟨v.context, _, left', s⟩, u, visited, fun sequencing => ?_, fun sequencing chained => ?_⟩
  · simp [sequencing]
  · have flag : right.isRoot = ((op.isSequencing && v.slot.inChain) || right'.isRoot) :=
      isRoot_of_gives (v := ⟨v.context, _, right', u⟩) visited'
    rw [flag, sequencing, chained, Bool.true_and, Bool.true_or]

/-- What a visit makes itself marks its parts. -/
theorem marksParts_of_gives (given : v.Gives r t) (pipe : v.source.isPipe = false) :
    r.MarksParts := by
  -- Each part has the flag of its slot.
  have marks {kind : ExprKind} (source : v.source.kind = kind)
      (yields : (Plan.node v.context v.slot v.source.span kind).Yields
        (fun _ slot _ r => r.isRoot = slot.isRoot) v.before Expr.MarksParts) : r.MarksParts := by
    subst source
    obtain ⟨-, made, carried, rfl⟩ := gives_iff.mp given
    have marked := yields.of_gives (fun _ _ _ _ given => isRoot_of_gives given) carried
    exact marked
  cases source : v.source.kind
  case block expressions role scope =>
    refine marks source (Plan.yields_bind (Plan.yields_slots ..) fun rs _ flags => Plan.yields_pure ?_)
    intro root
    refine forall_of_forall₂ flags fun e r flag => ?_
    rw [flag]
    exact Bool.or_eq_true_iff.mpr (.inl root)
  case moduleDecl access name body =>
    refine marks source (Plan.yields_act fun _ _ _ => Plan.yields_act fun _ _ _ => ?_)
    exact Plan.yields_bind Plan.yields_enter fun body _ flag => Plan.yields_pure flag
  case forEach identifiers value body =>
    refine marks source (Plan.yields_bind Plan.yields_enter fun _ _ _ => ?_)
    refine Plan.yields_act fun _ _ _ => Plan.yields_act fun _ _ _ => ?_
    exact Plan.yields_bind Plan.yields_enter fun body _ flag => Plan.yields_pure flag
  case whileDo condition body =>
    refine marks source (Plan.yields_bind Plan.yields_enter fun _ _ _ => Plan.yields_act fun _ _ _ => ?_)
    exact Plan.yields_bind Plan.yields_enter fun body _ flag => Plan.yields_pure flag
  case ifElse condition thenBranch elseBranch =>
    refine marks source (Plan.yields_bind Plan.yields_enter fun _ _ _ => ?_)
    refine Plan.yields_bind Plan.yields_enter fun thenBranch _ flag => ?_
    refine Plan.yields_bind (Plan.yields_optionSlot ..) fun elseBranch _ flags => Plan.yields_pure ?_
    exact ⟨flag, forall_of_forall₂ flags fun _ _ flag => flag⟩
  case tryCatch body catches =>
    refine marks source (Plan.yields_act fun _ _ _ => ?_)
    refine Plan.yields_bind Plan.yields_enter fun body _ flag => ?_
    refine Plan.yields_bind (Plan.yields_catches ..) fun catches _ flags => Plan.yields_pure ?_
    exact ⟨flag, forall_of_forall₂ flags fun _ _ flag => flag.2⟩
  case binary left op right =>
    have named : r.kindName = "binary" := by
      rw [kindName_of_gives given pipe] <;> simp [Expr.kindName, ExprKind.name, source]
    obtain ⟨left', op', right', kind⟩ := Expr.kind_of_binary named
    obtain ⟨w, u, first, inChain, -⟩ := operands_of_gives given kind
    simp only [Expr.MarksParts, kind]
    intro sequencing
    obtain ⟨root, chained⟩ := inChain sequencing
    refine ⟨(isRoot_of_gives first).trans root, fun _ _ _ kind' sequencing' => ?_⟩
    obtain ⟨-, -, -, -, marked⟩ := operands_of_gives first kind'
    exact marked sequencing' chained
  case' sequence form items => cases form
  all_goals
    -- The other kinds mark no part, and no visit makes one of the kinds above of them.
    refine Expr.marksParts_of_name fun member => ?_
    simp only [List.mem_cons, List.not_mem_nil, or_false] at member
    rcases member with named | named | named | named | named | named | named
    all_goals
      refine kindName_ne_of_gives given pipe ?_ (by decide) (by decide) named
      simp [Expr.kindName, ExprKind.name, Sequence.name, source]

end Visit

/-! ### Analysed trees -/

namespace Analysis

variable {registry : Registry} {mode : AnalysisMode} {module : ModuleId} {ast analysed : Ast}
  {s t : AnalysisState}

/-- What comes into a tree besides the results of visits has no parts to mark. The expansion of a
reference leaves its flag as it is. -/
theorem composes_marksParts : Composes (Visited registry module ast s)
    (LeftAlone registry module ast s) fun _ n => n.MarksParts where
  ending _ left := left.kindName
  made _ _ _ _ given pipe := Visit.marksParts_of_gives given pipe
  mode _ e change _ marks := by
    by_cases call : e.kindName = "call"
    · refine Expr.marksParts_of_name ?_
      rw [Expr.kindName_mapCall, call]
      decide
    · rwa [Expr.mapCall_of_name call]
  moved _ _ _ _ marks := marks
  replaced _ body e _ _ _ _ kind _ marks := by
    simp only [Expr.MarksParts, Walk.replaceOnly, kind, List.forall_mem_singleton] at marks ⊢
    exact marks
  fragment _ _ _ _ _ := by simp [Expr.MarksParts, fragmentArgument]
  implied _ _ _ _ _ _ _ _ _ _ _ _ _ _ _ _ _ _ _ := by
    simp [Expr.MarksParts, Walk.impliedArgument]
  expanded _ _ _ _ _ _ _ _ _ _ _ _ _ _ _ _ _ := by simp [Expr.MarksParts]
  skipped v _ t' visited skips left goes := absurd ⟨v, t', visited, skips, left⟩ goes

/-- In an analysed tree all nodes mark their parts, but for those in functions that had been met
before. So in a chain of commands of any length all operands but the last one are run for what they
do. -/
theorem marksParts_of_analysed (given : Gives (moduleWalk registry mode module ast) s analysed t) :
    ∀ e ∈ analysed.expressions, ∀ outer,
      e.AllAbove (LeftAlone registry module ast s) (fun _ n => n.MarksParts ∧
        ∀ earlier last, n.Chain earlier last → ∀ operand ∈ earlier, operand.isRoot = true) outer := by
  intro e member outer place n inside
  obtain ⟨m, -, all⟩ := all_of_composes composes_marksParts given
  have within := (allAbove_anywhere (all e member) outer).within inside
  refine ⟨(Expr.allAbove_iff.mp within).1, fun earlier last chain => ?_⟩
  exact chain.isRoot (fun _ left => left.kindName) within

/-- A loop over a chain of three commands, the first of them a pipe and the second one the code of a
shell fragment. -/
def loopOverChain : Ast :=
  ⟨[Build.whileDo (Build.bareWord "more") (Build.block ⟨1⟩
    [Build.binary
      (Build.binary (Build.pipe (Build.command "make" []) (Build.command "tee" ["log"])) .andThen
        (Build.literal .shellFragment "$:sync"))
      .orElse (Build.command "date" [])])]⟩

/-- The parts of all nodes of that script are marked in the end. -/
theorem marksParts_of_analysed_loop :
    ∃ analysed t, Gives (moduleWalk globalsOnly .overwrite ⟨0⟩ loopOverChain)
      { tree := lenOfTwoScopes } analysed t ∧ analysed.expressions.length = 1 ∧
      ∀ e ∈ analysed.expressions, ∀ outer,
        e.AllAbove (LeftAlone globalsOnly ⟨0⟩ loopOverChain { tree := lenOfTwoScopes })
          (fun _ n => n.MarksParts ∧ ∀ earlier last, n.Chain earlier last →
            ∀ operand ∈ earlier, operand.isRoot = true) outer := by
  have ends : endsWith (moduleWalk globalsOnly .overwrite ⟨0⟩ loopOverChain)
      { tree := lenOfTwoScopes } (fun analysed _ => analysed.expressions.length == 1) = true := by
    decide +kernel
  obtain ⟨analysed, t, ended, one⟩ := gives_of_endsWith ends
  exact ⟨analysed, t, ended, eq_of_beq one, marksParts_of_analysed ended⟩

end Analysis
end ShellSema
