import Mathlib.Data.List.Flatten
import ShellSema.Proofs.FunctionStatuses
import ShellSema.Proofs.Resolved
import ShellSema.Proofs.Retracing
import ShellSema.Proofs.Unlinked

/-!
# What a second analysis loses

A tree that comes out of an analysis may be analysed again. Functions are left as they are, since they
have been met. Anywhere else there is no pipe any more: what had been on its left side is held by the
call of a program, and the walk does not go there. So each call outside of functions loses what is piped
into it, with all calls that are in there, and no other call is lost.
-/
namespace ShellSema

/-! ### The calls in a tree -/

def Expr.callName? (e : Expr) : Option String := e.call?.map (·.name.text)

/-- The names of the calls in a tree, in the order in which its nodes are met. -/
def Expr.callNames (e : Expr) : List String := e.nodes.filterMap Expr.callName?

def Ast.callNames (ast : Ast) : List String := ast.nodes.filterMap Expr.callName?

/-- Of these names, the ones that are left if calls outside of functions let go of what is piped into
them. -/
def Expr.keptNames (e : Expr) : List String :=
  if e.kindName = "function" then e.callNames
  else e.callName?.toList ++ e.kind.walked.attach.flatMap fun ⟨c, _⟩ => c.keptNames
termination_by e.nodes.length
decreasing_by
  next inside => exact Expr.length_nodes_lt (e.kind.walked_suffix.subset inside)

def Ast.keptNames (ast : Ast) : List String := ast.expressions.flatMap Expr.keptNames

namespace Expr

theorem callNames_eq (e : Expr) :
    e.callNames = e.callName?.toList ++ e.children.flatMap callNames := by
  unfold callNames
  rw [nodes_eq, List.filterMap_cons, List.filterMap_flatMap]
  cases e.callName? <;> rfl

theorem keptNames_of_function {e : Expr} (function : e.kindName = "function") :
    e.keptNames = e.callNames := by
  rw [keptNames, if_pos function]

theorem keptNames_eq {e : Expr} (other : e.kindName ≠ "function") :
    e.keptNames = e.callName?.toList ++ e.kind.walked.flatMap keptNames := by
  rw [keptNames, if_neg other, List.flatMap_subtype (g := keptNames) fun _ _ => rfl,
    List.unattach_attach]

theorem call?_of_name {e : Expr} (other : e.kindName ≠ "call") : e.call? = none := by
  unfold call?
  split
  next kind => simp [kindName, ExprKind.name, kind] at other
  next => rfl

theorem walked_of_name {e : Expr} (other : e.kindName ≠ "call") : e.kind.walked = e.children := by
  unfold ExprKind.walked
  split
  next kind => simp [kindName, ExprKind.name, kind] at other
  next => rfl

theorem callNames_of_kind {e r : Expr} (kind : r.kind = e.kind) : r.callNames = e.callNames := by
  rw [callNames_eq, callNames_eq, callName?, callName?, call?, call?, children, children, kind]

theorem callNames_mapCall {change : Call → Call} (only : Call.OnlyMode change) (e : Expr) :
    (e.mapCall change).callNames = e.callNames := by
  rw [callNames_eq, callNames_eq, children_mapCall only]
  unfold mapCall
  split
  next made kind =>
    obtain ⟨mode, changed, -⟩ := only made
    simp [callName?, call?, kind, changed]
  next => rfl

/-- A bare reference that is expanded stays a call of its name, and its made-up arguments are none. -/
theorem callNames_expanded {body e : Expr} {reference : Call} (id : ClosureId) (scope : ScopeId)
    (parameters : List Token) (bare : Walk.reference? body = some (e, reference)) :
    (Walk.replaceOnly body
      { e with kind := .call (Walk.expandedCall id scope parameters reference) }).callNames =
      body.callNames := by
  obtain ⟨⟨role, blockScope, block⟩, kind, -⟩ := reference?_eq_some bare
  have implied : (parameters.map (Walk.impliedArgument id scope)).flatMap callNames = [] := by
    rw [List.flatMap_map]
    exact List.flatMap_eq_nil_iff.mpr fun parameter _ => rfl
  have call : callNames { e with kind := .call (Walk.expandedCall id scope parameters reference) } =
      e.callNames := by
    rw [callNames_eq, callNames_eq]
    simp only [callName?, call?, kind, children, ExprKind.children, Call.children, Walk.expandedCall,
      List.flatMap_append, implied, List.nil_append]
    rfl
  rw [callNames_eq, callNames_eq body]
  simp only [Walk.replaceOnly, block, callName?, call?, children, ExprKind.children,
    List.flatMap_cons, List.flatMap_nil, call]

end Expr

theorem Walk.Expands.callNames {id : ClosureId} {scope : ScopeId} {attached : Call} {s : AnalysisState}
    {parameters : List Token} {body : Expr} {result : List Token × Expr}
    (expands : Walk.Expands id scope attached s parameters body result) :
    result.2.callNames = body.callNames := by
  cases expands with
  | plain none => rfl
  | bare found named => exact Expr.callNames_expanded id scope _ found

theorem Ast.callNames_eq (ast : Ast) : ast.callNames = ast.expressions.flatMap Expr.callNames := by
  rw [callNames, Ast.nodes, nodesOfAll_eq, List.filterMap_flatMap]
  rfl

/-! ### The calls that are kept -/

/-- Lists that are put together from shorter ones are equal only if their parts are. -/
theorem flatMap_eq_iff_of_sublist {α β : Type} {f g : α → List β} {xs : List α}
    (fewer : ∀ x ∈ xs, (f x).Sublist (g x)) :
    xs.flatMap f = xs.flatMap g ↔ ∀ x ∈ xs, f x = g x := by
  induction xs with
  | nil => simp
  | cons x xs ih =>
    obtain ⟨here, others⟩ := List.forall_mem_cons.mp fewer
    rw [List.flatMap_cons, List.flatMap_cons, List.forall_mem_cons, ← ih others]
    have below := (List.Sublist.flatMap_right xs others).length_le
    constructor
    · intro same
      -- Neither part is longer, so the first parts end at the same place.
      have whole := congrArg List.length same
      rw [List.length_append, List.length_append] at whole
      have first := here.eq_of_length (by have := here.length_le; omega)
      rw [first] at same
      exact ⟨first, List.append_cancel_left same⟩
    · rintro ⟨first, rest⟩
      rw [first, rest]

/-- A part of a list is the list with something before it only if that is nothing. -/
theorem eq_append_iff_of_sublist {α : Type} {xs ys before : List α} (fewer : xs.Sublist ys) :
    xs = before ++ ys ↔ before = [] ∧ xs = ys := by
  constructor
  · intro same
    have whole := congrArg List.length same
    rw [List.length_append] at whole
    have nothing : before = [] := by
      have shorter := fewer.length_le
      exact List.length_eq_zero_iff.mp (by omega)
    rw [nothing] at same
    exact ⟨nothing, same⟩
  · rintro ⟨rfl, same⟩
    exact same

/-- No call outside of functions is piped an expression with a call in it. -/
def Expr.PipesNoCall (outer : ScopeId) (e : Expr) : Prop :=
  e.AllAbove (fun n => n.kindName = "function")
    (fun _ n => ∀ left, n.piped? = some left → left.callNames = []) outer

namespace Expr

theorem keptNames_sublist (e : Expr) : e.keptNames.Sublist e.callNames := by
  induction e using Expr.induction with
  | inherited e ih =>
    by_cases function : e.kindName = "function"
    · rw [keptNames_of_function function]
    · rw [keptNames_eq function, callNames_eq]
      have walked := e.kind.walked_suffix
      refine List.Sublist.append_left (.trans ?_ (walked.sublist.flatMap callNames)) _
      exact List.Sublist.flatMap_right _ fun c inside => ih c (walked.subset inside)

/-- No call is lost just if there is none in what is piped into calls. -/
theorem keptNames_eq_callNames_iff (e : Expr) (outer : ScopeId) :
    e.keptNames = e.callNames ↔ e.PipesNoCall outer := by
  induction e using Expr.induction generalizing outer with
  | inherited e ih =>
    rw [PipesNoCall, allAbove_iff]
    by_cases function : e.kindName = "function"
    · have silent : e.piped? = none := by
        rw [piped?, call?_of_name (by rw [function]; decide), Option.bind_none]
      simp [keptNames_of_function function, function, silent]
    have fewer (c : Expr) (_ : c ∈ e.kind.walked) : c.keptNames.Sublist c.callNames :=
      c.keptNames_sublist
    have kept : e.kind.walked.flatMap keptNames = e.kind.walked.flatMap callNames ↔
        ∀ c ∈ e.kind.walked, c.PipesNoCall (e.scopeWithin outer) := by
      rw [flatMap_eq_iff_of_sublist fewer]
      exact forall₂_congr fun c inside => ih c (e.kind.walked_suffix.subset inside) _
    -- A part without calls does not pipe any.
    have silent (left : Expr) (inside : left ∈ e.children) (nothing : left.callNames = []) :
        left.PipesNoCall (e.scopeWithin outer) := by
      rw [← ih left inside, nothing]
      exact List.sublist_nil.mp (nothing ▸ left.keptNames_sublist)
    rw [keptNames_eq function, callNames_eq, List.append_cancel_left_eq]
    rw [children_eq_piped] at silent ⊢
    rw [List.flatMap_append, eq_append_iff_of_sublist (List.Sublist.flatMap_right _ fewer), kept,
      List.flatMap_eq_nil_iff, List.forall_mem_append]
    simp only [Option.mem_toList]
    constructor
    · rintro ⟨piped, below⟩
      refine ⟨piped, fun _ => ⟨fun left found => ?_, below⟩⟩
      exact silent left (List.mem_append_left _ (Option.mem_toList.mpr found)) (piped left found)
    · rintro ⟨piped, below⟩
      exact ⟨piped, (below function).2⟩

end Expr

/-! ### What stands in an analysed tree -/

/-- There is nothing at the node that a walk makes a node of another kind of, and if it is a function, it
is not pending. -/
structure Expr.Settled (tree : ScopeTree) (n : Expr) : Prop where
  pipe : n.isPipe = false
  literal : ∀ token value, n.kind = .literal token value → token.kind ≠ .shellFragment
  met : ∀ id, n.declaredFunction? = some id → tree.statusOf? id ≠ some .pending

theorem Token.kind_of_fragment {token : Token} {code : String}
    (means : token.meaning = .shellFragment code) : token.kind = .shellFragment := by
  unfold Token.meaning at means
  grind

theorem Expr.settled_of_name {tree : ScopeTree} {n : Expr}
    (other : n.kindName ∉ ["binary", "literal", "function"]) : n.Settled tree where
  pipe := by
    unfold isPipe
    split
    next kind => simp [kindName, ExprKind.name, kind] at other
    next => rfl
  literal token value kind := by simp [kindName, ExprKind.name, kind] at other
  met id declared := by simp [kindName_of_declared declared] at other

theorem Expr.Resolved.isPipe {tree : ScopeTree} {n : Expr} (resolved : n.Resolved tree) :
    n.isPipe = false := by
  unfold Expr.isPipe
  split
  next left op right kind =>
    rw [Expr.Resolved, kind] at resolved
    simpa [BinaryOp.isPipe] using resolved
  next => rfl

/-- When the visit of a function has ended, the function is not pending. -/
theorem Visit.statusOf?_of_gives {v : Visit} {r : Expr} {t : AnalysisState} {id : FunctionId}
    (given : v.Gives r t) (pipe : v.source.isPipe = false) (declared : r.declaredFunction? = some id) :
    t.tree.statusOf? id ≠ some .pending := by
  have function : v.source.kindName = "function" := by
    by_contra other
    exact kindName_ne_of_gives given pipe other (by decide) (by decide)
      (Expr.kindName_of_declared declared)
  obtain ⟨access, name, parameters, body, home, takesClosure, own, source⟩ :=
    Expr.function_of_kindName function
  obtain ⟨⟨parameters', body', rfl⟩, f, found, met⟩ := met_of_gives source given
  cases declared
  rw [ScopeTree.statusOf?_of_function found]
  exact fun pending => met (Option.some.inj pending)

namespace Analysis

variable {registry : Registry} {mode : AnalysisMode} {module : ModuleId} {ast analysed : Ast}
  {s t : AnalysisState}

theorem spreads_settled (given : Gives (moduleWalk registry mode module ast) s analysed t) :
    Spreads (Visited registry module ast s) (fun e => e.kindName = "function")
      fun _ n => n.Settled t.tree where
  ending _ function := function
  made v r t' visited left pipe := by
    have within : Grows (fun _ => True) v.before t' := Visit.grows_of_gives left
    have resolved := v.resolved_of_gives left pipe (within.tree.trans (visited.grows given left).tree)
    -- From the end of its visit on, a function is not pending.
    obtain ⟨r', t'', left', later⟩ := visited.leaves (keepsMet_preserved (Permit.onScopes fun _ => True))
      (fun _ => trivial) (fun e _ => e.permitted_everywhere) (fun _ => keepsMet_changeModule module _)
      given
    obtain ⟨rfl, rfl⟩ := Gives.unique left left'
    refine ⟨resolved.isPipe, fun token value kind => ?_, fun id declared pending => ?_⟩
    · rw [Expr.Resolved, kind] at resolved
      exact resolved.2
    · exact Visit.statusOf?_of_gives left pipe declared (later id pending)
  mode _ e change _ settled := by
    by_cases call : e.kindName = "call"
    · exact Expr.settled_of_name (by rw [Expr.kindName_mapCall, call]; decide)
    · rwa [Expr.mapCall_of_name call]
  block _ e block := by
    obtain ⟨scope, found⟩ := Option.isSome_iff_exists.mp block
    obtain ⟨expressions, role, kind⟩ := Expr.kind_of_blockScope? found
    exact Expr.settled_of_name (by simp [Expr.kindName, ExprKind.name, kind])
  fragment _ _ _ _ _ := ⟨rfl, by rintro _ _ ⟨⟩ ⟨⟩, by rintro _ ⟨⟩⟩
  implied _ _ _ _ _ _ _ _ _ _ _ _ _ _ _ _ _ _ _ :=
    Expr.settled_of_name (by simp [Expr.kindName, ExprKind.name, Walk.impliedArgument])
  expanded _ _ _ _ _ _ _ _ _ _ _ _ _ _ _ _ _ :=
    Expr.settled_of_name (by simp [Expr.kindName, ExprKind.name])
  skipped v r t' _ skips left goes := by
    obtain ⟨access, name, parameters, body, home, takesClosure, id, f, source, -⟩ := skips
    refine absurd ?_ goes
    rw [Visit.kindName_of_gives left (by simp [Expr.isPipe, source])] <;>
      simp [Expr.kindName, ExprKind.name, source]

end Analysis

/-! ### The second walk -/

theorem flatMap_eq_of_forall₂ {α β γ : Type} {R : α → β → Prop} {f : α → List γ} {g : β → List γ}
    {xs : List α} {ys : List β} (related : List.Forall₂ R xs ys)
    (each : ∀ x y, R x y → g y = f x) : ys.flatMap g = xs.flatMap f := by
  induction related with
  | nil => rfl
  | cons first _ ih => rw [List.flatMap_cons, List.flatMap_cons, each _ _ first, ih]

theorem Expr.callName?_eq_of_kindName {e r : Expr} (named : r.kindName = e.kindName)
    (other : e.kindName ≠ "call") : r.callName? = e.callName? := by
  unfold callName?
  rw [call?_of_name other, call?_of_name (named ▸ other)]

namespace Visit

variable {tree : ScopeTree} {v : Visit} {r : Expr} {t : AnalysisState}

/-- A walk over an analysed tree finds no function to go into. -/
theorem skips_of_settled (settled : v.source.Settled tree)
    (later : ∀ id, v.before.tree.statusOf? id = some .pending → tree.statusOf? id = some .pending)
    (function : v.source.kindName = "function") (given : v.Gives r t) : v.Skips := by
  obtain ⟨access, name, parameters, body, home, takesClosure, id, source⟩ :=
    Expr.function_of_kindName function
  obtain ⟨-, made, carried, -⟩ := gives_iff.mp given
  simp only [plan, source, Plan.node, Plan.run_bind, Plan.run_lift, gives_bind, gives_ask] at carried
  obtain ⟨f, _, ⟨found, rfl⟩, -⟩ := carried
  refine ⟨access, name, parameters, body, home, takesClosure, id, f, source, found, fun pending => ?_⟩
  apply settled.met id (by simp [Expr.declaredFunction?, source])
  apply later
  rw [ScopeTree.statusOf?_of_function found, pending]

/-- What the walk makes of an analysed tree holds the calls that are kept. -/
theorem callNames_of_gives {outer : ScopeId}
    (settled : v.source.AllAbove (fun e => e.kindName = "function") (fun _ n => n.Settled tree) outer)
    (later : ∀ id, v.before.tree.statusOf? id = some .pending → tree.statusOf? id = some .pending)
    (unpiped : v.slot.piped = none) (given : v.Gives r t) : r.callNames = v.source.keptNames := by
  induction same : v.source using Expr.induction generalizing v r t outer with
  | inherited e ih =>
    subst same
    obtain ⟨here, below⟩ := Expr.allAbove_iff.mp settled
    by_cases function : v.source.kindName = "function"
    · -- A function stays as it is, with all its calls.
      have skips := skips_of_settled here later function given
      rw [Expr.keptNames_of_function function, Expr.callNames_of_kind (kind_of_skips skips given)]
    have passes {context : Context} {slot : Slot} {e r : Expr} (passed : v.Passes context slot e r)
        (unpiped : slot.piped = none) : r.callNames = e.keptNames := by
      obtain ⟨before, after, entered, given⟩ := passed
      have child := mem_children_of_enters entered
      have onward : KeepsMet v.before before :=
        (v.allowed_everywhere.enters (keepsMet_preserved _) entered).2.2.2
      exact ih e child (v := ⟨context, slot, e, before⟩) (below function e child)
        (fun id pending => later id (onward id pending)) unpiped given rfl
    have part {context : Context} {e r : Expr} (part : v.Part context e r) :
        r.callNames = e.keptNames := by
      obtain ⟨slot, plain, passed⟩ := part
      exact passes passed (by simp [Slot.piped, plain])
    rw [Expr.keptNames_eq function, Expr.callNames_eq]
    cases course_of_gives given with
    | pipe source redirects =>
      have pipe := here.pipe
      simp [Expr.isPipe, source, redirects] at pipe
    | @call written callee arguments environment source argumentParts valueParts kind =>
      -- Nothing is attached to the call, so nothing is piped into what comes of it.
      obtain ⟨change, only, held⟩ := Walk.holdProcesses_eq callee arguments
      have argumentNames := flatMap_eq_of_forall₂ argumentParts fun _ _ => part
      have valueNames := flatMap_eq_of_forall₂ valueParts fun _ _ => part
      simp only [Expr.callName?, Expr.call?, source, kind, Expr.children, ExprKind.children,
        ExprKind.walked, Call.children, unpiped, Walk.placePiped, held, List.flatMap_append,
        List.flatMap_map, Expr.callNames_mapCall only, valueNames]
      rw [argumentNames]
      rfl
    | constant source means kind =>
      simp [Expr.callName?, Expr.call?, source, kind, Expr.children, ExprKind.children,
        ExprKind.walked]
    | fragment source means kind =>
      exact absurd (Token.kind_of_fragment means) (here.literal _ _ source)
    | closure source called isCall block walked expanded kind =>
      have names := (Walk.expands_of_gives expanded).callNames
      simp only [Expr.callName?, Expr.call?, source, kind, Expr.children, ExprKind.children,
        ExprKind.walked, List.flatMap_cons, passes called unpiped, names, part walked]
      rfl
    | skipped skips kind =>
      obtain ⟨access, name, parameters, body, home, takesClosure, id, f, source, -⟩ := skips
      simp [Expr.kindName, ExprKind.name, source] at function
    | parts named pipe call literal closure met inner =>
      rw [Expr.callName?_eq_of_kindName named call, Expr.walked_of_name call,
        flatMap_eq_of_forall₂ inner ?_]
      rintro e r ⟨_, _, passed⟩
      exact part passed

end Visit

namespace Analysis

section SecondAnalysis

variable {registry : Registry} {mode : AnalysisMode} {module : ModuleId} {ast analysed again : Ast}
  {tree later last : ScopeTree}

/-- What comes of an analysed tree holds the calls that are kept. -/
theorem callNames_of_settled {s t : AnalysisState} {outer : ScopeId}
    (settled : ∀ e ∈ ast.expressions,
      e.AllAbove (fun e => e.kindName = "function") (fun _ n => n.Settled s.tree) outer)
    (given : Gives (moduleWalk registry mode module ast) s analysed t) :
    analysed.callNames = ast.keptNames := by
  obtain ⟨context, start, u, begins, each, -⟩ := begins_of_gives given
  have yields : (Plan.each context Expr.slot ast.expressions).Yields
      (fun _ slot e r => slot.attachment = none → r.callNames = e.keptNames) start
      fun results => results.flatMap Expr.callNames = ast.expressions.flatMap Expr.keptNames := by
    refine (Plan.yields_each _ Expr.slot _ fun _ => rfl).mono fun results parts => ?_
    exact flatMap_eq_of_forall₂ parts fun _ _ ⟨_, plain, same⟩ => same plain
  rw [Ast.callNames_eq]
  refine yields.of_gives (fun v r t' entered left plain => ?_) each
  have member : v.source ∈ ast.expressions := (Plan.follows_each ..).mem_of_enters entered
  have visited : Visited registry module ast s v := ⟨context, start, v, begins, entered, .refl⟩
  have imports : Keeps KeepsMet (Walk.resolveImports module) :=
    keeps_resolveImports (fun _ => keepsMet_of_same rfl) KeepsMet.trans fun _ _ =>
      keepsMet_changeModule _ _
  -- No function becomes pending before the walk comes to the expression.
  obtain ⟨-, onward⟩ := visited.allowed (keepsMet_preserved (Permit.onScopes fun _ => True))
    (keepsMet_changeModule _ _) imports (fun _ => trivial) fun e _ => e.permitted_everywhere
  exact Visit.callNames_of_gives (settled v.source member) onward (by simp [Slot.piped, plain]) left

/-- An analysed tree is analysed again. Then its calls are there again, but for those that a call outside of
functions holds as what is piped into it. So no call is lost just if there is none in what is piped
into calls outside of functions. -/
theorem calls_of_reanalysed
    (first : analyze registry .overwrite tree module ast = ⟨.ok analysed, later⟩)
    (second : analyze registry .overwrite later module analysed = ⟨.ok again, last⟩) :
    again.callNames = analysed.keptNames ∧
      (again.callNames = analysed.callNames ↔
        ∀ e ∈ analysed.expressions, ∀ outer, e.PipesNoCall outer) := by
  obtain ⟨t, walked, rfl⟩ := analyze_eq_ok.mp first
  obtain ⟨t', walked', -⟩ := analyze_eq_ok.mp second
  obtain ⟨m, -, settled⟩ := all_of_gives (spreads_settled walked) walked
  have kept : again.callNames = analysed.keptNames :=
    callNames_of_settled (s := { tree := t.tree }) settled walked'
  refine ⟨kept, ?_⟩
  rw [kept, Ast.keptNames, Ast.callNames_eq,
    flatMap_eq_iff_of_sublist fun e _ => e.keptNames_sublist]
  constructor
  · exact fun same e member outer => (e.keptNames_eq_callNames_iff outer).mp (same e member)
  · exact fun piped e member => (e.keptNames_eq_callNames_iff m.scope).mpr (piped e member m.scope)

end SecondAnalysis

/-- A text is piped into a program, and in a function the output of another program. -/
def pipedWithin : Ast :=
  ⟨[Build.function { name := "f", access := .restricted, module := ⟨0⟩ } ⟨0⟩
      (Build.blockOf .function ⟨1⟩
        [Build.pipe (Build.command "cat" ["notes"]) (Build.command "wc" ["-l"])]),
    Build.pipe (Build.string "notes") (Build.command "sort" [])]⟩

def pipedWithinScopes : ScopeTree :=
  .declare "main" [.addScope ⟨0⟩, .addFunction "f" .restricted ⟨0⟩ [] false]

/-- A second analysis of that script loses no call. -/
theorem calls_of_reanalysed_within :
    ∃ analysed later again last,
      analyze .empty .overwrite pipedWithinScopes ⟨0⟩ pipedWithin = ⟨.ok analysed, later⟩ ∧
      analyze .empty .overwrite later ⟨0⟩ analysed = ⟨.ok again, last⟩ ∧
      again.callNames = ["wc", "cat", "sort"] ∧
      again.callNames = analysed.keptNames ∧
      ∀ e ∈ analysed.expressions, ∀ outer, e.PipesNoCall outer := by
  have ends : endsWith (moduleWalk .empty .overwrite ⟨0⟩ pipedWithin) { tree := pipedWithinScopes }
      (fun analysed t => endsWith (moduleWalk .empty .overwrite ⟨0⟩ analysed) { tree := t.tree }
        fun again _ => again.callNames = ["wc", "cat", "sort"] ∧
          again.callNames = analysed.callNames) = true := by
    decide +kernel
  obtain ⟨analysed, t, walked, ends'⟩ := gives_of_endsWith ends
  obtain ⟨again, t', walked', checked⟩ := gives_of_endsWith ends'
  obtain ⟨names, same⟩ := of_decide_eq_true checked
  have first : analyze .empty .overwrite pipedWithinScopes ⟨0⟩ pipedWithin = ⟨.ok analysed, t.tree⟩ :=
    analyze_eq_ok.mpr ⟨t, walked, rfl⟩
  have second : analyze .empty .overwrite t.tree ⟨0⟩ analysed = ⟨.ok again, t'.tree⟩ :=
    analyze_eq_ok.mpr ⟨t', walked', rfl⟩
  obtain ⟨kept, nothing⟩ := calls_of_reanalysed first second
  exact ⟨analysed, t.tree, again, t'.tree, first, second, names, kept, nothing.mp same⟩

/-- The output of one program is piped into another one. Of the analysed tree, a second analysis loses
the first program. -/
theorem piped_call_lost :
    ∃ analysed later again last,
      analyze .empty .overwrite (.ofRoot "main") ⟨0⟩
        ⟨[Build.pipe (Build.command "cat" ["notes"]) (Build.command "wc" ["-l"])]⟩ =
          ⟨.ok analysed, later⟩ ∧
      analyze .empty .overwrite later ⟨0⟩ analysed = ⟨.ok again, last⟩ ∧
      analysed.callNames = ["wc", "cat"] ∧ again.callNames = ["wc"] := by
  have ends : endsWith (moduleWalk .empty .overwrite ⟨0⟩
        ⟨[Build.pipe (Build.command "cat" ["notes"]) (Build.command "wc" ["-l"])]⟩)
      { tree := .ofRoot "main" }
      (fun analysed t => endsWith (moduleWalk .empty .overwrite ⟨0⟩ analysed) { tree := t.tree }
        fun again _ => analysed.callNames = ["wc", "cat"] ∧ again.callNames = ["wc"]) = true := by
    decide +kernel
  obtain ⟨analysed, t, walked, ends'⟩ := gives_of_endsWith ends
  obtain ⟨again, t', walked', checked⟩ := gives_of_endsWith ends'
  obtain ⟨before, after⟩ := of_decide_eq_true checked
  exact ⟨analysed, t.tree, again, t'.tree, analyze_eq_ok.mpr ⟨t, walked, rfl⟩,
    analyze_eq_ok.mpr ⟨t', walked', rfl⟩, before, after⟩

end Analysis
end ShellSema
