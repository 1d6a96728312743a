import ShellSema.Proofs.Moments
import ShellSema.Proofs.Tallies

/-!
# What a successful analysis goes over

An analysis that succeeds visits its whole tree, apart from what an earlier analysis has piped into
calls, and what it gives for a function is part of the analysed tree, wherever the function stands.
-/
namespace ShellSema

/-- The walk over a tree comes to the node, as long as it goes on. -/
def Ast.Walks (ast : Ast) (n : Expr) : Prop :=
  ∃ e ∈ ast.expressions, Relation.ReflTransGen (fun e c => c ∈ e.kind.walked) e n

/-- No function stands in what an earlier analysis has piped into a call. -/
def Ast.PipesNoFunction (ast : Ast) : Prop :=
  ∀ n ∈ ast.nodes, ∀ left, n.piped? = some left → left.functionIds = []

theorem Expr.path_of_declared {e n : Expr} {id : FunctionId}
    (unpiped : ∀ m ∈ e.nodes, ∀ left, m.piped? = some left → left.functionIds = [])
    (inside : n ∈ e.nodes) (declared : n.declaredFunction? = some id) :
    Relation.ReflTransGen (fun e c => c ∈ e.kind.walked) e n := by
  induction e using Expr.induction with
  | inherited e ih =>
    rcases Expr.mem_nodes.mp inside with rfl | ⟨c, child, deeper⟩
    · exact .refl
    · rcases List.mem_append.mp (e.children_eq_piped ▸ child) with piped | walked
      · have nothing := unpiped e e.mem_nodes_self c (Option.mem_toList.mp piped)
        have held : id ∈ c.functionIds := List.mem_filterMap.mpr ⟨n, deeper, declared⟩
        rw [nothing] at held
        cases held
      · exact .head walked (ih c child (fun m within =>
          unpiped m (Expr.mem_nodes_of_child child within)) deeper)

/-- If no function is piped into a call, the walk comes to all of them. -/
theorem Ast.PipesNoFunction.walks {ast : Ast} (unpiped : ast.PipesNoFunction) {n : Expr}
    (inside : n ∈ ast.nodes) {id : FunctionId} (declared : n.declaredFunction? = some id) :
    ast.Walks n := by
  obtain ⟨e, member, within⟩ := Ast.mem_nodes.mp inside
  refine ⟨e, member, Expr.path_of_declared (fun m deeper => ?_) within declared⟩
  exact unpiped m (Ast.mem_nodes.mpr ⟨e, member, deeper⟩)

namespace Visit

variable {u v w : Visit} {r : Expr} {t : AnalysisState}

theorem mem_walked_of_enters (entered : v.Enters w) : w.source ∈ v.source.kind.walked :=
  (Plan.follows_walked ..).mem_of_enters entered.2

/-- A visit that completes goes over all subexpressions that are walked. -/
theorem enters_of_walked (given : v.Gives r t) (met : ¬ v.Skips) {c : Expr}
    (walked : c ∈ v.source.kind.walked) : ∃ w, v.Enters w ∧ w.source = c := by
  have passes {context : Context} {slot : Slot} {e r : Expr} (passed : v.Passes context slot e r) :
      ∃ w, v.Enters w ∧ w.source = e := by
    obtain ⟨before, after, entered, -⟩ := passed
    exact ⟨_, entered, rfl⟩
  have part {context : Context} {e r : Expr} (part : v.Part context e r) :
      ∃ w, v.Enters w ∧ w.source = e := by
    obtain ⟨slot, -, passed⟩ := part
    exact passes passed
  have list {related : Expr → Expr → Prop} {es rs : List Expr} (parts : List.Forall₂ related es rs)
      (each : ∀ e r, related e r → ∃ w, v.Enters w ∧ w.source = e) :
      ∀ e ∈ es, ∃ w, v.Enters w ∧ w.source = e :=
    forall_of_forall₂ parts.flip fun r e => each e r
  cases course_of_gives given with
  | pipe source _ first _ rest =>
    simp only [source, ExprKind.walked, ExprKind.children, List.mem_cons, List.not_mem_nil, or_false]
      at walked
    rcases walked with rfl | rfl
    · exact part first
    · exact passes rest
  | call source arguments values =>
    rw [source, ExprKind.walked] at walked
    rcases List.mem_append.mp walked with inside | inside
    · exact list arguments (fun _ _ => part) c inside
    · exact list values (fun _ _ => part) c inside
  | constant source => simp [source, ExprKind.walked, ExprKind.children] at walked
  | fragment source => simp [source, ExprKind.walked, ExprKind.children] at walked
  | closure source called _ _ body =>
    simp only [source, ExprKind.walked, ExprKind.children, List.mem_cons, List.not_mem_nil, or_false]
      at walked
    rcases walked with rfl | rfl
    · exact passes called
    · exact part body
  | skipped skips => exact absurd skips met
  | parts _ _ _ _ _ _ inner =>
    -- All other kinds walk their subexpressions one by one.
    refine list inner (fun e r inside => ?_) c (v.source.kind.walked_suffix.subset walked)
    obtain ⟨context, -, walked⟩ := inside
    exact part walked

/-- What a tally counts by the results of the visits within one is among what this visit adds. -/
theorem exists_adds {κ : Type} (tally : Tally κ) (fresh : v.Fresh) (given : v.Gives r t) :
    ∃ added, v.Adds tally r added ∧
      ∀ u r' t', v.Reaches u → u.Gives r' t' → ∀ k ∈ tally.own r', k ∈ added := by
  induction source : v.source using Expr.induction generalizing v r t with
  | inherited e ih =>
    subst source
    have inner {w : Visit} {r : Expr} {t : AnalysisState} (entered : v.Enters w)
        (left : w.Gives r t) : ∃ added, w.Adds tally r added ∧
          ∀ u r' t', w.Reaches u → u.Gives r' t' → ∀ k ∈ tally.own r', k ∈ added :=
      ih w.source (mem_children_of_enters entered) (fresh.enters entered) left rfl
    -- A visit within this one is the visit itself, or is within one that it enters.
    have within {added : Multiset κ} (self : ∀ k ∈ tally.own r, k ∈ added)
        (below : ∀ w, v.Enters w → ∀ u r' t', w.Reaches u → u.Gives r' t' →
          ∀ k ∈ tally.own r', k ∈ added) :
        ∀ u r' t', v.Reaches u → u.Gives r' t' → ∀ k ∈ tally.own r', k ∈ added := by
      intro u r' t' reached left
      rcases Relation.ReflTransGen.cases_head reached with rfl | ⟨w, entered, further⟩
      · obtain ⟨rfl, -⟩ := ShellSema.Gives.unique left given
        exact self
      · exact below w entered u r' t' further left
    by_cases pipe : v.source.isPipe = true
    · obtain ⟨left, op, right, redirection, source, redirects⟩ := Expr.kind_of_isPipe pipe
      obtain ⟨left', s, told, u, first, redirected, rest, enters⟩ :=
        pipe_of_gives source redirects given
      obtain ⟨early, adds, below⟩ := inner ((enters _).mpr (.inl rfl)) first
      obtain ⟨late, adds', below'⟩ := inner ((enters _).mpr (.inr rfl)) rest
      obtain rfl : tally.of left' = early := (adds_plain rfl).mp adds
      refine ⟨_, adds_of_pipe source redirected given adds', within ?_ ?_⟩
      · exact fun k own => Multiset.mem_add.mpr (.inr (below' _ _ _ .refl rest k own))
      · intro w entered u r' t' reached left k own
        rcases (enters w).mp entered with rfl | rfl
        · exact Multiset.mem_add.mpr (.inl (below u r' t' reached left k own))
        · exact Multiset.mem_add.mpr (.inr (below' u r' t' reached left k own))
    rw [Bool.not_eq_true] at pipe
    by_cases closure : v.source.kindName = "closure"
    · obtain ⟨called, body, _, _, _, _, two⟩ := closureVisits_of_gives closure given
      obtain ⟨early, adds, below⟩ := inner ((two.enters _).mpr (.inl rfl)) two.first
      obtain ⟨late, adds', below'⟩ := inner ((two.enters _).mpr (.inr rfl)) two.rest
      refine ⟨_, two.adds adds adds', within ?_ ?_⟩
      · exact fun k own => Multiset.mem_add.mpr (.inl (Multiset.mem_add.mpr (.inl own)))
      · intro w entered u r' t' reached left k own
        rcases (two.enters w).mp entered with rfl | rfl
        · exact Multiset.mem_add.mpr
            (.inl (Multiset.mem_add.mpr (.inr (below u r' t' reached left k own))))
        · exact Multiset.mem_add.mpr (.inr (below' u r' t' reached left k own))
    · obtain ⟨trace, made, goes, adds⟩ :=
        @adds_of_trace _ tally _ _ _ given fresh.not_skips pipe closure
      obtain ⟨admitted, -⟩ := gives_iff.mp given
      -- What the passages of the trace add is chosen for each of them; other passages do not matter.
      have each (passage : Passage) : ∃ added, passage ∈ trace →
          passage.visit.Adds tally passage.result added ∧
            ∀ u r' t', passage.visit.Reaches u → u.Gives r' t' → ∀ k ∈ tally.own r', k ∈ added := by
        by_cases member : passage ∈ trace
        · obtain ⟨added, known⟩ := inner
            ⟨admitted, goes.enters_iff.mpr ⟨passage, member, rfl⟩⟩ (goes.visited passage member)
          exact ⟨added, fun _ => known⟩
        · exact ⟨0, fun inside => absurd inside member⟩
      choose parts known using each
      refine ⟨_, adds parts fun passage member => (known passage member).1, within ?_ ?_⟩
      · exact fun k own => Multiset.mem_add.mpr (.inl own)
      · rintro w ⟨-, entered⟩ u r' t' reached left k own
        obtain ⟨passage, member, rfl⟩ := goes.enters_iff.mp entered
        have counted := (known passage member).2 u r' t' reached left k own
        exact Multiset.mem_add.mpr (.inr (mem_sum_map.mpr ⟨passage, member, counted⟩))

end Visit

/-- The tally of the functions that are declared, each as it is written. -/
def functionTally : Tally ExprKind where
  own e := if e.declaredFunction?.isSome then {e.kind} else 0
  mode e change _ := by
    unfold Expr.mapCall
    split
    next made kind => simp [Expr.declaredFunction?, kind]
    next => rfl
  block e block := by
    obtain ⟨scope, found⟩ := Option.isSome_iff_exists.mp block
    obtain ⟨expressions, role, kind⟩ := Expr.kind_of_blockScope? found
    simp [Expr.declaredFunction?, kind]
  fragment _ _ _ _ := rfl
  implied _ _ _ := rfl
  expanded e reference id scope parameters kind := by simp [Expr.declaredFunction?, kind]

theorem mem_functionTally {e : Expr} {kind : ExprKind} :
    kind ∈ functionTally.own e ↔ e.declaredFunction?.isSome = true ∧ e.kind = kind := by
  unfold functionTally
  dsimp only
  split
  next declared => simp [declared, eq_comm]
  next declared => simp [declared]

namespace Analysis

variable {registry : Registry} {mode : AnalysisMode} {module : ModuleId} {ast analysed : Ast}
  {s t : AnalysisState} {u : Visit}

/-- Only what is walked is visited. -/
theorem Visited.walks (visited : Visited registry module ast s u) : ast.Walks u.source := by
  obtain ⟨context, start, top, begins, first, reached⟩ := visited
  refine ⟨top.source, (Plan.follows_each ..).mem_of_enters first, ?_⟩
  induction reached with
  | refl => exact .refl
  | tail _ entered ih => exact ih.tail (Visit.mem_walked_of_enters entered)

/-- An analysis that succeeds visits all that is walked. -/
theorem visited_of_walks (once : ast.functionIds.Nodup) (awaits : s.tree.Awaits ast.functionIds)
    (given : Gives (moduleWalk registry mode module ast) s analysed t) {n : Expr}
    (walks : ast.Walks n) : ∃ u, Visited registry module ast s u ∧ u.source = n := by
  obtain ⟨e, member, path⟩ := walks
  induction path with
  | refl =>
    obtain ⟨context, start, ended, begins, walked, -⟩ := begins_of_gives given
    have entering : (Plan.each context Expr.slot ast.expressions).Yields
        (fun _ _ e _ => ∃ u, Visited registry module ast s u ∧ u.source = e) start
        (List.Forall₂ (Plan.Plain _ context) ast.expressions) := Plan.yields_each _ _ _ fun _ => rfl
    have parts := entering.of_gives
      (fun v _ _ entered _ => ⟨v, ⟨context, start, v, begins, entered, .refl⟩, rfl⟩) walked
    exact forall_of_forall₂ parts.flip (fun _ _ ⟨_, _, found⟩ => found) e member
  | tail _ step ih =>
    obtain ⟨u, visited, rfl⟩ := ih
    -- The visit around the node has completed, so it has come to the node as well.
    obtain ⟨-, -, r, t', left, -⟩ := visited.course given
    obtain ⟨w, entered, same⟩ :=
      Visit.enters_of_walked left (visited.fresh once awaits).not_skips step
    exact ⟨w, visited.enters entered, same⟩

/-- What a visit gives for a function is part of the analysed tree. -/
theorem Visited.occurs (once : ast.functionIds.Nodup) (awaits : s.tree.Awaits ast.functionIds)
    (given : Gives (moduleWalk registry mode module ast) s analysed t)
    (visited : Visited registry module ast s u) {r : Expr} {t' : AnalysisState}
    (left : u.Gives r t') (declared : r.declaredFunction?.isSome = true) :
    ∃ n ∈ analysed.nodes, n.kind = r.kind := by
  obtain ⟨context, start, top, begins, first, reached⟩ := visited
  obtain ⟨context', start', ended, begins', walked, -⟩ := begins_of_gives given
  obtain ⟨rfl, rfl⟩ := begins.unique begins'
  obtain ⟨trace, goes⟩ := Plan.exists_goes walked
  have fresh (passage : Passage) (member : passage ∈ trace) : passage.visit.Fresh :=
    have entered := goes.enters_iff.mpr ⟨passage, member, rfl⟩
    Visited.fresh once awaits ⟨context, start, passage.visit, begins, entered, .refl⟩
  have lists := (Plan.shows_each context Expr.slot ast.expressions fun _ => rfl).of_goes goes
  -- The expression around the function gives what its visit adds.
  obtain ⟨passage, member, rfl⟩ := goes.enters_iff.mp first
  obtain ⟨added, adds, below⟩ :=
    Visit.exists_adds functionTally (fresh passage member) (goes.visited passage member)
  have counted : r.kind ∈ functionTally.of passage.result := by
    rw [(Visit.adds_plain (lists.2 passage member)).mp adds]
    exact below u r t' reached left _ (mem_functionTally.mpr ⟨declared, rfl⟩)
  obtain ⟨n, inside, own⟩ := functionTally.mem_of.mp counted
  have result : passage.result ∈ analysed.expressions := lists.1 ▸ List.mem_map_of_mem member
  exact ⟨n, Ast.mem_nodes.mpr ⟨_, result, inside⟩, (mem_functionTally.mp own).2⟩

end Analysis
end ShellSema
