import ShellSema.Proofs.ModuleRuns
import ShellSema.Proofs.Tallies

/-!
# The numbers of closures

Closures are numbered in the order in which their bodies are entered. The closures of an analysed tree
so have the numbers from 0 on, each once: no closure is lost on the way, whether its call is piped into
another one or it stands in a body that is expanded, and none is given out twice.
-/
namespace ShellSema

/-- The number of a closure, if the expression is one; it has none before it is analysed. -/
def Expr.closureId? (e : Expr) : Option (Option ClosureId) :=
  match e.kind with
  | .closure _ _ _ _ id => some id
  | _ => none

/-- The numbers of the closures of a tree. -/
def Ast.closureIds (ast : Ast) : List (Option ClosureId) := ast.nodes.filterMap Expr.closureId?

theorem Expr.closureId?_of_kindName {e : Expr} (other : e.kindName ≠ "closure") :
    e.closureId? = none := by
  unfold Expr.closureId?
  split
  next kind => exact absurd (by simp [kindName, ExprKind.name, kind]) other
  next => rfl

/-- The tally of the numbers of closures. -/
def closureTally : Tally (Option ClosureId) where
  own e := (e.closureId?.toList : List _)
  mode e change _ := by
    unfold Expr.mapCall
    split
    next made kind => simp [Expr.closureId?, kind]
    next => rfl
  block e block := by
    obtain ⟨scope, found⟩ := Option.isSome_iff_exists.mp block
    obtain ⟨expressions, role, kind⟩ := Expr.kind_of_blockScope? found
    simp [Expr.closureId?, kind]
  fragment _ _ _ _ := rfl
  implied _ _ _ := rfl
  expanded e reference id scope parameters kind := by simp [Expr.closureId?, kind]

theorem closureTally_all (es : List Expr) :
    closureTally.all es = ((es.flatMap Expr.nodes).filterMap Expr.closureId? : List _) := by
  have own (ns : List Expr) :
      (ns.map closureTally.own).sum = (ns.filterMap Expr.closureId? : List _) := by
    induction ns with
    | nil => rfl
    | cons n ns ih =>
      rw [List.map_cons, List.sum_cons, ih, List.filterMap_cons]
      cases named : n.closureId? <;> simp [closureTally, named]
  induction es with
  | nil => rfl
  | cons e es ih =>
    rw [Tally.all_cons, ih, List.flatMap_cons, List.filterMap_append, ← Multiset.coe_add, Tally.of, own]

/-! ### Handles in their order -/

/-- The handles of the closures that are entered while their number grows from one to another. -/
def handles (first last : Nat) : Multiset (Option ClosureId) :=
  ((List.range' first (last - first)).map fun number => some ⟨UInt32.ofNat number⟩ :
    List (Option ClosureId))

theorem handles_same (first : Nat) : handles first first = 0 := by simp [handles]

theorem handles_succ (first : Nat) : handles first (first + 1) = {some ⟨UInt32.ofNat first⟩} := by
  simp [handles]

theorem handles_add {first middle last : Nat} (early : first ≤ middle) (late : middle ≤ last) :
    handles first middle + handles middle last = handles first last := by
  have joined : List.range' first (last - first) =
      List.range' first (middle - first) ++ List.range' middle (last - middle) := by
    have next : middle = first + 1 * (middle - first) := by omega
    have size : last - first = (middle - first) + (last - middle) := by omega
    have split := @List.range'_append first (middle - first) (last - middle) 1
    rw [size, ← split, ← next]
  rw [handles, handles, handles, joined, List.map_append, ← Multiset.coe_add]

/-! ### Counting along a walk -/

/-- If the own actions of a plan enter no closure, the handles that its visits give out follow on each
other. -/
theorem Plan.handles_of_goes {α : Type} {p : Plan α} {V : Context → Slot → Expr → Prop}
    (within : p.Within SameCount V) {s t : AnalysisState} {trace : List Passage} {a : α}
    (goes : p.Goes s trace a t)
    (grows : ∀ passage ∈ trace, passage.visit.before.closures.size ≤ passage.after.closures.size) :
    s.closures.size ≤ t.closures.size ∧ (trace.map fun passage =>
        handles passage.visit.before.closures.size passage.after.closures.size).sum =
      handles s.closures.size t.closures.size := by
  -- On the way along the plan only visits open closures, so the handles of the passages follow on
  -- each other.
  induction p generalizing s t trace with
  | done result =>
    obtain ⟨rfl, -, rfl⟩ := goes
    exact ⟨Nat.le_refl _, (handles_same _).symm⟩
  | act action next ih =>
    obtain ⟨b, r, first, rest⟩ := goes
    have same : SameCount s r := within.1.of_gives first
    rw [← same]
    exact ih b (within.2 b s r first) rest grows
  | visit context slot e next ih =>
    obtain ⟨b, r, rest, first, goes, rfl⟩ := goes
    obtain ⟨grown, grows⟩ := List.forall_mem_cons.mp grows
    obtain ⟨more, sum⟩ := ih b (within.2 b) goes grows
    refine ⟨Nat.le_trans grown more, ?_⟩
    rw [List.map_cons, List.sum_cons, sum]
    exact handles_add grown more
  | guarded id inner next innerIh ih =>
    obtain ⟨b, r, early, late, inside, goes, rfl⟩ := goes
    obtain ⟨grows, grows'⟩ := List.forall_mem_append.mp grows
    obtain ⟨grown, sum⟩ := innerIh within.2.1 inside grows
    obtain ⟨more, sum'⟩ := ih b (within.2.2 b) goes grows'
    refine ⟨Nat.le_trans grown more, ?_⟩
    rw [List.map_append, List.sum_append, sum, sum']
    exact handles_add grown more

namespace Visit

variable {v : Visit} {r : Expr} {t : AnalysisState}

/-- A visit adds the handles of the closures that are entered in its course, each once. -/
theorem numbered_of_gives (fresh : v.Fresh) (given : v.Gives r t) :
    v.Adds closureTally r (handles v.before.closures.size t.closures.size) := by
  induction source : v.source using Expr.induction generalizing v r t with
  | inherited e ih =>
    subst source
    have grows {w : Visit} {r : Expr} {t : AnalysisState} (left : w.Gives r t) :
        w.before.closures.size ≤ t.closures.size := (firm_of_gives left).1
    have inner {w : Visit} {r : Expr} {t : AnalysisState} (entered : v.Enters w) (left : w.Gives r t) :
        w.Adds closureTally r (handles w.before.closures.size t.closures.size) :=
      ih w.source (mem_children_of_enters entered) (fresh.enters entered) left rfl
    by_cases pipe : v.source.isPipe = true
    · obtain ⟨left, op, right, redirection, source, redirects⟩ := Expr.kind_of_isPipe pipe
      obtain ⟨left', s, told, u, first, redirected, rest, enters⟩ :=
        pipe_of_gives source redirects given
      have one := inner ((enters _).mpr (.inl rfl)) first
      have other := adds_of_pipe source redirected given (inner ((enters _).mpr (.inr rfl)) rest)
      obtain rfl := unchanging_redirect.of_gives redirected
      rw [(adds_plain rfl).mp one, handles_add (grows first) (grows rest)] at other
      exact other
    rw [Bool.not_eq_true] at pipe
    by_cases closure : v.source.kindName = "closure"
    · obtain ⟨called, body, _, _, s, u, two⟩ := closureVisits_of_gives closure given
      have whole := two.adds (inner ((two.enters _).mpr (.inl rfl)) two.first)
        (inner ((two.enters _).mpr (.inr rfl)) two.rest)
      -- First come the handles of the call, then that of the closure, then those of its body.
      have early : v.before.closures.size ≤ s.closures.size := two.began ▸ grows two.first
      have late := grows two.rest
      have own : closureTally.own r = handles s.closures.size body.before.closures.size := by
        obtain ⟨_, _, _, _, kind⟩ := two.number
        rw [two.opened, handles_succ]
        simp [closureTally, Expr.closureId?, kind]
      have numbers : handles s.closures.size body.before.closures.size +
          handles called.before.closures.size s.closures.size +
          handles body.before.closures.size u.closures.size =
            handles v.before.closures.size t.closures.size := by
        have opened := two.opened
        rw [two.began, add_comm (handles s.closures.size _), handles_add early (by omega),
          handles_add (by omega) late, two.ended]
      rw [← numbers, ← own]
      exact whole
    · obtain ⟨trace, made, goes, adds⟩ :=
        @adds_of_trace _ closureTally _ _ _ given fresh.not_skips pipe closure
      obtain ⟨admitted, -⟩ := gives_iff.mp given
      have within : v.plan.Within SameCount
          (Standing (Permit.onScopes fun _ => True) v.source.kind v.context) :=
        Plan.within_other sameCount_settled (fun _ _ _ => rfl)
          v.source.permitted_everywhere.here (.inl trivial) closure
      obtain ⟨-, sum⟩ := Plan.handles_of_goes within goes fun passage member =>
        grows (goes.visited passage member)
      have whole := adds _ fun passage member =>
        inner ⟨admitted, goes.enters_iff.mpr ⟨passage, member, rfl⟩⟩ (goes.visited passage member)
      have other : r.kindName ≠ "closure" :=
        kindName_ne_of_gives given pipe closure (by decide) (by decide)
      rw [show closureTally.own r = 0 by simp [closureTally, Expr.closureId?_of_kindName other],
        zero_add, sum] at whole
      exact whole

end Visit

namespace Analysis

variable {registry : Registry} {mode : AnalysisMode} {module : ModuleId} {ast analysed : Ast}
  {s t : AnalysisState}

theorem sameCount_edit {α : Type} (change : ScopeTree.Edit α) : Keeps SameCount (Walk.edit change) :=
  fun s => congrArg Array.size (leavesClosures_edit change s)

/-- The closures of an analysed tree have the numbers that were given out in its analysis. -/
theorem closureIds_of_analysed (once : ast.functionIds.Nodup)
    (awaits : s.tree.Awaits ast.functionIds)
    (given : Gives (moduleWalk registry mode module ast) s analysed t) :
    (analysed.closureIds : Multiset _) = handles s.closures.size t.closures.size := by
  obtain ⟨context, start, u, begins, walked, last⟩ := begins_of_gives given
  have first : SameCount s start := begins.keeps sameCount_settled.trans (sameCount_edit _)
    (keeps_resolveImports sameCount_settled.refl sameCount_settled.trans fun _ _ => sameCount_edit _)
  have stored : SameCount u t := by
    refine Keeps.of_gives ?_ last
    split
    · exact sameCount_edit _
    · exact keeps_pure sameCount_settled.refl _
  -- The top of the tree is gone over like the parts of a node: the handles of its passages make up
  -- those of the walk.
  obtain ⟨trace, goes⟩ := Plan.exists_goes walked
  have fresh : ∀ passage ∈ trace, passage.visit.Fresh := fun passage member =>
    have entered := goes.enters_iff.mpr ⟨passage, member, rfl⟩
    Visited.fresh once awaits ⟨context, start, passage.visit, begins, entered, .refl⟩
  have everywhere : (Plan.each context Expr.slot ast.expressions).Within SameCount
      fun _ _ _ => True := Plan.within_each (fun _ _ => trivial) _ _
  obtain ⟨-, sum⟩ := Plan.handles_of_goes everywhere goes fun passage member =>
    (Visit.firm_of_gives (goes.visited passage member)).1
  have lists := (Plan.shows_each context Expr.slot ast.expressions fun _ => rfl).of_goes goes
  have added := Visit.sum_of_lists lists fun passage member =>
    Visit.numbered_of_gives (fresh passage member) (goes.visited passage member)
  rw [closureTally_all, ← nodesOfAll_eq, sum, first, ← stored] at added
  exact added

end Analysis
end ShellSema
