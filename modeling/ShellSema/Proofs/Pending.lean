import ShellSema.Proofs.Linking

/-!
# Functions are met once

The walk leaves a function as it is if its status is no longer pending. If each function is declared
by one node at most, no visit meets such a function: the walk changes the status of the functions that
it declares, and none of them is declared in a part of the tree that is yet to come.
-/
namespace ShellSema

namespace Plan

variable {α : Type} {R : AnalysisState → AnalysisState → Prop} {V : Context → Slot → Expr → Prop}

/-- A visit starts from a state that is related to the first one if the visits of the expressions
before it keep the relation. -/
theorem Within.enters_before {p : Plan α} {es : List Expr} (within : p.Within R V)
    (follows : p.Follows es) (refl : ∀ s, R s s) (trans : ∀ r s t, R r s → R s t → R r t)
    {s : AnalysisState} {v : Visit}
    (visits : ∀ first rest, es = first ++ v.source :: rest → ∀ (u : Visit) r t,
      V u.context u.slot u.source → u.source ∈ first → u.Gives r t → R u.before t)
    (entered : p.Enters s v) : R s v.before := by
  -- What is visited before the wanted visit stands in front of it among the expressions.
  induction p generalizing es s with
  | done a => exact entered.elim
  | act action next ih =>
    obtain ⟨b, t, given, entered⟩ := entered
    exact trans _ _ _ (within.1.of_gives given)
      (ih b (within.2 b s t given) (follows b) visits entered)
  | visit context slot e next ih =>
    obtain ⟨later, ⟨skipped, rfl⟩, others⟩ := follows
    obtain rfl | ⟨r, t, given, entered⟩ := entered
    · exact refl _
    · have ahead := (others r).mem_of_enters entered
      obtain ⟨between, rest, rfl⟩ := List.append_of_mem ahead
      have visited : R s t := by
        refine visits (skipped ++ e :: between) rest (by simp) ⟨context, slot, e, s⟩ r t within.1 ?_
          given
        exact List.mem_append_right _ List.mem_cons_self
      refine trans _ _ _ visited (ih r (within.2 r) (others r) ?_ entered)
      intro first rest' split u r' t' wanted member
      refine visits (skipped ++ e :: first) rest' (by simp [split]) u r' t' wanted ?_
      exact List.mem_append_right _ (List.mem_cons_of_mem _ member)
  | guarded id inner next innerIh ih =>
    obtain ⟨early, late, rfl, inside, others⟩ := follows
    obtain entered | ⟨b, t, given, entered⟩ := entered
    · refine innerIh within.2.1 inside (fun first rest split u r t wanted member => ?_) entered
      exact visits first (rest ++ late) (by simp [split]) u r t wanted member
    · have ahead := (others b).mem_of_enters entered
      obtain ⟨between, rest, rfl⟩ := List.append_of_mem ahead
      have visited : R s t := by
        refine (within.2.1.follow inside).of_gives refl trans (fun u r' t' wanted given => ?_) given
        exact visits (early ++ between) rest (by simp) u r' t' wanted.1
          (List.mem_append_left _ wanted.2) given
      refine trans _ _ _ visited (ih b (within.2.2 b) (others b) ?_ entered)
      intro first rest' split u r' t' wanted member
      exact visits (early ++ first) rest' (by simp [split]) u r' t' wanted
        (List.mem_append_right _ member)

/-- From the end of a visit to the end of the plan, a relation is kept that the visits of the
expressions after it keep, however they end. -/
theorem Within.keeps_after {p : Plan α} {es : List Expr} (within : p.Within R V)
    (follows : p.Follows es) (refl : ∀ s, R s s) (trans : ∀ r s t, R r s → R s t → R r t)
    {s : AnalysisState} {v : Visit}
    (visits : ∀ first rest, es = first ++ v.source :: rest → ∀ w : Visit,
      V w.context w.slot w.source → w.source ∈ rest → R w.before w.after)
    (entered : p.Enters s v) : R v.after (runFrom p.run s).2 := by
  -- What is visited after it stands behind it. A later visit may halt the plan, so the states at
  -- its end are compared, not its results.
  induction p generalizing es s with
  | done a => exact entered.elim
  | act action next ih =>
    obtain ⟨b, s', given, entered⟩ := entered
    simp only [run, runFrom_bind, show runFrom action s = (.ok b, s') from given]
    exact ih b (within.2 b s _ given) (follows b) visits entered
  | visit context slot e next ih =>
    obtain ⟨later, ⟨skipped, rfl⟩, others⟩ := follows
    simp only [run, runFrom_bind]
    obtain rfl | ⟨b, s', given, entered⟩ := entered
    · unfold Visit.after
      dsimp only
      rcases runFrom (Walk.expr context slot e) s with ⟨_ | r, t⟩
      · exact refl t
      · exact ((within.2 r).follow (others r)).keeps_from refl trans fun w _ wanted =>
          visits skipped later rfl w wanted.1 wanted.2
    · simp only [show runFrom (Walk.expr context slot e) s = (.ok b, s') from given]
      refine ih b (within.2 b) (others b) (fun first rest split => ?_) entered
      exact visits (skipped ++ e :: first) rest (by simp [split])
  | guarded id inner next innerIh ih =>
    obtain ⟨early, late, rfl, inside, others⟩ := follows
    simp only [run, runFrom_bind]
    obtain entered | ⟨b, s', given, entered⟩ := entered
    · obtain ⟨before, after, split⟩ := List.append_of_mem (inside.mem_of_enters entered)
      have ended := innerIh within.2.1 inside (fun first rest split w wanted member =>
        visits first (rest ++ late) (by simp [split]) w wanted (List.mem_append_left _ member))
        entered
      refine trans _ _ _ ended ?_
      have marked := related_orFailFunction trans refl within.1 inner.run s
      rcases given : runFrom (Walk.orFailFunction id inner.run) s with ⟨_ | b, t⟩ <;>
        rw [given] at marked
      · exact marked
      · refine trans _ _ _ marked ?_
        exact ((within.2.2 b).follow (others b)).keeps_from refl trans fun w _ wanted =>
          visits before (after ++ late) (by simp [split]) w wanted.1
            (List.mem_append_right _ wanted.2)
    · have given : Gives (Walk.orFailFunction id inner.run) s b s' := gives_orFailFunction.mpr given
      simp only [show runFrom (Walk.orFailFunction id inner.run) s = (.ok b, s') from given]
      refine ih b (within.2.2 b) (others b) (fun first rest split => ?_) entered
      exact visits (early ++ first) rest (by simp [split])

end Plan

/-! ### The functions of a tree -/

theorem Expr.functionIds_eq (e : Expr) :
    e.functionIds = e.declaredFunction?.toList ++ e.children.flatMap Expr.functionIds := by
  unfold functionIds
  rw [Expr.nodes_eq, List.filterMap_cons]
  rw [List.filterMap_flatMap]
  cases e.declaredFunction? <;> rfl

theorem Ast.functionIds_eq (ast : Ast) :
    ast.functionIds = ast.expressions.flatMap Expr.functionIds := by
  rw [functionIds, Ast.nodes, nodesOfAll_eq, List.filterMap_flatMap]
  rfl

theorem Expr.permitted_functions (e : Expr) :
    e.Permitted (Permit.onFunctions (· ∈ e.functionIds)) := by
  intro n inside
  cases kind : n.kind
  case functionDecl access name parameters body module takesClosure id =>
    exact List.mem_filterMap.mpr ⟨n, inside, by simp [declaredFunction?, kind]⟩
  all_goals trivial

/-- A tree that declares other functions declares what is permitted. -/
theorem Expr.permitted_apart {e : Expr} {id : FunctionId} (other : id ∉ e.functionIds) :
    e.Permitted (Permit.onFunctions (· ≠ id)) := by
  intro n inside
  have declared := e.permitted_functions n inside
  cases kind : n.kind
  case functionDecl =>
    rw [kind] at declared
    rintro rfl
    exact other declared
  all_goals trivial

/-- In a list of trees that declare each function once, no two trees declare the same function. -/
theorem functionIds_apart {first rest : List Expr} {e c : Expr}
    (once : ((first ++ e :: rest).flatMap Expr.functionIds).Nodup) (other : c ∈ first ++ rest)
    {id : FunctionId} (declared : id ∈ e.functionIds) : id ∉ c.functionIds := by
  have moved : ((e :: (first ++ rest)).flatMap Expr.functionIds).Nodup :=
    (List.perm_middle.flatMap_right _).nodup_iff.mp once
  intro member
  rw [List.flatMap_cons] at moved
  exact (List.nodup_append'.mp moved).2.2 declared (List.mem_flatMap.mpr ⟨c, other, member⟩)

namespace Visit

variable {v w : Visit}

/-! ### Visits around a function -/

section Apart

variable {R : AnalysisState → AnalysisState → Prop} {id : FunctionId}
  (kept : Preserved R (Permit.onFunctions (· ≠ id)))

include kept

theorem apart_after (other : id ∉ v.source.functionIds) : R v.before v.after :=
  kept.keeps_expr (Expr.permitted_apart other) (.inl trivial) v.before

theorem apart_of_gives (other : id ∉ v.source.functionIds) {r : Expr} {t : AnalysisState}
    (given : v.Gives r t) : R v.before t :=
  after_of_gives given ▸ apart_after kept other

/-- The actions of a node keep the relation if the function is declared below: it is not the one that
the node declares. -/
theorem within_apart (once : v.source.functionIds.Nodup) (child : w.source ∈ v.source.children)
    (inside : id ∈ w.source.functionIds) : v.plan.Within R
      (Standing (Permit.onFunctions (· ≠ id)) v.source.kind v.context) := by
  have here : v.source.PermittedHere (Permit.onFunctions (· ≠ id)) := by
    refine ⟨?_, fun _ _ _ _ => trivial⟩
    cases kind : v.source.kind
    case functionDecl access name parameters body module takesClosure own =>
      rintro rfl
      rw [Expr.functionIds_eq] at once
      have declared : own ∈ v.source.declaredFunction?.toList := by
        simp [Expr.declaredFunction?, kind]
      exact (List.nodup_append'.mp once).2.2 declared
        (List.mem_flatMap.mpr ⟨w.source, child, inside⟩)
    all_goals trivial
  exact Plan.within_node kept here (.inl trivial)

/-- Until a visit is entered, only functions have been declared that it does not declare. -/
theorem apart_of_enters (once : v.source.functionIds.Nodup) (entered : v.Enters w)
    (inside : id ∈ w.source.functionIds) : R v.before w.before := by
  have within := within_apart kept once (mem_children_of_enters entered) inside
  refine within.enters_before (Plan.follows_node ..) kept.refl kept.trans ?_ entered.2
  intro first rest split u r t _ before given
  rw [Expr.functionIds_eq, show v.source.children = first ++ w.source :: rest from split] at once
  have other := functionIds_apart (List.nodup_append'.mp once).2.1
    (List.mem_append_left rest before) inside
  exact apart_of_gives kept other given

/-- This goes for the time from the end of a visit to the end of the one around it as well, however
they end. -/
theorem apart_of_leaves (once : v.source.functionIds.Nodup) (entered : v.Enters w)
    (inside : id ∈ w.source.functionIds) : R w.after v.after := by
  have within := within_apart kept once (mem_children_of_enters entered) inside
  rw [after_of_admitted entered.1]
  refine within.keeps_after (Plan.follows_node ..) kept.refl kept.trans ?_ entered.2
  intro first rest split u _ after
  rw [Expr.functionIds_eq, show v.source.children = first ++ w.source :: rest from split] at once
  have other := functionIds_apart (List.nodup_append'.mp once).2.1
    (List.mem_append_right first after) inside
  exact apart_after kept other

end Apart

/-- When a visit is entered, the functions that it declares have the status that they had. -/
theorem keepsStatus_of_enters (once : v.source.functionIds.Nodup) (entered : v.Enters w) :
    KeepsStatus (· ∉ w.source.functionIds) v.before w.before := by
  intro id declared
  have kept := apart_of_enters (keepsStatus_preserved (· ≠ id)) once entered (not_not.mp declared)
  exact kept id (not_not.mpr rfl)

end Visit

/-! ### Functions that are pending -/

/-- These functions have not been met, as far as they are known. -/
def ScopeTree.Awaits (tree : ScopeTree) (ids : List FunctionId) : Prop :=
  ∀ id ∈ ids, ∀ status, tree.statusOf? id = some status → status = .pending

instance ScopeTree.decidableAwaits {tree : ScopeTree} {ids : List FunctionId} :
    Decidable (tree.Awaits ids) :=
  decidable_of_iff (∀ id ∈ ids, (tree.statusOf? id).all (· = .pending)) (by
    simp only [ScopeTree.Awaits, Option.all_eq_true, decide_eq_true_eq])

theorem ScopeTree.Awaits.kept {ids : List FunctionId} {touched : FunctionId → Prop}
    {s t : AnalysisState} (awaits : s.tree.Awaits ids) (kept : KeepsStatus touched s t)
    (outside : ∀ id ∈ ids, ¬ touched id) : t.tree.Awaits ids := by
  intro id member status found
  rw [kept id (outside id member)] at found
  exact awaits id member status found

namespace Visit

variable {v w : Visit}

/-- A visit in which no function is declared twice, and none that has been met. -/
structure Fresh (v : Visit) : Prop where
  once : v.source.functionIds.Nodup
  awaits : v.before.tree.Awaits v.source.functionIds

theorem Fresh.enters (fresh : v.Fresh) (entered : v.Enters w) : w.Fresh := by
  have child := Visit.mem_children_of_enters entered
  have fewer : w.source.functionIds.Sublist v.source.functionIds :=
    (Expr.nodes_sublist child).filterMap _
  refine ⟨fewer.nodup fresh.once, ?_⟩
  have awaits : v.before.tree.Awaits w.source.functionIds :=
    fun id member => fresh.awaits id (fewer.subset member)
  exact awaits.kept (keepsStatus_of_enters fresh.once entered) fun id member outside => outside member

theorem Fresh.not_skips (fresh : v.Fresh) : ¬ v.Skips := by
  rintro ⟨access, name, parameters, body, module, takesClosure, id, f, kind, found, met⟩
  apply met
  have declared : id ∈ v.source.functionIds := by
    rw [Expr.functionIds_eq]
    simp [Expr.declaredFunction?, kind]
  apply fresh.awaits id declared
  simp [ScopeTree.statusOf?, ScopeTree.function_eq_ok.mp found]

end Visit
end ShellSema
