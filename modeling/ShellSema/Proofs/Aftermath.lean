import ShellSema.Proofs.Extent
import ShellSema.Proofs.Failing

/-!
# What a walk leaves of a function

However an analysis ends, there are three ways in which it can leave a function. If no visit has met
the function, it is as it was. If the visit that met it completed, the function is registered, and if
that visit failed, the function is as it was except that it has failed.
-/
namespace ShellSema

variable {s t : AnalysisState} {error : AnalysisError} {id : FunctionId}

/-- The visit comes to a function where it is declared, and may do so. -/
def Visit.Meets (v : Visit) (id : FunctionId) : Prop :=
  v.slot.admits v.source.kind = true ∧ v.source.declaredFunction? = some id

theorem Visit.Meets.mem_functionIds {v : Visit} (meets : v.Meets id) : id ∈ v.source.functionIds := by
  rw [Expr.functionIds_eq, meets.2]
  exact List.mem_cons_self

/-! ### Functions that are not met -/

namespace Visit

/-- A visit that does not come to a function keeps a relation that only this function matters to. -/
theorem apart_of_unmet {R : AnalysisState → AnalysisState → Prop}
    (kept : Preserved R (Permit.onFunctions (· ≠ id))) {v : Visit}
    (unmet : ∀ u, v.Reaches u → ¬ u.Meets id) : R v.before v.after := by
  obtain ⟨e, source⟩ : ∃ e, v.source = e := ⟨_, rfl⟩
  induction e using Expr.induction generalizing v with
  | inherited e ih =>
    by_cases admitted : v.slot.admits v.source.kind = true
    · have here : v.source.PermittedHere (Permit.onFunctions (· ≠ id)) := by
        refine ⟨?_, fun _ _ _ _ => trivial⟩
        cases kind : v.source.kind
        case functionDecl =>
          rintro rfl
          exact unmet v .refl ⟨admitted, by simp [Expr.declaredFunction?, kind]⟩
        all_goals trivial
      have within : v.plan.Within R
          (Standing (Permit.onFunctions (· ≠ id)) v.source.kind v.context) :=
        Plan.within_node kept here (.inl trivial)
      rw [after_of_admitted admitted]
      refine within.keeps_from kept.refl kept.trans fun w entered _ => ?_
      have entered : v.Enters w := ⟨admitted, entered⟩
      exact ih w.source (source ▸ mem_children_of_enters entered)
        (fun u reached => unmet u (.head entered reached)) rfl
    · -- What its slot refuses is not walked at all.
      rw [after_of_refused admitted]
      exact kept.refl _

end Visit

/-! ### Functions that fail -/

/-- The function as it is, except that it has failed. -/
def ScopeTree.failedFunction (tree : ScopeTree) (id : FunctionId) :
    Except ScopeTree.Fault ScriptFunction := do
  return { ← tree.function id with status := .failed }

/-- What is registered of the function is the same, up to its status. -/
def KeepsButStatus (id : FunctionId) (s t : AnalysisState) : Prop :=
  t.tree.failedFunction id = s.tree.failedFunction id

theorem KeepsRecord.butStatus (kept : KeepsRecord id s t) : KeepsButStatus id s t := by
  rw [KeepsButStatus, ScopeTree.failedFunction, kept]
  rfl

theorem KeepsButStatus.trans (r s t : AnalysisState) (first : KeepsButStatus id r s)
    (rest : KeepsButStatus id s t) : KeepsButStatus id r t :=
  Eq.trans rest first

theorem keepsButStatus_preserved (id : FunctionId) :
    Preserved (KeepsButStatus id) (Permit.onFunctions (· ≠ id)) :=
  (keepsRecord_preserved id).weaken (fun _ _ => KeepsRecord.butStatus) KeepsButStatus.trans

theorem function_failing (s : AnalysisState) :
    (runFrom (Walk.edit (ScopeTree.Edit.changeFunction id fun f => { f with status := .failed }))
      s).2.tree.function id = s.tree.failedFunction id := by
  rw [runFrom_edit_state, ScopeTree.Edit.state_changeFunction]
  unfold ScopeTree.failedFunction ScopeTree.function
  dsimp only
  rw [Array.getElem?_modify, if_pos rfl]
  cases s.tree.functions[id.index]? <;> rfl

theorem keepsButStatus_failing (id : FunctionId) : Keeps (KeepsButStatus id)
    (Walk.edit (ScopeTree.Edit.changeFunction id fun f => { f with status := .failed })) := by
  intro s
  rw [KeepsButStatus, ScopeTree.failedFunction, function_failing, ScopeTree.failedFunction]
  cases s.tree.function id <;> rfl

/-- A guarded plan that fails marks its function, of which nothing else is changed. -/
theorem Plan.function_of_fails {α : Type} {inner : Plan α} {V : Context → Slot → Expr → Prop}
    (within : (guard id inner).Within (KeepsButStatus id) V)
    (visits : ∀ context slot e, V context slot e → Keeps (KeepsButStatus id) (Walk.expr context slot e))
    (failed : Fails (guard id inner).run s error t) :
    t.tree.function id = s.tree.failedFunction id := by
  rw [run_guard] at failed
  obtain ⟨r, inside, marked⟩ := fails_orFailFunction.mp failed
  have kept : KeepsButStatus id s (runFrom inner.run s).2 :=
    within.2.1.keeps_run (keepsButStatus_preserved id).refl KeepsButStatus.trans visits s
  rw [show runFrom inner.run s = (.error (.failed error), r) from inside] at kept
  have ended : t.tree.function id = r.tree.failedFunction id := by
    rw [← function_failing, marked]
  exact ended.trans kept

namespace Visit

variable {v : Visit}

/-- A function whose visit fails is as it was, except that it has failed. -/
theorem function_of_fails (fresh : v.Fresh) (meets : v.Meets id) (failed : v.Fails error) :
    v.after.tree.function id = v.before.tree.failedFunction id := by
  obtain ⟨admitted, declared⟩ := meets
  obtain ⟨access, name, parameters, body, module, takesClosure, source⟩ :=
    Expr.kind_of_declared declared
  obtain ⟨bare, -, ended⟩ := fails_iff.mp failed
  rw [if_pos admitted, plan, source] at ended
  simp only [Plan.node, Plan.run_bind, Plan.run_lift, fails_bind, fails_ask, false_or, gives_ask]
    at ended
  obtain ⟨f, _, ⟨found, rfl⟩, ended⟩ := ended
  split at ended
  next met =>
    have skips : v.Skips :=
      ⟨access, name, parameters, body, module, takesClosure, id, f, source, found, met⟩
    exact absurd skips fresh.not_skips
  -- To note the name and to register the function cannot fail, so it was the walk over its parts.
  simp only [Plan.run_bind, Plan.run_lift, Plan.run_pure, fails_bind, fails_note, fails_modify,
    fails_registerFunction, fails_pure, and_false, exists_false, false_or, or_false] at ended
  obtain ⟨_, s₁, noted, _, s₂, met, ended⟩ := ended
  -- The function is not declared again in its own parts.
  have apart (c : Expr) (child : c ∈ v.source.children) : id ∉ c.functionIds := by
    have once := fresh.once
    rw [Expr.functionIds_of_kind source, List.nodup_cons] at once
    exact fun member => once.1 (List.mem_flatMap.mpr ⟨c, child, member⟩)
  have within : (Plan.functionDecl v.context parameters body module takesClosure id).Within
      (KeepsButStatus id) fun _ _ _ => True :=
    have calm := (keepsButStatus_preserved id).toCalm
    Plan.within_functionDecl calm (fun _ _ => trivial) (fun _ _ _ _ => calm.declare _ _ trivial)
      (fun _ _ _ => calm.declare _ _ trivial) module id (keepsButStatus_failing id)
      fun _ _ _ => trivial
  have failing := Plan.function_of_fails (within.follow (Plan.follows_functionDecl ..)) ?_ ended
  · obtain rfl := gives_modify.mp noted
    obtain rfl := gives_modify.mp met
    exact failing
  · rintro inner slot c ⟨-, child⟩
    have child : c ∈ v.source.children := by
      simpa [Expr.children, source, ExprKind.children] using child
    exact (keepsButStatus_preserved id).keeps_expr (Expr.permitted_apart (apart c child)) (.inl trivial)

/-- A function whose visit completes is registered as its node comes out, with what is known of its
closure by then. -/
theorem function_of_completes {access : Access} {name : Token} {parameters : List Parameter}
    {body : Expr} {module : ModuleId} {takesClosure : Bool} (fresh : v.Fresh)
    (source : v.source.kind = .functionDecl access name parameters body module takesClosure id)
    {r : Expr} (given : v.Gives r t) : ∃ parameters' body',
      r.kind = .functionDecl access name parameters' body' module takesClosure id ∧
      t.tree.function id = .ok
        { name := name.text, access, module, parameters := parameters', takesClosure
          carrierCaptured := t.carrierCaptured.contains id, status := .analysed } := by
  obtain ⟨b, body', parameters', walked, -, -, -, kind, registers⟩ :=
    registers_of_gives source given fresh.not_skips
  obtain ⟨same, found⟩ := function_of_registerFunction registers
  exact ⟨parameters', body', kind, same ▸ found⟩

end Visit

/-! ### The whole analysis -/

namespace Analysis

variable {registry : Registry} {mode : AnalysisMode} {module : ModuleId} {ast : Ast} {v : Visit}

/-- However the analysis ends, a function is left as it was if no visit has met it. -/
theorem function_of_unmet (unmet : ∀ u, Visited registry module ast s u → ¬ u.Meets id) :
    KeepsRecord id s (runFrom (moduleWalk registry mode module ast) s).2 := by
  have kept := keepsRecord_preserved id
  have changes (change : ScriptModule → ScriptModule) :
      Keeps (KeepsRecord id) (Walk.edit (ScopeTree.Edit.changeModule module change)) :=
    keepsRecord_changeModule module change
  refine related_of_moduleWalk kept.refl kept.trans (fun _ => changes _) (fun _ _ => changes _)
    (keeps_resolveImports kept.refl kept.trans fun change _ => changes change) ?_
  intro context start begins
  have everywhere : (Plan.each context Expr.slot ast.expressions).Within (KeepsRecord id)
      fun _ _ _ => True := Plan.within_each (fun _ _ => trivial) _ _
  rw [← Plan.run_each]
  refine everywhere.keeps_from kept.refl kept.trans fun top first _ => ?_
  exact Visit.apart_of_unmet kept fun u reached => unmet u ⟨context, start, top, begins, first, reached⟩

/-- A function that has been met is left as its visit leaves it. -/
theorem Visited.function_after (once : ast.functionIds.Nodup)
    (visited : Visited registry module ast s v) (meets : v.Meets id) :
    (runFrom (moduleWalk registry mode module ast) s).2.tree.function id = v.after.tree.function id :=
  visited.apart_after (keepsRecord_preserved id) (fun change => keepsRecord_changeModule module change)
    once meets.mem_functionIds

/-- Until it is met, a function is as it was. -/
theorem Visited.function_before (once : ast.functionIds.Nodup)
    (visited : Visited registry module ast s v) (meets : v.Meets id) :
    v.before.tree.function id = s.tree.function id :=
  visited.apart_before (keepsRecord_preserved id) (fun change => keepsRecord_changeModule module change)
    once meets.mem_functionIds

end Analysis
end ShellSema
