import ShellSema.Proofs.Bodies

/-!
# The surroundings of visits

Every visit of an analysis asks the same registry. Apart from that, a visit has the surroundings of
the one that enters it, unless it is the visit of the body of a closure or function.
-/
namespace ShellSema

/-- The defaults of parameters are gone over where the list stands. Only constants are defaults. -/
theorem Plan.parameterList_enters {context : Context} {seenDefault : Bool}
    {parameters : List Parameter} {s : AnalysisState} {w : Visit}
    (entered : (parameterList context seenDefault parameters).Enters s w) :
    w.context = context ∧ w.source.isDefault = true := by
  induction parameters generalizing seenDefault s with
  | nil => exact (enters_pure.mp entered).elim
  | cons parameter rest ih =>
    obtain ⟨name, default?, isVariadic⟩ := parameter
    simp only [parameterList, enters_bind, enters_lift, false_or] at entered
    obtain ⟨_, _, -, _, s', -, entered⟩ := entered
    cases default? with
    | none =>
      simp only [enters_bind, enters_lift, enters_pure, false_or, and_false, exists_false, or_false]
        at entered
      obtain ⟨_, _, -, entered⟩ := entered
      exact ih entered
    | some value =>
      simp only [enters_bind, enters_lift, enters_enter, enters_pure, run_lift, false_or, and_false,
        exists_false, or_false] at entered
      obtain ⟨_, _, checked, rfl | ⟨_, _, -, entered⟩⟩ := entered
      · -- The check stands before the visit, so a visited default has passed it.
        refine ⟨rfl, ?_⟩
        cases constant : value.isDefault with
        | true => rfl
        | false => simp [constant] at checked
      · exact ih entered

namespace Visit

variable {v w : Visit}

/-- The visits that a function enters: the defaults of its parameters where it stands itself, and its
body, a block, as that function. -/
theorem function_enters {access : Access} {name : Token} {parameters : List Parameter} {body : Expr}
    {module : ModuleId} {takesClosure : Bool} {id : FunctionId}
    (source : v.source.kind = .functionDecl access name parameters body module takesClosure id)
    (entered : v.Enters w) :
    (w.context = v.context ∧ w.source.isDefault = true) ∨
      ∃ scope, w.context = { v.context with scope, enclosing := some (.function id) } ∧
        w.source = body ∧ body.isBlock = true := by
  have enters := entered.2
  simp only [plan, source, Plan.node, Plan.enters_bind, Plan.enters_lift, false_or] at enters
  obtain ⟨f, _, -, enters⟩ := enters
  split at enters
  · simp at enters
  simp only [Plan.enters_bind, Plan.enters_lift, Plan.enters_pure, Plan.functionDecl,
    Plan.enters_guard, Plan.enters_enter, Plan.run_lift, false_or, or_false, and_false,
    exists_false] at enters
  obtain ⟨_, _, -, _, _, -, default | rest⟩ := enters
  · exact .inl (Plan.parameterList_enters default)
  · obtain ⟨_, _, -, _, _, block, _, _, -, inner, _, located, rfl⟩ := rest
    obtain ⟨found, -⟩ := gives_blockScope.mp block
    simp only [Walk.functionContext, gives_bind, gives_pure] at located
    obtain ⟨m, _, -, rfl, -⟩ := located
    exact .inr ⟨m.scope, rfl, rfl, Expr.isBlock_of_blockScope? found⟩

theorem registry_of_enters (entered : v.Enters w) : w.context.registry = v.context.registry := by
  obtain ⟨-, places, -⟩ := grows_of_enters entered
  cases kind : v.source.kind with
  | functionDecl =>
    rcases function_enters kind entered with ⟨same, -⟩ | ⟨scope, same, -⟩
    · rw [same]
    · rw [same]
  | closure =>
    simp only [ExprKind.Places, kind] at places
    rcases places with same | ⟨id, same⟩
    · rw [same]
    · rw [same]
  | _ =>
    simp only [ExprKind.Places, kind] at places
    rw [places]

/-- Apart from the bodies of closures and functions, a visit is entered within the same closure. -/
theorem enclosing_of_enters (entered : v.Enters w) (closure : v.source.kindName ≠ "closure")
    (function : v.source.kindName ≠ "function") : w.context.enclosing = v.context.enclosing := by
  obtain ⟨-, places, -⟩ := grows_of_enters entered
  cases kind : v.source.kind with
  | functionDecl => simp [Expr.kindName, ExprKind.name, kind] at function
  | closure => simp [Expr.kindName, ExprKind.name, kind] at closure
  | _ => rw [kind] at places; rw [places]

end Visit
end ShellSema
