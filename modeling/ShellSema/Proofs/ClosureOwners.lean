import ShellSema.Proofs.FunctionRuns

/-!
# The function around a place

The frame of a closure says what is around the closure, and never comes to say anything else. So the
frames lead from every place out to the function around it. Along the visits, this is the function
whose body holds the place.
-/
namespace ShellSema

/-- The frames lead from a place to the function around it, or to no function. -/
inductive OwnedBy (closures : Array ClosureFrame) : Option Enclosing → Option FunctionId → Prop where
  | outermost : OwnedBy closures none none
  | function (id : FunctionId) : OwnedBy closures (some (.function id)) (some id)
  | closure {id : ClosureId} {frame : ClosureFrame} {owner : Option FunctionId}
      (found : closures[id.index]? = some frame) (outside : OwnedBy closures frame.owner owner) :
      OwnedBy closures (some (.closure id)) owner

/-- The search along the frames finds the function around a place. -/
theorem OwnedBy.eq_of_gives {enclosing : Option Enclosing} {owner found : Option FunctionId}
    {s t : AnalysisState} (owned : OwnedBy s.closures enclosing owner) {steps : Nat}
    (given : Gives (Walk.ownerWithin steps enclosing) s found t) : found = owner := by
  induction owned generalizing steps with
  | outermost =>
    cases steps <;> exact (gives_pure.mp given).1
  | function id =>
    cases steps <;> exact (gives_pure.mp given).1
  | closure there _ ih =>
    cases steps with
    | zero => exact (gives_crash.mp given).elim
    | succ steps =>
      obtain ⟨frame, _, framed, further⟩ := gives_bind.mp given
      obtain ⟨same, rfl⟩ := gives_frame.mp framed
      rw [there] at same
      cases same
      exact ih further

/-! ### Owners of closures -/

/-- The closures entered so far have the owners that they had. -/
def KeepsOwners (s t : AnalysisState) : Prop :=
  ∀ (index : Nat) frame, s.closures[index]? = some frame →
    ∃ frame', t.closures[index]? = some frame' ∧ frame'.owner = frame.owner

theorem keepsOwners_of_same (s t : AnalysisState) (same : t.closures = s.closures) :
    KeepsOwners s t := by
  intro index frame found
  exact ⟨frame, same ▸ found, rfl⟩

theorem keepsOwners_refl (s : AnalysisState) : KeepsOwners s s := keepsOwners_of_same s s rfl

theorem KeepsOwners.trans (r s t : AnalysisState) (first : KeepsOwners r s)
    (rest : KeepsOwners s t) : KeepsOwners r t := by
  intro index frame found
  obtain ⟨frame', found', same⟩ := first index frame found
  obtain ⟨frame'', found'', same'⟩ := rest index frame' found'
  exact ⟨frame'', found'', same'.trans same⟩

theorem keepsOwners_modify (s : AnalysisState) (index : Nat) {change : ClosureFrame → ClosureFrame}
    (owner : ∀ frame, (change frame).owner = frame.owner) :
    KeepsOwners s { s with closures := s.closures.modify index change } := by
  intro other frame found
  rw [Array.getElem?_modify, found]
  by_cases same : index = other
  · rw [if_pos same]
    exact ⟨change frame, rfl, owner frame⟩
  · rw [if_neg same]
    exact ⟨frame, rfl, rfl⟩

/-- A walk keeps the owners of closures. -/
theorem keepsOwners_preserved : Preserved KeepsOwners (Permit.onScopes fun _ => True) := by
  have settled : Settled KeepsOwners (Permit.onScopes fun _ => True) :=
    { calm_of_closures keepsOwners_refl KeepsOwners.trans keepsOwners_of_same with
      capture := fun s id _ => keepsOwners_modify s id.index fun _ => rfl
      mark := fun _ _ s => keepsOwners_of_same _ _ (leavesClosures_edit _ s) }
  apply settled.preserved
  · exact fun s _ _ => keepsOwners_of_same _ _ rfl
  · intro frame s index old found
    exact ⟨old, getElem?_push_of_some found frame, rfl⟩
  · exact fun s id _ => keepsOwners_modify s id.index fun _ => rfl

theorem OwnedBy.kept {enclosing : Option Enclosing} {owner : Option FunctionId} {s t : AnalysisState}
    (owned : OwnedBy s.closures enclosing owner) (kept : KeepsOwners s t) :
    OwnedBy t.closures enclosing owner := by
  induction owned with
  | outermost => exact .outermost
  | function id => exact .function id
  | closure found _ ih =>
    obtain ⟨frame', found', same⟩ := kept _ _ found
    exact .closure found' (same ▸ ih)

/-! ### Along the visits -/

/-- The tree calls nothing. -/
def Expr.CallsNothing (e : Expr) : Prop := ∀ n ∈ e.nodes, n.kindName ≠ "call"

theorem Expr.callsNothing_of_children {e : Expr} (call : e.kindName ≠ "call")
    (below : ∀ c ∈ e.children, c.CallsNothing) : e.CallsNothing := by
  intro n inside
  rcases Expr.mem_nodes.mp inside with rfl | ⟨c, child, deeper⟩
  · exact call
  · exact below c child n deeper

theorem Expr.callsNothing_of_default {e : Expr} (constant : e.isDefault = true) : e.CallsNothing := by
  have literal (part : Expr) (literal : part.isLiteral = true) : part.CallsNothing := by
    unfold isLiteral at literal
    split at literal
    next kind =>
      apply callsNothing_of_children
      · simp [kindName, ExprKind.name, kind]
      · simp [children, ExprKind.children, kind]
    next => cases literal
  unfold isDefault at constant
  split at constant
  next kind => exact literal e (by simp [isLiteral, kind])
  next items kind =>
    obtain rfl := List.isEmpty_iff.mp constant
    apply callsNothing_of_children
    · simp [kindName, ExprKind.name, Sequence.name, kind]
    · simp [children, ExprKind.children, kind]
  next entries kind =>
    obtain rfl := List.isEmpty_iff.mp constant
    apply callsNothing_of_children
    · simp [kindName, ExprKind.name, kind]
    · simp [children, ExprKind.children, kind]
  -- An interpolation calls nothing if its one part does not.
  next part kind =>
    apply callsNothing_of_children
    · simp [kindName, ExprKind.name, Sequence.name, kind]
    · simpa [children, ExprKind.children, kind] using literal part constant
  next => cases constant

namespace Visit

variable {v w u : Visit} {owner : Option FunctionId}

/-- The function around a visit. -/
def OwnedBy (v : Visit) (owner : Option FunctionId) : Prop :=
  ShellSema.OwnedBy v.before.closures v.context.enclosing owner

/-- A visit within no other function has the function around it that the visit has from which it is
entered. -/
theorem OwnedBy.enters (owned : v.OwnedBy owner) (entered : v.Enters w)
    (function : v.source.kindName ≠ "function") (room : w.before.closures.size ≤ 2 ^ 32) :
    w.OwnedBy owner := by
  have kept : KeepsOwners v.before w.before :=
    (v.allowed_everywhere.enters keepsOwners_preserved entered).2.2.2
  have later := owned.kept kept
  by_cases other : v.source.kindName ≠ "closure"
  · rw [OwnedBy, enclosing_of_enters entered other function]
    exact later
  · obtain ⟨attached, parameters, body, captured, old, source⟩ :=
      Expr.closure_of_kindName (not_not.mp other)
    rcases closure_enters source entered with rfl | ⟨scope, id, opened, opens, rfl⟩
    · exact later
    · obtain ⟨call, s, first, block, opening⟩ := opens
      exact .closure (index_of_enterClosure opening room).2 later

theorem OwnedBy.along (owned : v.OwnedBy owner) (path : v.Holds u)
    (room : u.before.closures.size ≤ 2 ^ 32) : u.OwnedBy owner := by
  induction path with
  | refl => exact owned
  | tail _ step ih =>
    obtain ⟨entered, function⟩ := step
    have smaller := (grows_of_enters entered).2.2.frames.size_le
    exact (ih (Nat.le_trans smaller room)).enters entered function room

/-- The body of a function has the function around it. -/
theorem EntersFunction.ownedBy {f b : Visit} {id : FunctionId} (body : f.EntersFunction b id) :
    b.OwnedBy (some id) := by
  rw [OwnedBy, body.enclosing]
  exact .function id

/-! ### The innermost function -/

/-- Every visit that is part of another one, and that makes a call, is in the body of a function that
is part of it as well, or in no function. -/
theorem innermost_of_reaches (reached : v.Reaches u) :
    v.Holds u ∨ u.source.CallsNothing ∨
      ∃ f b id, v.Reaches f ∧ f.EntersFunction b id ∧ b.Holds u := by
  induction reached with
  | refl => exact .inl .refl
  | @tail u w reached entered ih =>
    by_cases function : u.source.kindName = "function"
    · obtain ⟨access, name, parameters, body, module, takesClosure, id, source⟩ :=
        Expr.function_of_kindName function
      rcases function_enters source entered with ⟨-, constant⟩ | ⟨scope, -, rfl, block⟩
      · exact .inr (.inl (Expr.callsNothing_of_default constant))
      · refine .inr (.inr ⟨u, w, id, reached, ⟨entered, block, ?_⟩, .refl⟩)
        exact ⟨access, name, parameters, module, takesClosure, source⟩
    · rcases ih with path | calm | ⟨f, b, id, reached', body, path⟩
      · exact .inl (path.tail ⟨entered, function⟩)
      · exact .inr (.inl fun n inside =>
          calm n (Expr.mem_nodes_of_child (mem_children_of_enters entered) inside))
      · exact .inr (.inr ⟨f, b, id, reached', body, path.tail ⟨entered, function⟩⟩)

/-- A place that is in a closure, and in the body of a function, is in a closure in that body. -/
theorem holds_closure (path : v.Holds u)
    (outside : ∀ id, v.context.enclosing ≠ some (.closure id)) {id : ClosureId}
    (inside : u.context.enclosing = some (.closure id)) :
    ∃ c d, v.Holds c ∧ c.EntersBody d ∧ d.Holds u := by
  induction path generalizing id with
  | refl => exact absurd inside (outside id)
  | @tail w u path step ih =>
    obtain ⟨entered, function⟩ := step
    by_cases same : u.context.enclosing = w.context.enclosing
    · obtain ⟨c, d, around, body, path'⟩ := ih (same ▸ inside)
      exact ⟨c, d, around, body, path'.tail ⟨entered, function⟩⟩
    · have closure : w.source.kindName = "closure" := by
        by_contra other
        exact same (enclosing_of_enters entered other function)
      obtain ⟨attached, parameters, block, captured, old, source⟩ := Expr.closure_of_kindName closure
      rcases closure_enters source entered with rfl | ⟨scope, id, opened, opens, rfl⟩
      · exact absurd rfl same
      · refine ⟨w, _, path, ⟨entered, ?_⟩, .refl⟩
        exact ⟨attached, parameters, block, captured, old, id, opened, source, rfl⟩

/-- All that the body of a closure holds is in a closure. -/
theorem closure_of_holds (body : v.EntersBody w) (path : w.Holds u) :
    ∃ id, u.context.enclosing = some (.closure id) := by
  induction path with
  | refl =>
    obtain ⟨-, attached, parameters, block, captured, old, id, opened, -, rfl⟩ := body
    exact ⟨id, rfl⟩
  | @tail u w _ step ih =>
    obtain ⟨entered, function⟩ := step
    obtain ⟨id, inside⟩ := ih
    by_cases other : u.source.kindName ≠ "closure"
    · exact ⟨id, (enclosing_of_enters entered other function).trans inside⟩
    · obtain ⟨attached, parameters, block, captured, old, source⟩ :=
        Expr.closure_of_kindName (not_not.mp other)
      rcases closure_enters source entered with rfl | ⟨scope, id, opened, opens, rfl⟩
      · exact ⟨_, inside⟩
      · exact ⟨id, rfl⟩

end Visit
end ShellSema
