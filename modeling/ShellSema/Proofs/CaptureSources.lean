import ShellSema.Proofs.Captures
import ShellSema.Proofs.Placements
import ShellSema.Proofs.Surroundings

/-!
# Where captured names come from

A name gets into the captures of a closure in two ways: it is used as a variable in the body of the
closure, or a closure in there hands it on. In both cases the body of the closure uses a captured
variable of this name in the end, and a scope around the body declares it. `Visit.accountsForAll`
says so of every name that is captured in the course of a visit, but for the variable that holds a
closure.
-/
namespace ShellSema

/-- The closure captures the name by now. -/
def AnalysisState.Captures (s : AnalysisState) (id : ClosureId) (name : String) : Prop :=
  ∃ frame, s.closures[id.index]? = some frame ∧ name ∈ frame.captured

/-- A scope around the body of the closure declares the name, as captured. -/
def AnalysisState.MarksAround (s : AnalysisState) (id : ClosureId) (name : String) : Prop :=
  ∃ frame d, s.closures[id.index]? = some frame ∧ s.tree.Around frame.bodyScope d ∧
    s.tree.Marks d name

/-- The closures of the tree start without captures. -/
def Expr.CapturesNothing (e : Expr) : Prop :=
  ∀ n ∈ e.nodes, ∀ captured ∈ n.captured?, captured = {}

theorem Expr.CapturesNothing.child {c e : Expr} (empty : e.CapturesNothing)
    (child : c ∈ e.children) : c.CapturesNothing :=
  fun n inside => empty n (Expr.mem_nodes_of_child child inside)

theorem AnalysisState.not_captures_of_empty {s : AnalysisState} {id : ClosureId} {name : String}
    {frame : ClosureFrame} (found : s.closures[id.index]? = some frame) (empty : frame.captured = {}) :
    ¬ s.Captures id name := by
  rintro ⟨frame', found', member⟩
  rw [found] at found'
  cases found'
  rw [empty] at member
  exact absurd member List.not_mem_nil

section Adding

variable {id : ClosureId} {name : String} {s t : AnalysisState}

theorem AnalysisState.MarksAround.grown {scopes : ScopeId → Prop} (marks : s.MarksAround id name)
    (grows : Grows scopes s t) : t.MarksAround id name := by
  obtain ⟨frame, d, found, around, marked⟩ := marks
  obtain ⟨frame', found', same, -⟩ := grows.frames _ _ found
  refine ⟨frame', d, found', ?_, grows.tree.marked _ _ marked⟩
  rwa [ScopeTree.around_congr grows.tree.parents, same]

theorem AnalysisState.Captures.grown {scopes : ScopeId → Prop} (captured : s.Captures id name)
    (grows : Grows scopes s t) : t.Captures id name := by
  obtain ⟨frame, found, member⟩ := captured
  obtain ⟨frame', found', -, more⟩ := grows.frames _ _ found
  exact ⟨frame', found', more name member⟩

/-- What is captured in the second state has been captured in the first one. -/
def CapturedBefore (id : ClosureId) (name : String) (s t : AnalysisState) : Prop :=
  t.Captures id name → s.Captures id name

theorem capturedBefore_refl (s : AnalysisState) : CapturedBefore id name s s := fun captured => captured

theorem CapturedBefore.trans (r s t : AnalysisState) (first : CapturedBefore id name r s)
    (rest : CapturedBefore id name s t) : CapturedBefore id name r t :=
  fun captured => first (rest captured)

theorem capturedBefore_of_same (same : t.closures = s.closures) : CapturedBefore id name s t := by
  rintro ⟨frame, found, member⟩
  exact ⟨frame, same ▸ found, member⟩

/-- A closure whose frame is changed has captured before what it captures then, but for the names that
the change adds. -/
theorem captures_of_modify {other : ClosureId} {change : ClosureFrame → ClosureFrame}
    (closures : t.closures = s.closures.modify other.index change) (captured : t.Captures id name) :
    s.Captures id name ∨ other = id ∧ ∃ frame, s.closures[id.index]? = some frame ∧
      name ∈ (change frame).captured ∧ name ∉ frame.captured := by
  obtain ⟨frame, found, member⟩ := captured
  rw [closures] at found
  rcases getElem?_modify_cases found with ⟨same, old, there, rfl⟩ | unchanged
  · by_cases before : name ∈ old.captured
    · exact .inl ⟨old, there, before⟩
    · exact .inr ⟨ClosureId.index_injective same, old, there, member, before⟩
  · exact .inl ⟨frame, unchanged, member⟩

theorem capturedBefore_changeFrame (other : ClosureId) (change : ClosureFrame → ClosureFrame)
    (nothing : ∀ frame, name ∈ (change frame).captured → name ∈ frame.captured) :
    Keeps (CapturedBefore id name) (Walk.changeFrame other change) := by
  intro s captured
  rcases captures_of_modify rfl captured with before | ⟨-, frame, -, now, before⟩
  · exact before
  · exact absurd (nothing frame now) before

theorem capturedBefore_edit {α : Type} (change : ScopeTree.Edit α) :
    Keeps (CapturedBefore id name) (Walk.edit change) :=
  fun s => capturedBefore_of_same (leavesClosures_edit change s)

theorem calm_capturedBefore : Calm (CapturedBefore id name) (Permit.onScopes fun _ => True) :=
  calm_of_closures capturedBefore_refl CapturedBefore.trans fun _ _ => capturedBefore_of_same

/-- To find a callee captures the variable that holds a closure, if any. -/
theorem capturedBefore_callee (other : name ≠ closureCarrier) (context : Context) (called : String)
    (path : List String) : Keeps (CapturedBefore id name) (Walk.callee context called path) := by
  refine calm_capturedBefore.keeps_callee (fun _ _ _ => capturedBefore_of_same rfl) (fun nearest => ?_)
    (fun _ => capturedBefore_edit _) context called path
  refine capturedBefore_changeFrame nearest _ fun frame member => ?_
  exact (NameSet.mem_insert.mp member).resolve_left other

theorem capturedBefore_expandReference (inner : ClosureId) (attached : Call) (scope : ScopeId)
    (parameters : List Token) (body : Expr) :
    Keeps (CapturedBefore id name) (Walk.expandReference inner attached scope parameters body) := by
  refine calm_capturedBefore.keeps_expandReference (fun s other parameters => ?_) inner attached
    (fun _ => calm_capturedBefore.declare _ _ trivial) parameters body
  exact capturedBefore_changeFrame other (fun frame => { frame with parameters })
    (fun _ member => member) s

end Adding

namespace Visit

variable {v w : Visit} {r : Expr} {t : AnalysisState}

theorem closures_of_literal (literal : v.source.isLiteral = true) (given : v.Gives r t) :
    t.closures = v.before.closures := by
  unfold Expr.isLiteral at literal
  split at literal
  next token value source =>
    obtain ⟨-, made, carried, rfl⟩ := gives_iff.mp given
    simp only [plan, source, Plan.node, Plan.run_bind, Plan.run_lift, Plan.run_pure, gives_bind,
      gives_pure] at carried
    obtain ⟨kind, s, given, rfl, rfl⟩ := carried
    exact (leavesClosures_literal _ _ _).of_gives given
  next => cases literal

/-- A constant enters no closure and uses no variable. -/
theorem closures_of_default (constant : v.source.isDefault = true) (given : v.Gives r t) :
    t.closures = v.before.closures := by
  obtain ⟨-, made, carried, rfl⟩ := gives_iff.mp given
  unfold Expr.isDefault at constant
  split at constant
  next source => exact closures_of_literal (by simp [Expr.isLiteral, source]) given
  next items source =>
    obtain rfl := List.isEmpty_iff.mp constant
    simp only [plan, source, Plan.node, Plan.each, Plan.run_bind, Plan.run_pure, gives_bind,
      gives_pure] at carried
    obtain ⟨_, _, ⟨rfl, rfl⟩, -, rfl⟩ := carried
    rfl
  next entries source =>
    obtain rfl := List.isEmpty_iff.mp constant
    simp only [plan, source, Plan.node, Plan.pairs, Plan.run_bind, Plan.run_pure, gives_bind,
      gives_pure] at carried
    obtain ⟨_, _, ⟨rfl, rfl⟩, -, rfl⟩ := carried
    rfl
  -- Of the forms of a default only this one enters something: the literal of the interpolation.
  next part source =>
    simp only [plan, source, Plan.node, Plan.each, Plan.run_bind, Plan.run_enter, Plan.run_pure,
      gives_bind, gives_pure] at carried
    obtain ⟨_, _, ⟨r', t', first, _, _, ⟨rfl, rfl⟩, rfl, rfl⟩, -, rfl⟩ := carried
    exact closures_of_literal (v := ⟨v.context, part.slot, part, v.before⟩) constant first
  next => cases constant

/-! ### Closures in the course of a visit -/

/-- A name that is newly captured is captured by the closure right around, used in the result, and
declared in a scope around the closure. -/
def Accounts (v : Visit) (id : ClosureId) (name : String) (r : Expr) (t : AnalysisState) : Prop :=
  v.context.enclosing = some (.closure id) ∧ r.UsesCaptured name ∧ t.MarksAround id name

/-- In what the visit gives, all is accounted for that a visit within the same closure captures. -/
theorem Accounts.of_enters {id : ClosureId} {name : String} {r' : Expr} {t' : AnalysisState}
    (accounts : w.Accounts id name r' t') (entered : v.Enters w) (left : w.Gives r' t')
    (given : v.Gives r t) (function : v.source.kindName ≠ "function")
    (closure : v.source.kindName ≠ "closure") : v.Accounts id name r t := by
  obtain ⟨enclosing, uses, marks⟩ := accounts
  exact ⟨enclosing_of_enters entered closure function ▸ enclosing,
    uses_of_enters given entered left function closure uses,
    marks.grown (grows_of_leaves entered left given)⟩

/-- The use of a variable accounts for what it captures. -/
theorem accounts_of_variable {id : ClosureId} {name : String} {token : Token} {old : Option ScopeId}
    {flag : Bool} (source : v.source.kind = .variableRef token old flag) (given : v.Gives r t)
    (before : ¬ v.before.Captures id name) (after : t.Captures id name) :
    v.Accounts id name r t := by
  have grows := grows_of_gives given
  rcases variableUse_cases (variable_of_gives source given) with ⟨-, same⟩ |
    ⟨scope, id', frame, d, kind, enclosing, found, around, marks, closures⟩
  · exact absurd (capturedBefore_of_same same after) before
  · rcases captures_of_modify closures after with captured | ⟨rfl, frame', found', now, not⟩
    · exact absurd captured before
    · obtain rfl := (NameSet.mem_insert.mp now).resolve_right not
      obtain ⟨frame'', found'', same, -⟩ := grows.frames _ _ found
      refine ⟨enclosing, ⟨r, token, scope, .self, kind, rfl⟩, frame'', d, found'', ?_, marks⟩
      rwa [ScopeTree.around_congr grows.tree.parents, same]

/-- A closure that is opened gets a handle that no closure had before, and a frame of its own. -/
theorem Opens.handle {attached body : Expr} {parameters : List Token} {captured : NameSet}
    {scope : ScopeId} {id : ClosureId} {opened : AnalysisState}
    (opens : v.Opens attached body parameters captured scope id opened)
    (room : opened.closures.size ≤ 2 ^ 32) :
    ∃ call s, (v.attachedVisit attached).Gives call s ∧ id.index = s.closures.size ∧
      opened.closures.size = s.closures.size + 1 ∧ Grows (fun _ => True) s opened ∧
      (∀ other name, other.index < s.closures.size → opened.Captures other name →
        s.Captures other name) ∧
      ∃ frame, opened.closures[id.index]? = some frame ∧ frame.bodyScope = scope ∧
        frame.captured = captured := by
  obtain ⟨call, s, first, -, entered⟩ := opens
  obtain ⟨handle, closures, -⟩ := gives_enterClosure entered
  have size : opened.closures.size = s.closures.size + 1 := by rw [closures, Array.size_push]
  obtain ⟨number, frame⟩ := index_of_enterClosure entered room
  have grows : Grows (fun _ => True) s opened :=
    ((grows_preserved fun _ => True).enter _ _ _ _ trivial).of_gives entered
  refine ⟨call, s, first, number, size, grows, ?_, ?_⟩
  · rintro other name earlier ⟨frame, found, member⟩
    rw [closures, Array.getElem?_push, if_neg (Nat.ne_of_lt earlier)] at found
    exact ⟨frame, found, member⟩
  · exact ⟨_, frame, rfl, rfl⟩

/-- What a closure hands on to the closure around it at its end, it captures itself from a scope that
lies around both. -/
theorem marksAround_of_handed {inner id : ClosureId} {name : String}
    {enclosing : Option Enclosing} {u : Unit} {s : AnalysisState}
    (given : ShellSema.Gives (Walk.propagateCaptures inner enclosing) s u t)
    (marks : s.Captures inner name → s.MarksAround inner name)
    (before : ¬ s.Captures id name) (after : t.Captures id name) :
    enclosing = some (.closure id) ∧ s.Captures inner name ∧ s.MarksAround id name := by
  rcases propagateCaptures_cases given with rfl | ⟨outer, innerFrame, outerFrame, outside, names,
    around, found, found', parent, handed, same⟩
  · exact absurd after before
  · rcases captures_of_modify (by rw [same]) after with captured | ⟨rfl, frame, found'', now, not⟩
    · exact absurd captured before
    · rw [found'] at found''
      cases found''
      obtain ⟨member, reaches⟩ := handed name ((NameSet.mem_union.mp now).resolve_right not)
      have captured : s.Captures inner name := ⟨innerFrame, found, member⟩
      obtain ⟨innerFrame', d, there, above, marked⟩ := marks captured
      rw [found] at there
      cases there
      -- The name is declared around the inner body, so its scope lies at or around the surroundings
      -- of that body.
      obtain ⟨outside', step, further⟩ := Relation.TransGen.head'_iff.mp above
      rw [parent] at step
      cases step
      exact ⟨around, captured, outerFrame, d, found',
        around_of_reachesOut reaches further marked.declares, marked⟩

/-- Every capture of the name in the course of the visit is accounted for, as long as there are handles
for all closures. -/
def AccountsForAll (v : Visit) (name : String) : Prop :=
  ∀ (id : ClosureId) r t, v.source.CapturesNothing → v.Gives r t → t.closures.size ≤ 2 ^ 32 →
    id.index < v.before.closures.size → ¬ v.before.Captures id name → t.Captures id name →
      v.Accounts id name r t

/-- A closure accounts for what its call captures, and for what it hands on itself. -/
theorem accountsForAll_closure {name : String} (closure : v.source.kindName = "closure")
    (children : ∀ w : Visit, w.source ∈ v.source.children → w.AccountsForAll name) :
    v.AccountsForAll name := by
  intro id r t empty given room early before after
  obtain ⟨attached, parameters, body, initial, old, source⟩ := Expr.closure_of_kindName closure
  obtain rfl : initial = {} := empty _ v.source.mem_nodes_self _ (by simp [Expr.captured?, source])
  have parts : attached ∈ v.source.children ∧ body ∈ v.source.children := by
    simp [Expr.children, ExprKind.children, source]
  obtain ⟨scope, inner, opened, body', walked, handed, made, parameters', body'', frame, call, opens,
    visited, passed, expanded, -, -⟩ := closure_of_gives source given
  have passing : Grows (fun _ => True) walked handed :=
    ((grows_preserved fun _ => True).keeps_propagateCaptures _ _).of_gives passed
  have expanding : Grows (fun _ => True) handed t :=
    ((grows_preserved fun _ => True).expand _ _ _ _ _ trivial).of_gives expanded
  have ending : Grows (fun _ => True) walked t := Grows.trans _ _ _ passing expanding
  have walking : Grows (fun _ => True) opened walked := grows_of_gives visited
  have room' : walked.closures.size ≤ 2 ^ 32 := Nat.le_trans ending.frames.size_le room
  obtain ⟨call', s, first, number, size, opening, still, pushed, fresh, -, nothing⟩ :=
    opens.handle (Nat.le_trans walking.frames.size_le room')
  have later : v.before.closures.size ≤ s.closures.size := (grows_of_gives first).frames.size_le
  -- The call of the closure is gone over before the closure is opened.
  by_cases inCall : s.Captures id name
  · have whole : Grows (fun _ => True) s t :=
      Grows.trans _ _ _ opening (Grows.trans _ _ _ walking ending)
    obtain ⟨enclosing, uses, marks⟩ := children (v.attachedVisit attached) parts.1 id call' s
      (empty.child parts.1) first (Nat.le_trans whole.frames.size_le room) early before inCall
    exact ⟨enclosing, uses_of_attached source first given uses, marks.grown whole⟩
  have notOpened : ¬ opened.Captures id name := fun captured =>
    inCall (still id name (by omega) captured)
  have bodyAccounts (other : ClosureId) (earlier : other.index < opened.closures.size)
      (not : ¬ opened.Captures other name) (captured : walked.Captures other name) :
      (v.bodyVisit body inner opened).Accounts other name body' walked :=
    children (v.bodyVisit body inner opened) parts.2 other body' walked (empty.child parts.2) visited
      room' earlier not captured
  -- What the body captures right away, its own closure captures, which has a later handle.
  have notWalked : ¬ walked.Captures id name := by
    intro captured
    obtain ⟨enclosing, -, -⟩ := bodyAccounts id (by omega) notOpened captured
    obtain rfl : inner = id := by simpa [bodyVisit] using enclosing
    omega
  have own (captured : walked.Captures inner name) :
      (v.bodyVisit body inner opened).Accounts inner name body' walked := by
    refine bodyAccounts inner (by omega) (fun before => ?_) captured
    exact AnalysisState.not_captures_of_empty fresh nothing before
  have inHanded : handed.Captures id name :=
    (capturedBefore_expandReference _ _ _ _ _).of_gives expanded after
  -- So the name has come in at the end, handed on by the closure that was opened here.
  obtain ⟨enclosing, captured, marks⟩ :=
    marksAround_of_handed passed (fun captured => (own captured).2.2) notWalked inHanded
  obtain ⟨_, _, _, _, kind, uses⟩ := uses_of_body source opens visited given (own captured).2.1
  refine ⟨enclosing, Expr.usesCaptured_of_child ?_ ?_ uses, marks.grown ending⟩
  · simp [Expr.kindName, ExprKind.name, kind]
  · simp [Expr.children, ExprKind.children, kind]

/-- Nodes other than closures and variables capture nothing by themselves. -/
theorem accountsForAll_other {name : String} (other : name ≠ closureCarrier)
    (closure : v.source.kindName ≠ "closure") (unused : v.source.usedName? = none)
    (children : ∀ w : Visit, w.source ∈ v.source.children → w.AccountsForAll name) :
    v.AccountsForAll name := by
  intro id r t empty given room early before after
  obtain ⟨admitted, made, carried, -⟩ := gives_iff.mp given
  have within : v.plan.Within (CapturedBefore id name)
      (Standing (Permit.onScopes fun _ => True) v.source.kind v.context) := by
    refine Plan.within_calm calm_capturedBefore v.source.permitted_everywhere.here (.inl trivial) ?_
      (fun _ _ => capturedBefore_callee other v.context _ _) closure
    intro token place flag use
    simp [Expr.usedName?, use] at unused
  obtain ⟨w, r', u, enters, left, before', after'⟩ :=
    within.exists_causing carried before after
  have entered : v.Enters w := ⟨admitted, enters⟩
  obtain ⟨child, -, growing⟩ := grows_of_enters entered
  have leaving : Grows (fun _ => True) u t := grows_of_leaves entered left given
  have accounts : w.Accounts id name r' u :=
    children w child id r' u (empty.child child) left (Nat.le_trans leaving.frames.size_le room)
      (Nat.lt_of_lt_of_le early growing.frames.size_le) before' after'
  cases kind : v.source.kind
  case functionDecl access name parameters body module takesClosure function =>
    -- The defaults of a function use no variables, and its body is in no closure.
    exfalso
    rcases function_enters kind entered with ⟨-, constant⟩ | ⟨scope, place, -⟩
    · exact before' (capturedBefore_of_same (closures_of_default constant left) after')
    · have inside := accounts.1
      rw [place] at inside
      cases inside
  case' sequence form items => cases form
  all_goals
    exact accounts.of_enters entered left given
      (by simp [Expr.kindName, ExprKind.name, Sequence.name, kind]) closure

/-- Every capture is accounted for, but for those of the variable that holds a closure. -/
theorem accountsForAll (v : Visit) {name : String} (other : name ≠ closureCarrier) :
    v.AccountsForAll name := by
  induction same : v.source using Expr.induction generalizing v with
  | inherited e ih =>
    subst same
    have children (w : Visit) (child : w.source ∈ v.source.children) : w.AccountsForAll name :=
      ih w.source child w rfl
    by_cases closure : v.source.kindName = "closure"
    · exact accountsForAll_closure closure children
    cases use : v.source.usedName? with
    | none => exact accountsForAll_other other closure use children
    | some token =>
      obtain ⟨place, flag, source⟩ := Expr.kind_of_usedName? use
      intro id r t _ given _ _ before after
      exact accounts_of_variable source given before after

end Visit
end ShellSema
