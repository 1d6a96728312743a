import ShellSema.Proofs.CaptureSources
import ShellSema.Proofs.Inheritance

/-!
# What closures capture, they need

A closure captures no more than it has to: what it captures is used in its body, as a captured
variable, and declared around its body. The variable that holds a closure is apart, since it is the
calls of a closure that capture it. In the other direction, a variable is marked as captured only if
the closure right around it captures the name.
-/
namespace ShellSema

/-- What the innermost closure around a node captures. Within a function that is declared in a closure
there is none, and the call of a closure does not belong to the closure. -/
def innermost : Inheritance (Option NameSet) where
  part around := around
  attached around := around
  closureBody captured := some captured
  functionBody := none

/-- A closure captures what its body uses as a captured variable and a scope around the body declares
as captured; a captured variable has its name among the captures of the closure around it. -/
def Expr.CapturedPrecisely (tree : ScopeTree) (around : Option NameSet) (n : Expr) : Prop :=
  match n.kind with
  | .closure _ _ body captured _ => ∀ name ∈ captured, name ≠ closureCarrier →
      body.UsesCaptured name ∧
        ∃ scope d, body.blockScope? = some scope ∧ tree.Around scope d ∧ tree.Marks d name
  | .variableRef token _ true => ∃ captured, around = some captured ∧ token.text ∈ captured
  | _ => True

theorem Expr.capturedPrecisely_other {tree : ScopeTree} {around : Option NameSet} {n : Expr}
    (closure : n.kindName ≠ "closure") (variableRef : n.kindName ≠ "variable") :
    n.CapturedPrecisely tree around := by
  unfold CapturedPrecisely
  split
  next kind => simp [Expr.kindName, ExprKind.name, kind] at closure
  next kind => simp [Expr.kindName, ExprKind.name, kind] at variableRef
  next => trivial

theorem lasting_capturedPrecisely (tree : ScopeTree) :
    Lasting (fun _ => False) fun around n => n.CapturedPrecisely tree around where
  ending _ ended := ended.elim
  mode around e change only precise := by
    by_cases call : e.kindName = "call"
    · apply Expr.capturedPrecisely_other
      all_goals simp [Expr.kindName_mapCall, call]
    · rwa [Expr.mapCall_of_name call]
  block around e block := by
    obtain ⟨scope, found⟩ := Option.isSome_iff_exists.mp block
    obtain ⟨expressions, role, kind⟩ := Expr.kind_of_blockScope? found
    simp [Expr.CapturedPrecisely, kind]
  implied _ _ _ _ := by simp [Expr.CapturedPrecisely, Walk.impliedArgument]
  expanded _ _ _ _ _ _ _ _ := by simp [Expr.CapturedPrecisely]

/-- The visits of a walk that goes over every function, with closures that capture nothing yet. Each of
them ends before the walk does, in this state. -/
structure Visit.Throughout (visited : Visit → Prop) (final : AnalysisState) : Prop where
  inner : ∀ v w, visited v → v.Enters w → visited w
  met : ∀ v, visited v → ¬ v.Skips
  empty : ∀ v, visited v → v.source.CapturesNothing
  ends : ∀ v r t, visited v → v.Gives r t → Grows (fun _ => True) t final
  room : final.closures.size ≤ 2 ^ 32

namespace Visit

variable {v w : Visit} {r : Expr} {t : AnalysisState} {visited : Visit → Prop} {final : AnalysisState}
  {around : Option NameSet}

/-- The closure around captures these names, and had captured no others by the state. -/
def Suits (around : Option NameSet) (enclosing : Option Enclosing) (t : AnalysisState) : Prop :=
  ∀ id, enclosing = some (.closure id) →
    ∃ captured, around = some captured ∧ ∀ name, t.Captures id name → name ∈ captured

theorem Suits.earlier {scopes : ScopeId → Prop} {enclosing : Option Enclosing}
    {s : AnalysisState} (suits : Suits around enclosing t) (grows : Grows scopes s t) :
    Suits around enclosing s := by
  intro id within
  obtain ⟨captured, same, all⟩ := suits id within
  exact ⟨captured, same, fun name before => all name (before.grown grows)⟩

/-- A variable that is marked as captured is captured by the closure around it. -/
theorem precise_of_variable (suits : Suits around v.context.enclosing t) {name : Token}
    {old : Option ScopeId} {flag : Bool} (source : v.source.kind = .variableRef name old flag)
    (given : v.Gives r t) :
    r.CapturedPrecisely final.tree around := by
  rcases variableUse_cases (variable_of_gives source given) with ⟨⟨scope, kind⟩, -⟩ |
    ⟨scope, id, frame, d, kind, enclosing, found, -, -, closures⟩
  · simp [Expr.CapturedPrecisely, kind]
  · have captures : t.Captures id name.text := by
      refine ⟨{ frame with captured := frame.captured.insert name.text }, ?_, ?_⟩
      · rw [closures, getElem?_modify_self found]
      · exact NameSet.mem_insert.mpr (.inl rfl)
    obtain ⟨captured, same, all⟩ := suits id enclosing
    simp only [Expr.CapturedPrecisely, kind]
    exact ⟨captured, same, all _ captures⟩

section Closures

variable {attached body body' : Expr} {parameters : List Token} {old : Option ClosureId}
  {scope : ScopeId} {id : ClosureId} {opened walked handed : AnalysisState}

/-- What a closure captures in the end was captured in its body: it hands on to others only, and the
expansion of its body captures nothing. -/
theorem captures_of_walked {result : List Token × Expr} {made : Call} {enclosing : Option Enclosing}
    {u : Unit} {name : String}
    (passed : ShellSema.Gives (Walk.propagateCaptures id enclosing) walked u handed)
    (expanded : ShellSema.Gives (Walk.expandReference id made scope parameters body') handed result t)
    (captured : t.Captures id name) : walked.Captures id name := by
  have inHanded : handed.Captures id name :=
    (capturedBefore_expandReference _ _ _ _ _).of_gives expanded captured
  by_contra before
  -- A name that came in on the way out would be one that the closure hands on to itself.
  have handedOn := marksAround_of_handed passed (fun captured => absurd captured before) before inHanded
  exact before handedOn.2.1

/-- What the body of a closure captures for it is used there, and declared around it. -/
theorem precise_of_body (opens : v.Opens attached body parameters {} scope id opened)
    (walks : (v.bodyVisit body id opened).Gives body' walked)
    (empty : body.CapturesNothing) (room : walked.closures.size ≤ 2 ^ 32) {name : String}
    (other : name ≠ closureCarrier) (captured : walked.Captures id name) :
    body'.UsesCaptured name ∧
      ∃ d, walked.tree.Around scope d ∧ walked.tree.Marks d name := by
  have growing : Grows (fun _ => True) opened walked := grows_of_gives walks
  obtain ⟨-, s, -, number, size, -, -, frame, found, stands, nothing⟩ :=
    opens.handle (Nat.le_trans growing.frames.size_le room)
  obtain ⟨-, uses, frame', d, found', lies, marks⟩ :=
    (v.bodyVisit body id opened).accountsForAll other id body' walked empty walks room
      (by simp only [bodyVisit]; omega) (AnalysisState.not_captures_of_empty found nothing) captured
  obtain ⟨frame'', found'', same, -⟩ := growing.frames _ _ found
  rw [found'] at found''
  cases found''
  rw [same, stands] at lies
  exact ⟨uses, d, lies, marks⟩

end Closures

/-- What a closure captures in the end, its body uses as it is in the end. -/
theorem precise_of_closure (throughout : Throughout visited final) (reached : visited v)
    (closure : v.source.kindName = "closure") (given : v.Gives r t) :
    r.CapturedPrecisely final.tree around := by
  obtain ⟨attached, parameters, body, initial, old, source⟩ := Expr.closure_of_kindName closure
  obtain rfl : initial = {} := throughout.empty v reached _ v.source.mem_nodes_self _
    (by simp [Expr.captured?, source])
  obtain ⟨scope, id, opened, body', walked, handed, made, parameters', body'', frame, call, opens,
    walks, passed, expanded, found, kind⟩ := closure_of_gives source given
  obtain ⟨-, entered⟩ := enters_of_opens source opens given
  have expands := Walk.expands_of_gives expanded
  have afterwards : Grows (fun _ => True) walked final :=
    throughout.ends _ _ _ (throughout.inner v _ reached entered) walks
  simp only [Expr.CapturedPrecisely, kind]
  intro name member other
  obtain ⟨uses, d, lies, marks⟩ := precise_of_body opens walks
    (throughout.empty _ (throughout.inner v _ reached entered))
    (Nat.le_trans afterwards.frames.size_le throughout.room) other
    (captures_of_walked passed expanded ⟨frame, found, member⟩)
  -- Scopes keep their parents and a mark is not taken back, so this still holds in the end.
  refine ⟨expands.uses uses, scope, d, ?_, ?_, afterwards.tree.marked _ _ marks⟩
  · obtain ⟨_, _, -, block, -⟩ := opens
    rw [expands.blockScope]
    exact blockScope_of_gives (v := v.bodyVisit body id opened) block walks
  · rwa [ScopeTree.around_congr afterwards.tree.parents]

/-- A closure is given with the names that its frame holds in the end. -/
theorem frame_of_gives (closure : v.source.kindName = "closure") (given : v.Gives r t)
    {call body : Expr} {parameters : List Token} {captured : NameSet} {id : ClosureId}
    (kind : r.kind = .closure call parameters body captured (some id)) :
    ∃ frame, t.closures[id.index]? = some frame ∧ frame.captured = captured := by
  obtain ⟨_, _, _, _, _, source⟩ := Expr.closure_of_kindName closure
  obtain ⟨_, _, _, _, _, _, _, _, _, frame, _, -, -, -, -, found, kind'⟩ :=
    closure_of_gives source given
  rw [kind] at kind'
  cases kind'
  exact ⟨frame, found, rfl⟩

/-- The closure around is handed down along the visits as their surroundings say. -/
theorem inherits_precise (throughout : Throughout visited final) :
    Visit.Inherits innermost (fun _ => False)
      (fun around n => n.CapturedPrecisely final.tree around)
      fun v t around => visited v ∧ Suits around v.context.enclosing t where
  lasting := lasting_capturedPrecisely final.tree
  fragment _ _ _ _ _ := by simp [Expr.CapturedPrecisely, fragmentArgument]
  node v r t around has given pipe := by
    by_cases closure : v.source.kindName = "closure"
    · exact precise_of_closure throughout has.1 closure given
    cases use : v.source.usedName? with
    | some token =>
      obtain ⟨place, flag, source⟩ := Expr.kind_of_usedName? use
      exact precise_of_variable has.2 source given
    | none =>
      exact Expr.capturedPrecisely_other
        (kindName_ne_of_gives given pipe closure (by decide) (by decide))
        (kindName_ne_of_gives given pipe (Expr.kindName_of_usedName? use) (by decide) (by decide))
  skipped v _ _ _ has _ skips := throughout.met v has.1 skips
  part v w _ _ _ _ around has given entered left _ same :=
    ⟨throughout.inner v w has.1 entered,
      same ▸ has.2.earlier (grows_of_leaves entered left given)⟩
  right v w _ _ around has _ _ entered _ _ same :=
    ⟨throughout.inner v w has.1 entered, same ▸ has.2⟩
  attached v _ _ _ _ _ around has given entered left :=
    ⟨throughout.inner v _ has.1 entered, has.2.earlier (grows_of_leaves entered left given)⟩
  attached_part _ := rfl
  body v body id opened _ _ _ captured r r' t t' around has given closure kind entered left := by
    refine ⟨throughout.inner v _ has.1 entered, fun id' within => ?_⟩
    obtain rfl : id = id' := by simpa [bodyVisit] using within
    refine ⟨captured, rfl, fun name early => ?_⟩
    -- The names in the result are read off the frame as the closure is left, when it has them all.
    obtain ⟨frame, found, same⟩ := frame_of_gives closure given kind
    obtain ⟨frame', found', member⟩ := early.grown (grows_of_leaves entered left given)
    rw [found] at found'
    cases found'
    exact same ▸ member
  function v w id _ _ _ _ _ has _ entered _ _ within := by
    refine ⟨throughout.inner v w has.1 entered, fun id' closure => ?_⟩
    rw [within] at closure
    cases closure

end Visit

namespace Analysis

variable {registry : Registry} {mode : AnalysisMode} {module : ModuleId} {ast analysed : Ast}
  {s t : AnalysisState}

theorem Visited.throughout (once : ast.functionIds.Nodup) (awaits : s.tree.Awaits ast.functionIds)
    (empty : ∀ n ∈ ast.nodes, ∀ captured ∈ n.captured?, captured = {})
    (given : Gives (moduleWalk registry mode module ast) s analysed t)
    (room : t.closures.size ≤ 2 ^ 32) : Visit.Throughout (Visited registry module ast s) t where
  inner _ _ := Visited.enters
  met _ visited := (visited.fresh once awaits).not_skips
  empty _ visited n inside :=
    empty n ((Ast.nodes_sublist (visited.course given).1).subset inside)
  ends _ _ _ visited left := visited.grows given left
  room

/-- At the end of an analysis, the body of a closure uses each name that the closure captures, as a
captured variable and not only in a function that is declared there, and a scope around the body
declares the name as captured. Only the variable that holds a closure may be captured otherwise. A
variable is marked as captured only if the innermost closure around it captures the name. No function
is declared twice or has been met before, no closure starts with captures, and there are handles for
all closures. -/
theorem capturedPrecisely_of_analysed (once : ast.functionIds.Nodup)
    (awaits : s.tree.Awaits ast.functionIds)
    (empty : ∀ n ∈ ast.nodes, ∀ captured ∈ n.captured?, captured = {})
    (given : Gives (moduleWalk registry mode module ast) s analysed t)
    (room : t.closures.size ≤ 2 ^ 32) :
    ∀ e ∈ analysed.expressions,
      e.AllInherit innermost (fun _ => False) (fun around n => n.CapturedPrecisely t.tree around)
        none := by
  have inherits := Visit.inherits_precise (Visited.throughout once awaits empty given room)
  refine inherits_of_analysed inherits given fun v _ visited outermost _ => ⟨visited, ?_⟩
  intro id within
  rw [outermost] at within
  cases within

/-- A closure in a closure uses `x` from outside of both. A function uses a variable of the same name,
its parameter. -/
def handedOn : Ast :=
  ⟨[Build.letIn ["x"] (Build.integer "1"),
    Build.closure (Build.call "reduce" [Build.list []]) [] (Build.block ⟨1⟩
      [Build.closure (Build.call "reduce" [Build.list []]) [] (Build.block ⟨2⟩
        [Build.variableRef "x"])]),
    Build.function { name := "f", access := .restricted, module := ⟨0⟩
                     parameters := [Build.parameter "x"] } ⟨0⟩
      (Build.blockOf .function ⟨3⟩ [Build.variableRef "x"])]⟩

def handedOnScopes : ScopeTree :=
  { ScopeTree.ofRoot "main" with
    scopes := #[⟨none, ⟨0⟩, {}⟩, ⟨some ⟨0⟩, ⟨0⟩, {}⟩, ⟨some ⟨1⟩, ⟨0⟩, {}⟩, ⟨some ⟨0⟩, ⟨0⟩, {}⟩]
    functions := #[{ name := "f", access := .restricted, module := ⟨0⟩
                     parameters := [Build.parameter "x"] }] }

/-- Both closures capture `x`, and need it. -/
theorem capturedPrecisely_of_analysed_handedOn :
    ∃ analysed t, Gives (moduleWalk globalsOnly .overwrite ⟨0⟩ handedOn) { tree := handedOnScopes }
        analysed t ∧
      analysed.nodes.filterMap Expr.captured? = [NameSet.insert {} "x", NameSet.insert {} "x"] ∧
      ∀ e ∈ analysed.expressions,
        e.AllInherit innermost (fun _ => False) (fun around n => n.CapturedPrecisely t.tree around)
          none := by
  have ends : endsWith (moduleWalk globalsOnly .overwrite ⟨0⟩ handedOn) { tree := handedOnScopes }
      (fun analysed t => t.closures.size == 2 && decide (analysed.nodes.filterMap Expr.captured? =
        [NameSet.insert {} "x", NameSet.insert {} "x"])) = true := by
    decide +kernel
  have declared : handedOn.functionIds = [⟨0⟩] := by decide +kernel
  have pending : handedOnScopes.statusOf? ⟨0⟩ = some .pending := by decide +kernel
  obtain ⟨analysed, t, ended, reached⟩ := gives_of_endsWith ends
  rw [Bool.and_eq_true, beq_iff_eq, decide_eq_true_eq] at reached
  -- The one function is still pending, and two frames are far fewer than there are handles.
  refine ⟨analysed, t, ended, reached.2, capturedPrecisely_of_analysed ?_ ?_ ?_ ended ?_⟩
  · simp [declared]
  · intro id member status found
    rw [declared, List.mem_singleton] at member
    subst member
    exact Option.some.inj (found.symm.trans pending)
  · decide +kernel
  · rw [reached.1]
    omega

end Analysis
end ShellSema
