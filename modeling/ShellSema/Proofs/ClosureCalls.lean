import ShellSema.Proofs.Inheritance
import ShellSema.Proofs.Qualified

/-!
# Calls with closures

A closure is attached to a call, and not every call takes one. The walk checks each call against the
signature of what it calls, once the arguments have been gone over. In an analysed tree, a call is the
call of a closure just if what it calls takes a closure.
-/
namespace ShellSema

/-- Whether a node is the call that a closure is attached to. -/
def attachment : Inheritance Bool where
  part _ := false
  attached _ := true
  closureBody _ := false
  functionBody := false

/-- By its findings, the call is one of a function that takes a closure. -/
def Call.AcceptsClosure (tree : ScopeTree) (made : Call) : Prop :=
  (∃ f, made.findings.standard = some f ∧ f.takesClosure = true) ∨
    ∃ id f, made.findings.function = some id ∧ tree.function id = .ok f ∧ f.takesClosure = true

/-- The tree of scopes by which a visit has bound the call. The call that a shell fragment becomes is
bound where the fragment stands. -/
inductive Call.BoundIn (visited : Visit → Prop) (made : Call) : ScopeTree → Prop where
  | called {v : Visit} {written : Call} {callee : Callee} {bound : AnalysisState}
      (reached : visited v) (source : v.source.kind = .call written)
      (name : made.name = written.name) (path : made.path = written.path)
      (binds : v.Binds callee bound) (findings : made.findings = callee.findings v.context.scope) :
      BoundIn visited made bound.tree
  | fragment {v : Visit} {token : Token} {code : String} {old : Option Constant}
      (reached : visited v) (source : v.source.kind = .literal token old)
      (means : token.meaning = .shellFragment code)
      (findings : made.findings = (fragmentCall v.context token v.source.span code).findings) :
      BoundIn visited made v.before.tree

/-- How a call is bound shows in its name, its path and its findings. -/
theorem Call.BoundIn.congr {visited : Visit → Prop} {made other : Call} {tree : ScopeTree}
    (bound : made.BoundIn visited tree) (name : other.name = made.name)
    (path : other.path = made.path) (findings : other.findings = made.findings) :
    other.BoundIn visited tree := by
  cases bound with
  | called reached source name' path' binds findings' =>
    exact .called reached source (name.trans name') (path.trans path') binds (findings.trans findings')
  | fragment reached source means findings' =>
    exact .fragment reached source means (findings.trans findings')

/-- A call is the call of a closure just if it takes one, and what a closure is attached to is a
call. -/
def Expr.FitsClosures (visited : Visit → Prop) (attached : Bool) (n : Expr) : Prop :=
  match n.kind with
  | .call made => ∃ tree, made.BoundIn visited tree ∧ (attached = true ↔ made.AcceptsClosure tree)
  | .closure call _ _ _ _ => call.isCall = true
  | _ => True

/-! ### The check -/

/-- A call that passes the check has a closure just if it takes one. -/
theorem accepts_of_checkClosure {callee : Callee} {hasClosure : Bool} {made : Call} {scope : ScopeId}
    {s t : AnalysisState} {u : Unit} (given : Gives (Walk.checkClosure callee hasClosure) s u t)
    (findings : made.findings = callee.findings scope) :
    hasClosure = true ↔ made.AcceptsClosure s.tree := by
  simp only [Walk.checkClosure, gives_bind] at given
  obtain ⟨wanted, s', asked, given⟩ := given
  -- There are two errors, one for each way in which they can differ.
  have same : hasClosure = wanted := by
    cases hasClosure <;> cases wanted <;> simp at given ⊢
  subst same
  unfold Call.AcceptsClosure
  rw [findings]
  cases callee with
  | standard f =>
    obtain ⟨rfl, -⟩ := gives_pure.mp asked
    simp [Callee.findings]
  | user id =>
    simp only [Walk.takesClosure, gives_bind, gives_ask, gives_pure] at asked
    obtain ⟨f, _, ⟨found, rfl⟩, rfl, -⟩ := asked
    simp [Callee.findings, found]
  | _ =>
    obtain ⟨rfl, -⟩ := gives_pure.mp asked
    simp [Callee.findings]

namespace Visit

variable {v : Visit} {r : Expr} {t : AnalysisState}

/-- What a visit makes of a call has a closure just if it takes one. -/
theorem accepts_of_gives {written : Call} (source : v.source.kind = .call written)
    (given : v.Gives r t) :
    ∃ made callee bound, r.kind = .call made ∧ v.Binds callee bound ∧
      made.findings = callee.findings v.context.scope ∧
      (v.slot.hasClosure = true ↔ made.AcceptsClosure bound.tree) := by
  obtain ⟨-, node, carried, rfl⟩ := gives_iff.mp given
  obtain ⟨name, path, arguments, piped, environment, mode, findings⟩ := written
  simp only [plan, source, Plan.node, Plan.run_bind, Plan.run_lift, Plan.run_each, Plan.run_pure,
    gives_bind, gives_pure] at carried
  obtain ⟨callee, found, called, _, noted, noting, arguments', bound, walked, _, _, closure, _, _, -,
    environment', _, -, rfl, -⟩ := carried
  exact ⟨_, callee, bound, rfl, ⟨_, found, noted, arguments', source, called, noting, walked⟩, rfl,
    accepts_of_checkClosure closure rfl⟩

end Visit

theorem Slot.hasClosure_of_detached {slot : Slot} (detached : slot.attachment = none) :
    slot.hasClosure = false := by
  simp [Slot.hasClosure, detached]

/-! ### Analysed trees -/

section Fitting

variable {visited : Visit → Prop} {ends : Expr → Prop}

theorem lasting_fitsClosures (ending : ∀ e, ends e → e.kindName = "function") :
    Lasting ends fun attached n => n.FitsClosures visited attached where
  ending
  mode attached e change only fits := by
    unfold Expr.mapCall
    split
    next made kind =>
      obtain ⟨mode, changed, -⟩ := only made
      simp only [Expr.FitsClosures, kind, changed] at fits ⊢
      obtain ⟨tree, bound, accepts⟩ := fits
      exact ⟨tree, bound.congr rfl rfl rfl, accepts⟩
    next => exact fits
  block _ e block := by
    obtain ⟨scope, found⟩ := Option.isSome_iff_exists.mp block
    obtain ⟨expressions, role, kind⟩ := Expr.kind_of_blockScope? found
    simp [Expr.FitsClosures, kind]
  implied _ _ _ _ := by simp [Expr.FitsClosures, Walk.impliedArgument]
  expanded _ e reference _ _ _ kind fits := by
    simp only [Expr.FitsClosures, kind, Walk.expandedCall] at fits ⊢
    obtain ⟨tree, bound, accepts⟩ := fits
    exact ⟨tree, bound.congr rfl rfl rfl, accepts⟩

/-- The node that a visit makes fits in the place where its slot puts it. -/
theorem Visit.node_fits {v : Visit} (reached : visited v) {r : Expr} {t : AnalysisState}
    (given : v.Gives r t) (pipe : v.source.isPipe = false) :
    r.FitsClosures visited v.slot.hasClosure := by
  cases Visit.course_of_gives given with
  | pipe source redirects => simp [Expr.isPipe, source, redirects] at pipe
  | call source =>
    obtain ⟨made, callee, bound, kind, binds, findings, accepts⟩ := Visit.accepts_of_gives source given
    obtain ⟨name, path⟩ := Visit.written_of_gives source given kind
    simp only [Expr.FitsClosures, kind]
    exact ⟨bound.tree, .called reached source name path binds findings, accepts⟩
  | constant source means kind => simp [Expr.FitsClosures, kind]
  | @fragment token code old source means kind =>
    -- Only a call or a closure can have a closure attached to it.
    have detached : v.slot.hasClosure = false :=
      Slot.hasClosure_of_detached (Visit.detached_of_gives given
        (by simp [Expr.kindName, ExprKind.name, source])
        (by simp [Expr.kindName, ExprKind.name, source]))
    simp only [Expr.FitsClosures, kind, detached]
    refine ⟨v.before.tree, .fragment reached source means rfl, ?_⟩
    simp [Call.AcceptsClosure, fragmentCall]
  | closure source called isCall block walked expanded kind =>
    simp [Expr.FitsClosures, kind, Expr.isCall, isCall]
  | skipped skips kind =>
    obtain ⟨access, name, parameters, body, module, takesClosure, id, f, source, -⟩ := skips
    simp [Expr.FitsClosures, kind, source]
  | parts named pipe call literal closure =>
    rw [← named] at call closure
    unfold Expr.FitsClosures
    split
    next kind => simp [Expr.kindName, ExprKind.name, kind] at call
    next kind => simp [Expr.kindName, ExprKind.name, kind] at closure
    next => trivial

/-- Which call has a closure is handed down along the visits as their slots say. -/
theorem Visit.inherits_fits (ending : ∀ e, ends e → e.kindName = "function")
    (skipped : ∀ v r t, visited v → v.Skips → v.Gives r t → ends r)
    (inner : ∀ v w, visited v → v.Enters w → visited w) :
    Visit.Inherits attachment ends (fun attached n => n.FitsClosures visited attached)
      fun v _ attached => visited v ∧ attached = v.slot.hasClosure where
  lasting := lasting_fitsClosures ending
  fragment _ _ _ _ _ := by simp [Expr.FitsClosures, fragmentArgument]
  node _ _ _ _ has given pipe := has.2 ▸ Visit.node_fits has.1 given pipe
  skipped v r t _ has given skips := skipped v r t has.1 skips given
  part v w _ _ _ _ _ has _ entered _ plain _ :=
    ⟨inner v w has.1 entered, (Slot.hasClosure_of_detached plain).symm⟩
  right v w _ _ _ has given pipe entered _ without _ := by
    refine ⟨inner v w has.1 entered, ?_⟩
    -- A pipe has no closure either.
    obtain ⟨_, _, _, _, source, -⟩ := Expr.kind_of_isPipe pipe
    rw [has.2, without]
    exact Slot.hasClosure_of_detached (Visit.detached_of_gives given
      (by simp [Expr.kindName, ExprKind.name, source])
      (by simp [Expr.kindName, ExprKind.name, source]))
  attached v _ _ _ _ _ _ has _ entered _ := ⟨inner v _ has.1 entered, rfl⟩
  attached_part _ := rfl
  body v _ _ _ _ _ _ _ _ _ _ _ _ has _ _ _ entered _ := ⟨inner v _ has.1 entered, rfl⟩
  function v w _ _ _ _ _ _ has _ entered _ plain _ :=
    ⟨inner v w has.1 entered, (Slot.hasClosure_of_detached plain).symm⟩

end Fitting

namespace Analysis

variable {registry : Registry} {mode : AnalysisMode} {module : ModuleId} {ast analysed : Ast}
  {s t : AnalysisState}

/-- In an analysed tree, a call is the call of a closure just if it is one of a function that takes a
closure, by what was known of the function when the call was bound. What a closure is attached to is
a call. Only functions that had been met before are left as they were. -/
theorem closures_of_analysed (given : Gives (moduleWalk registry mode module ast) s analysed t) :
    ∀ e ∈ analysed.expressions,
      e.AllInherit attachment (LeftAlone registry module ast s)
        (fun attached n => n.FitsClosures (Visited registry module ast s) attached) false := by
  have inherits : Visit.Inherits attachment (LeftAlone registry module ast s)
      (fun attached n => n.FitsClosures (Visited registry module ast s) attached)
      (fun v _ attached => Visited registry module ast s v ∧ attached = v.slot.hasClosure) :=
    Visit.inherits_fits (fun _ left => left.kindName)
      (fun v _ t visited skips left => ⟨v, t, visited, skips, left⟩) fun _ _ => Visited.enters
  refine inherits_of_analysed inherits given fun v _ visited _ plain => ⟨visited, ?_⟩
  exact (Slot.hasClosure_of_detached plain).symm

/-- The output of a shell fragment is piped to a program, and a list is piped to `reduce`, which takes
a closure: the bare reference `len`. -/
def pipedClosure : Ast :=
  ⟨[Build.pipe (Build.literal .shellFragment "$:ls") (Build.call "grep" [Build.string "x"]),
    Build.pipe (Build.list []) (Build.closure (Build.call "reduce" []) []
      (Build.block ⟨1⟩ [Build.reference [] "len"]))]⟩

/-- The calls of that script fit. -/
theorem closures_of_analysed_piped :
    ∃ analysed t, Gives (moduleWalk globalsOnly .overwrite ⟨0⟩ pipedClosure)
      { tree := lenOfTwoScopes } analysed t ∧ analysed.expressions.length = 2 ∧
      ∀ e ∈ analysed.expressions,
        e.AllInherit attachment (LeftAlone globalsOnly ⟨0⟩ pipedClosure { tree := lenOfTwoScopes })
          (fun attached n => n.FitsClosures
            (Visited globalsOnly ⟨0⟩ pipedClosure { tree := lenOfTwoScopes }) attached) false := by
  have ends : endsWith (moduleWalk globalsOnly .overwrite ⟨0⟩ pipedClosure)
      { tree := lenOfTwoScopes } (fun analysed _ => analysed.expressions.length == 2) = true := by
    decide +kernel
  obtain ⟨analysed, t, ended, two⟩ := gives_of_endsWith ends
  exact ⟨analysed, t, ended, eq_of_beq two, closures_of_analysed ended⟩

end Analysis
end ShellSema
