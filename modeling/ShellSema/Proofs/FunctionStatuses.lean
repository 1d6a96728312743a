import ShellSema.Proofs.Aftermath
import ShellSema.Proofs.Occurrences
import ShellSema.Proofs.Paths
import ShellSema.Syntax.Build

/-!
# What the status of a function tells

The status of a function says how far its analysis has come. After an analysis that succeeds, all
functions that it has gone over are registered as they stand in the analysed tree. After one that
fails, those have failed in whose visit it broke off, those are registered whose visit had completed,
and the others are still pending.
-/
namespace ShellSema

variable {tree : ScopeTree} {id : FunctionId}

/-! ### Statuses and records -/

namespace ScopeTree

theorem statusOf?_eq_some {status : Status} :
    tree.statusOf? id = some status ↔ ∃ f, tree.function id = .ok f ∧ f.status = status := by
  simp only [statusOf?, Option.map_eq_some_iff, function_eq_ok]

theorem statusOf?_of_function {f : ScriptFunction} (found : tree.function id = .ok f) :
    tree.statusOf? id = some f.status :=
  statusOf?_eq_some.mpr ⟨f, found, rfl⟩

theorem statusOf?_congr {later : ScopeTree} (same : later.function id = tree.function id) :
    later.statusOf? id = tree.statusOf? id := by
  ext status
  rw [statusOf?_eq_some, statusOf?_eq_some, same]

/-- A function that is known has failed once it has been marked. -/
theorem statusOf?_of_failed {later : ScopeTree} {status : Status}
    (known : tree.statusOf? id = some status) (marked : later.function id = tree.failedFunction id) :
    later.statusOf? id = some .failed := by
  obtain ⟨f, found, -⟩ := statusOf?_eq_some.mp known
  have failed : tree.failedFunction id = .ok { f with status := .failed } := by
    rw [failedFunction, found]
    rfl
  exact statusOf?_of_function (marked.trans failed)

/-- No lookup finds a function that has failed. -/
theorem usable_of_findFunction {module : ModuleId} {name : String} {inImports : Bool}
    (found : tree.findFunction module name inImports = .ok (some id)) :
    tree.statusOf? id ≠ some .failed := by
  obtain ⟨m, -, found⟩ := bind_eq_ok.mp found
  cases answer : m.function? name inImports with
  | none =>
    rw [answer] at found
    cases found
  | some other =>
    rw [answer] at found
    obtain ⟨f, there, found⟩ := bind_eq_ok.mp found
    split at found
    next => cases found
    next usable =>
      cases found
      rw [statusOf?_of_function there]
      simpa using usable

/-- The function that a node declares is registered as the node has it. -/
def HoldsFunction (tree : ScopeTree) (node : Expr) : Prop :=
  ∃ access name parameters body module takesClosure id carrierCaptured,
    node.kind = .functionDecl access name parameters body module takesClosure id ∧
      tree.function id = .ok
        { name := name.text, access, module, parameters, takesClosure, carrierCaptured
          status := .analysed }

theorem HoldsFunction.of_kind {node other : Expr} (holds : tree.HoldsFunction node)
    (same : other.kind = node.kind) : tree.HoldsFunction other := by
  rwa [HoldsFunction, same]

theorem HoldsFunction.status {node : Expr} (holds : tree.HoldsFunction node)
    (declared : node.declaredFunction? = some id) : tree.statusOf? id = some .analysed := by
  obtain ⟨access, name, parameters, body, module, takesClosure, own, carrierCaptured, kind, found⟩ :=
    holds
  obtain rfl : own = id := by simpa [Expr.declaredFunction?, kind] using declared
  exact statusOf?_of_function found

end ScopeTree

/-- What is written of a function, without its parameters and its body. -/
def Expr.heading? (e : Expr) : Option (Access × Token × ModuleId × Bool × FunctionId) :=
  match e.kind with
  | .functionDecl access name _ _ module takesClosure id => some (access, name, module, takesClosure, id)
  | _ => none

namespace Analysis

variable {registry : Registry} {mode : AnalysisMode} {module : ModuleId} {ast analysed : Ast}
  {s t : AnalysisState} {v : Visit} {error : AnalysisError}

/-- A function whose visit has completed is registered as it comes out, however the analysis ends. -/
theorem Visited.holds (once : ast.functionIds.Nodup) (awaits : s.tree.Awaits ast.functionIds)
    (ended : (runFrom (moduleWalk registry mode module ast) s).2 = t)
    (visited : Visited registry module ast s v) (meets : v.Meets id) {r : Expr} {t' : AnalysisState}
    (given : v.Gives r t') :
    r.heading? = v.source.heading? ∧ r.declaredFunction? = some id ∧ t.tree.HoldsFunction r := by
  obtain ⟨access, name, parameters, body, home, takesClosure, source⟩ :=
    Expr.kind_of_declared meets.2
  obtain ⟨parameters', body', kind, found⟩ :=
    Visit.function_of_completes (visited.fresh once awaits) source given
  have after : (runFrom (moduleWalk registry mode module ast) s).2.tree.function id =
      v.after.tree.function id := visited.function_after once meets
  rw [Visit.after_of_gives given, found, ended] at after
  exact ⟨by simp [Expr.heading?, kind, source], by simp [Expr.declaredFunction?, kind],
    access, name, parameters', body', home, takesClosure, id, _, kind, after⟩

/-! ### Analyses that succeed -/

/-- An analysis that succeeds registers all functions that it goes over, as they stand in the tree that
comes out. It leaves all others as they were. -/
theorem functions_of_gives (once : ast.functionIds.Nodup) (awaits : s.tree.Awaits ast.functionIds)
    (given : Gives (moduleWalk registry mode module ast) s analysed t) :
    (∀ n id, ast.Walks n → n.declaredFunction? = some id →
      t.tree.statusOf? id = some .analysed ∧
        ∃ r ∈ analysed.nodes, r.heading? = n.heading? ∧ t.tree.HoldsFunction r) ∧
      ∀ id, (∀ n, ast.Walks n → n.declaredFunction? ≠ some id) →
        t.tree.function id = s.tree.function id := by
  have ended : (runFrom (moduleWalk registry mode module ast) s).2 = t := congrArg Prod.snd given
  constructor
  · intro n id walks declared
    -- The visit of the function completes, what it gives is registered and stands in the tree.
    obtain ⟨v, visited, rfl⟩ := visited_of_walks once awaits given walks
    obtain ⟨-, -, r, t', left, -⟩ := visited.course given
    have meets : v.Meets id := ⟨(Visit.gives_iff.mp left).1, declared⟩
    obtain ⟨heading, own, holds⟩ := visited.holds once awaits ended meets left
    obtain ⟨made, inside, kind⟩ := visited.occurs once awaits given left (by simp [own])
    refine ⟨holds.status own, made, inside, ?_, holds.of_kind kind⟩
    rw [← heading, Expr.heading?, Expr.heading?, kind]
  · intro id outside
    have kept : KeepsRecord id s (runFrom (moduleWalk registry mode module ast) s).2 :=
      function_of_unmet fun u visited meets => outside u.source visited.walks meets.2
    rwa [ended] at kept

/-! ### Analyses that fail -/

/-- How an analysis that has failed leaves the functions that its tree declares. -/
structure FunctionsAfterFailure (registry : Registry) (module : ModuleId) (ast : Ast)
    (s : AnalysisState) (error : AnalysisError) (t : AnalysisState) : Prop where
  /-- The module has failed. -/
  status : ∃ m, t.tree.module module = .ok m ∧ m.status = .failed
  /-- The walk has broken off at one place, with the error of the analysis, unless the imports have been
  refused before it has come to any node. -/
  place : (∀ v, ¬ Visited registry module ast s v) ∨
    ∃ w, Visited registry module ast s w ∧ w.BreaksOff error
  single : ∀ v w, Visited registry module ast s v → Visited registry module ast s w →
    v.BreaksOff error → w.BreaksOff error → v = w
  /-- The functions around that place have failed, and nothing else of them is changed. -/
  failed : ∀ id ∈ ast.functionIds, t.tree.statusOf? id = some .failed ↔
    ∃ v w, Visited registry module ast s v ∧ v.Meets id ∧ v.Reaches w ∧ w.BreaksOff error
  marked : ∀ id ∈ ast.functionIds, t.tree.statusOf? id = some .failed →
    t.tree.function id = s.tree.failedFunction id
  /-- The functions that have been walked completely are registered. -/
  analysed : ∀ id ∈ ast.functionIds, t.tree.statusOf? id = some .analysed ↔
    ∃ v, Visited registry module ast s v ∧ v.Meets id ∧ v.Completes
  registered : ∀ v id r t', Visited registry module ast s v → v.Meets id → v.Gives r t' →
    r.heading? = v.source.heading? ∧ t.tree.HoldsFunction r
  /-- All others are as they were. -/
  others : ∀ id ∈ ast.functionIds, t.tree.statusOf? id ≠ some .failed →
    t.tree.statusOf? id ≠ some .analysed → t.tree.function id = s.tree.function id
  /-- No function that has failed is found by its name. -/
  usable : ∀ home name inImports id, t.tree.findFunction home name inImports = .ok (some id) →
    t.tree.statusOf? id ≠ some .failed

/-- The module of an analysis that fails has failed. -/
theorem module_of_fails (failed : Fails (moduleWalk registry mode module ast) s error t) :
    ∃ m, t.tree.module module = .ok m ∧ m.status = .failed := by
  obtain ⟨r, marked, -⟩ := fails_cases failed
  obtain ⟨tree, changed, rfl⟩ := gives_edit.mp marked
  have changed : runFrom _ _ = (.ok (), tree) := changed
  rw [ScopeTree.Edit.runFrom_changeModule] at changed
  split at changed
  next known =>
    cases changed
    obtain ⟨m, found⟩ := ScopeTree.hasModule_iff.mp known
    refine ⟨{ m with status := .failed }, ScopeTree.module_eq_ok.mpr ?_, rfl⟩
    exact getElem?_modify_self (ScopeTree.module_eq_ok.mp found) _
  next => cases changed

section Failure

variable (once : ast.functionIds.Nodup)
  (pending : ∀ id ∈ ast.functionIds, s.tree.statusOf? id = some .pending)

include pending in
theorem awaits_of_pending : s.tree.Awaits ast.functionIds := by
  intro id member status found
  rw [pending id member] at found
  exact (Option.some.inj found).symm

include once pending

/-- A function whose visit has failed is marked, and nothing else of it is changed. -/
theorem Visited.marks (ended : (runFrom (moduleWalk registry mode module ast) s).2 = t)
    (visited : Visited registry module ast s v) (meets : v.Meets id) (failed : v.Fails error) :
    t.tree.function id = s.tree.failedFunction id ∧ t.tree.statusOf? id = some .failed := by
  have fresh := visited.fresh once (awaits_of_pending pending)
  have marked : t.tree.function id = s.tree.failedFunction id := by
    rw [← ended, visited.function_after once meets, Visit.function_of_fails fresh meets failed,
      ScopeTree.failedFunction, visited.function_before once meets]
    rfl
  have member : id ∈ ast.functionIds := visited.functionIds_sublist.subset meets.mem_functionIds
  exact ⟨marked, ScopeTree.statusOf?_of_failed (pending id member) marked⟩

theorem Visited.completed (ended : (runFrom (moduleWalk registry mode module ast) s).2 = t)
    (visited : Visited registry module ast s v) (meets : v.Meets id) (completes : v.Completes) :
    t.tree.statusOf? id = some .analysed := by
  obtain ⟨r, t', given⟩ := completes
  obtain ⟨-, declared, holds⟩ :=
    visited.holds once (awaits_of_pending pending) ended meets given
  exact holds.status declared

/-- The three ways in which an analysis that fails leaves a function: it has failed, it is registered, or
nothing has happened to it. -/
theorem function_cases (failed : Fails (moduleWalk registry mode module ast) s error t)
    (member : id ∈ ast.functionIds) :
    (t.tree.statusOf? id = some .failed ∧ t.tree.function id = s.tree.failedFunction id ∧
        ∃ v, Visited registry module ast s v ∧ v.Meets id ∧ v.Fails error) ∨
      (t.tree.statusOf? id = some .analysed ∧
        ∃ v, Visited registry module ast s v ∧ v.Meets id ∧ v.Completes) ∨
      t.tree.statusOf? id = some .pending ∧ t.tree.function id = s.tree.function id := by
  have ended : (runFrom (moduleWalk registry mode module ast) s).2 = t := congrArg Prod.snd failed
  -- It matters whether the walk has come to the function, and if so, how its visit has ended.
  by_cases met : ∃ v, Visited registry module ast s v ∧ v.Meets id
  · obtain ⟨v, visited, meets⟩ := met
    rcases visited.ends failed with completes | broken
    · exact .inr (.inl ⟨visited.completed once pending ended meets completes, v, visited, meets,
        completes⟩)
    · obtain ⟨marked, status⟩ := visited.marks once pending ended meets broken
      exact .inl ⟨status, marked, v, visited, meets, broken⟩
  · have kept : KeepsRecord id s (runFrom (moduleWalk registry mode module ast) s).2 :=
      function_of_unmet fun u visited meets => met ⟨u, visited, meets⟩
    rw [ended] at kept
    exact .inr (.inr ⟨(ScopeTree.statusOf?_congr kept).trans (pending id member), kept⟩)

theorem functions_of_fails (failed : Fails (moduleWalk registry mode module ast) s error t) :
    FunctionsAfterFailure registry module ast s error t := by
  have ended : (runFrom (moduleWalk registry mode module ast) s).2 = t := congrArg Prod.snd failed
  constructor
  case status => exact module_of_fails failed
  case place =>
    -- The walk begins once all imports are resolved.
    by_cases begun : ∃ context start, Begins registry module s context start
    · obtain ⟨context, start, begins⟩ := begun
      exact .inr (exists_breaksOff failed begins)
    · exact .inl fun v ⟨context, start, _, begins, _⟩ => begun ⟨context, start, begins⟩
  case single => exact fun v w visited visited' => breaksOff_unique failed visited visited'
  case failed =>
    intro id member
    constructor
    · intro status
      rcases function_cases once pending failed member with
        ⟨-, -, v, visited, meets, broken⟩ | ⟨other, -⟩ | ⟨other, -⟩
      · obtain ⟨w, reached, breaks⟩ := (visited.fails_iff failed).mp broken
        exact ⟨v, w, visited, meets, reached, breaks⟩
      all_goals simp [status] at other
    · rintro ⟨v, w, visited, meets, reached, breaks⟩
      have broken : v.Fails error := (visited.fails_iff failed).mpr ⟨w, reached, breaks⟩
      exact (visited.marks once pending ended meets broken).2
  case marked =>
    intro id member status
    rcases function_cases once pending failed member with ⟨-, marked, -⟩ | ⟨other, -⟩ | ⟨other, -⟩
    · exact marked
    all_goals simp [status] at other
  case analysed =>
    intro id member
    constructor
    · intro status
      rcases function_cases once pending failed member with ⟨other, -⟩ | ⟨-, completed⟩ | ⟨other, -⟩
      · simp [status] at other
      · exact completed
      · simp [status] at other
    · rintro ⟨v, visited, meets, completes⟩
      exact visited.completed once pending ended meets completes
  case registered =>
    intro v id r t' visited meets given
    obtain ⟨heading, -, holds⟩ :=
      visited.holds once (awaits_of_pending pending) ended meets given
    exact ⟨heading, holds⟩
  case others =>
    intro id member well unfinished
    rcases function_cases once pending failed member with ⟨status, -⟩ | ⟨status, -⟩ | ⟨-, kept⟩
    · exact absurd status well
    · exact absurd status unfinished
    · exact kept
  case usable => exact fun home name inImports id => ScopeTree.usable_of_findFunction

end Failure

/-! ### The whole -/

/-- If no function is declared twice and all that are declared are pending, their statuses tell how far
they have come. An analysis that succeeds has registered all functions that it goes over, which are all
but those that an earlier analysis has piped into a call. In one that fails, a function has failed if
the walk has broken off within it, is registered if it has been walked completely, and else is still
pending. -/
theorem statuses_of_run {tree : ScopeTree} {tokens : Option (Array SemanticToken)}
    (once : ast.functionIds.Nodup)
    (pending : ∀ id ∈ ast.functionIds, tree.statusOf? id = some .pending) :
    (∀ analysed t, Gives (moduleWalk registry mode module ast) { tree, tokens } analysed t →
      (∀ n id, ast.Walks n → n.declaredFunction? = some id →
        t.tree.statusOf? id = some .analysed ∧
          ∃ r ∈ analysed.nodes, r.heading? = n.heading? ∧ t.tree.HoldsFunction r) ∧
        ∀ id, (∀ n, ast.Walks n → n.declaredFunction? ≠ some id) →
          t.tree.function id = tree.function id) ∧
      (∀ error t, Fails (moduleWalk registry mode module ast) { tree, tokens } error t →
        FunctionsAfterFailure registry module ast { tree, tokens } error t) ∧
      (ast.PipesNoFunction → ∀ n ∈ ast.nodes, ∀ id, n.declaredFunction? = some id → ast.Walks n) := by
  refine ⟨fun analysed t given => ?_, fun error t failed => ?_, fun unpiped n inside id declared => ?_⟩
  · exact functions_of_gives (s := { tree, tokens }) once (awaits_of_pending pending) given
  · exact functions_of_fails once pending failed
  · exact unpiped.walks inside declared

/-- A function with two others in its body, the second of which ends with an expression. A fourth
function comes after them. -/
def nestedFunctions (last : Expr) : Ast :=
  let declare (name : String) (id : FunctionId) (scope : ScopeId) (body : List Expr) : Expr :=
    Build.function { name, access := .restricted, module := ⟨0⟩ } id (Build.blockOf .function scope body)
  ⟨[declare "outer" ⟨0⟩ ⟨1⟩
      [declare "first" ⟨1⟩ ⟨2⟩ [], declare "second" ⟨2⟩ ⟨3⟩ [last]],
    declare "last" ⟨3⟩ ⟨4⟩ []]⟩

def nestedFunctionsScopes : ScopeTree :=
  { ScopeTree.ofRoot "main" with
    scopes := #[⟨none, ⟨0⟩, {}⟩, ⟨some ⟨0⟩, ⟨0⟩, {}⟩, ⟨some ⟨1⟩, ⟨0⟩, {}⟩, ⟨some ⟨1⟩, ⟨0⟩, {}⟩,
      ⟨some ⟨0⟩, ⟨0⟩, {}⟩]
    functions := #[{ name := "outer", access := .restricted, module := ⟨0⟩ },
      { name := "first", access := .restricted, module := ⟨0⟩ },
      { name := "second", access := .restricted, module := ⟨0⟩ },
      { name := "last", access := .restricted, module := ⟨0⟩ }] }

/-- In the order of the source, the statuses of these functions. -/
def nestedStatuses (tree : ScopeTree) : List (Option Status) :=
  [tree.statusOf? ⟨0⟩, tree.statusOf? ⟨1⟩, tree.statusOf? ⟨2⟩, tree.statusOf? ⟨3⟩]

/-- An unknown variable makes the functions around it fail, but the one before it is registered. -/
theorem statuses_of_run_nested :
    (∃ analysed t, Gives (moduleWalk .empty .overwrite ⟨0⟩ (nestedFunctions (Build.integer "1")))
        { tree := nestedFunctionsScopes } analysed t ∧
      nestedStatuses t.tree = List.replicate 4 (some .analysed) ∧
      ∀ n id, (nestedFunctions (Build.integer "1")).Walks n → n.declaredFunction? = some id →
        t.tree.statusOf? id = some .analysed ∧
          ∃ r ∈ analysed.nodes, r.heading? = n.heading? ∧ t.tree.HoldsFunction r) ∧
      ∃ error t, Fails (moduleWalk .empty .overwrite ⟨0⟩ (nestedFunctions (Build.variableRef "x")))
          { tree := nestedFunctionsScopes } error t ∧
        nestedStatuses t.tree =
          [some .failed, some .analysed, some .failed, some .pending] ∧
        FunctionsAfterFailure .empty ⟨0⟩ (nestedFunctions (Build.variableRef "x"))
          { tree := nestedFunctionsScopes } error t := by
  have declared : (nestedFunctions (Build.integer "1")).functionIds = [⟨0⟩, ⟨1⟩, ⟨2⟩, ⟨3⟩] ∧
      (nestedFunctions (Build.variableRef "x")).functionIds = [⟨0⟩, ⟨1⟩, ⟨2⟩, ⟨3⟩] := by
    decide +kernel
  have pending : ∀ id ∈ [⟨0⟩, ⟨1⟩, ⟨2⟩, ⟨3⟩],
      nestedFunctionsScopes.statusOf? id = some .pending := by
    decide
  -- The same four functions, once with a number in the innermost body and once with a name that is
  -- not there.
  have succeeds : endsWith (moduleWalk .empty .overwrite ⟨0⟩ (nestedFunctions (Build.integer "1")))
      { tree := nestedFunctionsScopes }
      (fun _ t => nestedStatuses t.tree = List.replicate 4 (some .analysed)) = true := by
    decide +kernel
  have fails : failsWith (moduleWalk .empty .overwrite ⟨0⟩ (nestedFunctions (Build.variableRef "x")))
      { tree := nestedFunctionsScopes } (fun _ t => nestedStatuses t.tree =
        [some .failed, some .analysed, some .failed, some .pending]) = true := by
    decide +kernel
  constructor
  · obtain ⟨analysed, t, given, statuses⟩ := gives_of_endsWith succeeds
    exact ⟨analysed, t, given, of_decide_eq_true statuses,
      ((statuses_of_run (by simp [declared]) (declared.1 ▸ pending)).1 analysed t given).1⟩
  · obtain ⟨error, t, failed, statuses⟩ := fails_of_failsWith fails
    exact ⟨error, t, failed, of_decide_eq_true statuses,
      (statuses_of_run (by simp [declared]) (declared.2 ▸ pending)).2.1 error t failed⟩

/-- A function that stands at a place of its own. -/
def placedFunction : Expr :=
  { Build.function { name := "f", access := .restricted, module := ⟨0⟩ } ⟨0⟩
      (Build.blockOf .function ⟨1⟩ []) with
    span := { start := { line := 2, column := 3 }, stop := { line := 2, column := 7 } } }

def placedFunctionScopes : ScopeTree :=
  { ScopeTree.ofRoot "main" with
    scopes := #[⟨none, ⟨0⟩, {}⟩, ⟨some ⟨0⟩, ⟨0⟩, {}⟩]
    functions := #[{ name := "f", access := .restricted, module := ⟨0⟩ }] }

/-- The function has been piped into a call by an earlier analysis. -/
def pipedEarlier : Ast :=
  ⟨[.fresh (.call { Call.plain (Build.name "echo") [] [] with piped := some placedFunction })]⟩

/-- The function stands where a pipe expects a call. -/
def pipedInto : Ast := ⟨[Build.pipe (Build.call "ls" []) placedFunction]⟩

/-- A function stays pending in an analysis that succeeds if it has been piped into a call before. It
stays pending as well in an analysis that breaks off at the function itself, if a call has to stand
there. -/
theorem pending_of_run :
    (pipedEarlier.functionIds = [⟨0⟩] ∧
      ∃ analysed t, Gives (moduleWalk .empty .overwrite ⟨0⟩ pipedEarlier)
        { tree := placedFunctionScopes } analysed t ∧ t.tree.statusOf? ⟨0⟩ = some .pending) ∧
      ∃ error t w, Fails (moduleWalk .empty .overwrite ⟨0⟩ pipedInto)
          { tree := placedFunctionScopes } error t ∧
        Visited .empty ⟨0⟩ pipedInto { tree := placedFunctionScopes } w ∧ w.BreaksOff error ∧
        w.source.declaredFunction? = some ⟨0⟩ ∧ t.tree.statusOf? ⟨0⟩ = some .pending := by
  have succeeds : endsWith (moduleWalk .empty .overwrite ⟨0⟩ pipedEarlier)
      { tree := placedFunctionScopes } (fun _ t => t.tree.statusOf? ⟨0⟩ = some .pending) = true := by
    decide +kernel
  have fails : failsWith (moduleWalk .empty .overwrite ⟨0⟩ pipedInto)
      { tree := placedFunctionScopes } (fun error t => t.tree.statusOf? ⟨0⟩ = some .pending ∧
        error = { cause := .callExpectedAfterPipe, span := some placedFunction.span }) = true := by
    decide +kernel
  -- The function is visited as a part of the pipe, in a slot that admits calls only.
  have refused : ((visits .empty ⟨0⟩ pipedInto { tree := placedFunctionScopes }).flatMap
      Visit.visits).any (fun w => !w.slot.admits w.source.kind &&
        decide (w.source.declaredFunction? = some ⟨0⟩ ∧ w.source.span = placedFunction.span)) = true := by
    decide +kernel
  obtain ⟨analysed, t, given, status⟩ := gives_of_endsWith succeeds
  obtain ⟨error, t', failed, ended⟩ := fails_of_failsWith fails
  obtain ⟨status', rfl⟩ := of_decide_eq_true ended
  obtain ⟨w, listed, found⟩ := List.any_eq_true.mp refused
  obtain ⟨top, first, inside⟩ := List.mem_flatMap.mp listed
  simp only [Bool.and_eq_true, Bool.not_eq_true', decide_eq_true_eq] at found
  obtain ⟨shut, declared, place⟩ := found
  have breaks := Visit.breaksOff_of_refused (v := w) (by simp [shut])
  rw [place] at breaks
  refine ⟨⟨by decide +kernel, analysed, t, given, of_decide_eq_true status⟩, _, t', w, failed, ?_,
    breaks, declared, status'⟩
  exact (visited_of_mem_visits first).enters (Visit.enters_of_mem_visits inside)

end Analysis
end ShellSema
