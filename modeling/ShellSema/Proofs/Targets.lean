import ShellSema.Proofs.Reading
import ShellSema.Proofs.Symbols

/-!
# What names are found to stand for

A function that is called and a struct that is made are looked for in the tree and in the standard
library. Each search is described here once, by what it has found if it gives something: the module
that the path leads to, what that module has under the name, and the checks that were passed.
-/
namespace ShellSema

variable {context : Context} {name : String} {path : List String} {s t : AnalysisState}

/-! ### Questions -/

theorem gives_currentModule {current : ModuleId} :
    Gives (Walk.currentModule context) s current t ↔
      s.tree.moduleOf? context.scope = some current ∧ t = s := by
  simp only [Walk.currentModule, gives_bind, gives_ask, gives_pure]
  constructor
  · rintro ⟨scope, _, ⟨found, rfl⟩, rfl, rfl⟩
    exact ⟨by simp [ScopeTree.moduleOf?, ScopeTree.scope_eq_ok.mp found], rfl⟩
  · rintro ⟨belongs, rfl⟩
    obtain ⟨scope, found, rfl⟩ := Option.map_eq_some_iff.mp belongs
    exact ⟨scope, t, ⟨ScopeTree.scope_eq_ok.mpr found, rfl⟩, rfl, rfl⟩

theorem gives_checkCount {arity : Arity} {isReference : Bool} {count : Nat} {u : Unit} :
    Gives (Walk.checkCount name arity isReference count) s u t ↔
      arity.accepts isReference count = true ∧ t = s := by
  unfold Walk.checkCount
  split <;> simp_all

/-! ### Functions -/

/-- What a search for a function of the script finds: the function that the module at the end of the
path has under the name, if it may be used, or none if that module has none. -/
inductive ScopeTree.FindsFunction (tree : ScopeTree) (scope : ScopeId) (name : String)
    (path : List String) : Option FunctionId → Prop where
  | found {current module : ModuleId} {id : FunctionId} {function : ScriptFunction}
      (stands : tree.moduleOf? scope = some current)
      (followed : tree.findModule current path true = .ok (some module))
      (answered : tree.findFunction module name true = .ok (some id))
      (known : tree.function id = .ok function)
      (allowed : ¬ (function.module ≠ current ∧ module ≠ current ∧ function.access ≠ .exported)) :
      FindsFunction tree scope name path (some id)
  | missing {current module : ModuleId} (stands : tree.moduleOf? scope = some current)
      (followed : tree.findModule current path true = .ok (some module))
      (answered : tree.findFunction module name true = .ok none) :
      FindsFunction tree scope name path none

theorem findsFunction_of_userCallee {found : Option FunctionId}
    (given : Gives (Walk.userCallee context name path) s found t) :
    s.tree.FindsFunction context.scope name path found := by
  simp only [Walk.userCallee, gives_bind, gives_currentModule, gives_ask] at given
  obtain ⟨current, _, ⟨stands, rfl⟩, target, _, ⟨followed, rfl⟩, given⟩ := given
  cases target with
  | none => exact (gives_fail.mp given).elim
  | some module =>
    simp only [gives_bind, gives_ask] at given
    obtain ⟨answer, _, ⟨answered, rfl⟩, given⟩ := given
    cases answer with
    | none =>
      obtain ⟨rfl, -⟩ := gives_pure.mp given
      exact .missing stands followed answered
    | some id =>
      simp only [gives_bind, gives_ask] at given
      obtain ⟨function, _, ⟨known, rfl⟩, given⟩ := given
      split at given
      · -- A function that may not be used is an error, not one that is missing.
        obtain ⟨_, _, denied, -⟩ := gives_bind.mp given
        exact (gives_fail.mp denied).elim
      next allowed =>
        obtain ⟨rfl, -⟩ := gives_pure.mp given
        exact .found stands followed answered known allowed

theorem CallType.builtin?_eq_some {type : CallType} (word : CallType.builtin? name = some type) :
    type = .builtinExec ∨ type = .builtinClosure ∨ type = .builtinCall ∨ type = .builtinSource := by
  unfold CallType.builtin? at word
  split at word <;> simp_all

/-- What is called under a name: the closure that was passed in, which may be noted; another reserved
name; or, if the name is not reserved, what it stands for in the standard library, or else in the
script, or else a program. -/
inductive Callee.FoundBy (context : Context) (name : String) (path : List String)
    (s : AnalysisState) : Callee → AnalysisState → Prop where
  | closure {provider : FunctionId} {t : AnalysisState}
      (spelled : CallType.builtin? name = some .builtinClosure)
      (provided : Gives (Walk.closureProvider context) s provider t) :
      FoundBy context name path s (.closure provider) t
  | reserved {callee : Callee} (spelled : CallType.builtin? name = some callee.callType)
      (settled : ∀ provider, callee ≠ .closure provider) : FoundBy context name path s callee s
  | standard {f : StandardFunction} (free : CallType.builtin? name = none)
      (answered : context.registry.function? name path = some f) :
      FoundBy context name path s (.standard f) s
  | user {id : FunctionId} (free : CallType.builtin? name = none)
      (nowhere : context.registry.function? name path = none)
      (strange : path = [] ∨ context.registry.hasModule path = false)
      (finds : s.tree.FindsFunction context.scope name path (some id)) :
      FoundBy context name path s (.user id) s
  | program (free : CallType.builtin? name = none)
      (nowhere : context.registry.function? name path = none)
      (strange : path = [] ∨ context.registry.hasModule path = false)
      (finds : s.tree.FindsFunction context.scope name path none) :
      FoundBy context name path s .program s

theorem standardCallee_cases {found : Option StandardFunction}
    (given : Gives (Walk.standardCallee context name path) s found t) :
    context.registry.function? name path = found ∧ t = s ∧
      (found = none → path = [] ∨ context.registry.hasModule path = false) := by
  unfold Walk.standardCallee at given
  split at given
  next f answered =>
    obtain ⟨rfl, rfl⟩ := gives_pure.mp given
    exact ⟨answered, rfl, fun impossible => by cases impossible⟩
  next answered =>
    split at given
    · -- The standard module is there, but has no such function: an error.
      exact (gives_fail.mp given).elim
    next strange =>
      obtain ⟨rfl, rfl⟩ := gives_pure.mp given
      refine ⟨answered, rfl, fun _ => ?_⟩
      simpa [or_iff_not_imp_left] using strange

theorem foundBy_of_ordinaryCallee {callee : Callee} (free : CallType.builtin? name = none)
    (given : Gives (Walk.ordinaryCallee context name path) s callee t) :
    callee.FoundBy context name path s t := by
  simp only [Walk.ordinaryCallee, gives_bind] at given
  obtain ⟨standard, _, looked, given⟩ := given
  obtain ⟨answered, rfl, strange⟩ := standardCallee_cases looked
  cases standard with
  | some f =>
    obtain ⟨rfl, rfl⟩ := gives_pure.mp given
    exact .standard free answered
  | none =>
    simp only [gives_bind] at given
    obtain ⟨found, _, searched, given⟩ := given
    have finds := findsFunction_of_userCallee searched
    have same := unchanging_userCallee.of_gives searched
    subst same
    cases found with
    | some id =>
      obtain ⟨rfl, rfl⟩ := gives_pure.mp given
      exact .user free answered (strange rfl) finds
    | none =>
      obtain ⟨rfl, rfl⟩ := gives_pure.mp given
      exact .program free answered (strange rfl) finds

theorem foundBy_of_callee {callee : Callee}
    (given : Gives (Walk.callee context name path) s callee t) :
    callee.FoundBy context name path s t := by
  unfold Walk.callee at given
  split at given
  next spelled =>
    obtain ⟨rfl, rfl⟩ := gives_pure.mp given
    exact .reserved spelled (by simp)
  next spelled =>
    simp only [gives_bind, gives_pure] at given
    obtain ⟨provider, _, provided, rfl, rfl⟩ := given
    exact .closure spelled provided
  next spelled =>
    obtain ⟨rfl, rfl⟩ := gives_pure.mp given
    exact .reserved spelled (by simp)
  next spelled =>
    obtain ⟨rfl, rfl⟩ := gives_pure.mp given
    exact .reserved spelled (by simp)
  next exec closure call source =>
    refine foundBy_of_ordinaryCallee ?_ given
    -- Each of the words with a meaning of its own has been dealt with above.
    by_contra word
    obtain ⟨type, spelled⟩ := Option.ne_none_iff_exists'.mp word
    rcases CallType.builtin?_eq_some spelled with rfl | rfl | rfl | rfl
    · exact exec spelled
    · exact closure spelled
    · exact call spelled
    · exact source spelled

/-! ### Structs -/

/-- What a search for a struct finds, and counts: the struct that the module at the end of the path has
under the name, if it may be used, or one of the standard library if the path leads to no module. -/
inductive StructTarget.FoundBy (registry : Registry) (tree : ScopeTree) (scope : ScopeId)
    (name : String) (path : List String) (count : Nat) : StructTarget → Prop where
  | user {current module : ModuleId} {id : StructId} {struct : ScriptStruct}
      (stands : tree.moduleOf? scope = some current)
      (followed : tree.findModule current path true = .ok (some module))
      (answered : tree.findStruct module name true = .ok (some id))
      (known : tree.struct id = .ok struct)
      (allowed : ¬ (struct.module ≠ current ∧ module ≠ current ∧ struct.access ≠ .exported))
      (accepted : (Arity.ofParameters struct.parameters).accepts false count = true) :
      FoundBy registry tree scope name path count (.user id)
  | standard {current : ModuleId} {first : String} {struct : StandardStruct}
      (stands : tree.moduleOf? scope = some current)
      (followed : tree.findModule current path true = .ok none)
      (begins : path.head?.filter (fun first => registry.hasModule [first]) = some first)
      (answered : registry.struct? name first = some struct)
      (accepted : (Arity.ofStandardStruct struct).accepts false count = true) :
      FoundBy registry tree scope name path count (.standard struct)

theorem foundBy_of_structTarget {count : Nat} {target : StructTarget}
    (given : Gives (Walk.structTarget context name path count) s target t) :
    target.FoundBy context.registry s.tree context.scope name path count := by
  simp only [Walk.structTarget, gives_bind, gives_currentModule, gives_ask] at given
  obtain ⟨current, _, ⟨stands, rfl⟩, module, _, ⟨followed, rfl⟩, given⟩ := given
  -- A path that leads to a module names a struct of the source, any other path a standard one.
  cases module with
  | some module =>
    simp only [Walk.userStruct, gives_bind, gives_ask] at given
    obtain ⟨answer, _, ⟨answered, rfl⟩, given⟩ := given
    cases answer with
    | none => exact (gives_fail.mp given).elim
    | some id =>
      simp only [gives_bind, gives_ask] at given
      obtain ⟨struct, _, ⟨known, rfl⟩, given⟩ := given
      split at given
      · obtain ⟨_, _, denied, -⟩ := gives_bind.mp given
        exact (gives_fail.mp denied).elim
      next allowed =>
        simp only [gives_bind, gives_checkCount, gives_pure] at given
        obtain ⟨_, _, ⟨accepted, rfl⟩, rfl, -⟩ := given
        exact .user stands followed answered known allowed accepted
  | none =>
    simp only [Walk.standardStruct] at given
    split at given
    · exact (gives_fail.mp given).elim
    next first begins =>
      split at given
      · exact (gives_fail.mp given).elim
      next struct answered =>
        simp only [gives_bind, gives_checkCount, gives_pure] at given
        obtain ⟨_, _, ⟨accepted, rfl⟩, rfl, -⟩ := given
        exact .standard stands followed begins answered accepted

end ShellSema
