import ShellSema.Proofs.Territory

/-!
# Lookups that do not notice a change

Two trees that differ only within a territory, and in the imports and the progress of one module,
answer most questions alike when the code that asks stands elsewhere: which scope declares a name, to
which module a path leads, and what a module has under a name. Only what the one module imports may
be answered differently.
-/
namespace ShellSema.ScopeTree

variable {tree other : ScopeTree} {foreign : Territory} {name : String}

/-! ### Variables -/

namespace SameScopes

variable (same : tree.SameScopes foreign other)

include same

theorem scope_cases (id : ScopeId) :
    (tree.scope id = .error (.unknownScope id) ∧ other.scope id = .error (.unknownScope id)) ∨
      ∃ scope scope', tree.scope id = .ok scope ∧ other.scope id = .ok scope' ∧
        scope'.parent = scope.parent ∧ scope'.module = scope.module ∧
        (¬ foreign.scopes id → ∀ name, scope'.locals.contains name = scope.locals.contains name) := by
  have parent := congrFun same.parents id
  have belongs := congrFun same.belongs id
  have declares := same.declares id
  unfold parentScope? at parent
  unfold moduleOf? at belongs
  unfold Declares ownVariable? at declares
  unfold ScopeTree.scope
  -- A scope that one tree has the other has too, since it belongs to the same module there.
  cases here : tree.scopes[id.index]? with
  | none =>
    cases there : other.scopes[id.index]? with
    | none => exact .inl ⟨rfl, rfl⟩
    | some scope' => rw [here, there] at belongs; cases belongs
  | some scope =>
    cases there : other.scopes[id.index]? with
    | none => rw [here, there] at belongs; cases belongs
    | some scope' =>
      rw [here, there] at parent belongs
      refine .inr ⟨scope, scope', rfl, rfl, parent, Option.some.inj belongs, fun outside name => ?_⟩
      have both := declares name outside
      rw [here, there] at both
      exact Bool.eq_iff_iff.mpr both

variable {home : ScopeId → Prop}
  (outward : ∀ id parent, home id → tree.parentScope? id = some parent → home parent)
  (apart : ∀ id, home id → ¬ foreign.scopes id)

omit same in
include outward in
private theorem home_parent {id parent : ScopeId} {scope : Scope} (inside : home id)
    (found : tree.scope id = .ok scope) (outer : scope.parent = some parent) : home parent :=
  outward id parent inside ((parentScope?_eq found).trans outer)

include apart in
theorem declaresHere_eq {id : ScopeId} (inside : home id) :
    other.declaresHere id name = tree.declaresHere id name := by
  unfold declaresHere
  rcases same.scope_cases id with ⟨missing, missing'⟩ | ⟨_, _, found, found', -, -, contains⟩
  · rw [missing, missing']
  · rw [found, found', ok_bind, ok_bind, contains (apart id inside)]

include outward apart

theorem declaringScope_eq {id : ScopeId} (inside : home id) :
    other.declaringScope id name = tree.declaringScope id name := by
  unfold declaringScope
  rw [same.count]
  -- The searches are bounded by the number of scopes, which is the same.
  induction tree.scopes.size + 1 generalizing id with
  | zero => rfl
  | succ steps ih =>
    unfold declaringWithin
    rcases same.scope_cases id with ⟨missing, missing'⟩ | ⟨scope, _, found, found', parent, -, contains⟩
    · rw [missing, missing']
      rfl
    · rw [found, found', ok_bind, ok_bind, contains (apart id inside), parent]
      cases outer : scope.parent with
      | none => rfl
      | some around => simp only [ih (home_parent outward inside found outer)]

theorem isVisible_eq {id : ScopeId} (inside : home id) :
    other.isVisible id name = tree.isVisible id name := by
  unfold isVisible
  rw [same.declaringScope_eq outward apart inside]

theorem declaredBetween_eq {first last : ScopeId} (inside : home first) :
    other.declaredBetween name first last = tree.declaredBetween name first last := by
  unfold declaredBetween
  rw [same.count]
  induction tree.scopes.size + 1 generalizing first with
  | zero => rfl
  | succ steps ih =>
    unfold declaredWithin
    rw [same.declaresHere_eq apart inside]
    rcases same.scope_cases first with ⟨missing, missing'⟩ | ⟨scope, _, found, found', parent, -, -⟩
    · rw [missing, missing']
      rfl
    · rw [found, found', ok_bind, ok_bind, parent]
      cases outer : scope.parent with
      | none => rfl
      | some around => simp only [ih (home_parent outward inside found outer)]

end SameScopes

/-! ### Paths -/

/-- Both trees lack the module, or it leads to the same submodules in both. -/
def SameSubmodules (tree other : ScopeTree) (inImports : Bool) (id : ModuleId) : Prop :=
  (tree.module id = .error (.unknownModule id) ∧ other.module id = .error (.unknownModule id)) ∨
    ∃ m m', tree.module id = .ok m ∧ other.module id = .ok m' ∧
      ∀ segment, m'.submodule? segment inImports = m.submodule? segment inImports

theorem descend_of_same {module : ModuleId} (same : ∀ id, tree.SameSubmodules other false id)
    (path : List String) : other.descend module path = tree.descend module path := by
  induction path generalizing module with
  | nil => rfl
  | cons segment path ih =>
    unfold descend
    rcases same module with ⟨missing, missing'⟩ | ⟨m, m', found, found', submodules⟩
    · rw [missing, missing']
      rfl
    · rw [found, found', ok_bind, ok_bind, submodules]
      cases m.submodule? segment false with
      | none => rfl
      | some next => exact ih

/-- A path leads to the same module if it does so for its first segment. -/
theorem findModule_of_same {module : ModuleId} (same : ∀ id, tree.SameSubmodules other false id)
    {inImports : Bool} (here : tree.SameSubmodules other inImports module) (path : List String) :
    other.findModule module path inImports = tree.findModule module path inImports := by
  cases path with
  | nil => rfl
  | cons first path =>
    simp only [findModule]
    rcases here with ⟨missing, missing'⟩ | ⟨m, m', found, found', submodules⟩
    · rw [missing, missing']
      rfl
    rw [found, found', ok_bind, ok_bind, submodules]
    cases m.submodule? first inImports with
    | some next => exact descend_of_same same path
    -- Only the first segment may lead to an imported module; then the root is tried.
    | none =>
      dsimp only
      rcases same root with ⟨missing, missing'⟩ | ⟨top, top', found, found', submodules⟩
      · rw [missing, missing']
        rfl
      rw [found, found', ok_bind, ok_bind, submodules]
      cases top.submodule? first false with
      | none => rfl
      | some next => exact descend_of_same same path

/-! ### Functions -/

/-- A function has the same signature in both trees if all functions have. -/
theorem signature_of_same (signatures : other.functionSignature? = tree.functionSignature?)
    {id : FunctionId} {f f' : ScriptFunction} (found : tree.function id = .ok f)
    (found' : other.function id = .ok f') : f'.signature = f.signature := by
  have same := congrFun signatures id
  unfold functionSignature? at same
  rw [function_eq_ok.mp found, function_eq_ok.mp found'] at same
  exact Option.some.inj same

/-- Whether a function may be found does not depend on more than its failure. -/
theorem askFailed_of_same (signatures : other.functionSignature? = tree.functionSignature?)
    (failures : ∀ id, other.statusOf? id = some .failed ↔ tree.statusOf? id = some .failed)
    (id : FunctionId) :
    (do return if (← other.function id).status = .failed then none else some id) =
      (do return if (← tree.function id).status = .failed then none else some id :
        Except Fault (Option FunctionId)) := by
  have signature := congrFun signatures id
  have failed := failures id
  unfold functionSignature? at signature
  unfold statusOf? at failed
  unfold ScopeTree.function
  cases here : tree.functions[id.index]? with
  | none =>
    rw [here] at signature
    rw [Option.map_eq_none_iff.mp signature]
  | some f =>
    rw [here, Option.map_some] at signature
    obtain ⟨f', there, -⟩ := Option.map_eq_some_iff.mp signature
    rw [here, there, Option.map_some, Option.map_some, Option.some_inj, Option.some_inj] at failed
    simp only [there, ok_bind, failed]

/-! ### Modules and symbols -/

namespace AgreesOutside

variable {stranger module : ModuleId} (agrees : tree.AgreesOutside foreign stranger other)

include agrees

theorem module_cases (id : ModuleId) :
    (tree.module id = .error (.unknownModule id) ∧ other.module id = .error (.unknownModule id)) ∨
      ∃ m m', tree.module id = .ok m ∧ other.module id = .ok m' ∧ m'.core = m.core ∧
        (id ≠ stranger → m' = m) := by
  have modules := agrees.modules id
  have core := agrees.core
  unfold ScopeTree.module
  by_cases apart : id = stranger
  -- Of the stranger the core is the same, of all other modules everything is.
  · subst apart
    cases here : tree.modules[id.index]? with
    | none =>
      rw [here] at core
      rw [Option.map_eq_none_iff.mp core]
      exact .inl ⟨rfl, rfl⟩
    | some m =>
      rw [here, Option.map_some] at core
      obtain ⟨m', there, same⟩ := Option.map_eq_some_iff.mp core
      rw [there]
      exact .inr ⟨m, m', rfl, rfl, same, fun different => absurd rfl different⟩
  · rw [modules apart]
    cases tree.modules[id.index]? with
    | none => exact .inl ⟨rfl, rfl⟩
    | some m => exact .inr ⟨m, m, rfl, rfl, rfl, fun _ => rfl⟩

theorem sameSubmodules (id : ModuleId) : tree.SameSubmodules other false id := by
  rcases agrees.module_cases id with missing | ⟨m, m', found, found', same, -⟩
  · exact .inl missing
  · exact .inr ⟨m, m', found, found', fun segment => congrArg (·.submodule? segment false) same⟩

/-- Paths lead to the same modules, unless they start at the stranger. -/
theorem findModule_eq (apart : module ≠ stranger) (path : List String) (inImports : Bool) :
    other.findModule module path inImports = tree.findModule module path inImports := by
  refine findModule_of_same agrees.sameSubmodules ?_ path
  rcases agrees.module_cases module with missing | ⟨m, m', found, found', -, same⟩
  · exact .inl missing
  · exact .inr ⟨m, m', found, found', fun segment => by rw [same apart]⟩

/-- A function has the same signature in both trees. -/
theorem signature_eq {id : FunctionId} {f f' : ScriptFunction} (found : tree.function id = .ok f)
    (found' : other.function id = .ok f') : f'.signature = f.signature :=
  signature_of_same agrees.signatures found found'

/-- A module has the same function under a name. Of the stranger this is known only if what it has
imported is left out, or known to be the same. -/
theorem findFunction_eq {inImports : Bool} (known : inImports = true → module ≠ stranger ∨
      other.functionSeen? module name = tree.functionSeen? module name) :
    other.findFunction module name inImports = tree.findFunction module name inImports := by
  unfold findFunction
  rcases agrees.module_cases module with ⟨missing, missing'⟩ | ⟨m, m', found, found', core, same⟩
  · rw [missing, missing']
    rfl
  -- Tables of declarations are the same also for the stranger.
  have named : m'.function? name inImports = m.function? name inImports := by
    cases inImports with
    | false => exact congrArg (·.function? name false) core
    | true =>
      rcases known rfl with apart | seen
      · rw [same apart]
      · rwa [functionSeen?, functionSeen?, module_eq_ok.mp found, module_eq_ok.mp found'] at seen
  rw [found, found', ok_bind, ok_bind, named]
  cases m.function? name inImports with
  | none => rfl
  | some id => exact askFailed_of_same agrees.signatures agrees.failed id

theorem findStruct_eq {inImports : Bool} (known : inImports = true → module ≠ stranger ∨
      other.structSeen? module name = tree.structSeen? module name) :
    other.findStruct module name inImports = tree.findStruct module name inImports := by
  unfold findStruct
  rcases agrees.module_cases module with ⟨missing, missing'⟩ | ⟨m, m', found, found', core, same⟩
  · rw [missing, missing']
  have named : m'.struct? name inImports = m.struct? name inImports := by
    cases inImports with
    | false => exact congrArg (·.struct? name false) core
    | true =>
      rcases known rfl with apart | seen
      · rw [same apart]
      · rwa [structSeen?, structSeen?, module_eq_ok.mp found, module_eq_ok.mp found'] at seen
  rw [found, found', ok_bind, ok_bind, named]

/-- What can be imported from a module does not depend on what it imports itself. -/
theorem declared_eq : other.declared module name = tree.declared module name := by
  have function : other.findFunction module name false = tree.findFunction module name false :=
    agrees.findFunction_eq nofun
  have struct : other.findStruct module name false = tree.findStruct module name false :=
    agrees.findStruct_eq nofun
  unfold declared
  rw [function, struct]
  rcases agrees.module_cases module with ⟨missing, missing'⟩ | ⟨m, m', found, found', core, -⟩
  · rw [missing, missing']
  · have submodules : m'.submodule? name false = m.submodule? name false :=
      congrArg (·.submodule? name false) core
    simp only [found, found', ok_bind, submodules]

end AgreesOutside
end ShellSema.ScopeTree
