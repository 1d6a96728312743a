import ShellSema.Proofs.WellFormedTrees

/-!
# Operations on a tree of scopes

A tree starts with the root module and changes by declarations, by variables that are declared, and by
functions and structs that are registered anew. Whatever the order, if each operation is given handles
that lead somewhere, and what is registered keeps its name and module, the tree is well-formed in
between and in the end.
-/
namespace ShellSema.ScopeTree

/-! ### Operations -/

/-- A change of a tree. -/
inductive Operation where
  | declare (declaration : Declaration)
  | addVariable (scope : ScopeId) (name : String)
  | registerFunction (id : FunctionId) (function : ScriptFunction)
  | registerStruct (struct : ScriptStruct)

def Operation.edit : Operation → Edit Unit
  | .declare declaration => declaration.edit
  | .addVariable scope name => Edit.addVariable scope name
  | .registerFunction id function => Edit.registerFunction id function
  | .registerStruct struct => discard (Edit.registerStruct struct)

/-- The handles of a declaration lead somewhere. -/
def Declaration.Able (tree : ScopeTree) : Declaration → Prop
  | .addModule parent _ _ => tree.hasModule parent = true
  | .addScope parent => tree.hasScope parent = true
  | .addFunction _ _ module _ _ => tree.hasModule module = true
  | .addStruct struct => tree.hasModule struct.module = true
  | .addImport module queued => tree.hasModule module = true ∧ tree.hasModule queued.origin = true

/-- The handles of an operation lead somewhere, and a registered function keeps its name and module. A
struct is registered by these. -/
def Operation.Able (tree : ScopeTree) : Operation → Prop
  | .declare declaration => declaration.Able tree
  | .addVariable scope _ => tree.hasScope scope = true
  | .registerFunction id function => ∃ old, tree.function id = .ok old ∧
      function.name = old.name ∧ function.module = old.module
  | .registerStruct struct => tree.hasModule struct.module = true

/-- Each of some operations has handles that lead somewhere when its turn comes. -/
def AllAble : ScopeTree → List Operation → Prop
  | _, [] => True
  | tree, operation :: rest => operation.Able tree ∧ AllAble (runFrom operation.edit tree).2 rest

/-- The tree that some operations, one after the other, leave. -/
def operate : ScopeTree → List Operation → ScopeTree
  | tree, [] => tree
  | tree, operation :: rest => operate (runFrom operation.edit tree).2 rest

variable {tree : ScopeTree}

/-! ### What operations leave -/

namespace Edit

theorem state_declareFunction {function : ScriptFunction}
    (there : tree.hasModule function.module = true) :
    (runFrom (declareFunction function) tree).2 =
      if tree.functions.size < 2 ^ 32 then
        { tree with
          functions := tree.functions.push function
          modules := tree.modules.modify function.module.index fun m => { m with
            functions := m.functions.insert function.name ⟨UInt32.ofNat tree.functions.size⟩ } }
      else tree := by
  have known : hasModule { tree with functions := tree.functions.push function } function.module =
      true := there
  rw [runFrom_declareFunction, runFrom_changeModule, if_pos known]
  split <;> rfl

theorem state_declareStruct {struct : ScriptStruct} (there : tree.hasModule struct.module = true) :
    (runFrom (declareStruct struct) tree).2 =
      if tree.structs.size < 2 ^ 32 then tree.withStruct struct else tree := by
  have known : hasModule { tree with structs := tree.structs.push struct } struct.module = true :=
    there
  rw [runFrom_declareStruct, runFrom_changeModule, if_pos known]
  split <;> rfl

theorem runFrom_registerFunction {id : FunctionId} {function : ScriptFunction}
    (known : tree.hasFunction id = true) (there : tree.hasModule function.module = true) :
    runFrom (registerFunction id function) tree =
      (.ok (), { tree with
        functions := tree.functions.modify id.index fun _ => function
        modules := tree.modules.modify function.module.index fun m => { m with
          functions := m.functions.insert function.name id } }) := by
  have there' : hasModule
      { tree with functions := tree.functions.modify id.index fun _ => function }
      function.module = true := there
  simp [registerFunction, runFrom_bind, runFrom_changeFunction, known, runFrom_changeModule, there']

end Edit

/-! ### Each operation keeps a tree well-formed -/

namespace WellFormed

variable (formed : tree.WellFormed)

include formed

theorem addModule {parent : ModuleId} (there : tree.hasModule parent = true) (name : String)
    (access : Access) : (runFrom (Edit.addModule parent name access) tree).2.WellFormed := by
  rw [runFrom_addModule there]
  split
  next room =>
    have inside : parent.index < tree.modules.size := of_decide_eq_true there
    have last := nextModule_index room.1
    have grown : (tree.withNextModule (tree.newModule parent name access)).WellFormed := by
      refine formed.pushModule room.1 room.2 ?_
      constructor
      case parent =>
        rintro _ ⟨⟩
        omega
      case scope =>
        refine ⟨{ parent := none, module := tree.nextModule }, ?_, rfl, rfl⟩
        simp [scope_eq_ok, withNextModule, newModule, ScopeId.index, UInt32.toNat_ofNat_of_lt' room.2]
      all_goals simp [newModule, Table.values]
    -- The parent has the new module for a submodule; nothing else changes.
    have entered := grown.modifyModule parent
      (fun m => { m with submodules := m.submodules.insert name tree.nextModule })
      (fun _ => rfl) fun m placed => { placed with submodules := fun key next named => ?_ }
    · rw [← besideNew_self] at entered
      exact entered
    · rw [Table.get?_insert] at named
      split at named
      next same =>
        cases named
        refine ⟨tree.newModule parent name access, ?_, same.symm, rfl⟩
        simp [module_eq_ok, withNextModule, last]
      next => exact placed.submodules key next named
  next => exact formed

theorem addScope {parent : ScopeId} (there : tree.hasScope parent = true) :
    (runFrom (Edit.addScope parent) tree).2.WellFormed := by
  obtain ⟨outer, found⟩ := hasScope_iff.mp there
  simp only [Edit.runFrom_addScope, found]
  split
  next room =>
    refine formed.changeScopes ?_ (retains_push _ _ _) fun id scope added => ?_
    · rw [Array.size_push]
      exact room
    · rcases getElem?_push_cases added with ⟨last, rfl⟩ | before
      · -- The new scope has the module of its parent, which has been added before it.
        refine ⟨(formed.scopes parent outer found).module, ?_, by simp⟩
        rintro _ ⟨⟩
        have inside : parent.index < tree.scopes.size := of_decide_eq_true there
        exact ⟨by omega, outer, found, rfl⟩
      · exact formed.scopes id scope (scope_eq_ok.mpr before)
  next => exact formed

theorem addVariable (scope : ScopeId) (name : String) :
    (runFrom (Edit.addVariable scope name) tree).2.WellFormed := by
  rw [Edit.addVariable, Edit.runFrom_changeScope]
  split
  · refine formed.changeScopes ?_ (retains_modify fun _ _ => rfl) fun id now found => ?_
    · rw [Array.size_modify]
      exact formed.handles.scopes
    · rcases getElem?_modify_cases found with ⟨-, old, there, rfl⟩ | before
      · have placed := formed.scopes id old (scope_eq_ok.mpr there)
        refine { placed with locals := fun key v named => ?_ }
        rw [Table.get?_insertNew] at named
        split at named
        next new =>
          cases named
          exact new.1.symm
        next => exact placed.locals key v named
      · exact formed.scopes id now (scope_eq_ok.mpr before)
  · exact formed

/-- A module gets a function under the name that the function has. -/
theorem enterFunction (id : FunctionId) {function : ScriptFunction}
    (found : tree.function id = .ok function) :
    WellFormed { tree with modules := tree.modules.modify function.module.index fun m =>
      { m with functions := m.functions.insert function.name id } } := by
  refine formed.modifyModule _ _ (fun _ => rfl) fun m placed =>
    { placed with functions := fun key f named => ?_ }
  rw [Table.get?_insert] at named
  split at named
  next same =>
    cases named
    exact ⟨function, found, same.symm, rfl⟩
  next => exact placed.functions key f named

theorem declareFunction {function : ScriptFunction}
    (there : tree.hasModule function.module = true) :
    (runFrom (Edit.declareFunction function) tree).2.WellFormed := by
  rw [Edit.state_declareFunction there]
  split
  next room =>
    have pushed : WellFormed { tree with functions := tree.functions.push function } := by
      refine formed.changeFunctions ?_ (retains_push _ _ _) fun f member => ?_
      · rw [Array.size_push]
        exact room
      · rcases Array.mem_push.mp member with before | rfl
        · exact formed.functions f before
        · exact there
    refine pushed.enterFunction ⟨UInt32.ofNat tree.functions.size⟩ ?_
    simp [function_eq_ok, FunctionId.index, UInt32.toNat_ofNat_of_lt' room]
  next => exact formed

theorem registerFunction {id : FunctionId} {function old : ScriptFunction}
    (found : tree.function id = .ok old) (called : function.name = old.name)
    (own : function.module = old.module) :
    (runFrom (Edit.registerFunction id function) tree).2.WellFormed := by
  have entry := function_eq_ok.mp found
  have known : tree.hasFunction id = true := hasFunction_iff.mpr ⟨old, found⟩
  have there : tree.hasModule function.module = true :=
    own ▸ formed.functions old (Array.mem_of_getElem? entry)
  rw [Edit.runFrom_registerFunction known there]
  -- It has the old name and module, so the tables that lead to it may go on doing so.
  have replaced : WellFormed
      { tree with functions := tree.functions.modify id.index fun _ => function } := by
    refine formed.changeFunctions ?_ (retains_modify fun f found => ?_) ?_
    · rw [Array.size_modify]
      exact formed.handles.functions
    · rw [entry] at found
      cases found
      exact Prod.ext called own
    · exact forall_mem_modify formed.functions fun _ _ => there
  refine replaced.enterFunction id (function_eq_ok.mpr ?_)
  exact getElem?_modify_self entry _

/-- A struct that is new to its module is stored and entered there. -/
theorem withStruct {struct : ScriptStruct} (room : tree.structs.size < 2 ^ 32)
    (there : tree.hasModule struct.module = true) : (tree.withStruct struct).WellFormed := by
  have pushed : WellFormed { tree with structs := tree.structs.push struct } := by
    refine formed.changeStructs ?_ (retains_push _ _ _) fun s member => ?_
    · rw [Array.size_push]
      exact room
    · rcases Array.mem_push.mp member with before | rfl
      · exact formed.structs s before
      · exact there
  refine pushed.modifyModule _ _ (fun _ => rfl) fun m placed =>
    { placed with structs := fun key s named => ?_ }
  rw [Table.get?_insert] at named
  split at named
  next same =>
    cases named
    refine ⟨struct, ?_, same.symm, rfl⟩
    simp [struct_eq_ok, StructId.index, UInt32.toNat_ofNat_of_lt' room]
  next => exact placed.structs key s named

theorem declareStruct {struct : ScriptStruct} (there : tree.hasModule struct.module = true) :
    (runFrom (Edit.declareStruct struct) tree).2.WellFormed := by
  rw [Edit.state_declareStruct there]
  split
  next room => exact formed.withStruct room there
  next => exact formed

/-- What a module has under the name of a struct has that name and module, so the struct may replace
it. -/
theorem registerStruct {struct : ScriptStruct} (there : tree.hasModule struct.module = true) :
    (runFrom (Edit.registerStruct struct) tree).2.WellFormed := by
  rcases registerStruct_cases struct tree with same | ⟨id, named, same⟩ | ⟨-, room, -, same⟩
  · rw [same]
    exact formed
  · obtain ⟨m, known, entry⟩ := Option.bind_eq_some_iff.mp named
    obtain ⟨old, found, called, own⟩ :=
      (formed.modules struct.module m (module_eq_ok.mpr known)).structs struct.name id entry
    rw [same]
    refine formed.changeStructs ?_ (retains_modify fun s stored => ?_) ?_
    · rw [Array.size_modify]
      exact formed.handles.structs
    · rw [struct_eq_ok.mp found] at stored
      cases stored
      exact Prod.ext called.symm own.symm
    · exact forall_mem_modify formed.structs fun _ _ => there
  · rw [same]
    exact formed.withStruct room there

theorem queueImport {module : ModuleId} {queued : QueuedImport}
    (origin : tree.hasModule queued.origin = true) :
    (runFrom (Edit.queueImport module queued) tree).2.WellFormed := by
  rw [Edit.queueImport, Edit.state_changeModule]
  refine formed.modifyModule _ _ (fun _ => rfl) fun m placed =>
    { placed with origins := fun other member => ?_ }
  rcases List.mem_append.mp member with before | new
  · exact placed.origins other before
  · rw [List.mem_singleton.mp new]
    exact origin

theorem declaration {declaration : Declaration} (able : declaration.Able tree) :
    (runFrom declaration.edit tree).2.WellFormed := by
  cases declaration with
  | addModule parent name access =>
    rw [Declaration.edit, state_discard]
    exact formed.addModule able name access
  | addScope parent =>
    rw [Declaration.edit, state_discard]
    exact formed.addScope able
  | addFunction name access module parameters takesClosure =>
    rw [Declaration.edit, state_discard]
    exact formed.declareFunction able
  | addStruct struct =>
    rw [Declaration.edit, state_discard]
    exact formed.declareStruct able
  | addImport module queued => exact formed.queueImport able.2

theorem operation {operation : Operation} (able : operation.Able tree) :
    (runFrom operation.edit tree).2.WellFormed := by
  cases operation with
  | declare declaration => exact formed.declaration able
  | addVariable scope name => exact formed.addVariable scope name
  | registerFunction id function =>
    obtain ⟨old, found, called, own⟩ := able
    exact formed.registerFunction found called own
  | registerStruct struct =>
    rw [Operation.edit, state_discard]
    exact formed.registerStruct able

end WellFormed

theorem wellFormed_ofRoot (name : String) : (ofRoot name).WellFormed := by
  have scope : (ofRoot name).scope ⟨0⟩ = .ok { parent := none, module := root } := rfl
  refine
    { handles := ⟨by simp [ofRoot], by simp [ofRoot], by simp [ofRoot], by simp [ofRoot]⟩
      root := rfl
      scopes := fun id s found => ?_
      modules := fun id m found => ?_
      functions := fun f member => by simp [ofRoot] at member
      structs := fun s member => by simp [ofRoot] at member }
  -- There is one scope without variables, and one module with nothing in it.
  · have only := scope_eq_ok.mp found
    simp only [ofRoot, Array.getElem?_singleton, Option.ite_none_right_eq_some, Option.some.injEq]
      at only
    obtain ⟨-, rfl⟩ := only
    exact ⟨rfl, by simp, by simp⟩
  · have only := module_eq_ok.mp found
    simp only [ofRoot, Array.getElem?_singleton, Option.ite_none_right_eq_some, Option.some.injEq]
      at only
    obtain ⟨here, rfl⟩ := only
    obtain rfl : id = root := ModuleId.index_injective here
    constructor
    case scope => exact ⟨_, scope, rfl, rfl⟩
    all_goals simp [Table.values]

theorem WellFormed.operate {operations : List Operation} (formed : tree.WellFormed)
    (able : AllAble tree operations) : (tree.operate operations).WellFormed := by
  induction operations generalizing tree with
  | nil => exact formed
  | cons operation rest ih => exact ih (formed.operation able.1) able.2

/-- Whatever operations a new tree goes through, it is well-formed, and so it passes the checks of a
unit. From each scope a search outwards ends at the nearest scope that declares the name, if there is
one, and from each module the way up ends and gives its path. -/
theorem wellFormed_of_operations (name : String) {operations : List Operation}
    (able : AllAble (ofRoot name) operations) {tree : ScopeTree}
    (made : tree = (ofRoot name).operate operations) :
    tree.WellFormed ∧ AnalysisUnit.problem? ⟨tree, []⟩ = none ∧
      (∀ id, tree.hasScope id = true → ∀ key, ∃ found, tree.declaringScope id key = .ok found ∧
        tree.IsNearest id key found) ∧
      ∀ id, tree.hasModule id = true → ∃ path, tree.modulePath id = .ok path ∧
        tree.HasPath id path := by
  have formed : tree.WellFormed := made ▸ (wellFormed_ofRoot name).operate able
  refine ⟨formed, ?_, fun id known key => formed.declaringScope_ends known key,
    fun id known => formed.modulePath_ends known⟩
  rw [AnalysisUnit.problem?_eq_none]
  exact ⟨formed.problem?_eq_none, by simp⟩

/-- Names that are declared twice: a module within the root, a function and a struct in the second
module of that name, and a variable in scopes that lie in one another. -/
def declaringTwice : List Operation := [
  .declare (.addModule ⟨0⟩ "lib" .exported),
  .declare (.addModule ⟨0⟩ "lib" .restricted),
  .declare (.addScope ⟨0⟩),
  .declare (.addScope ⟨3⟩),
  .declare (.addFunction "f" .exported ⟨2⟩ [] false),
  .declare (.addFunction "f" .restricted ⟨2⟩ [] true),
  .declare (.addStruct { name := "S", module := ⟨2⟩ }),
  .declare (.addImport ⟨0⟩ ⟨⟨2⟩, Build.name "f"⟩),
  .addVariable ⟨0⟩ "x",
  .addVariable ⟨3⟩ "x",
  .registerFunction ⟨0⟩ { name := "f", module := ⟨2⟩, status := .analysed },
  .registerStruct { name := "S", access := .exported, module := ⟨2⟩ }]

theorem wellFormed_of_operations_twice :
    AllAble (ofRoot "main") declaringTwice ∧
      ((ofRoot "main").operate declaringTwice).WellFormed ∧
      ((ofRoot "main").operate declaringTwice).IsNearest ⟨4⟩ "x" (some ⟨3⟩) ∧
      ((ofRoot "main").operate declaringTwice).HasPath ⟨2⟩ ["lib"] := by
  have able : AllAble (ofRoot "main") declaringTwice :=
    ⟨rfl, rfl, rfl, rfl, rfl, rfl, rfl, ⟨rfl, rfl⟩, rfl, rfl, ⟨_, rfl, rfl, rfl⟩, rfl, trivial⟩
  obtain ⟨formed, -, nearest, paths⟩ := wellFormed_of_operations "main" able rfl
  refine ⟨able, formed, ?_, ?_⟩
  · obtain ⟨found, answered, near⟩ := nearest ⟨4⟩ (by decide +kernel) "x"
    have answer : ((ofRoot "main").operate declaringTwice).declaringScope ⟨4⟩ "x" =
        .ok (some ⟨3⟩) := by decide +kernel
    cases answered.symm.trans answer
    exact near
  · obtain ⟨path, read, up⟩ := paths ⟨2⟩ (by decide +kernel)
    have answer : ((ofRoot "main").operate declaringTwice).modulePath ⟨2⟩ = .ok ["lib"] := by
      decide +kernel
    cases read.symm.trans answer
    exact up

end ShellSema.ScopeTree
