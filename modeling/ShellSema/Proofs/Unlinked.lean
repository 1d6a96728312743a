import ShellSema.Proofs.Symbols

/-!
# Trees before any analysis

Modules, scopes, functions and structs are declared before any module is analysed, and imports are
queued. Each name is entered in its own module then, nothing has been imported, and all functions are
pending. Such a tree is linked to itself.
-/
namespace ShellSema

/-- The tables of a module lead to symbols of its own. It has imported and stored nothing. -/
structure ScriptModule.Unlinked (tree : ScopeTree) (id : ModuleId) (m : ScriptModule) : Prop where
  functions : ∀ name f, m.functions.get? name = some f →
    ∃ access, tree.functionLabel? f = some ⟨id, access⟩
  structs : ∀ name struct, m.structs.get? name = some struct →
    ∃ access, tree.structLabel? struct = some ⟨id, access⟩
  imports : m.importedFunctions = {} ∧ m.importedStructs = {}
  stored : m.stored = none

namespace ScopeTree

/-- A tree in which nothing has been imported or analysed. -/
structure Unlinked (tree : ScopeTree) : Prop where
  modules : ∀ (id : ModuleId) m, tree.modules[id.index]? = some m → m.Unlinked tree id
  pending : ∀ f ∈ tree.functions, f.status = .pending

variable {tree : ScopeTree}

theorem Unlinked.linked (unlinked : tree.Unlinked) : tree.Linked tree := by
  refine ⟨rfl, rfl, rfl, rfl, fun id m found => ?_⟩
  obtain ⟨functions, structs, ⟨importedFunctions, importedStructs⟩, stored⟩ :=
    unlinked.modules id m found
  refine ⟨functions, structs, ?_, ?_, ⟨m, found, rfl, rfl⟩, ?_⟩
  · simp [importedFunctions]
  · simp [importedStructs]
  · simp [stored]

/-! ### Declarations -/

/-- What is declared before any analysis. -/
inductive Declaration where
  | addModule (parent : ModuleId) (name : String) (access : Access)
  | addScope (parent : ScopeId)
  | addFunction (name : String) (access : Access) (module : ModuleId) (parameters : List Parameter)
    (takesClosure : Bool)
  | addStruct (struct : ScriptStruct)
  | addImport (module : ModuleId) (queued : QueuedImport)

def Declaration.edit : Declaration → Edit Unit
  | .addModule parent name access => discard (Edit.addModule parent name access)
  | .addScope parent => discard (Edit.addScope parent)
  | .addFunction name access module parameters takesClosure =>
    discard (Edit.declareFunction { name, access, module, parameters, takesClosure })
  | .addStruct struct => discard (Edit.declareStruct struct)
  | .addImport module queued => Edit.queueImport module queued

/-- The tree in which some declarations have been made, one after the other. -/
def declare (root : String) (declarations : List Declaration) : ScopeTree :=
  (runFrom (declarations.forM Declaration.edit) (ofRoot root)).2

/-- If nothing had been imported or analysed, nothing has been. -/
def StaysUnlinked (before after : ScopeTree) : Prop := before.Unlinked → after.Unlinked

theorem staysUnlinked_refl (tree : ScopeTree) : StaysUnlinked tree tree := id

theorem StaysUnlinked.trans (first second third : ScopeTree) (one : StaysUnlinked first second)
    (other : StaysUnlinked second third) : StaysUnlinked first third :=
  other ∘ one

/-- Symbols are added, and those that there are keep their labels. -/
structure AddsSymbols (tree after : ScopeTree) : Prop where
  functions : ∀ id label, tree.functionLabel? id = some label → after.functionLabel? id = some label
  structs : ∀ id label, tree.structLabel? id = some label → after.structLabel? id = some label

theorem AddsSymbols.unlinked {after : ScopeTree} (adds : AddsSymbols tree after) {id : ModuleId}
    {m : ScriptModule} (unlinked : m.Unlinked tree id) : m.Unlinked after id := by
  refine ⟨?_, ?_, unlinked.imports, unlinked.stored⟩
  · intro name f found
    obtain ⟨access, label⟩ := unlinked.functions name f found
    exact ⟨access, adds.functions f _ label⟩
  · intro name struct found
    obtain ⟨access, label⟩ := unlinked.structs name struct found
    exact ⟨access, adds.structs struct _ label⟩

theorem addsSymbols_of_same {after : ScopeTree} (functions : after.functions = tree.functions)
    (structs : after.structs = tree.structs) : AddsSymbols tree after := by
  constructor <;> intro id label found
  · simpa only [functionLabel?, functions] using found
  · simpa only [structLabel?, structs] using found

theorem addsSymbols_pushFunction (tree : ScopeTree) (function : ScriptFunction) :
    AddsSymbols tree { tree with functions := tree.functions.push function } := by
  refine ⟨fun id label found => ?_, fun _ _ found => found⟩
  obtain ⟨f, there, rfl⟩ := Option.map_eq_some_iff.mp found
  rw [functionLabel?, getElem?_push_of_some there, Option.map_some]

theorem addsSymbols_pushStruct (tree : ScopeTree) (struct : ScriptStruct) :
    AddsSymbols tree { tree with structs := tree.structs.push struct } := by
  refine ⟨fun _ _ found => found, fun id label found => ?_⟩
  obtain ⟨other, there, rfl⟩ := Option.map_eq_some_iff.mp found
  rw [structLabel?, getElem?_push_of_some there, Option.map_some]

/-- Scopes and modules are changed or added. -/
theorem Unlinked.of_same {after : ScopeTree} (unlinked : tree.Unlinked)
    (functions : after.functions = tree.functions) (structs : after.structs = tree.structs)
    (modules : ∀ (id : ModuleId) m, after.modules[id.index]? = some m → m.Unlinked tree id) :
    after.Unlinked := by
  refine ⟨fun id m found => ?_, ?_⟩
  · exact (addsSymbols_of_same functions structs).unlinked (modules id m found)
  · rw [functions]
    exact unlinked.pending

theorem Unlinked.changeModule (unlinked : tree.Unlinked) (id : ModuleId)
    {change : ScriptModule → ScriptModule}
    (kept : ∀ m : ScriptModule, m.Unlinked tree id → (change m).Unlinked tree id) :
    (runFrom (Edit.changeModule id change) tree).2.Unlinked := by
  rw [Edit.state_changeModule]
  refine unlinked.of_same rfl rfl fun other m found => ?_
  rcases getElem?_modify_cases found with ⟨here, old, there, rfl⟩ | before
  · obtain rfl : id = other := ModuleId.index_injective here
    exact kept old (unlinked.modules id old there)
  · exact unlinked.modules other m before

/-- A function is stored and entered in its module. -/
theorem staysUnlinked_declareFunction (function : ScriptFunction)
    (pending : function.status = .pending) :
    Keeps StaysUnlinked (Edit.declareFunction function) := by
  intro tree unlinked
  rw [Edit.runFrom_declareFunction]
  split
  next room =>
    have adds := addsSymbols_pushFunction tree function
    have pushed : Unlinked { tree with functions := tree.functions.push function } := by
      refine ⟨fun id m found => adds.unlinked (unlinked.modules id m found), fun f member => ?_⟩
      rcases Array.mem_push.mp member with before | rfl
      · exact unlinked.pending f before
      · exact pending
    -- The handle that the module gets for the name is that of the function just stored.
    have label : functionLabel? { tree with functions := tree.functions.push function }
        ⟨UInt32.ofNat tree.functions.size⟩ = some ⟨function.module, function.access⟩ := by
      simp [functionLabel?, FunctionId.index, UInt32.toNat_ofNat_of_lt' room]
    have entered : Unlinked (runFrom (Edit.changeModule function.module fun m => { m with
        functions := m.functions.insert function.name ⟨UInt32.ofNat tree.functions.size⟩ })
        { tree with functions := tree.functions.push function }).2 := by
      refine pushed.changeModule function.module fun m own => ?_
      refine ⟨fun name f found => ?_, own.structs, own.imports, own.stored⟩
      rw [Table.get?_insert] at found
      split at found
      · cases found
        exact ⟨function.access, label⟩
      · exact own.functions name f found
    rcases ended : runFrom _ _ with ⟨fault | _, after⟩
    · rwa [ended] at entered
    · rwa [ended] at entered
  next => exact unlinked

/-- A struct is stored and entered in its module. -/
theorem staysUnlinked_declareStruct (struct : ScriptStruct) :
    Keeps StaysUnlinked (Edit.declareStruct struct) := by
  intro tree unlinked
  rw [Edit.runFrom_declareStruct]
  split
  next room =>
    have adds := addsSymbols_pushStruct tree struct
    have pushed : Unlinked { tree with structs := tree.structs.push struct } :=
      ⟨fun id m found => adds.unlinked (unlinked.modules id m found), unlinked.pending⟩
    have label : structLabel? { tree with structs := tree.structs.push struct }
        ⟨UInt32.ofNat tree.structs.size⟩ = some ⟨struct.module, struct.access⟩ := by
      simp [structLabel?, StructId.index, UInt32.toNat_ofNat_of_lt' room]
    have entered : Unlinked (runFrom (Edit.changeModule struct.module fun m => { m with
        structs := m.structs.insert struct.name ⟨UInt32.ofNat tree.structs.size⟩ })
        { tree with structs := tree.structs.push struct }).2 := by
      refine pushed.changeModule struct.module fun m own => ?_
      refine ⟨own.functions, fun name other found => ?_, own.imports, own.stored⟩
      rw [Table.get?_insert] at found
      split at found
      · cases found
        exact ⟨struct.access, label⟩
      · exact own.structs name other found
    rcases ended : runFrom _ _ with ⟨fault | _, after⟩
    · rwa [ended] at entered
    · rwa [ended] at entered
  next => exact unlinked

/-- A new module has empty tables, and a scope of its own. -/
theorem staysUnlinked_addModule (parent : ModuleId) (name : String) (access : Access) :
    Keeps StaysUnlinked (Edit.addModule parent name access) := by
  intro tree unlinked
  simp only [Edit.addModule, Edit.allocate, runFrom_bind, runFrom_get]
  by_cases modules : tree.modules.size < 2 ^ 32
  · simp only [modules, if_true, runFrom_pure]
    by_cases scopes : tree.scopes.size < 2 ^ 32
    · simp only [scopes, if_true, runFrom_pure, runFrom_set]
      -- A module starts out with nothing in it.
      have grown : Unlinked { tree with
          scopes := tree.scopes.push { parent := none, module := ⟨UInt32.ofNat tree.modules.size⟩ }
          modules := tree.modules.push
            { name, access, parent := some parent, scope := ⟨UInt32.ofNat tree.scopes.size⟩ } } := by
        refine unlinked.of_same rfl rfl fun id m found => ?_
        rcases getElem?_push_cases found with ⟨-, rfl⟩ | before
        · constructor <;> simp
        · exact unlinked.modules id m before
      have entered : Unlinked (runFrom (Edit.changeModule parent fun m => { m with
          submodules := m.submodules.insert name ⟨UInt32.ofNat tree.modules.size⟩ }) _).2 :=
        grown.changeModule parent fun m own =>
          ⟨own.functions, own.structs, own.imports, own.stored⟩
      rcases ended : runFrom _ _ with ⟨fault | _, after⟩
      · rwa [ended] at entered
      · rwa [ended] at entered
    · simp only [scopes, if_false, runFrom_throw]
      exact unlinked
  · simp only [modules, if_false, runFrom_throw]
    exact unlinked

theorem staysUnlinked_addScope (parent : ScopeId) :
    Keeps StaysUnlinked (Edit.addScope parent) := by
  intro tree unlinked
  rw [Edit.runFrom_addScope]
  split
  next => exact unlinked
  next =>
    split
    next => exact unlinked.of_same rfl rfl unlinked.modules
    next => exact unlinked

theorem staysUnlinked_queueImport (module : ModuleId) (queued : QueuedImport) :
    Keeps StaysUnlinked (Edit.queueImport module queued) :=
  fun _ unlinked => unlinked.changeModule module fun _ own =>
    ⟨own.functions, own.structs, own.imports, own.stored⟩

theorem state_discard {ε σ α : Type} (action : ExceptT ε (StateM σ) α) (s : σ) :
    (runFrom (discard action) s).2 = (runFrom action s).2 := by
  rw [show (discard action : ExceptT ε (StateM σ) PUnit) = (action >>= fun _ => pure ⟨⟩) from rfl,
    runFrom_bind]
  rcases runFrom action s with ⟨_ | _, t⟩ <;> rfl

theorem keeps_discard {ε σ α : Type} {R : σ → σ → Prop} {action : ExceptT ε (StateM σ) α}
    (kept : Keeps R action) : Keeps R (discard action) := by
  intro s
  rw [state_discard]
  exact kept s

theorem staysUnlinked_edit (declaration : Declaration) : Keeps StaysUnlinked declaration.edit := by
  cases declaration with
  | addModule parent name access => exact keeps_discard (staysUnlinked_addModule parent name access)
  | addScope parent => exact keeps_discard (staysUnlinked_addScope parent)
  | addFunction name access module parameters takesClosure =>
    exact keeps_discard (staysUnlinked_declareFunction _ rfl)
  | addStruct struct => exact keeps_discard (staysUnlinked_declareStruct struct)
  | addImport module queued => exact staysUnlinked_queueImport module queued

theorem unlinked_ofRoot (name : String) : (ofRoot name).Unlinked := by
  refine ⟨fun id m found => ?_, by simp [ofRoot]⟩
  have member := Array.mem_of_getElem? found
  simp only [ofRoot, Array.mem_singleton] at member
  subst member
  constructor <;> simp

/-- However a tree has been declared, nothing has been imported or analysed in it. -/
theorem unlinked_declare (root : String) (declarations : List Declaration) :
    (declare root declarations).Unlinked :=
  keeps_forM staysUnlinked_refl StaysUnlinked.trans declarations
    (fun declaration _ => staysUnlinked_edit declaration) _ (unlinked_ofRoot root)

end ScopeTree
end ShellSema
