import ShellSema.Scope.Tree

/-!
# Changing the tree of scopes

An edit gives a result or meets a fault, and leaves a tree in either case: what was changed before
the fault stays.
-/
namespace ShellSema.ScopeTree

abbrev Edit (α : Type) := ExceptT Fault (StateM ScopeTree) α

namespace Edit

/-- Ask the tree. -/
def ask {α : Type} (question : ScopeTree → Except Fault α) : Edit α := do
  match question (← get) with
  | .ok answer => return answer
  | .error fault => throw fault

/-- A handle number for the next entry of a store. -/
def allocate (size : Nat) : Edit UInt32 :=
  if size < 2 ^ 32 then return UInt32.ofNat size else throw .storeFull

/-! ### Entries -/

def changeScope (id : ScopeId) (change : Scope → Scope) : Edit Unit := do
  let tree ← get
  if tree.hasScope id then set { tree with scopes := tree.scopes.modify id.index change }
  else throw (.unknownScope id)

def changeModule (id : ModuleId) (change : ScriptModule → ScriptModule) : Edit Unit := do
  let tree ← get
  if tree.hasModule id then set { tree with modules := tree.modules.modify id.index change }
  else throw (.unknownModule id)

def changeFunction (id : FunctionId) (change : ScriptFunction → ScriptFunction) : Edit Unit := do
  let tree ← get
  if tree.hasFunction id then set { tree with functions := tree.functions.modify id.index change }
  else throw (.unknownFunction id)

def changeStruct (id : StructId) (change : ScriptStruct → ScriptStruct) : Edit Unit := do
  let tree ← get
  if tree.hasStruct id then set { tree with structs := tree.structs.modify id.index change }
  else throw (.unknownStruct id)

/-! ### Growing the tree -/

/-- A new module with a root scope of its own, entered under its parent. -/
def addModule (parent : ModuleId) (name : String) (access : Access) : Edit ModuleId := do
  let tree ← get
  let id := ⟨← allocate tree.modules.size⟩
  let scope := ⟨← allocate tree.scopes.size⟩
  set { tree with
    scopes := tree.scopes.push { parent := none, module := id }
    modules := tree.modules.push { name, access, parent := some parent, scope } }
  changeModule parent fun module => { module with submodules := module.submodules.insert name id }
  return id

/-- A new scope within another one, in the same module. -/
def addScope (parent : ScopeId) : Edit ScopeId := do
  let outer ← ask (·.scope parent)
  let tree ← get
  let id := ⟨← allocate tree.scopes.size⟩
  set { tree with scopes := tree.scopes.push { parent := some parent, module := outer.module } }
  return id

/-- Store a function and enter its name in its module. -/
def declareFunction (function : ScriptFunction) : Edit FunctionId := do
  let tree ← get
  let id := ⟨← allocate tree.functions.size⟩
  set { tree with functions := tree.functions.push function }
  changeModule function.module fun module =>
    { module with functions := module.functions.insert function.name id }
  return id

/-- Store a struct and enter its name in its module. -/
def declareStruct (struct : ScriptStruct) : Edit StructId := do
  let tree ← get
  let id := ⟨← allocate tree.structs.size⟩
  set { tree with structs := tree.structs.push struct }
  changeModule struct.module fun module =>
    { module with structs := module.structs.insert struct.name id }
  return id

/-- Have a name imported when the module is analysed. -/
def queueImport (module : ModuleId) (queued : QueuedImport) : Edit Unit :=
  changeModule module fun m => { m with importQueue := m.importQueue ++ [queued] }

/-- Empty the import queue of a module and return what stood in it. -/
def takeImports (module : ModuleId) : Edit (List QueuedImport) := do
  let queue := (← ask (·.module module)).importQueue
  changeModule module fun m => { m with importQueue := [] }
  return queue

/-! ### Registering what was analysed -/

/-- Replace a function and enter its name in its module. -/
def registerFunction (id : FunctionId) (function : ScriptFunction) : Edit Unit := do
  changeFunction id fun _ => function
  changeModule function.module fun module =>
    { module with functions := module.functions.insert function.name id }

/-- Replace the struct of this name in its module, or declare it. -/
def registerStruct (struct : ScriptStruct) : Edit StructId := do
  let module ← ask (·.module struct.module)
  match module.structs.get? struct.name with
  | some id =>
    changeStruct id fun _ => struct
    return id
  | none => declareStruct struct

/-! ### Variables -/

/-- Declare a variable; one that the scope has is kept. -/
def addVariable (scope : ScopeId) (name : String) : Edit Unit :=
  changeScope scope fun s => { s with locals := s.locals.insertNew name { name } }

/-- Mark a variable that a scope declares as captured. -/
def captureHere (scope : ScopeId) (name : String) : Edit Unit :=
  changeScope scope fun s =>
    { s with locals := s.locals.adjust name fun v => { v with isCaptured := true } }

/-- Mark the variable that a scope sees as captured; says whether there is one. -/
def capture (scope : ScopeId) (name : String) : Edit Bool := do
  match ← ask (·.declaringScope scope name) with
  | some declaring =>
    captureHere declaring name
    return true
  | none => return false

end Edit

end ShellSema.ScopeTree
