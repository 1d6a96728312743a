import ShellSema.Scope.Symbol

/-!
# The tree of scopes and modules

Scopes, modules, functions and structs stand in four stores and name each other by handles. The
readers here answer a question or report the handle that leads nowhere. Chains of parents are
followed at most as many steps as there are entries, so a chain that closes into a ring is reported
too.
-/
namespace ShellSema

structure ScopeTree where
  scopes : Array Scope
  modules : Array ScriptModule
  functions : Array ScriptFunction := #[]
  structs : Array ScriptStruct := #[]

/-- Why the tree cannot answer. -/
inductive ScopeTree.Fault where
  | unknownScope (id : ScopeId)
  | unknownModule (id : ModuleId)
  | unknownFunction (id : FunctionId)
  | unknownStruct (id : StructId)
  | storeFull
  | endlessChain
deriving DecidableEq, Repr

namespace ScopeTree

/-- The handle of the root module. -/
def root : ModuleId := ⟨0⟩

/-- The tree that holds the root module and its scope only. -/
def ofRoot (name : String) : ScopeTree :=
  { scopes := #[{ parent := none, module := root }]
    modules := #[{ name, access := .exported, scope := ⟨0⟩ }] }

/-! ### Entries -/

def scope (tree : ScopeTree) (id : ScopeId) : Except Fault Scope :=
  match tree.scopes[id.index]? with
  | some scope => .ok scope
  | none => .error (.unknownScope id)

def module (tree : ScopeTree) (id : ModuleId) : Except Fault ScriptModule :=
  match tree.modules[id.index]? with
  | some module => .ok module
  | none => .error (.unknownModule id)

def function (tree : ScopeTree) (id : FunctionId) : Except Fault ScriptFunction :=
  match tree.functions[id.index]? with
  | some function => .ok function
  | none => .error (.unknownFunction id)

def struct (tree : ScopeTree) (id : StructId) : Except Fault ScriptStruct :=
  match tree.structs[id.index]? with
  | some struct => .ok struct
  | none => .error (.unknownStruct id)

def hasScope (tree : ScopeTree) (id : ScopeId) : Bool := id.index < tree.scopes.size
def hasModule (tree : ScopeTree) (id : ModuleId) : Bool := id.index < tree.modules.size
def hasFunction (tree : ScopeTree) (id : FunctionId) : Bool := id.index < tree.functions.size
def hasStruct (tree : ScopeTree) (id : StructId) : Bool := id.index < tree.structs.size

/-- The handles of all modules, ascending. -/
def moduleIds (tree : ScopeTree) : List ModuleId :=
  (List.range tree.modules.size).map fun index => ⟨UInt32.ofNat index⟩

/-! ### Variables -/

/-- Whether a scope itself declares a variable. -/
def declaresHere (tree : ScopeTree) (scope : ScopeId) (name : String) : Except Fault Bool := do
  return (← tree.scope scope).locals.contains name

/-- The innermost scope that declares a variable, among so many from a scope outwards. -/
def declaringWithin (tree : ScopeTree) (name : String) :
    Nat → ScopeId → Except Fault (Option ScopeId)
  | 0, _ => .error .endlessChain
  | steps + 1, id => do
    let scope ← tree.scope id
    if scope.locals.contains name then return some id
    match scope.parent with
    | some parent => declaringWithin tree name steps parent
    | none => return none

/-- The innermost scope that declares a variable, from a scope outwards. -/
def declaringScope (tree : ScopeTree) (scope : ScopeId) (name : String) :
    Except Fault (Option ScopeId) :=
  tree.declaringWithin name (tree.scopes.size + 1) scope

/-- Whether a scope or one around it declares a variable. -/
def isVisible (tree : ScopeTree) (scope : ScopeId) (name : String) : Except Fault Bool := do
  return (← tree.declaringScope scope name).isSome

/-- The variable of a name that a scope sees. -/
def variableOf? (tree : ScopeTree) (scope : ScopeId) (name : String) :
    Except Fault (Option Variable) := do
  match ← tree.declaringScope scope name with
  | some id => return (← tree.scope id).locals.get? name
  | none => return none

/-! ### Modules -/

/-- The names of a module and the modules around it, outermost last, without the root. -/
def pathWithin (tree : ScopeTree) : Nat → ModuleId → Except Fault (List String)
  | 0, _ => .error .endlessChain
  | steps + 1, id => do
    let module ← tree.module id
    match module.parent with
    | some parent => return module.name :: (← pathWithin tree steps parent)
    | none => return []

/-- The names from the root down to a module, without the root. -/
def modulePath (tree : ScopeTree) (id : ModuleId) : Except Fault (List String) := do
  return (← tree.pathWithin (tree.modules.size + 1) id).reverse

/-- Go down from a module by the names of submodules. -/
def descend (tree : ScopeTree) : ModuleId → List String → Except Fault (Option ModuleId)
  | current, [] => return some current
  | current, segment :: segments => do
    match (← tree.module current).submodule? segment false with
    | some next => descend tree next segments
    | none => return none

/-- The module that a path means as seen from a module. The first name is one of its submodules, or
an import if wanted, or else a submodule of the root; the others are submodules of the one before.
The empty path means the module itself. -/
def findModule (tree : ScopeTree) (origin : ModuleId) (path : List String) (inImports : Bool) :
    Except Fault (Option ModuleId) := do
  match path with
  | [] => return some origin
  | first :: segments =>
    match (← tree.module origin).submodule? first inImports with
    | some next => tree.descend next segments
    | none =>
      match (← tree.module root).submodule? first false with
      | some next => tree.descend next segments
      | none => return none

/-- The function of a name in a module, unless its analysis failed. -/
def findFunction (tree : ScopeTree) (module : ModuleId) (name : String) (inImports : Bool) :
    Except Fault (Option FunctionId) := do
  match (← tree.module module).function? name inImports with
  | some id => return if (← tree.function id).status = .failed then none else some id
  | none => return none

def findStruct (tree : ScopeTree) (module : ModuleId) (name : String) (inImports : Bool) :
    Except Fault (Option StructId) := do
  return (← tree.module module).struct? name inImports

end ScopeTree
end ShellSema
