import ShellSema.Analysis.State

/-!
# Imports

The names that a module queued for import are looked up in the modules they come from, first among
functions, then structs, then modules. Only what is exported can be imported.
-/
namespace ShellSema

/-- What an imported name stands for. -/
inductive ImportTarget where
  | function (id : FunctionId)
  | struct (id : StructId)
  | module (id : ModuleId)
deriving DecidableEq, Repr

/-- What a module declares under a name. -/
def ScopeTree.declared (tree : ScopeTree) (origin : ModuleId) (name : String) :
    Except Fault (Option ImportTarget) := do
  match ← tree.findFunction origin name false with
  | some id => return some (.function id)
  | none =>
    match ← tree.findStruct origin name false with
    | some id => return some (.struct id)
    | none =>
      match (← tree.module origin).submodule? name false with
      | some id => return some (.module id)
      | none => return none

def ScopeTree.accessOf (tree : ScopeTree) : ImportTarget → Except Fault Access
  | .function id => do return (← tree.function id).access
  | .struct id => do return (← tree.struct id).access
  | .module id => do return (← tree.module id).access

/-- Enter an import in the table of its kind. -/
def ScriptModule.importTarget (m : ScriptModule) (name : String) : ImportTarget → ScriptModule
  | .function id => m.importFunction name id
  | .struct id => m.importStruct name id
  | .module id => m.importModule name id

namespace Walk

def resolveImport (module : ModuleId) (queued : QueuedImport) : Walk Unit := do
  let name := queued.token.text
  match ← ask (·.declared queued.origin name) with
  | none => failAt (.missingImport name) queued.token.span
  | some target =>
    if (← ask (·.accessOf target)) ≠ .exported then failAt (.privateImport name) queued.token.span
    edit (ScopeTree.Edit.changeModule module (·.importTarget name target))

/-- Empty the import queue of a module and resolve what stood in it. -/
def resolveImports (module : ModuleId) : Walk Unit := do
  let queue ← edit (ScopeTree.Edit.takeImports module)
  queue.forM (resolveImport module)

end Walk
end ShellSema
