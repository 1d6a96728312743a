import ShellSema.Scope.Tree
import ShellSema.Text.Parts

/-!
# Modules as users write them

A module is written as the names on the way to it from the root, with double colons between them.
The root is the empty text; where a name is needed, it shows its own.
-/
namespace ShellSema

/-- The names in a written path. Empty ones do not count. -/
def writtenPath (text : String) : List String :=
  ((Text.colonParts text.toList).filter (!·.isEmpty)).map String.ofList

namespace ScopeTree

/-- The text that stands for a module in messages. -/
def label (tree : ScopeTree) (id : ModuleId) : Except Fault String := do
  let path ← tree.modulePath id
  if path.isEmpty then return (← tree.module id).name else return "::".intercalate path

/-- The first of some modules that has a path. -/
def firstAt (tree : ScopeTree) (path : List String) :
    List ModuleId → Except Fault (Option ModuleId)
  | [] => return none
  | id :: rest => do
    if (← tree.modulePath id) = path then return some id
    firstAt tree path rest

/-- The first module that has a written path. -/
def writtenModule? (tree : ScopeTree) (text : String) : Except Fault (Option ModuleId) :=
  tree.firstAt (writtenPath text) tree.moduleIds

end ScopeTree
end ShellSema
