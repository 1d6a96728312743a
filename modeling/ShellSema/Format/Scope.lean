import ShellSema.Scope.Tree
import ShellSema.Format.Syntax

/-!
# Scopes and modules in unit files
-/
namespace ShellSema

namespace Status

def tag : Status → String
  | .pending => "None"
  | .analysed => "Analysed"
  | .failed => "Failed"

def ofJson? : Json → Option Status := Json.choice? [.pending, .analysed, .failed] tag

end Status

namespace Variable

def toJson (v : Variable) : Json :=
  .object [("name", .string v.name), ("is_captured", .bool v.isCaptured)]

def ofJson? (json : Json) : Option Variable := do
  let record ← json.record? ["name", "is_captured"]
  return { name := ← record.required "name" Json.string?
           isCaptured := ← record.optional "is_captured" Json.bool? false }

end Variable

namespace Scope

def toJson (s : Scope) : Json :=
  .object [("parent", .option ScopeId.toJson s.parent), ("module", s.module.toJson),
    ("variables", .ofTable Variable.toJson s.variables)]

def ofJson? (json : Json) : Option Scope := do
  let record ← json.record? ["parent", "module", "variables"]
  return { parent := ← record.nullable "parent" ScopeId.ofJson?
           module := ← record.required "module" ModuleId.ofJson?
           locals := ← record.optional "variables" (Json.table? Variable.ofJson?) {} }

end Scope

namespace ScriptFunction

def toJson (f : ScriptFunction) : Json :=
  .object [("name", .string f.name), ("access", .string f.access.tag),
    ("module", f.module.toJson), ("parameters", .array (parametersToJson f.parameters)),
    ("has_closure", .bool f.takesClosure), ("closure_captured", .bool f.carrierCaptured),
    ("status", .string f.status.tag)]

def ofJson? (json : Json) : Option ScriptFunction := do
  let record ← json.record?
    ["name", "access", "module", "parameters", "has_closure", "closure_captured", "status"]
  return { name := ← record.required "name" Json.string?
           access := ← record.optional "access" Access.ofJson? .restricted
           module := ← record.required "module" ModuleId.ofJson?
           parameters := ← record.optional "parameters" (Json.list? Parameter.ofJson?) []
           takesClosure := ← record.optional "has_closure" Json.bool? false
           carrierCaptured := ← record.optional "closure_captured" Json.bool? false
           status := ← record.optional "status" Status.ofJson? .pending }

end ScriptFunction

namespace ScriptStruct

def toJson (s : ScriptStruct) : Json :=
  .object [("name", .string s.name), ("access", .string s.access.tag),
    ("module", s.module.toJson), ("parameters", .array (parametersToJson s.parameters))]

def ofJson? (json : Json) : Option ScriptStruct := do
  let record ← json.record? ["name", "access", "module", "parameters"]
  return { name := ← record.required "name" Json.string?
           access := ← record.optional "access" Access.ofJson? .restricted
           module := ← record.required "module" ModuleId.ofJson?
           parameters := ← record.optional "parameters" (Json.list? Parameter.ofJson?) [] }

end ScriptStruct

namespace QueuedImport

def toJson (queued : QueuedImport) : Json :=
  .object [("origin", queued.origin.toJson), ("token", queued.token.toJson)]

def ofJson? (json : Json) : Option QueuedImport := do
  let record ← json.record? ["origin", "token"]
  return { origin := ← record.required "origin" ModuleId.ofJson?
           token := ← record.required "token" Token.ofJson? }

end QueuedImport

namespace ScriptModule

def toJson (m : ScriptModule) : Json :=
  .object ([("name", .string m.name), ("access", .string m.access.tag),
    ("parent", .option ModuleId.toJson m.parent), ("scope", m.scope.toJson),
    ("submodules", .ofTable ModuleId.toJson m.submodules),
    ("imported_modules", .ofTable ModuleId.toJson m.importedModules),
    ("functions", .ofTable FunctionId.toJson m.functions),
    ("imported_functions", .ofTable FunctionId.toJson m.importedFunctions),
    ("structs", .ofTable StructId.toJson m.structs),
    ("imported_structs", .ofTable StructId.toJson m.importedStructs),
    ("unresolved_imports", .array (m.importQueue.map QueuedImport.toJson)),
    ("status", .string m.status.tag)] ++
    (m.stored.map fun ast => ("ast", ast.toJson)).toList)

def ofJson? (json : Json) : Option ScriptModule := do
  let record ← json.record? ["name", "access", "parent", "scope", "submodules",
    "imported_modules", "functions", "imported_functions", "structs", "imported_structs",
    "unresolved_imports", "status", "ast"]
  return { name := ← record.required "name" Json.string?
           access := ← record.optional "access" Access.ofJson? .restricted
           parent := ← record.nullable "parent" ModuleId.ofJson?
           scope := ← record.required "scope" ScopeId.ofJson?
           submodules := ← record.optional "submodules" (Json.table? ModuleId.ofJson?) {}
           importedModules :=
             ← record.optional "imported_modules" (Json.table? ModuleId.ofJson?) {}
           functions := ← record.optional "functions" (Json.table? FunctionId.ofJson?) {}
           importedFunctions :=
             ← record.optional "imported_functions" (Json.table? FunctionId.ofJson?) {}
           structs := ← record.optional "structs" (Json.table? StructId.ofJson?) {}
           importedStructs :=
             ← record.optional "imported_structs" (Json.table? StructId.ofJson?) {}
           importQueue :=
             ← record.optional "unresolved_imports" (Json.list? QueuedImport.ofJson?) []
           status := ← record.optional "status" Status.ofJson? .pending
           stored := ← record.nullable "ast" Ast.ofJson? }

end ScriptModule

namespace ScopeTree

def toJson (tree : ScopeTree) : Json :=
  .object [("scopes", .array (tree.scopes.toList.map Scope.toJson)),
    ("modules", .array (tree.modules.toList.map ScriptModule.toJson)),
    ("functions", .array (tree.functions.toList.map ScriptFunction.toJson)),
    ("structs", .array (tree.structs.toList.map ScriptStruct.toJson))]

def ofJson? (json : Json) : Option ScopeTree := do
  let record ← json.record? ["scopes", "modules", "functions", "structs"]
  return { scopes := (← record.required "scopes" (Json.list? Scope.ofJson?)).toArray
           modules := (← record.required "modules" (Json.list? ScriptModule.ofJson?)).toArray
           functions :=
             (← record.optional "functions" (Json.list? ScriptFunction.ofJson?) []).toArray
           structs := (← record.optional "structs" (Json.list? ScriptStruct.ofJson?) []).toArray }

end ScopeTree
end ShellSema
