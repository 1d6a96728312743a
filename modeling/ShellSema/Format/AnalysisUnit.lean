import ShellSema.Input.AnalysisUnit
import ShellSema.Format.Scope
import ShellSema.Json.Reader
import ShellSema.Json.Writer

/-!
# Unit files

A unit file is a JSON text. Loading one reads the unit and looks for problems.
-/
namespace ShellSema

namespace ModuleTree

def toJson (tree : ModuleTree) : Json :=
  .object [("module", tree.module.toJson), ("ast", tree.ast.toJson)]

def ofJson? (json : Json) : Option ModuleTree := do
  let record ← json.record? ["module", "ast"]
  return { module := ← record.required "module" ModuleId.ofJson?
           ast := ← record.required "ast" Ast.ofJson? }

end ModuleTree

/-- Why a unit file cannot be used. -/
inductive LoadError where
  | malformed
  | unfit (problem : UnitProblem)
deriving DecidableEq, Repr

def LoadError.message : LoadError → String
  | .malformed => "failed to parse analysis unit"
  | .unfit problem => problem.message

namespace AnalysisUnit

def toJson (unit : AnalysisUnit) : Json :=
  .object [("scopes", unit.scopes.toJson), ("modules", .array (unit.modules.map ModuleTree.toJson))]

def ofJson? (json : Json) : Option AnalysisUnit := do
  let record ← json.record? ["scopes", "modules"]
  return { scopes := ← record.required "scopes" ScopeTree.ofJson?
           modules := ← record.optional "modules" (Json.list? ModuleTree.ofJson?) [] }

/-- How deep arrays and objects of a unit file may nest. -/
def nestingLimit : Nat := 127

def parse? (text : String) : Option AnalysisUnit := do
  ofJson? (← Json.read? (some nestingLimit) text)

def load (text : String) : Except LoadError AnalysisUnit :=
  match parse? text with
  | none => .error .malformed
  | some unit =>
    match unit.problem? with
    | some problem => .error (.unfit problem)
    | none => .ok unit

/-- The text of a unit file, one line for each item and member. -/
def render (unit : AnalysisUnit) : String := unit.toJson.pretty

end AnalysisUnit
end ShellSema
