import ShellSema.Format.AnalysisUnit
import ShellSema.Proofs.ExpressionFormat

/-!
# Unit files are loaded as they are written

A unit is decoded from what it is written as, whatever its tables and trees hold. So the text of a unit
without problems loads as that unit, if it nests no deeper than texts may and its floating point numbers
survive being written.
-/
namespace ShellSema

/-! ### Scopes and symbols -/

@[simp] theorem Variable.ofJson?_toJson (v : Variable) : ofJson? v.toJson = some v := by
  refine Json.decodes_record (by simp) (by decide) ?_
  simp only [↓Json.bind_eq_some_iff]
  simp

@[simp] theorem Variable.faithful_toJson (v : Variable) : v.toJson.Faithful := by
  simp [toJson]

@[simp] theorem Scope.ofJson?_toJson (s : Scope) : ofJson? s.toJson = some s := by
  refine Json.decodes_record (by simp) (by decide) ?_
  simp only [↓Json.bind_eq_some_iff]
  simp [Json.option?_option, Json.table?_ofTable, Scope.variables]

@[simp] theorem Scope.faithful_toJson (s : Scope) : s.toJson.Faithful := by
  simp [toJson]

@[simp] theorem ScriptFunction.ofJson?_toJson (f : ScriptFunction) : ofJson? f.toJson = some f := by
  refine Json.decodes_record (by simp) (by decide) ?_
  simp only [↓Json.bind_eq_some_iff]
  simp [list?_parameters]

@[simp] theorem ScriptStruct.ofJson?_toJson (s : ScriptStruct) : ofJson? s.toJson = some s := by
  refine Json.decodes_record (by simp) (by decide) ?_
  simp only [↓Json.bind_eq_some_iff]
  simp [list?_parameters]

@[simp] theorem QueuedImport.ofJson?_toJson (queued : QueuedImport) :
    ofJson? queued.toJson = some queued := by
  refine Json.decodes_record (by simp) (by decide) ?_
  simp only [↓Json.bind_eq_some_iff]
  simp

@[simp] theorem QueuedImport.faithful_toJson (queued : QueuedImport) : queued.toJson.Faithful := by
  simp [toJson]

@[simp] theorem ScriptModule.ofJson?_toJson (m : ScriptModule) : ofJson? m.toJson = some m := by
  obtain ⟨name, access, parent, scope, submodules, importedModules, functions, importedFunctions,
    structs, importedStructs, importQueue, status, stored⟩ := m
  refine Json.decodes_record ?_ (by decide) ?_
  · cases stored <;> simp
  simp only [↓Json.bind_eq_some_iff]
  -- A module that stores no tree leaves the last field out.
  cases stored with
  | none => simp [Json.option?_option, Json.table?_ofTable, Json.list?_map]
  | some ast =>
    simp [Json.option?_option, Json.table?_ofTable, Json.list?_map,
      Json.option?_of_isNull ast.ofJson?_toJson rfl]

@[simp] theorem ScopeTree.ofJson?_toJson (tree : ScopeTree) : ofJson? tree.toJson = some tree := by
  refine Json.decodes_record (by simp) (by decide) ?_
  simp only [↓Json.bind_eq_some_iff]
  simp [Json.list?_map]

@[simp] theorem ModuleTree.ofJson?_toJson (listed : ModuleTree) :
    ofJson? listed.toJson = some listed := by
  refine Json.decodes_record (by simp) (by decide) ?_
  simp only [↓Json.bind_eq_some_iff]
  simp [Ast.ofJson?_toJson]

/-- A unit is decoded from what it is written as. -/
theorem AnalysisUnit.ofJson?_toJson (unit : AnalysisUnit) : ofJson? unit.toJson = some unit := by
  refine Json.decodes_record (by simp) (by decide) ?_
  simp only [↓Json.bind_eq_some_iff]
  simp [Json.list?_map]

/-! ### Floating point numbers in units -/

/-- The floating point numbers in the default values of parameters. -/
def floatsOfParameters (parameters : List Parameter) : List Binary64 :=
  (parameters.flatMap Parameter.children).flatMap Expr.floats

def Ast.floats (ast : Ast) : List Binary64 := ast.expressions.flatMap Expr.floats

/-- The floating point numbers that a unit holds: in the trees it lists, in the trees that its modules
store, and in the parameters of its functions and structs. -/
def AnalysisUnit.floats (unit : AnalysisUnit) : List Binary64 :=
  unit.modules.flatMap (fun listed => listed.ast.floats) ++
    unit.scopes.modules.toList.flatMap (fun m => m.stored.toList.flatMap Ast.floats) ++
    unit.scopes.functions.toList.flatMap (fun f => floatsOfParameters f.parameters) ++
    unit.scopes.structs.toList.flatMap (fun s => floatsOfParameters s.parameters)

theorem faithful_parameters {parameters : List Parameter}
    (reads : ∀ x ∈ floatsOfParameters parameters, x.ReadsBack) :
    (Json.array (parametersToJson parameters)).Faithful := by
  refine .array (faithful_parametersToJson fun c child => Expr.faithful_toJson fun x inside => ?_)
  exact reads x (List.mem_flatMap.mpr ⟨c, child, inside⟩)

theorem Ast.faithful_toJson {ast : Ast} (reads : ∀ x ∈ ast.floats, x.ReadsBack) :
    ast.toJson.Faithful := by
  have all : ∀ e ∈ ast.expressions, e.toJson.Faithful := fun e member =>
    Expr.faithful_toJson fun x inside => reads x (List.mem_flatMap.mpr ⟨e, member, inside⟩)
  simpa [toJson, exprsToJson_eq] using all

theorem ScriptFunction.faithful_toJson {f : ScriptFunction}
    (reads : ∀ x ∈ floatsOfParameters f.parameters, x.ReadsBack) : f.toJson.Faithful := by
  simpa [toJson] using faithful_parameters reads

theorem ScriptStruct.faithful_toJson {s : ScriptStruct}
    (reads : ∀ x ∈ floatsOfParameters s.parameters, x.ReadsBack) : s.toJson.Faithful := by
  simpa [toJson] using faithful_parameters reads

theorem ScriptModule.faithful_toJson {m : ScriptModule}
    (reads : ∀ x ∈ m.stored.toList.flatMap Ast.floats, x.ReadsBack) : m.toJson.Faithful := by
  obtain ⟨name, access, parent, scope, submodules, importedModules, functions, importedFunctions,
    structs, importedStructs, importQueue, status, stored⟩ := m
  cases stored with
  | none => simp [toJson]
  | some ast =>
    have tree : ast.toJson.Faithful := Ast.faithful_toJson (by simpa using reads)
    simp [toJson, tree]

/-- A unit is written faithfully if the floating point numbers that it holds are. -/
theorem AnalysisUnit.faithful_toJson {unit : AnalysisUnit}
    (reads : ∀ x ∈ unit.floats, x.ReadsBack) : unit.toJson.Faithful := by
  simp only [floats, List.forall_mem_append] at reads
  obtain ⟨⟨⟨listed, stored⟩, functions⟩, structs⟩ := reads
  have trees : ∀ tree ∈ unit.modules, tree.ast.toJson.Faithful := fun tree member =>
    Ast.faithful_toJson fun x inside => listed x (List.mem_flatMap.mpr ⟨tree, member, inside⟩)
  have modules : ∀ m ∈ unit.scopes.modules, m.toJson.Faithful := fun m member =>
    ScriptModule.faithful_toJson fun x inside =>
      stored x (List.mem_flatMap.mpr ⟨m, Array.mem_toList_iff.mpr member, inside⟩)
  have functions : ∀ f ∈ unit.scopes.functions, f.toJson.Faithful := fun f member =>
    ScriptFunction.faithful_toJson fun x inside =>
      functions x (List.mem_flatMap.mpr ⟨f, Array.mem_toList_iff.mpr member, inside⟩)
  have structs : ∀ s ∈ unit.scopes.structs, s.toJson.Faithful := fun s member =>
    ScriptStruct.faithful_toJson fun x inside =>
      structs x (List.mem_flatMap.mpr ⟨s, Array.mem_toList_iff.mpr member, inside⟩)
  simpa [toJson, ScopeTree.toJson, ModuleTree.toJson] using
    ⟨⟨modules, functions, structs⟩, trees⟩

/-! ### Loading -/

namespace AnalysisUnit

/-- Decoding the text of a unit, in any layout, gives the unit back. -/
theorem parse?_write {unit : AnalysisUnit} {layout : Json.Layout} (blank : layout.IsBlank)
    (nested : unit.toJson.depth ≤ nestingLimit) (reads : ∀ x ∈ unit.floats, x.ReadsBack) :
    parse? (Json.write layout unit.toJson) = some unit := by
  rw [parse?, Json.read?_write blank (faithful_toJson reads) nested]
  exact unit.ofJson?_toJson

/-- The text of a unit without problems loads as that unit, as it is rendered and in any other layout.
A reader may take the digits of a number for those of a neighbour; that it does not is asked of the
numbers of the unit. -/
theorem load_render {unit : AnalysisUnit} (fit : unit.problem? = none)
    (finite : ∀ x ∈ unit.floats, x.isFinite = true)
    (nested : unit.toJson.depth ≤ nestingLimit)
    (reads : ∀ x ∈ unit.floats, x.isFinite = true → x.ReadsBack) :
    load unit.render = .ok unit ∧
      ∀ layout : Json.Layout, layout.IsBlank → load (Json.write layout unit.toJson) = .ok unit := by
  have loads : ∀ layout : Json.Layout, layout.IsBlank →
      load (Json.write layout unit.toJson) = .ok unit := by
    intro layout blank
    have parsed := parse?_write blank nested fun x member => reads x member (finite x member)
    rw [load, parsed]
    simp only [fit]
  exact ⟨loads .indented Json.isBlank_indented, loads⟩

/-- A module with a function whose parameter has a default value, and with the tree that an analysis
left. -/
def halving : AnalysisUnit :=
  let half : Expr := .fresh (.literal { kind := .float, text := "1.5" }
    (some (.float ⟨0x3FF8000000000000⟩)))
  let parameter : Parameter := ⟨.identifier "n", some half, false⟩
  let ast : Ast := ⟨[.fresh (.functionDecl .exported (.identifier "half") [parameter]
    (.fresh (.block [half] .function ⟨1⟩)) ⟨0⟩ false ⟨0⟩)]⟩
  let inner : Scope :=
    { parent := some ⟨0⟩, module := ⟨0⟩, locals := .ofList [("n", { name := "n" })] }
  let main : ScriptModule :=
    { name := "main", scope := ⟨0⟩, functions := .ofList [("half", ⟨0⟩)], status := .analysed,
      stored := some ast }
  let function : ScriptFunction :=
    { name := "half", access := .exported, module := ⟨0⟩, parameters := [parameter],
      status := .analysed }
  { scopes :=
      { scopes := #[{ parent := none, module := ⟨0⟩ }, inner]
        modules := #[main]
        functions := #[function] }
    modules := [⟨⟨0⟩, ast⟩] }

theorem load_render_halving : halving.floats.length = 5 ∧ load halving.render = .ok halving := by
  refine ⟨by decide +kernel, (load_render ?_ ?_ ?_ ?_).1⟩
  · decide +kernel
  · decide +kernel
  · decide +kernel
  · decide +kernel

end AnalysisUnit
end ShellSema
