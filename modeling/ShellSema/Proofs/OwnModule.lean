import ShellSema.Proofs.ModuleRuns

/-!
# The module that an analysis is about

A walk enters functions and structs in the tables of modules, and changes nothing else of a module,
whatever it declares and wherever. Imports are resolved before the walk over a tree, by the analysis
of the module itself, and so is its status set. How far a module has come, by its status, the imports
that it has queued, and the tree that an earlier analysis has left, is up to its own analysis.
-/
namespace ShellSema

/-- How far the analysis of a module has come. -/
structure Progress where
  status : Status
  importQueue : List QueuedImport
  stored : Option Ast

def ScriptModule.progress (m : ScriptModule) : Progress := ⟨m.status, m.importQueue, m.stored⟩

/-- How far the analysis of a module has come, if the tree has the module. -/
def ScopeTree.progress? (tree : ScopeTree) (id : ModuleId) : Option Progress :=
  (tree.modules[id.index]?).map ScriptModule.progress

/-- What there is of a module beside the functions and structs that it declares. -/
def ScriptModule.bare (m : ScriptModule) : ScriptModule := { m with functions := {}, structs := {} }

/-- Some modules are as they were, beside the functions and structs that they declare. -/
def KeepsBare (modules : ModuleId → Prop) (s t : AnalysisState) : Prop :=
  ∀ id, modules id → (t.tree.modules[id.index]?).map ScriptModule.bare =
    (s.tree.modules[id.index]?).map ScriptModule.bare

section Bare

variable {modules : ModuleId → Prop}

theorem keepsBare_refl (s : AnalysisState) : KeepsBare modules s s := fun _ _ => rfl

theorem KeepsBare.trans (r s t : AnalysisState) (first : KeepsBare modules r s)
    (rest : KeepsBare modules s t) : KeepsBare modules r t :=
  fun id kept => (rest id kept).trans (first id kept)

theorem keepsBare_of_modules {s t : AnalysisState} (same : t.tree.modules = s.tree.modules) :
    KeepsBare modules s t := by
  intro id _
  rw [same]

/-- What is read of a module beside its declarations is as it was. -/
theorem KeepsBare.read {s t : AnalysisState} (kept : KeepsBare modules s t) {id : ModuleId}
    (inside : modules id) {α : Type} {part : ScriptModule → α} (shown : ∀ m, part m.bare = part m) :
    (t.tree.modules[id.index]?).map part = (s.tree.modules[id.index]?).map part := by
  have same := congrArg (Option.map part) (kept id inside)
  simpa only [Option.map_map, Function.comp_def, shown] using same

/-- A module may be changed if it is not among those that stay, or if the change is one of its
declarations. -/
theorem keepsBare_changeModule {id : ModuleId} {change : ScriptModule → ScriptModule}
    (free : ¬ modules id ∨ ∀ m, (change m).bare = m.bare) :
    Keeps (KeepsBare modules) (Walk.edit (ScopeTree.Edit.changeModule id change)) := by
  intro s
  rw [runFrom_edit_state, ScopeTree.Edit.state_changeModule]
  intro other kept
  dsimp only
  by_cases same : id = other
  · subst same
    have change := free.resolve_left (not_not.mpr kept)
    exact map_getElem?_modify (fun m _ => change m) id.index
  · rw [getElem?_modify_handle ModuleId.index_injective, if_neg same]

theorem keepsBare_changeFunction (id : FunctionId) (change : ScriptFunction → ScriptFunction) :
    Keeps (KeepsBare modules) (Walk.edit (ScopeTree.Edit.changeFunction id change)) := by
  intro s
  rw [runFrom_edit_state, ScopeTree.Edit.state_changeFunction]
  exact keepsBare_of_modules rfl

theorem keepsBare_changeStruct (id : StructId) (change : ScriptStruct → ScriptStruct) :
    Keeps (KeepsBare modules) (Walk.edit (ScopeTree.Edit.changeStruct id change)) := by
  intro s
  rw [runFrom_edit_state, ScopeTree.Edit.state_changeStruct]
  exact keepsBare_of_modules rfl

theorem keepsBare_declareStruct (struct : ScriptStruct) :
    Keeps (KeepsBare modules) (Walk.edit (ScopeTree.Edit.declareStruct struct)) := by
  intro s
  rw [runFrom_edit_state, ScopeTree.Edit.runFrom_declareStruct]
  split
  · have enters : Keeps (KeepsBare modules) (Walk.edit
        (ScopeTree.Edit.changeModule struct.module fun m =>
          { m with structs := m.structs.insert struct.name ⟨UInt32.ofNat s.tree.structs.size⟩ })) :=
      keepsBare_changeModule (.inr fun _ => rfl)
    -- The struct itself is entered among the structs; its name, in the table of its module.
    have entered := enters { s with tree := { s.tree with structs := s.tree.structs.push struct } }
    rw [runFrom_edit_state] at entered
    rcases ended : runFrom _ _ with ⟨fault | _, later⟩ <;> rw [ended] at entered <;> exact entered
  · exact keepsBare_refl s

/-- A walk leaves all modules alone beside what they declare. -/
theorem keepsBare_preserved (may : Permit) : Preserved (KeepsBare modules) may := by
  refine preserved_of_sameSymbols KeepsBare.trans
    (fun s t same => keepsBare_of_modules same.modules) ?_ ?_ ?_
  · intro access name parameters module takesClosure id _
    refine keeps_bind KeepsBare.trans (keeps_get keepsBare_refl) fun state => ?_
    exact keeps_registerFunction KeepsBare.trans (keepsBare_changeFunction _ _)
      (keepsBare_changeModule (.inr fun _ => rfl))
  · intro access name parameters module _
    exact keeps_registerStruct KeepsBare.trans keepsBare_refl (fun _ => keepsBare_changeStruct _ _)
      (keepsBare_declareStruct _)
  · intro access name module takesClosure id _
    exact keepsBare_changeFunction _ _

/-- The walk over a row of expressions does so too, wherever it stands. -/
theorem keepsBare_exprs (context : Context) (es : List Expr) :
    Keeps (KeepsBare modules) (Walk.exprs context es) :=
  (keepsBare_preserved (Permit.onScopes fun _ => True)).keeps_exprs trivial _
    fun e _ => e.permitted_everywhere

end Bare

namespace Analysis

/-- An analysis changes no other module than its own beside its declarations, also when it halts. -/
theorem keepsBare_moduleWalk (registry : Registry) (mode : AnalysisMode) (module : ModuleId)
    (ast : Ast) : Keeps (KeepsBare (· ≠ module)) (moduleWalk registry mode module ast) := by
  have own (change : ScriptModule → ScriptModule) :
      Keeps (KeepsBare (· ≠ module)) (Walk.edit (ScopeTree.Edit.changeModule module change)) :=
    keepsBare_changeModule (.inl (not_not.mpr rfl))
  exact keeps_moduleWalk keepsBare_refl KeepsBare.trans (fun _ => own _) (fun _ _ => own _)
    (keeps_resolveImports keepsBare_refl KeepsBare.trans fun change _ => own change)
    fun _ => keepsBare_exprs _ _

/-- An analysis changes the progress of its own module only, also when it halts. -/
theorem progress_analyze (registry : Registry) (mode : AnalysisMode) (tree : ScopeTree)
    (module : ModuleId) (ast : Ast) {other : ModuleId} (apart : other ≠ module) :
    (analyze registry mode tree module ast).tree.progress? other = tree.progress? other := by
  unfold analyze
  split
  · rfl
  · rfl
  · have kept : KeepsBare (· ≠ module) { tree }
      (runFrom (moduleWalk registry mode module ast) { tree }).2 :=
        keepsBare_moduleWalk registry mode module ast { tree }
    exact kept.read apart fun _ => rfl

end Analysis
end ShellSema
