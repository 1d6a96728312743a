import ShellSema.Proofs.Linking
import ShellSema.Proofs.Targets

/-!
# What lookups find

A name that is looked up from a module is found in a table of that module, or in a table of a module
that a path leads to. In a linked tree the first is always allowed, and the second is checked. What
is imported is checked when it is imported.
-/
namespace ShellSema

section Lookups

variable {base : ScopeTree}

namespace ScopeTree

variable {tree : ScopeTree}

theorem Linked.functionLabel? (linked : Linked base tree) {id : FunctionId} {f : ScriptFunction}
    (found : tree.function id = .ok f) : base.functionLabel? id = some ⟨f.module, f.access⟩ := by
  rw [← linked.functions]
  simp [ScopeTree.functionLabel?, function_eq_ok.mp found]

theorem Linked.structLabel? (linked : Linked base tree) {id : StructId} {struct : ScriptStruct}
    (found : tree.struct id = .ok struct) :
    base.structLabel? id = some ⟨struct.module, struct.access⟩ := by
  rw [← linked.structs]
  simp [ScopeTree.structLabel?, struct_eq_ok.mp found]

/-- A function that a module has under a name may be used in that module. -/
theorem Linked.sees_of_findFunction (linked : Linked base tree) {module : ModuleId} {name : String}
    {id : FunctionId} (found : tree.findFunction module name true = .ok (some id)) :
    base.SeesFunction module id := by
  unfold findFunction at found
  cases known : tree.module module with
  | error fault => rw [known] at found; cases found
  | ok m =>
    have tables := linked.modules module m (module_eq_ok.mp known)
    rw [known, ok_bind] at found
    cases named : m.function? name true with
    | none => rw [named] at found; cases found
    | some other =>
      simp only [named] at found
      have same : other = id := by
        cases there : tree.function other with
        | error fault => rw [there] at found; cases found
        | ok f =>
          rw [there, ok_bind] at found
          split at found
          · cases found
          · cases found
            rfl
      subst same
      -- The own functions of the module come before those that it has imported.
      rcases Option.or_eq_some_iff.mp named with own | ⟨-, imported⟩
      · obtain ⟨access, label⟩ := tables.functions name other own
        exact ⟨_, label, .inl rfl⟩
      · obtain ⟨owner, label⟩ := tables.importedFunctions name other imported
        exact ⟨_, label, .inr rfl⟩

/-- A struct that a module has under a name may be used in that module. -/
theorem Linked.sees_of_findStruct (linked : Linked base tree) {module : ModuleId} {name : String}
    {id : StructId} (found : tree.findStruct module name true = .ok (some id)) :
    base.SeesStruct module id := by
  unfold findStruct at found
  cases known : tree.module module with
  | error fault => rw [known] at found; cases found
  | ok m =>
    have tables := linked.modules module m (module_eq_ok.mp known)
    rw [known] at found
    have named : m.struct? name true = some id := Except.ok.inj found
    rcases Option.or_eq_some_iff.mp named with own | ⟨-, imported⟩
    · obtain ⟨access, label⟩ := tables.structs name id own
      exact ⟨_, label, .inl rfl⟩
    · obtain ⟨owner, label⟩ := tables.importedStructs name id imported
      exact ⟨_, label, .inr rfl⟩

end ScopeTree

/-! ### Uses -/

variable {context : Context} {s t : AnalysisState} {name : String} {path : List String}

/-- A function that is called may be used where the call stands. -/
theorem sees_of_callee (linked : ScopeTree.Linked base s.tree) {id : FunctionId}
    (given : Gives (Walk.callee context name path) s (.user id) t) :
    ∃ current, s.tree.moduleOf? context.scope = some current ∧ base.SeesFunction current id := by
  cases foundBy_of_callee given with
  | reserved spelled => cases CallType.builtin?_eq_some spelled <;> simp_all [Callee.callType]
  | user _ _ _ finds =>
    cases finds with
    | @found current module _ function stands _ answered known allowed =>
      refine ⟨current, stands, ?_⟩
      have label := linked.functionLabel? known
      by_cases own : function.module = current
      · exact ⟨_, label, .inl own⟩
      by_cases here : module = current
      · subst here
        exact linked.sees_of_findFunction answered
      · refine ⟨_, label, .inr ?_⟩
        by_contra hidden
        exact allowed ⟨own, here, hidden⟩

/-- A struct that is made may be used where the construction stands. -/
theorem sees_of_structTarget (linked : ScopeTree.Linked base s.tree) {count : Nat} {id : StructId}
    (given : Gives (Walk.structTarget context name path count) s (.user id) t) :
    ∃ current, s.tree.moduleOf? context.scope = some current ∧ base.SeesStruct current id := by
  cases foundBy_of_structTarget given with
  | @user current module _ struct stands _ answered known allowed =>
    refine ⟨current, stands, ?_⟩
    have label := linked.structLabel? known
    by_cases own : struct.module = current
    · exact ⟨_, label, .inl own⟩
    by_cases here : module = current
    · subst here
      exact linked.sees_of_findStruct answered
    · refine ⟨_, label, .inr ?_⟩
      by_contra hidden
      exact allowed ⟨own, here, hidden⟩

/-- A struct that a type name stands for may be used where the name stands. -/
theorem sees_of_typeTarget (linked : ScopeTree.Linked base s.tree) {id : StructId}
    (given : Gives (Walk.typeTarget context name) s (.struct id) t) :
    ∃ current, s.tree.moduleOf? context.scope = some current ∧ base.SeesStruct current id := by
  unfold Walk.typeTarget at given
  split at given
  · cases (gives_pure.mp given).1
  · simp only [gives_bind, gives_currentModule, gives_ask] at given
    obtain ⟨current, _, ⟨belongs, rfl⟩, found, s', ⟨answered, rfl⟩, given⟩ := given
    cases found with
    | none => exact (gives_fail.mp given).elim
    | some other =>
      cases (gives_pure.mp given).1
      exact ⟨current, belongs, linked.sees_of_findStruct answered⟩

/-! ### Imports -/

/-- What is exported may be imported. -/
theorem linked_importTarget {tree : ScopeTree} (linked : ScopeTree.Linked base tree)
    {target : ImportTarget} (exported : tree.accessOf target = .ok .exported) {id : ModuleId}
    {m : ScriptModule} (tables : m.Linked base id) (name : String) :
    (m.importTarget name target).Linked base id := by
  obtain ⟨functions, structs, importedFunctions, importedStructs, origin, stored⟩ := tables
  -- Each kind of target enters one table of imports, and the other tables stay.
  cases target with
  | function f =>
    refine ⟨functions, structs, fun key other found => ?_, importedStructs, origin, stored⟩
    simp only [ScriptModule.importTarget, ScriptModule.importFunction, Table.get?_insert] at found
    split at found
    · cases found
      simp only [ScopeTree.accessOf] at exported
      cases there : tree.function f with
      | error fault => rw [there] at exported; cases exported
      | ok function =>
        rw [there] at exported
        have access : function.access = .exported := Except.ok.inj exported
        exact ⟨function.module, access ▸ linked.functionLabel? there⟩
    · exact importedFunctions key other found
  | struct struct =>
    refine ⟨functions, structs, importedFunctions, fun key other found => ?_, origin, stored⟩
    simp only [ScriptModule.importTarget, ScriptModule.importStruct, Table.get?_insert] at found
    split at found
    · cases found
      simp only [ScopeTree.accessOf] at exported
      cases there : tree.struct struct with
      | error fault => rw [there] at exported; cases exported
      | ok symbol =>
        rw [there] at exported
        have access : symbol.access = .exported := Except.ok.inj exported
        exact ⟨symbol.module, access ▸ linked.structLabel? there⟩
    · exact importedStructs key other found
  | module other => exact ⟨functions, structs, importedFunctions, importedStructs, origin, stored⟩

theorem staysLinked_changeModule (id : ModuleId) {change : ScriptModule → ScriptModule}
    (kept : ∀ m : ScriptModule, m.Linked base id → (change m).Linked base id) :
    Keeps (StaysLinked base) (Walk.edit (ScopeTree.Edit.changeModule id change)) :=
  staysLinked_edit fun _ linked => ScopeTree.linked_changeModule linked id kept

end Lookups
end ShellSema
