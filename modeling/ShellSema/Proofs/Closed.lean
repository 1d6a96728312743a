import ShellSema.Input.AnalysisUnit
import ShellSema.Analysis.Imports
import ShellSema.Proofs.Chains
import ShellSema.Proofs.Edits

/-!
# Trees whose handles lead somewhere

A tree is closed if every handle in it leads to an entry; that is what the checks of a unit ask for.
A closed tree answers every question about its entries, with handles that lead to entries in turn,
and the edits of an analysis leave it closed.
-/
namespace ShellSema

namespace Table

variable {α : Type}

theorem mem_values_of_get? {table : Table α} {name : String} {value : α}
    (found : table.get? name = some value) : value ∈ table.values := by
  obtain ⟨entries, _⟩ := table
  simp only [get?, values] at *
  clear * - found
  induction entries with
  | nil => simp at found
  | cons entry rest ih =>
    rw [List.lookup_cons] at found
    split at found
    · simp_all
    · simp [ih found]

theorem mem_values_insert {table : Table α} {name : String} {value other : α}
    (member : other ∈ (table.insert name value).values) : other = value ∨ other ∈ table.values := by
  obtain ⟨entries, _⟩ := table
  simp only [insert, values] at *
  clear * - member
  induction entries with
  | nil => simpa [assign] using member
  | cons entry rest ih =>
    obtain ⟨key, old⟩ := entry
    unfold assign at member
    split at member
    · simp only [List.map_cons, List.mem_cons] at member ⊢
      exact member.imp_right .inr
    · simp only [List.map_cons, List.mem_cons] at member ⊢
      rcases member with same | inside
      · exact .inr (.inl same)
      · exact (ih inside).imp_right .inr

theorem forall_mem_values_insert {table : Table α} {name : String} {value : α} {P : α → Prop}
    (kept : ∀ other ∈ table.values, P other) (new : P value) :
    ∀ other ∈ (table.insert name value).values, P other := by
  intro other member
  rcases mem_values_insert member with rfl | before
  · exact new
  · exact kept other before

end Table

/-- What is found stands in one of the two tables. -/
theorem mem_of_lookupDeclared {α : Type} {own imported : Table α} {name : String}
    {inImports : Bool} {value : α} (found : lookupDeclared own imported name inImports = some value) :
    value ∈ own.values ++ imported.values := by
  rw [lookupDeclared, Option.or_eq_some_iff] at found
  rcases found with own | ⟨-, imported⟩
  · exact List.mem_append_left _ (Table.mem_values_of_get? own)
  · split at imported
    · exact List.mem_append_right _ (Table.mem_values_of_get? imported)
    · cases imported

namespace ScopeTree

/-- The tree has an entry for every handle of a module. -/
structure Knows (tree : ScopeTree) (m : ScriptModule) : Prop where
  scope : tree.hasScope m.scope = true
  functions : ∀ id ∈ m.functions.values ++ m.importedFunctions.values, tree.hasFunction id = true
  structs : ∀ id ∈ m.structs.values ++ m.importedStructs.values, tree.hasStruct id = true
  modules : ∀ id ∈ m.submodules.values ++ m.importedModules.values, tree.hasModule id = true
  origins : ∀ queued ∈ m.importQueue, tree.hasModule queued.origin = true

structure Closed (tree : ScopeTree) : Prop where
  root : tree.hasModule root = true
  modules : ∀ m ∈ tree.modules, tree.Knows m
  scopeModules : ∀ scope ∈ tree.scopes, tree.hasModule scope.module = true
  parents : ∀ scope ∈ tree.scopes, ∀ parent, scope.parent = some parent →
    tree.hasScope parent = true
  functions : ∀ f ∈ tree.functions, tree.hasModule f.module = true

variable {tree : ScopeTree}

/-! ### Checks -/

theorem knows_of_moduleProblem? {m : ScriptModule} (fine : tree.moduleProblem? m = none) :
    tree.Knows m := by
  unfold moduleProblem? at fine
  split at fine
  · cases fine
  split at fine
  · cases fine
  next scope symbols =>
    simp only [symbolsExist, List.all_eq_true, Bool.not_eq_true', Bool.and_eq_true,
      Bool.not_eq_false, Option.map_eq_none_iff, List.find?_eq_none] at scope symbols fine
    exact
      { scope
        functions := symbols.1.1
        structs := symbols.1.2
        modules := fun id member => symbols.2 id (List.mem_append_left _ member)
        origins := by simpa using fine }

/-- A tree in which nothing is found wrong is closed. -/
theorem closed_of_problem? (fine : tree.problem? = none) : tree.Closed := by
  unfold problem? at fine
  split at fine
  · cases fine
  next root =>
    simp only [Option.or_eq_none_iff, List.findSome?_eq_none_iff, Array.mem_toList_iff] at fine
    obtain ⟨modules, scopes, functions⟩ := fine
    have linked : ∀ scope ∈ tree.scopes, tree.hasModule scope.module = true ∧
        scope.parent.toList.all tree.hasScope = true := by
      intro scope member
      obtain ⟨index, found⟩ := List.mem_iff_getElem?.mp (Array.mem_toList_iff.mpr member)
      have fine := scopes (scope, index) (by simpa [List.mem_zipIdx_iff_getElem?] using found)
      simpa [scopeProblem?] using fine
    exact
      { root := by simpa using root
        modules := fun m member => knows_of_moduleProblem? (modules m member)
        scopeModules := fun scope member => (linked scope member).1
        parents := fun scope member parent outward => by
          simpa [outward] using (linked scope member).2
        functions := fun f member => by simpa [functionProblem?] using functions f member }

/-- A tree with at least as many entries knows what the other knows. -/
theorem Knows.mono {other : ScopeTree} {m : ScriptModule} (knows : tree.Knows m)
    (scopes : tree.scopes.size ≤ other.scopes.size := by simp)
    (modules : tree.modules.size ≤ other.modules.size := by simp)
    (functions : tree.functions.size ≤ other.functions.size := by simp)
    (structs : tree.structs.size ≤ other.structs.size := by simp) : other.Knows m := by
  obtain ⟨scope, known, structsKnown, modulesKnown, origins⟩ := knows
  simp only [hasScope, hasModule, hasFunction, hasStruct, decide_eq_true_eq] at *
  exact
    { scope := by simpa [hasScope] using Nat.lt_of_lt_of_le scope scopes
      functions := fun id member => by
        simpa [hasFunction] using Nat.lt_of_lt_of_le (known id member) functions
      structs := fun id member => by
        simpa [hasStruct] using Nat.lt_of_lt_of_le (structsKnown id member) structs
      modules := fun id member => by
        simpa [hasModule] using Nat.lt_of_lt_of_le (modulesKnown id member) modules
      origins := fun queued member => by
        simpa [hasModule] using Nat.lt_of_lt_of_le (origins queued member) modules }

/-! ### Answers of a closed tree -/

theorem struct_answers {id : StructId} (known : tree.hasStruct id = true) :
    Answers (tree.struct id) fun _ => True := by
  obtain ⟨struct, found⟩ := hasStruct_iff.mp known
  exact ⟨struct, found, trivial⟩

/-- The tree has an entry for what an imported name stands for. -/
def HasTarget (tree : ScopeTree) : ImportTarget → Prop
  | .function id => tree.hasFunction id = true
  | .struct id => tree.hasStruct id = true
  | .module id => tree.hasModule id = true

namespace Closed

variable (closed : tree.Closed)

include closed

theorem module_answers {id : ModuleId} (known : tree.hasModule id = true) :
    Answers (tree.module id) tree.Knows := by
  obtain ⟨m, found⟩ := hasModule_iff.mp known
  exact ⟨m, found, closed.modules m (Array.mem_of_getElem? (module_eq_ok.mp found))⟩

theorem function_answers {id : FunctionId} (known : tree.hasFunction id = true) :
    Answers (tree.function id) fun f => tree.hasModule f.module = true := by
  obtain ⟨f, found⟩ := hasFunction_iff.mp known
  exact ⟨f, found, closed.functions f (Array.mem_of_getElem? (function_eq_ok.mp found))⟩

theorem findFunction_answers {module : ModuleId} (known : tree.hasModule module = true)
    (name : String) (inImports : Bool) :
    Answers (tree.findFunction module name inImports) fun found =>
      ∀ id, found = some id → tree.hasFunction id = true := by
  refine (closed.module_answers known).bind fun m knows => ?_
  cases found : m.function? name inImports with
  | none => exact answers_pure (by simp)
  | some id =>
    have known := knows.functions id (mem_of_lookupDeclared found)
    refine (closed.function_answers known).bind fun f _ => ?_
    split
    · exact answers_pure (by simp)
    · exact answers_pure (by rintro _ ⟨⟩; exact known)

theorem findStruct_answers {module : ModuleId} (known : tree.hasModule module = true)
    (name : String) (inImports : Bool) :
    Answers (tree.findStruct module name inImports) fun found =>
      ∀ id, found = some id → tree.hasStruct id = true :=
  (closed.module_answers known).bind fun _ knows => answers_pure fun id found =>
    knows.structs id (mem_of_lookupDeclared found)

/-- What a module declares under a name is an entry of the tree. -/
theorem declared_answers {origin : ModuleId} (known : tree.hasModule origin = true)
    (name : String) :
    Answers (tree.declared origin name) fun found => ∀ target, found = some target →
      tree.HasTarget target := by
  refine (closed.findFunction_answers known name false).bind fun found function => ?_
  cases found with
  | some id => exact answers_pure (by rintro _ ⟨⟩; exact function id rfl)
  | none =>
    refine (closed.findStruct_answers known name false).bind fun found struct => ?_
    cases found with
    | some id => exact answers_pure (by rintro _ ⟨⟩; exact struct id rfl)
    | none =>
      refine (closed.module_answers known).bind fun m knows => ?_
      cases found : m.submodule? name false with
      | none => exact answers_pure (by simp)
      | some id =>
        have member := knows.modules id (mem_of_lookupDeclared found)
        exact answers_pure (by rintro _ ⟨⟩; exact member)

theorem accessOf_answers {target : ImportTarget} (has : tree.HasTarget target) :
    Answers (tree.accessOf target) fun _ => True := by
  cases target with
  | function id => exact (closed.function_answers has).bind fun _ _ => answers_pure trivial
  | struct id => exact (struct_answers has).bind fun _ _ => answers_pure trivial
  | module id => exact (closed.module_answers has).bind fun _ _ => answers_pure trivial

end Closed

/-- The tree is closed, its chains of scopes end, and it has as many scopes, modules and functions
as the tree from which an analysis started. -/
structure Fits (base tree : ScopeTree) : Prop where
  scopes : tree.scopes.size = base.scopes.size
  modules : tree.modules.size = base.modules.size
  functions : tree.functions.size = base.functions.size
  closed : tree.Closed
  ends : ∀ id, tree.hasScope id = true → tree.Ends tree.scopes.size id

theorem Closed.fits (closed : tree.Closed) (acyclic : tree.ScopesAcyclic) : Fits tree tree where
  scopes := rfl
  modules := rfl
  functions := rfl
  closed := closed
  ends := fun _ known => by
    refine acyclic.ends (fun id scope parent found outward => ?_) known
    exact closed.parents scope (Array.mem_of_getElem? (scope_eq_ok.mp found)) parent outward

namespace Fits

variable {base : ScopeTree} (fits : Fits base tree)

include fits

theorem hasScope (id : ScopeId) : tree.hasScope id = base.hasScope id := by
  simp [ScopeTree.hasScope, fits.scopes]

theorem hasModule (id : ModuleId) : tree.hasModule id = base.hasModule id := by
  simp [ScopeTree.hasModule, fits.modules]

theorem hasFunction (id : FunctionId) : tree.hasFunction id = base.hasFunction id := by
  simp [ScopeTree.hasFunction, fits.functions]

/-! ### Answers -/

theorem scope_answers {id : ScopeId} (known : base.hasScope id = true) :
    Answers (tree.scope id) fun scope => base.hasModule scope.module = true ∧
      ∀ parent, scope.parent = some parent → base.hasScope parent = true := by
  rw [← fits.hasScope] at known
  obtain ⟨scope, found⟩ := hasScope_iff.mp known
  have member := Array.mem_of_getElem? (scope_eq_ok.mp found)
  refine ⟨scope, found, ?_, fun parent outward => ?_⟩
  · rw [← fits.hasModule]
    exact fits.closed.scopeModules scope member
  · rw [← fits.hasScope]
    exact fits.closed.parents scope member parent outward

theorem module_answers {id : ModuleId} (known : base.hasModule id = true) :
    Answers (tree.module id) tree.Knows :=
  fits.closed.module_answers ((fits.hasModule id).trans known)

theorem function_answers {id : FunctionId} (known : base.hasFunction id = true) :
    Answers (tree.function id) fun f => base.hasModule f.module = true :=
  (fits.closed.function_answers ((fits.hasFunction id).trans known)).mono fun f inside =>
    (fits.hasModule f.module).symm.trans inside

theorem declaringScope_answers {scope : ScopeId} (known : base.hasScope scope = true)
    (name : String) :
    Answers (tree.declaringScope scope name) fun found =>
      ∀ declaring, found = some declaring → base.hasScope declaring = true := by
  have ends := fits.ends scope ((fits.hasScope scope).trans known)
  refine (declaringWithin_answers name (ends.mono (Nat.le_succ _))).mono fun found within => ?_
  exact fun declaring same => (fits.hasScope declaring).symm.trans (within declaring same)

theorem isVisible_answers {scope : ScopeId} (known : base.hasScope scope = true) (name : String) :
    Answers (tree.isVisible scope name) fun _ => True :=
  (fits.declaringScope_answers known name).bind fun _ _ => answers_pure trivial

theorem declaresHere_answers {scope : ScopeId} (known : base.hasScope scope = true)
    (name : String) : Answers (tree.declaresHere scope name) fun _ => True :=
  (fits.scope_answers known).bind fun _ _ => answers_pure trivial

theorem declaredBetween_answers {first : ScopeId} (known : base.hasScope first = true)
    (name : String) (last : ScopeId) :
    Answers (tree.declaredBetween name first last) fun _ => True := by
  have ends := fits.ends first ((fits.hasScope first).trans known)
  exact declaredWithin_answers name last (ends.mono (Nat.le_succ _))

theorem descend_answers {current : ModuleId} (path : List String)
    (known : base.hasModule current = true) :
    Answers (tree.descend current path) fun found =>
      ∀ id, found = some id → base.hasModule id = true := by
  induction path generalizing current with
  | nil => exact answers_pure (by rintro _ ⟨⟩; exact known)
  | cons segment segments ih =>
    refine (fits.module_answers known).bind fun m knows => ?_
    cases found : m.submodule? segment false with
    | none => exact answers_pure (by simp)
    | some next =>
      have member := mem_of_lookupDeclared found
      exact ih ((fits.hasModule next).symm.trans (knows.modules next member))

/-- A path leads from a module to modules of the tree, or nowhere. -/
theorem findModule_answers {origin : ModuleId} (known : base.hasModule origin = true)
    (path : List String) (inImports : Bool) :
    Answers (tree.findModule origin path inImports) fun found =>
      ∀ id, found = some id → base.hasModule id = true := by
  cases path with
  | nil => exact answers_pure (by rintro _ ⟨⟩; exact known)
  | cons first segments =>
    refine (fits.module_answers known).bind fun m knows => ?_
    -- A path that does not start in the module itself starts at the root.
    cases found : m.submodule? first inImports with
    | some next =>
      have member := mem_of_lookupDeclared found
      exact fits.descend_answers segments ((fits.hasModule next).symm.trans
        (knows.modules next member))
    | none =>
      have rooted := (fits.hasModule ScopeTree.root).symm.trans fits.closed.root
      refine (fits.module_answers rooted).bind fun m knows => ?_
      cases found : m.submodule? first false with
      | none => exact answers_pure (by simp)
      | some next =>
        have member := mem_of_lookupDeclared found
        exact fits.descend_answers segments ((fits.hasModule next).symm.trans
          (knows.modules next member))

theorem findFunction_answers {module : ModuleId} (known : base.hasModule module = true)
    (name : String) (inImports : Bool) :
    Answers (tree.findFunction module name inImports) fun found =>
      ∀ id, found = some id → base.hasFunction id = true :=
  (fits.closed.findFunction_answers ((fits.hasModule module).trans known) name inImports).mono
    fun _ inside id found => (fits.hasFunction id).symm.trans (inside id found)

theorem findStruct_answers {module : ModuleId} (known : base.hasModule module = true)
    (name : String) (inImports : Bool) :
    Answers (tree.findStruct module name inImports) fun found =>
      ∀ id, found = some id → tree.hasStruct id = true :=
  fits.closed.findStruct_answers ((fits.hasModule module).trans known) name inImports

/-! ### Edits -/

/-- An edit of a scope that leaves its place alone. -/
theorem modifyScope (index : Nat) {change : Scope → Scope}
    (parent : ∀ scope, (change scope).parent = scope.parent)
    (module : ∀ scope, (change scope).module = scope.module) :
    Fits base { tree with scopes := tree.scopes.modify index change } := by
  have linked := fits.closed
  refine ⟨by simp [fits.scopes], fits.modules, fits.functions, ?_, fun id known => ?_⟩
  · exact
      { root := linked.root
        modules := fun m member => (linked.modules m member).mono
        scopeModules := forall_mem_modify linked.scopeModules fun scope member => by
          rw [module]
          exact linked.scopeModules scope member
        parents := by
          have sized (id : ScopeId) : ScopeTree.hasScope { tree with
              scopes := tree.scopes.modify index change } id = tree.hasScope id := by
            simp [ScopeTree.hasScope]
          simp only [sized]
          refine forall_mem_modify linked.parents fun scope member => ?_
          rw [parent]
          exact linked.parents scope member
        functions := linked.functions }
  · have before : tree.hasScope id = true := by simpa [ScopeTree.hasScope] using known
    -- The chain of parents is as long as before, since no parent changes.
    have ends := fits.ends id before
    simp only [Array.size_modify]
    refine ends.congr fun id scope found => ?_
    rw [scope_eq_ok] at found
    simp only [scope_eq_ok, Array.getElem?_modify, found, Option.map_some]
    split
    · exact ⟨_, rfl, parent scope⟩
    · exact ⟨_, rfl, rfl⟩

/-- An edit of a module that names no other entries than the tree has. -/
theorem modifyModule (index : Nat) {change : ScriptModule → ScriptModule}
    (knows : ∀ m, tree.Knows m → tree.Knows (change m)) :
    Fits base { tree with modules := tree.modules.modify index change } := by
  have linked := fits.closed
  refine ⟨fits.scopes, by simp [fits.modules], fits.functions, ?_, fun id known => ?_⟩
  · have sized (id : ModuleId) : ScopeTree.hasModule { tree with
        modules := tree.modules.modify index change } id = tree.hasModule id := by
      simp [ScopeTree.hasModule]
    exact
      { root := (sized _).trans linked.root
        modules := forall_mem_modify
          (fun m member => (linked.modules m member).mono)
          fun m member => (knows m (linked.modules m member)).mono
        scopeModules := fun scope member => (sized _).trans (linked.scopeModules scope member)
        parents := linked.parents
        functions := fun f member => (sized _).trans (linked.functions f member) }
  · exact (fits.ends id known).congr fun id scope found => ⟨scope, found, rfl⟩

theorem modifyFunction (index : Nat) {change : ScriptFunction → ScriptFunction}
    (module : ∀ f, tree.hasModule f.module = true → tree.hasModule (change f).module = true) :
    Fits base { tree with functions := tree.functions.modify index change } := by
  have linked := fits.closed
  refine ⟨fits.scopes, fits.modules, by simp [fits.functions], ?_, fun id known => ?_⟩
  · exact
      { root := linked.root
        modules := fun m member => (linked.modules m member).mono
        scopeModules := linked.scopeModules
        parents := linked.parents
        functions := forall_mem_modify linked.functions fun f member =>
          module f (linked.functions f member) }
  · exact (fits.ends id known).congr fun id scope found => ⟨scope, found, rfl⟩

theorem changeStructs (structs : Array ScriptStruct) (more : tree.structs.size ≤ structs.size) :
    Fits base { tree with structs } := by
  have linked := fits.closed
  refine ⟨fits.scopes, fits.modules, fits.functions, ?_, fun id known => ?_⟩
  · exact
      { root := linked.root
        modules := fun m member => (linked.modules m member).mono (by simp) (by simp) (by simp) more
        scopeModules := linked.scopeModules
        parents := linked.parents
        functions := linked.functions }
  · exact (fits.ends id known).congr fun id scope found => ⟨scope, found, rfl⟩

end Fits
end ScopeTree
end ShellSema
