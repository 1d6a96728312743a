import ShellSema.Proofs.ModulePaths
import ShellSema.Proofs.Validity

/-!
# Well-formed trees of scopes

Parents have smaller handles than what lies in them, scopes stay within a module, each module has a
root scope of its own, and the tables of a module lead to what was declared in it under the name. So a
search outwards ends, at the nearest scope that declares the name, and so does the way up from a module;
the checks of a unit find nothing wrong with such a tree.

Each of these is a condition on one entry, in view of the others. It lasts as long as the entries keep
their places and names, so a change of the tree has to be looked at only where it is made.
-/
namespace ShellSema

/-! ### Entries that stay -/

/-- Each entry has stayed where it was, and is the same in some part. -/
def Retains {α β : Type} (part : α → β) (entries later : Array α) : Prop :=
  ∀ (i : Nat) a, entries[i]? = some a → ∃ now, later[i]? = some now ∧ part now = part a

section Retains

variable {α β : Type} {part : α → β} {entries later : Array α} {i : Nat} {change : α → α}

theorem retains_refl (part : α → β) (entries : Array α) : Retains part entries entries :=
  fun _ a found => ⟨a, found, rfl⟩

theorem retains_push (part : α → β) (entries : Array α) (last : α) :
    Retains part entries (entries.push last) :=
  fun _ a found => ⟨a, getElem?_push_of_some found last, rfl⟩

theorem retains_modify {index : Nat}
    (same : ∀ a, entries[index]? = some a → part (change a) = part a) :
    Retains part entries (entries.modify index change) := by
  intro i a found
  by_cases here : index = i
  · subst here
    exact ⟨change a, getElem?_modify_self found change, same a found⟩
  · exact ⟨a, by rw [Array.getElem?_modify, if_neg here, found], rfl⟩

theorem Retains.lt_size (retains : Retains part entries later) (inside : i < entries.size) :
    i < later.size := by
  obtain ⟨now, found, -⟩ := retains i _ (Array.getElem?_eq_getElem inside)
  exact (Array.getElem?_eq_some_iff.mp found).1

end Retains

theorem Table.get?_of_mem {α : Type} {table : Table α} {name : String} {value : α}
    (member : (name, value) ∈ table.entries) : table.get? name = some value := by
  obtain ⟨entries, distinct⟩ := table
  unfold get?
  dsimp only at member ⊢
  induction entries with
  | nil => cases member
  | cons entry rest ih =>
    obtain ⟨key, old⟩ := entry
    rw [List.map_cons, List.nodup_cons] at distinct
    rcases List.mem_cons.mp member with same | later
    · cases same
      exact List.lookup_cons_self
    · -- No name stands in a table twice, so the first entry has another one.
      have other : (name == key) = false := by
        rw [beq_eq_false_iff_ne]
        rintro rfl
        exact distinct.1 (List.mem_map.mpr ⟨_, later, rfl⟩)
      rw [List.lookup_cons, other]
      exact ih distinct.2 later

/-- What a table holds stands in it under some name. -/
theorem Table.exists_get?_of_mem_values {α : Type} {table : Table α} {value : α}
    (member : value ∈ table.values) : ∃ name, table.get? name = some value := by
  obtain ⟨⟨name, value⟩, inside, rfl⟩ := List.mem_map.mp member
  exact ⟨name, get?_of_mem inside⟩

/-! ### Conditions on entries -/

/-- A scope lies in a module that there is. If it lies in another scope, that one was added before it,
to the same module. Its variables are called as they are entered. -/
structure Scope.Placed (tree : ScopeTree) (id : ScopeId) (scope : Scope) : Prop where
  module : tree.hasModule scope.module = true
  parent : ∀ parent, scope.parent = some parent → parent.index < id.index ∧
    ∃ outer, tree.scope parent = .ok outer ∧ outer.module = scope.module
  locals : ∀ name v, scope.locals.get? name = some v → v.name = name

/-- A module was added after the one that it lies in, and has an outermost scope of its own. Its own
tables lead to what is declared in it under the name; what it imports, or is to import from, is there. -/
structure ScriptModule.Placed (tree : ScopeTree) (id : ModuleId) (m : ScriptModule) : Prop where
  parent : ∀ parent, m.parent = some parent → parent.index < id.index
  scope : ∃ scope, tree.scope m.scope = .ok scope ∧ scope.parent = none ∧ scope.module = id
  functions : ∀ name f, m.functions.get? name = some f →
    ∃ function, tree.function f = .ok function ∧ function.name = name ∧ function.module = id
  structs : ∀ name s, m.structs.get? name = some s →
    ∃ struct, tree.struct s = .ok struct ∧ struct.name = name ∧ struct.module = id
  submodules : ∀ name next, m.submodules.get? name = some next →
    ∃ inner, tree.module next = .ok inner ∧ inner.name = name ∧ inner.parent = some id
  importedFunctions : ∀ f ∈ m.importedFunctions.values, tree.hasFunction f = true
  importedStructs : ∀ s ∈ m.importedStructs.values, tree.hasStruct s = true
  importedModules : ∀ next ∈ m.importedModules.values, tree.hasModule next = true
  origins : ∀ queued ∈ m.importQueue, tree.hasModule queued.origin = true

namespace ScopeTree

/-- The stores have no more entries than there are handles. -/
structure HasHandles (tree : ScopeTree) : Prop where
  scopes : tree.scopes.size ≤ 2 ^ 32
  modules : tree.modules.size ≤ 2 ^ 32
  functions : tree.functions.size ≤ 2 ^ 32
  structs : tree.structs.size ≤ 2 ^ 32

structure WellFormed (tree : ScopeTree) : Prop where
  handles : tree.HasHandles
  root : tree.hasModule root = true
  scopes : ∀ id scope, tree.scope id = .ok scope → scope.Placed tree id
  modules : ∀ id m, tree.module id = .ok m → m.Placed tree id
  functions : ∀ f ∈ tree.functions, tree.hasModule f.module = true
  structs : ∀ s ∈ tree.structs, tree.hasModule s.module = true

/-- The entries of the first tree stand in the second one, in the same places and under the same
names. -/
structure Extends (tree after : ScopeTree) : Prop where
  scopes : Retains (fun s => (s.parent, s.module)) tree.scopes after.scopes := by
    exact retains_refl _ _
  modules : Retains (fun m => (m.name, m.parent)) tree.modules after.modules := by
    exact retains_refl _ _
  functions : Retains (fun f => (f.name, f.module)) tree.functions after.functions := by
    exact retains_refl _ _
  structs : Retains (fun s => (s.name, s.module)) tree.structs after.structs := by
    exact retains_refl _ _

variable {tree after : ScopeTree}

namespace Extends

variable (kept : tree.Extends after)

include kept

theorem scope {id : ScopeId} {scope : Scope} (found : tree.scope id = .ok scope) :
    ∃ now, after.scope id = .ok now ∧ now.parent = scope.parent ∧ now.module = scope.module := by
  obtain ⟨now, found', same⟩ := kept.scopes _ _ (scope_eq_ok.mp found)
  exact ⟨now, scope_eq_ok.mpr found', Prod.mk.inj same⟩

theorem module {id : ModuleId} {m : ScriptModule} (found : tree.module id = .ok m) :
    ∃ now, after.module id = .ok now ∧ now.name = m.name ∧ now.parent = m.parent := by
  obtain ⟨now, found', same⟩ := kept.modules _ _ (module_eq_ok.mp found)
  exact ⟨now, module_eq_ok.mpr found', Prod.mk.inj same⟩

theorem function {id : FunctionId} {f : ScriptFunction} (found : tree.function id = .ok f) :
    ∃ now, after.function id = .ok now ∧ now.name = f.name ∧ now.module = f.module := by
  obtain ⟨now, found', same⟩ := kept.functions _ _ (function_eq_ok.mp found)
  exact ⟨now, function_eq_ok.mpr found', Prod.mk.inj same⟩

theorem struct {id : StructId} {s : ScriptStruct} (found : tree.struct id = .ok s) :
    ∃ now, after.struct id = .ok now ∧ now.name = s.name ∧ now.module = s.module := by
  obtain ⟨now, found', same⟩ := kept.structs _ _ (struct_eq_ok.mp found)
  exact ⟨now, struct_eq_ok.mpr found', Prod.mk.inj same⟩

theorem hasModule {id : ModuleId} (known : tree.hasModule id = true) : after.hasModule id = true :=
  decide_eq_true (kept.modules.lt_size (of_decide_eq_true known))

theorem hasFunction {id : FunctionId} (known : tree.hasFunction id = true) :
    after.hasFunction id = true :=
  decide_eq_true (kept.functions.lt_size (of_decide_eq_true known))

theorem hasStruct {id : StructId} (known : tree.hasStruct id = true) : after.hasStruct id = true :=
  decide_eq_true (kept.structs.lt_size (of_decide_eq_true known))

theorem placedScope {id : ScopeId} {scope : Scope} (placed : scope.Placed tree id) :
    scope.Placed after id where
  module := kept.hasModule placed.module
  parent parent lies := by
    obtain ⟨earlier, outer, found, same⟩ := placed.parent parent lies
    obtain ⟨now, found', -, module⟩ := kept.scope found
    exact ⟨earlier, now, found', module.trans same⟩
  locals := placed.locals

theorem placedModule {id : ModuleId} {m : ScriptModule} (placed : m.Placed tree id) :
    m.Placed after id where
  parent := placed.parent
  scope := by
    obtain ⟨scope, found, outermost, own⟩ := placed.scope
    obtain ⟨now, found', parent, module⟩ := kept.scope found
    exact ⟨now, found', parent.trans outermost, module.trans own⟩
  functions name f named := by
    obtain ⟨function, found, called, own⟩ := placed.functions name f named
    obtain ⟨now, found', same, module⟩ := kept.function found
    exact ⟨now, found', same.trans called, module.trans own⟩
  structs name s named := by
    obtain ⟨struct, found, called, own⟩ := placed.structs name s named
    obtain ⟨now, found', same, module⟩ := kept.struct found
    exact ⟨now, found', same.trans called, module.trans own⟩
  submodules name next named := by
    obtain ⟨inner, found, called, lies⟩ := placed.submodules name next named
    obtain ⟨now, found', same, parent⟩ := kept.module found
    exact ⟨now, found', same.trans called, parent.trans lies⟩
  importedFunctions f member := kept.hasFunction (placed.importedFunctions f member)
  importedStructs s member := kept.hasStruct (placed.importedStructs s member)
  importedModules next member := kept.hasModule (placed.importedModules next member)
  origins queued member := kept.hasModule (placed.origins queued member)

end Extends

/-! ### Changes -/

/-- The tree with a module more, and a scope for it. -/
def withNextModule (tree : ScopeTree) (m : ScriptModule) : ScopeTree :=
  { tree with
    scopes := tree.scopes.push { parent := none, module := tree.nextModule }
    modules := tree.modules.push m }

namespace WellFormed

variable (formed : tree.WellFormed)

include formed

/-- As long as the entries keep their places and names, only those that are new or changed have to be
looked at. -/
theorem grown (kept : tree.Extends after) (handles : after.HasHandles)
    (scopes : ∀ id scope, after.scope id = .ok scope →
      tree.scope id = .ok scope ∨ scope.Placed after id)
    (modules : ∀ id m, after.module id = .ok m → tree.module id = .ok m ∨ m.Placed after id)
    (functions : ∀ f ∈ after.functions, f ∈ tree.functions ∨ after.hasModule f.module = true)
    (structs : ∀ s ∈ after.structs, s ∈ tree.structs ∨ after.hasModule s.module = true) :
    after.WellFormed where
  handles := handles
  root := kept.hasModule formed.root
  scopes id scope found := by
    rcases scopes id scope found with before | placed
    · exact kept.placedScope (formed.scopes id scope before)
    · exact placed
  modules id m found := by
    rcases modules id m found with before | placed
    · exact kept.placedModule (formed.modules id m before)
    · exact placed
  functions f member := by
    rcases functions f member with before | known
    · exact kept.hasModule (formed.functions f before)
    · exact known
  structs s member := by
    rcases structs s member with before | known
    · exact kept.hasModule (formed.structs s before)
    · exact known

theorem changeScopes {scopes : Array Scope} (room : scopes.size ≤ 2 ^ 32)
    (retains : Retains (fun s => (s.parent, s.module)) tree.scopes scopes)
    (placed : ∀ (id : ScopeId) scope, scopes[id.index]? = some scope → scope.Placed tree id) :
    WellFormed { tree with scopes } := by
  have kept : tree.Extends { tree with scopes } := { scopes := retains }
  exact formed.grown kept { formed.handles with scopes := room }
    (fun id scope found => .inr (kept.placedScope (placed id scope (scope_eq_ok.mp found))))
    (fun _ _ => .inl) (fun _ => .inl) fun _ => .inl

theorem changeFunctions {functions : Array ScriptFunction} (room : functions.size ≤ 2 ^ 32)
    (retains : Retains (fun f => (f.name, f.module)) tree.functions functions)
    (known : ∀ f ∈ functions, tree.hasModule f.module = true) :
    WellFormed { tree with functions } :=
  formed.grown { functions := retains } { formed.handles with functions := room }
    (fun _ _ => .inl) (fun _ _ => .inl) (fun f member => .inr (known f member)) fun _ => .inl

theorem changeStructs {structs : Array ScriptStruct} (room : structs.size ≤ 2 ^ 32)
    (retains : Retains (fun s => (s.name, s.module)) tree.structs structs)
    (known : ∀ s ∈ structs, tree.hasModule s.module = true) : WellFormed { tree with structs } :=
  formed.grown { structs := retains } { formed.handles with structs := room }
    (fun _ _ => .inl) (fun _ _ => .inl) (fun _ => .inl) fun s member => .inr (known s member)

/-- A module may change in its tables and in what it is to import. -/
theorem modifyModule (id : ModuleId) (change : ScriptModule → ScriptModule)
    (same : ∀ m, ((change m).name, (change m).parent) = (m.name, m.parent))
    (placed : ∀ m, m.Placed tree id → (change m).Placed tree id) :
    WellFormed { tree with modules := tree.modules.modify id.index change } := by
  have kept : tree.Extends { tree with modules := tree.modules.modify id.index change } :=
    { modules := retains_modify fun m _ => same m }
  have room : (tree.modules.modify id.index change).size ≤ 2 ^ 32 := by
    rw [Array.size_modify]
    exact formed.handles.modules
  refine formed.grown kept { formed.handles with modules := room } (fun _ _ => .inl)
    (fun other now found => ?_) (fun _ => .inl) fun _ => .inl
  rcases getElem?_modify_cases (module_eq_ok.mp found) with ⟨here, old, there, rfl⟩ | before
  · obtain rfl : id = other := ModuleId.index_injective here
    exact .inr (kept.placedModule (placed old (formed.modules id old (module_eq_ok.mpr there))))
  · exact .inl (module_eq_ok.mpr before)

/-- A new module and its outermost scope refer to each other, so they are added at once. -/
theorem pushModule {m : ScriptModule} (modules : tree.modules.size < 2 ^ 32)
    (scopes : tree.scopes.size < 2 ^ 32)
    (placed : m.Placed (tree.withNextModule m) tree.nextModule) :
    (tree.withNextModule m).WellFormed := by
  have kept : tree.Extends (tree.withNextModule m) :=
    { scopes := retains_push _ _ _
      modules := retains_push _ _ _ }
  have handles : (tree.withNextModule m).HasHandles :=
    { formed.handles with
      scopes := by rw [withNextModule, Array.size_push]; exact scopes
      modules := by rw [withNextModule, Array.size_push]; exact modules }
  refine formed.grown kept handles (fun id scope found => ?_) (fun id now found => ?_)
    (fun _ => .inl) fun _ => .inl
  -- The new scope lies in no other one, and it belongs to the new module.
  · rcases getElem?_push_cases (scope_eq_ok.mp found) with ⟨-, rfl⟩ | before
    · refine .inr ⟨?_, by simp, by simp⟩
      simp [hasModule, withNextModule, nextModule_index modules]
    · exact .inl (scope_eq_ok.mpr before)
  · rcases getElem?_push_cases (module_eq_ok.mp found) with ⟨last, rfl⟩ | before
    · obtain rfl : id = tree.nextModule :=
        ModuleId.index_injective (last.trans (nextModule_index modules).symm)
      exact .inr placed
    · exact .inl (module_eq_ok.mpr before)

end WellFormed

/-! ### Checks -/

/-- The scope that is found, if any, declares the name, and is the nearest one from a scope outwards to
do so. If none is found, there is none. -/
def IsNearest (tree : ScopeTree) (id : ScopeId) (name : String) : Option ScopeId → Prop
  | some declaring => tree.Inside id declaring ∧ tree.Declares declaring name ∧
      ∀ between, tree.Inside id between → tree.Around between declaring →
        ¬ tree.Declares between name
  | none => ∀ outer, tree.Inside id outer → ¬ tree.Declares outer name

/-- The names on the way down to a module from one that lies in no other. -/
inductive HasPath (tree : ScopeTree) : ModuleId → List String → Prop where
  | top {id : ModuleId} {m : ScriptModule} (found : tree.module id = .ok m)
      (outermost : m.parent = none) : HasPath tree id []
  | inside {id parent : ModuleId} {m : ScriptModule} {path : List String}
      (found : tree.module id = .ok m) (lies : m.parent = some parent)
      (above : HasPath tree parent path) : HasPath tree id (path ++ [m.name])

namespace WellFormed

variable (formed : tree.WellFormed)

include formed

theorem knows (id : ModuleId) {m : ScriptModule} (found : tree.module id = .ok m) :
    tree.Knows m where
  scope := by
    obtain ⟨scope, there, -⟩ := (formed.modules id m found).scope
    exact hasScope_iff.mpr ⟨scope, there⟩
  functions f member := by
    have placed := formed.modules id m found
    rcases List.mem_append.mp member with own | imported
    · obtain ⟨name, named⟩ := Table.exists_get?_of_mem_values own
      obtain ⟨function, there, -⟩ := placed.functions name f named
      exact hasFunction_iff.mpr ⟨_, there⟩
    · exact placed.importedFunctions f imported
  structs s member := by
    have placed := formed.modules id m found
    rcases List.mem_append.mp member with own | imported
    · obtain ⟨name, named⟩ := Table.exists_get?_of_mem_values own
      obtain ⟨struct, there, -⟩ := placed.structs name s named
      exact hasStruct_iff.mpr ⟨_, there⟩
    · exact placed.importedStructs s imported
  modules next member := by
    have placed := formed.modules id m found
    rcases List.mem_append.mp member with own | imported
    · obtain ⟨name, named⟩ := Table.exists_get?_of_mem_values own
      obtain ⟨inner, there, -⟩ := placed.submodules name next named
      exact hasModule_iff.mpr ⟨_, there⟩
    · exact placed.importedModules next imported
  origins := (formed.modules id m found).origins

/-- Each handle in a well-formed tree leads to an entry. -/
theorem closed : tree.Closed where
  root := formed.root
  modules m member := by
    obtain ⟨number, found⟩ := exists_handle formed.handles.modules member
    exact formed.knows ⟨number⟩ (module_eq_ok.mpr found)
  scopeModules scope member := by
    obtain ⟨number, found⟩ := exists_handle formed.handles.scopes member
    exact (formed.scopes ⟨number⟩ scope (scope_eq_ok.mpr found)).module
  parents scope member parent lies := by
    obtain ⟨number, found⟩ := exists_handle formed.handles.scopes member
    have placed := formed.scopes ⟨number⟩ scope (scope_eq_ok.mpr found)
    obtain ⟨-, outer, there, -⟩ := placed.parent parent lies
    exact hasScope_iff.mpr ⟨outer, there⟩
  functions := formed.functions

/-- The checks of a unit find nothing wrong with a well-formed tree. -/
theorem problem?_eq_none : tree.problem? = none := by
  rw [ScopeTree.problem?_eq_none]
  refine ⟨formed.closed, fun m member parent lies => ?_⟩
  obtain ⟨number, found⟩ := exists_handle formed.handles.modules member
  have earlier := (formed.modules ⟨number⟩ m (module_eq_ok.mpr found)).parent parent lies
  have inside := (Array.getElem?_eq_some_iff.mp found).1
  exact decide_eq_true (Nat.lt_trans earlier inside)

/-! ### Ways outwards and upwards -/

theorem scopesAcyclic : tree.ScopesAcyclic := by
  refine scopesAcyclic_of_descending fun id parent around => ?_
  obtain ⟨scope, found, lies⟩ := Option.bind_eq_some_iff.mp around
  exact ((formed.scopes id scope (scope_eq_ok.mpr found)).parent parent lies).1

/-- A search outwards ends, and what it finds is the nearest scope that declares the name. -/
theorem declaringScope_ends {id : ScopeId} (known : tree.hasScope id = true) (name : String) :
    ∃ found, tree.declaringScope id name = .ok found ∧ tree.IsNearest id name found := by
  have fits := formed.closed.fits formed.scopesAcyclic
  obtain ⟨found, answered, -⟩ := fits.declaringScope_answers known name
  refine ⟨found, answered, ?_⟩
  cases found with
  | none => exact fun outer inside declares => declaringWithin_ne_none answered inside declares rfl
  | some declaring =>
    obtain ⟨declares, inside⟩ := declares_of_declaringWithin answered
    exact ⟨inside, declares, fun between =>
      not_declares_of_declaringWithin formed.scopesAcyclic answered⟩

theorem pathWithin_ends {id : ModuleId} (known : tree.hasModule id = true) {steps : Nat}
    (enough : id.index < steps) :
    ∃ names, tree.pathWithin steps id = .ok names ∧ tree.HasPath id names.reverse := by
  -- A parent has a smaller handle, so the steps left are enough for it again.
  induction steps generalizing id with
  | zero => omega
  | succ steps ih =>
    obtain ⟨m, found⟩ := hasModule_iff.mp known
    cases lies : m.parent with
    | none =>
      refine ⟨[], ?_, .top found lies⟩
      simp [pathWithin, found, lies, bind, Except.bind, pure, Except.pure]
    | some parent =>
      have earlier := (formed.modules id m found).parent parent lies
      have around : tree.hasModule parent = true :=
        decide_eq_true (Nat.lt_trans earlier (of_decide_eq_true known))
      obtain ⟨names, above, path⟩ := ih around (by omega)
      refine ⟨m.name :: names, pathWithin_of_parent found lies above, ?_⟩
      rw [List.reverse_cons]
      exact .inside found lies path

/-- The way up from a module ends, and gives the path of the module. -/
theorem modulePath_ends {id : ModuleId} (known : tree.hasModule id = true) :
    ∃ path, tree.modulePath id = .ok path ∧ tree.HasPath id path := by
  have inside : id.index < tree.modules.size := of_decide_eq_true known
  obtain ⟨names, read, path⟩ := formed.pathWithin_ends known (Nat.lt_succ_of_lt inside)
  exact ⟨names.reverse, by simp [modulePath, read, bind, Except.bind, pure, Except.pure], path⟩

end WellFormed
end ScopeTree
end ShellSema
