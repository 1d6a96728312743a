import ShellSema.Proofs.Lookups

/-!
# What a path names

A path names a module as seen from the module where it is written: its first name is a submodule, an
import, or else a submodule of the root, and from there the other names lead down through submodules.
A name after the path is one that this module has, its own before an imported one. The searches of a
tree answer just that.
-/
namespace ShellSema

namespace ScopeTree

variable {tree : ScopeTree}

theorem bind_eq_ok {α β : Type} {answer : Except Fault α} {next : α → Except Fault β} {b : β} :
    (answer >>= next) = .ok b ↔ ∃ a, answer = .ok a ∧ next a = .ok b := by
  cases answer with
  | error fault => simp [bind, Except.bind]
  | ok a => simp [bind, Except.bind]

/-! ### Modules -/

/-- The names lead from one module down to another, each to a submodule of the one before. -/
inductive LeadsDown (tree : ScopeTree) : ModuleId → List String → ModuleId → Prop where
  | here {module : ModuleId} : LeadsDown tree module [] module
  | down {module next target : ModuleId} {m : ScriptModule} {name : String} {names : List String}
      (known : tree.module module = .ok m) (named : m.submodules.get? name = some next)
      (rest : LeadsDown tree next names target) : LeadsDown tree module (name :: names) target

/-- The module that the first name of a path means in a module: a submodule, an import if there is
no such submodule, or a submodule of the root if there is neither. -/
inductive FirstOfPath (tree : ScopeTree) (module : ModuleId) (name : String) (next : ModuleId) :
    Prop where
  | own {m : ScriptModule} (known : tree.module module = .ok m)
      (named : m.submodules.get? name = some next)
  | imported {m : ScriptModule} (known : tree.module module = .ok m)
      (other : m.submodules.get? name = none) (named : m.importedModules.get? name = some next)
  | top {m top : ScriptModule} (known : tree.module module = .ok m)
      (other : m.submodules.get? name = none) (strange : m.importedModules.get? name = none)
      (outermost : tree.module root = .ok top) (named : top.submodules.get? name = some next)

/-- The path names a module as seen from a module. -/
inductive PathNames (tree : ScopeTree) (module : ModuleId) : List String → ModuleId → Prop where
  | itself : PathNames tree module [] module
  | path {name : String} {names : List String} {next target : ModuleId}
      (first : tree.FirstOfPath module name next) (rest : tree.LeadsDown next names target) :
      PathNames tree module (name :: names) target

theorem submodule?_own (m : ScriptModule) (name : String) :
    m.submodule? name false = m.submodules.get? name := by
  simp [ScriptModule.submodule?, lookupDeclared]

theorem submodule?_imports (m : ScriptModule) (name : String) :
    m.submodule? name true = (m.submodules.get? name).or (m.importedModules.get? name) := rfl

theorem descend_eq_some {module target : ModuleId} {path : List String} :
    tree.descend module path = .ok (some target) ↔ tree.LeadsDown module path target := by
  -- Each name of the path leads one module down.
  induction path generalizing module with
  | nil =>
    constructor
    · intro found
      cases found
      exact .here
    · intro leads
      cases leads
      rfl
  | cons name names ih =>
    rw [descend, bind_eq_ok]
    simp only [submodule?_own]
    constructor
    · rintro ⟨m, known, found⟩
      cases named : m.submodules.get? name with
      | none =>
        rw [named] at found
        cases found
      | some next =>
        rw [named] at found
        exact .down known named (ih.mp found)
    · intro leads
      cases leads with
      | @down _ next _ m _ _ known named rest =>
        refine ⟨m, known, ?_⟩
        rw [named]
        exact ih.mpr rest

theorem findModule_eq_some {module target : ModuleId} {path : List String} :
    tree.findModule module path true = .ok (some target) ↔ tree.PathNames module path target := by
  cases path with
  | nil =>
    constructor
    · intro found
      cases found
      exact .itself
    · intro names
      cases names
      rfl
  | cons name names =>
    rw [findModule, bind_eq_ok]
    constructor
    · rintro ⟨m, known, found⟩
      rw [submodule?_imports] at found
      -- The search tries one place after the other, so each answer comes with the earlier misses.
      cases own : m.submodules.get? name with
      | some next =>
        rw [own] at found
        exact .path (.own known own) (descend_eq_some.mp found)
      | none =>
        cases imported : m.importedModules.get? name with
        | some next =>
          rw [own, imported] at found
          exact .path (.imported known own imported) (descend_eq_some.mp found)
        | none =>
          rw [own, imported] at found
          obtain ⟨top, outermost, found⟩ := bind_eq_ok.mp found
          rw [submodule?_own] at found
          cases named : top.submodules.get? name with
          | none =>
            rw [named] at found
            cases found
          | some next =>
            rw [named] at found
            exact .path (.top known own imported outermost named) (descend_eq_some.mp found)
    · intro path
      cases path with
      | @path _ _ next _ first rest =>
        have found := descend_eq_some.mpr rest
        cases first with
        | own known named => exact ⟨_, known, by simp [submodule?_imports, named, found]⟩
        | imported known other named =>
          exact ⟨_, known, by simp [submodule?_imports, other, named, found]⟩
        | top known other strange outermost named =>
          refine ⟨_, known, ?_⟩
          simp [submodule?_imports, submodule?_own, other, strange, outermost, named, found, bind,
            Except.bind]

/-- A path that the search cannot follow names nothing. -/
theorem not_pathNames {module target : ModuleId} {path : List String}
    (missing : tree.findModule module path true = .ok none) : ¬ tree.PathNames module path target := by
  intro names
  rw [findModule_eq_some.mpr names] at missing
  cases missing

/-! ### Functions and structs -/

/-- The module has the function under the name, as one of its own or else as an import, and its
analysis has not failed. -/
structure OffersFunction (tree : ScopeTree) (module : ModuleId) (name : String) (id : FunctionId) :
    Prop where
  named : ∃ m, tree.module module = .ok m ∧
    (m.functions.get? name = some id ∨
      m.functions.get? name = none ∧ m.importedFunctions.get? name = some id)
  usable : ∃ f, tree.function id = .ok f ∧ f.status ≠ .failed

/-- The module has the struct under the name, as one of its own or else as an import. -/
def OffersStruct (tree : ScopeTree) (module : ModuleId) (name : String) (id : StructId) : Prop :=
  ∃ m, tree.module module = .ok m ∧
    (m.structs.get? name = some id ∨
      m.structs.get? name = none ∧ m.importedStructs.get? name = some id)

theorem findFunction_eq_some {module : ModuleId} {name : String} {id : FunctionId} :
    tree.findFunction module name true = .ok (some id) ↔ tree.OffersFunction module name id := by
  rw [findFunction, bind_eq_ok]
  have named (m : ScriptModule) : m.function? name true = some id ↔
      m.functions.get? name = some id ∨
        m.functions.get? name = none ∧ m.importedFunctions.get? name = some id :=
    Option.or_eq_some_iff
  constructor
  · rintro ⟨m, known, found⟩
    cases answer : m.function? name true with
    | none =>
      rw [answer] at found
      cases found
    | some other =>
      rw [answer] at found
      -- A name leads to a function, which is offered unless its analysis has failed.
      obtain ⟨f, there, found⟩ := bind_eq_ok.mp found
      split at found
      next => cases found
      next usable =>
        cases found
        exact ⟨⟨m, known, (named m).mp answer⟩, f, there, usable⟩
  · rintro ⟨⟨m, known, has⟩, f, there, usable⟩
    refine ⟨m, known, ?_⟩
    simp only [(named m).mpr has, bind_eq_ok]
    exact ⟨f, there, by rw [if_neg usable]; rfl⟩

theorem not_offersFunction {module : ModuleId} {name : String} {id : FunctionId}
    (missing : tree.findFunction module name true = .ok none) :
    ¬ tree.OffersFunction module name id := by
  intro offers
  rw [findFunction_eq_some.mpr offers] at missing
  cases missing

theorem findStruct_eq_some {module : ModuleId} {name : String} {id : StructId} :
    tree.findStruct module name true = .ok (some id) ↔ tree.OffersStruct module name id := by
  rw [findStruct, bind_eq_ok]
  constructor
  · rintro ⟨m, known, found⟩
    exact ⟨m, known, Option.or_eq_some_iff.mp (Except.ok.inj found)⟩
  · rintro ⟨m, known, has⟩
    exact ⟨m, known, congrArg Except.ok (Option.or_eq_some_iff.mpr has)⟩

end ScopeTree
end ShellSema
