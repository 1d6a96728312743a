import Mathlib.Data.List.Induction
import ShellSema.Proofs.OwnModule
import ShellSema.Proofs.Reanalysis
import ShellSema.Proofs.Unlinked

/-!
# Imports that wait in a queue

The names that a module has queued for import are bound before the walk over its tree begins, and
its queue is empty from then on. This is done for the module under analysis alone. A module that is
declared within the tree has its body analysed in the course of the walk, but what it has queued
stays in its queue, and none of it is bound.
-/
namespace ShellSema

/-! ### Import tables -/

/-- Both stand for a function, both for a struct, or both for a module. -/
def ImportTarget.SameKind : ImportTarget → ImportTarget → Prop
  | .function _, .function _ | .struct _, .struct _ | .module _, .module _ => True
  | _, _ => False

theorem ImportTarget.sameKind_refl (target : ImportTarget) : target.SameKind target := by
  cases target <;> trivial

theorem ImportTarget.SameKind.trans {a b c : ImportTarget} (one : a.SameKind b)
    (other : b.SameKind c) : a.SameKind c := by
  cases a <;> cases b <;> cases c <;> trivial

/-- A module has a target in the import table for its kind, under some name. -/
def ScriptModule.Imports (m : ScriptModule) (name : String) : ImportTarget → Prop
  | .function id => m.importedFunctions.get? name = some id
  | .struct id => m.importedStructs.get? name = some id
  | .module id => m.importedModules.get? name = some id

theorem ScriptModule.imports_importTarget (m : ScriptModule) (name : String)
    (target : ImportTarget) : (m.importTarget name target).Imports name target := by
  cases target <;>
    simp [importTarget, importFunction, importStruct, importModule, Imports]

/-- An import hides only what has been imported under the same name, and is of the same kind. -/
theorem ScriptModule.Imports.importTarget {m : ScriptModule} {name : String}
    {target : ImportTarget} (imports : m.Imports name target) {other : String}
    {later : ImportTarget} (apart : ¬ (other = name ∧ later.SameKind target)) :
    (m.importTarget other later).Imports name target := by
  -- The import goes to another table, or else under another name.
  cases target <;> cases later <;>
    simp_all [ScriptModule.importTarget, importFunction, importStruct, importModule, Imports,
      ImportTarget.SameKind, eq_comm]

/-- What there is of a module for its imports: the queue, and the tables of what is bound. -/
structure Importing where
  queue : List QueuedImport
  functions : Table FunctionId
  structs : Table StructId
  modules : Table ModuleId

def ScriptModule.importing (m : ScriptModule) : Importing :=
  ⟨m.importQueue, m.importedFunctions, m.importedStructs, m.importedModules⟩

theorem ScriptModule.Imports.of_same {m m' : ScriptModule} {name : String} {target : ImportTarget}
    (imports : m.Imports name target) (same : m'.importing = m.importing) :
    m'.Imports name target := by
  injection same with _ functions structs modules
  cases target <;> simp only [Imports, functions, structs, modules] at imports ⊢ <;> exact imports

/-- A module in which some queued imports have been bound to their targets, in turn. -/
def ScriptModule.binding (m : ScriptModule) (bound : List (QueuedImport × ImportTarget)) :
    ScriptModule :=
  bound.foldl (fun m (queued, target) => m.importTarget queued.token.text target) m

@[simp] theorem ScriptModule.importQueue_importTarget (m : ScriptModule) (name : String)
    (target : ImportTarget) : (m.importTarget name target).importQueue = m.importQueue := by
  cases target <;> rfl

@[simp] theorem ScriptModule.importQueue_binding (m : ScriptModule)
    (bound : List (QueuedImport × ImportTarget)) : (m.binding bound).importQueue = m.importQueue := by
  induction bound generalizing m with
  | nil => rfl
  | cons first rest ih => exact (ih _).trans (m.importQueue_importTarget _ _)

/-- Each name is bound to its target, or to one of the same kind that is bound under this name. -/
theorem ScriptModule.imports_binding (m : ScriptModule)
    (bound : List (QueuedImport × ImportTarget)) {pair : QueuedImport × ImportTarget}
    (member : pair ∈ bound) :
    ∃ latest ∈ bound, latest.1.token.text = pair.1.token.text ∧ latest.2.SameKind pair.2 ∧
      (m.binding bound).Imports pair.1.token.text latest.2 := by
  induction bound using List.reverseRecOn with
  | nil => cases member
  | append_singleton bound last ih =>
    rw [binding, List.foldl_append, List.foldl_cons, List.foldl_nil]
    -- The last of them hides an earlier one, or leaves it.
    have own : (m.binding bound |>.importTarget last.1.token.text last.2).Imports
        last.1.token.text last.2 := imports_importTarget _ _ _
    rcases List.mem_append.mp member with earlier | here
    · obtain ⟨latest, among, name, kind, imports⟩ := ih earlier
      by_cases hides : last.1.token.text = pair.1.token.text ∧ last.2.SameKind latest.2
      · exact ⟨last, by simp, hides.1, hides.2.trans kind, hides.1 ▸ own⟩
      · exact ⟨latest, List.mem_append_left _ among, name, kind, imports.importTarget hides⟩
    · obtain rfl := List.mem_singleton.mp here
      exact ⟨pair, by simp, rfl, pair.2.sameKind_refl, own⟩

/-! ### The imports of a module in the tree of scopes -/

namespace ScopeTree

/-- A queued name stands for a target that its module of origin declares and exports. -/
def Exports (tree : ScopeTree) (queued : QueuedImport) (target : ImportTarget) : Prop :=
  tree.declared queued.origin queued.token.text = .ok (some target) ∧
    tree.accessOf target = .ok .exported

/-- What a module has queued for import, and what it has imported. -/
def importing? (tree : ScopeTree) (id : ModuleId) : Option Importing :=
  (tree.modules[id.index]?).map ScriptModule.importing

/-- The imports that wait in the queue of a module. -/
def importQueue (tree : ScopeTree) (id : ModuleId) : List QueuedImport :=
  match tree.importing? id with
  | some importing => importing.queue
  | none => []

/-- All that a module has queued in an earlier tree is bound: each name to what it stands for, or to
what a later import of the same name and kind stands for. Nothing waits any more. -/
structure Bound (before : ScopeTree) (module : ModuleId) (tree : ScopeTree) : Prop where
  emptied : tree.importQueue module = []
  bound : ∀ queued ∈ before.importQueue module, ∃ target, before.Exports queued target ∧
    ∃ latest ∈ before.importQueue module, latest.token.text = queued.token.text ∧
      ∃ target', before.Exports latest target' ∧ target'.SameKind target ∧
        ∃ m, tree.module module = .ok m ∧ m.Imports queued.token.text target'

theorem importing?_of_found {tree : ScopeTree} {id : ModuleId} {m : ScriptModule}
    (found : tree.module id = .ok m) : tree.importing? id = some m.importing := by
  rw [importing?, module_eq_ok.mp found, Option.map_some]

theorem importQueue_of_found {tree : ScopeTree} {id : ModuleId} {m : ScriptModule}
    (found : tree.module id = .ok m) : tree.importQueue id = m.importQueue := by
  rw [importQueue, importing?_of_found found]
  rfl

theorem importQueue_of_same {tree later : ScopeTree} {id : ModuleId}
    (same : later.importing? id = tree.importing? id) :
    later.importQueue id = tree.importQueue id := by
  rw [importQueue, importQueue, same]

/-- What is bound stays so as long as the module keeps its imports. -/
theorem Bound.of_same {before tree later : ScopeTree} {module : ModuleId}
    (bound : before.Bound module tree) (same : later.importing? module = tree.importing? module) :
    before.Bound module later := by
  refine ⟨(importQueue_of_same same).trans bound.emptied, fun queued member => ?_⟩
  obtain ⟨target, exported, latest, among, name, target', exported', kind, m, found, imports⟩ :=
    bound.bound queued member
  rw [importing?_of_found found] at same
  obtain ⟨m', found', kept⟩ := Option.map_eq_some_iff.mp same
  refine ⟨target, exported, latest, among, name, target', exported', kind, m',
    module_eq_ok.mpr found', ?_⟩
  exact imports.of_same kept

end ScopeTree

/-! ### Before the walk -/

namespace Analysis

variable {registry : Registry} {mode : AnalysisMode} {module : ModuleId} {ast analysed : Ast}
  {context : Context} {s start t : AnalysisState} {v : Visit}

theorem KeepsDeclared.module_cases (kept : KeepsDeclared s t) (id : ModuleId) :
    (s.tree.module id = .error (.unknownModule id) ∧ t.tree.module id = .error (.unknownModule id)) ∨
      ∃ m m', s.tree.module id = .ok m ∧ t.tree.module id = .ok m' ∧ m'.core = m.core := by
  have same := kept.2.2 id
  unfold ScopeTree.module
  cases here : s.tree.modules[id.index]? with
  | none =>
    rw [here] at same
    rw [Option.map_eq_none_iff.mp same]
    exact .inl ⟨rfl, rfl⟩
  | some m =>
    rw [here, Option.map_some] at same
    obtain ⟨m', there, same⟩ := Option.map_eq_some_iff.mp same
    rw [there]
    exact .inr ⟨m, m', rfl, rfl, same⟩

theorem KeepsDeclared.function (kept : KeepsDeclared s t) : t.tree.function = s.tree.function := by
  funext id
  rw [ScopeTree.function, ScopeTree.function, kept.1]

theorem KeepsDeclared.struct (kept : KeepsDeclared s t) : t.tree.struct = s.tree.struct := by
  funext id
  rw [ScopeTree.struct, ScopeTree.struct, kept.2.1]

/-- What a name stands for is read from the declarations, so imports have no say in it. -/
theorem KeepsDeclared.declared (kept : KeepsDeclared s t) : t.tree.declared = s.tree.declared := by
  funext origin name
  unfold ScopeTree.declared ScopeTree.findFunction ScopeTree.findStruct
  rcases kept.module_cases origin with ⟨missing, missing'⟩ | ⟨m, m', found, found', same⟩
  · rw [missing, missing']
    rfl
  · have functions : m'.function? name false = m.function? name false :=
      congrArg (·.function? name false) same
    have structs : m'.struct? name false = m.struct? name false :=
      congrArg (·.struct? name false) same
    have submodules : m'.submodule? name false = m.submodule? name false :=
      congrArg (·.submodule? name false) same
    simp only [found, found', ok_bind, functions, structs, submodules, kept.function]

theorem KeepsDeclared.accessOf (kept : KeepsDeclared s t) : t.tree.accessOf = s.tree.accessOf := by
  funext target
  cases target with
  | function id => rw [ScopeTree.accessOf, ScopeTree.accessOf, kept.function]
  | struct id => rw [ScopeTree.accessOf, ScopeTree.accessOf, kept.struct]
  | module id =>
    rw [ScopeTree.accessOf, ScopeTree.accessOf]
    rcases kept.module_cases id with ⟨missing, missing'⟩ | ⟨m, m', found, found', same⟩
    · rw [missing, missing']
    · have access : m'.access = m.access := congrArg (·.access) same
      rw [found, found', ok_bind, ok_bind, access]

theorem KeepsDeclared.exports (kept : KeepsDeclared s t) {queued : QueuedImport}
    {target : ImportTarget} :
    t.tree.Exports queued target ↔ s.tree.Exports queued target := by
  rw [ScopeTree.Exports, ScopeTree.Exports, kept.declared, kept.accessOf]

/-- An import is resolved if its name stands for something that is exported, and is entered then. -/
theorem gives_resolveImport {queued : QueuedImport} :
    Gives (Walk.resolveImport module queued) s () t ↔ ∃ target, s.tree.Exports queued target ∧
      Gives (Walk.edit (ScopeTree.Edit.changeModule module
        (·.importTarget queued.token.text target))) s () t := by
  simp only [Walk.resolveImport, gives_bind, gives_ask]
  constructor
  · rintro ⟨found, _, ⟨declared, rfl⟩, rest⟩
    cases found with
    | none => simp at rest
    | some target =>
      simp only [gives_bind, gives_ask] at rest
      obtain ⟨access, _, ⟨asked, rfl⟩, rest⟩ := rest
      split at rest
      · simp at rest
      next exported =>
        rw [not_not.mp exported] at asked
        exact ⟨target, ⟨declared, asked⟩, rest⟩
  · rintro ⟨target, ⟨declared, exported⟩, entered⟩
    refine ⟨some target, s, ⟨declared, rfl⟩, ?_⟩
    simp only [gives_bind, gives_ask]
    exact ⟨.exported, s, ⟨exported, rfl⟩, by simpa using entered⟩

/-- Queued imports are bound in turn, each to what it stands for before the first of them is. -/
theorem binding_of_gives {queue : List QueuedImport} {m : ScriptModule}
    (found : s.tree.module module = .ok m)
    (given : Gives (queue.forM (Walk.resolveImport module)) s () t) :
    ∃ targets, List.Forall₂ s.tree.Exports queue targets ∧
      t.tree.module module = .ok (m.binding (queue.zip targets)) := by
  induction queue generalizing s m with
  | nil =>
    obtain ⟨-, rfl⟩ := gives_pure.mp given
    exact ⟨[], .nil, found⟩
  | cons queued queue ih =>
    rw [List.forM_eq_forM, List.forM_cons] at given
    obtain ⟨⟨⟩, r, first, rest⟩ := gives_bind.mp given
    obtain ⟨target, exported, entered⟩ := gives_resolveImport.mp first
    have kept : KeepsDeclared s r :=
      (keepsDeclared_changeModule fun m => m.core_importTarget _ _).of_gives entered
    have found' : r.tree.module module = .ok (m.importTarget queued.token.text target) := by
      rw [tree_of_edit entered]
      exact ScopeTree.module_changeModule found _
    obtain ⟨targets, others, ended⟩ := ih found' rest
    exact ⟨target :: targets, .cons exported (others.imp fun _ _ => kept.exports.mp), ended⟩

/-- All that the module has queued is bound by the time the walk begins. -/
theorem Begins.bound (begins : Begins registry module s context start) :
    s.tree.Bound module start.tree := by
  obtain ⟨m, u, found, -, empty, before, imported⟩ := begins.resolves
  obtain ⟨targets, exported, ended⟩ := binding_of_gives empty imported
  have queued : s.tree.importQueue module = m.importQueue := ScopeTree.importQueue_of_found found
  constructor
  · rw [ScopeTree.importQueue_of_found ended, ScriptModule.importQueue_binding]
  · intro first member
    rw [queued] at member ⊢
    -- Each name of the queue stands beside its target.
    have names : (m.importQueue.zip targets).map Prod.fst = m.importQueue :=
      List.map_fst_zip exported.length_eq.le
    rw [← names] at member
    obtain ⟨⟨_, target⟩, among, rfl⟩ := List.mem_map.mp member
    obtain ⟨⟨latest, target'⟩, among', name, kind, imports⟩ :=
      ScriptModule.imports_binding { m with status := .analysed, importQueue := [] } _ among
    have exports {pair : QueuedImport × ImportTarget}
        (inside : pair ∈ m.importQueue.zip targets) : s.tree.Exports pair.1 pair.2 :=
      before.exports.mp (List.forall₂_zip exported inside)
    exact ⟨target, exports among, latest, (List.of_mem_zip among').1, name, target',
      exports among', kind, _, ended, imports⟩

/-! ### In the course of an analysis -/

/-- All that a module has queued is bound before any expression of the tree under analysis is
visited, and at the end. -/
def BoundInTime (registry : Registry) (module : ModuleId) (ast : Ast) (s t : AnalysisState)
    (id : ModuleId) : Prop :=
  (∀ v, Visited registry module ast s v → s.tree.Bound id v.before.tree) ∧ s.tree.Bound id t.tree

/-- At each visit and at the end, the queue of a module and its import tables are what they were. -/
def ImportsUntouched (registry : Registry) (module : ModuleId) (ast : Ast) (s t : AnalysisState)
    (id : ModuleId) : Prop :=
  (∀ v, Visited registry module ast s v →
    v.before.tree.importing? id = s.tree.importing? id) ∧
    t.tree.importing? id = s.tree.importing? id

theorem boundInTime_own (given : Gives (moduleWalk registry mode module ast) s analysed t) :
    BoundInTime registry module ast s t module := by
  obtain ⟨context, start, u, begins, walked, last⟩ := begins_of_gives given
  rw [Plan.run_each] at walked
  constructor
  · intro v visited
    have kept : Preserved (KeepsBare fun _ => True) (Permit.onScopes fun _ => True) :=
      keepsBare_preserved _
    obtain ⟨-, context', start', begins', kept⟩ :=
      visited.since kept (fun _ => trivial) fun e _ => e.permitted_everywhere
    exact begins'.bound.of_same (kept.read trivial fun _ => rfl)
  · have kept : KeepsBare (fun _ => True) start u := (keepsBare_exprs _ _).of_gives walked
    have ended := begins.bound.of_same (kept.read trivial fun _ => rfl)
    split at last
    · -- The tree is stored in the module itself, beside its imports.
      refine ended.of_same ?_
      rw [tree_of_edit last, ScopeTree.Edit.state_changeModule, ScopeTree.importing?,
        ScopeTree.importing?]
      dsimp only
      rw [Array.getElem?_modify, if_pos rfl, Option.map_map]
      rfl
    · obtain ⟨-, rfl⟩ := gives_pure.mp last
      exact ended

theorem importsUntouched_other (given : Gives (moduleWalk registry mode module ast) s analysed t)
    {other : ModuleId} (apart : other ≠ module) :
    ImportsUntouched registry module ast s t other := by
  have own (change : ScriptModule → ScriptModule) :
      Keeps (KeepsBare (· ≠ module)) (Walk.edit (ScopeTree.Edit.changeModule module change)) :=
    keepsBare_changeModule (.inl (not_not.mpr rfl))
  constructor
  · intro v visited
    obtain ⟨-, kept⟩ := visited.allowed (keepsBare_preserved (Permit.onScopes fun _ => True))
      (own _) (keeps_resolveImports keepsBare_refl KeepsBare.trans fun change _ => own change)
      (fun _ => trivial) fun e _ => e.permitted_everywhere
    exact kept.read apart fun _ => rfl
  · exact ((keepsBare_moduleWalk registry mode module ast).of_gives given).read apart fun _ => rfl

/-- The module under analysis has its imports bound in time. Any other module, and so one that is
declared within the tree, keeps its queue and its import tables throughout; its imports are bound in
time only if it has none. -/
theorem imports_of_analysed (given : Gives (moduleWalk registry mode module ast) s analysed t)
    (id : ModuleId) :
    (BoundInTime registry module ast s t id ↔ id = module ∨ s.tree.importQueue id = []) ∧
      (id ≠ module → ImportsUntouched registry module ast s t id) := by
  refine ⟨⟨fun bound => ?_, ?_⟩, importsUntouched_other given⟩
  · by_cases own : id = module
    · exact .inl own
    · obtain ⟨-, same⟩ := importsUntouched_other given own
      exact .inr ((ScopeTree.importQueue_of_same same).symm.trans bound.2.emptied)
  · intro free
    by_cases own : id = module
    · subst own
      exact boundInTime_own given
    · obtain ⟨during, same⟩ := importsUntouched_other given own
      have empty := free.resolve_left own
      have nothing : s.tree.Bound id s.tree := by
        refine ⟨empty, ?_⟩
        rw [empty]
        exact fun _ member => absurd member List.not_mem_nil
      exact ⟨fun v visited => nothing.of_same (during v visited), nothing.of_same same⟩

/-- The call of a function in the body of a module that is declared in the root module. -/
def inlineImporting : Ast :=
  ⟨[Build.module .exported "m" (Build.blockOf .module ⟨2⟩ [Build.call "f" []])]⟩

/-- A module exports a function, and some module has queued the name of it. -/
def inlineImportingScopes (importing : ModuleId) : ScopeTree :=
  .declare "main" [
    .addModule ⟨0⟩ "lib" .exported,
    .addModule ⟨0⟩ "m" .exported,
    .addFunction "f" .exported ⟨1⟩ [] false,
    .addImport importing ⟨⟨1⟩, Build.name "f"⟩]

/-- The queue that the analysis of the root module finds in a module, and the one that it leaves. -/
def queuesOf (importing id : ModuleId) (t : AnalysisState) : List QueuedImport × List QueuedImport :=
  ((inlineImportingScopes importing).importQueue id, t.tree.importQueue id)

/-- If it is the root module that has queued the name, it is bound in time; the module in the tree has
queued nothing. -/
theorem imports_of_analysed_root :
    ∃ analysed t, Gives (moduleWalk .empty .overwrite ⟨0⟩ inlineImporting)
        { tree := inlineImportingScopes ⟨0⟩ } analysed t ∧
      queuesOf ⟨0⟩ ⟨0⟩ t = ([⟨⟨1⟩, Build.name "f"⟩], []) ∧
      ∀ id ∈ [⟨0⟩, ⟨2⟩],
        BoundInTime .empty ⟨0⟩ inlineImporting { tree := inlineImportingScopes ⟨0⟩ } t id := by
  have ends : endsWith (moduleWalk .empty .overwrite ⟨0⟩ inlineImporting)
      { tree := inlineImportingScopes ⟨0⟩ }
      (fun _ t => queuesOf ⟨0⟩ ⟨0⟩ t = ([⟨⟨1⟩, Build.name "f"⟩], [])) = true := by
    decide +kernel
  obtain ⟨analysed, t, given, queues⟩ := gives_of_endsWith ends
  have free : ∀ id ∈ [⟨0⟩, ⟨2⟩], id = ⟨0⟩ ∨ (inlineImportingScopes ⟨0⟩).importQueue id = [] := by
    decide +kernel
  refine ⟨analysed, t, given, of_decide_eq_true queues, fun id member => ?_⟩
  exact (imports_of_analysed given id).1.mpr (free id member)

/-- The types of the calls in the body of the module that a tree declares first. -/
def inlineCallTypes (ast : Ast) : List (Option CallType) :=
  ast.nodes.filterMap fun n =>
    match n.kind with
    | .call made => some made.findings.callType
    | _ => none

/-- If it is the module in the tree that has queued the name, the name still waits at the end, and
stands for a program in its body. -/
theorem imports_wait_inline :
    (∃ n ∈ inlineImporting.nodes, ∃ access name body, n.kind = .moduleDecl access name body ∧
      body.blockScope? = some ⟨2⟩ ∧ (inlineImportingScopes ⟨2⟩).moduleOf? ⟨2⟩ = some ⟨2⟩) ∧
    ∃ analysed t, Gives (moduleWalk .empty .overwrite ⟨0⟩ inlineImporting)
        { tree := inlineImportingScopes ⟨2⟩ } analysed t ∧
      queuesOf ⟨2⟩ ⟨2⟩ t = ([⟨⟨1⟩, Build.name "f"⟩], [⟨⟨1⟩, Build.name "f"⟩]) ∧
      inlineCallTypes analysed = [some .program] := by
  have member : Build.module .exported "m" (Build.blockOf .module ⟨2⟩ [Build.call "f" []]) ∈
      inlineImporting.nodes :=
    Ast.mem_nodes.mpr ⟨_, List.mem_singleton_self _, Expr.mem_nodes_self _⟩
  have ends : endsWith (moduleWalk .empty .overwrite ⟨0⟩ inlineImporting)
      { tree := inlineImportingScopes ⟨2⟩ } (fun analysed t => queuesOf ⟨2⟩ ⟨2⟩ t =
        ([⟨⟨1⟩, Build.name "f"⟩], [⟨⟨1⟩, Build.name "f"⟩]) ∧
          inlineCallTypes analysed = [some .program]) = true := by
    decide +kernel
  obtain ⟨analysed, t, given, read⟩ := gives_of_endsWith ends
  obtain ⟨queues, calls⟩ := of_decide_eq_true read
  exact ⟨⟨_, member, _, _, _, rfl, rfl, by decide +kernel⟩, analysed, t, given, queues, calls⟩

end Analysis
end ShellSema
