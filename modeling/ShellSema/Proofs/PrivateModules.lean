import ShellSema.Proofs.ModulePaths
import ShellSema.Proofs.OwnModule
import ShellSema.Proofs.Qualified

/-!
# Private modules on a path

Only exported modules can be imported, and a function or struct at the end of a module path has to be
accessible. The modules that the path enters are not asked. So a path may enter a module that is private
to another one. It does not do so with its first name, and whether it does with the others can be told
from the modules from which it steps down.
-/
namespace ShellSema

namespace ScopeTree

variable {tree other : ScopeTree} {current id before next : ModuleId} {path : List String}

/-! ### Which modules may be entered -/

def IsPrivate (tree : ScopeTree) (id : ModuleId) : Prop :=
  ∃ m, tree.module id = .ok m ∧ m.access ≠ .exported

def LiesIn (tree : ScopeTree) (inner outer : ModuleId) : Prop :=
  ∃ m, tree.module inner = .ok m ∧ m.parent = some outer

/-- The first module is the second one or lies within it. -/
def ModuleInside (tree : ScopeTree) : ModuleId → ModuleId → Prop :=
  Relation.ReflTransGen tree.LiesIn

/-- A private module may be entered from the module around it and from all that lies in that one. -/
def MayEnter (tree : ScopeTree) (current id : ModuleId) : Prop :=
  tree.IsPrivate id → ∃ parent, tree.LiesIn id parent ∧ tree.ModuleInside current parent

/-- From the current module, the path enters the module, as its last one or on the way. -/
def EntersModule (tree : ScopeTree) (current : ModuleId) (path : List String) (id : ModuleId) : Prop :=
  ∃ front, front ≠ [] ∧ front <+: path ∧ tree.PathNames current front id

/-- From the current module, the path leads to a module and with its next name to another one. -/
def StepsDown (tree : ScopeTree) (current : ModuleId) (path : List String)
    (before next : ModuleId) : Prop :=
  ∃ front name, front ≠ [] ∧ front ++ [name] <+: path ∧ tree.PathNames current front before ∧
    tree.PathNames current (front ++ [name]) next

/-- The modules form a tree, and none that is private has been imported. -/
structure ModulesInOrder (tree : ScopeTree) : Prop where
  rooted : tree.Rooted
  imports : ∀ id m name next, tree.module id = .ok m → m.importedModules.get? name = some next →
    ¬ tree.IsPrivate next

theorem PathNames.unique {id' : ModuleId} (one : tree.PathNames current path id)
    (also : tree.PathNames current path id') : id = id' := by
  have found := findModule_eq_some.mpr one
  rw [findModule_eq_some.mpr also] at found
  simpa using found.symm

/-- A path of more than one name ends with a step down from where it has led before. -/
theorem pathNames_concat {front : List String} {name : String} (more : front ≠ [])
    (names : tree.PathNames current (front ++ [name]) next) :
    ∃ before m, tree.PathNames current front before ∧ tree.module before = .ok m ∧
      m.submodules.get? name = some next := by
  obtain ⟨first, rest, rfl⟩ := List.exists_cons_of_ne_nil more
  cases names with
  | path found leads =>
    obtain ⟨before, m, upper, known, named⟩ := leadsDown_concat leads
    exact ⟨before, m, .path found upper, known, named⟩

theorem Rooted.liesIn (rooted : tree.Rooted) {m : ScriptModule} {name : String}
    (known : tree.module id = .ok m) (named : m.submodules.get? name = some next) :
    tree.LiesIn next id := by
  obtain ⟨inner, there, lies, -⟩ := rooted.entered id m name next known named
  exact ⟨inner, there, lies⟩

/-- All modules lie in the root. -/
theorem Rooted.inside_root (rooted : tree.Rooted) {m : ScriptModule} (known : tree.module id = .ok m) :
    tree.ModuleInside id root := by
  induction number : id.index using Nat.strong_induction_on generalizing id m with
  | _ index ih =>
    by_cases lower : id = root
    · rw [lower]
      exact .refl
    · obtain ⟨parent, outer, _, lies, earlier, around, -⟩ := rooted.inside id m known lower
      exact .head ⟨m, known, lies⟩ (ih parent.index (number ▸ earlier) around rfl)

/-- The first name of a path leads to a module that may be entered: it lies in the current module or in
the root, or it has been imported and is not private. -/
theorem ModulesInOrder.mayEnter_first (order : tree.ModulesInOrder) {name : String}
    (first : tree.FirstOfPath current name next) : tree.MayEnter current next := by
  intro closed
  cases first with
  | own known named => exact ⟨current, order.rooted.liesIn known named, .refl⟩
  | imported known _ named => exact absurd closed (order.imports _ _ _ _ known named)
  | top known _ _ outermost named =>
    exact ⟨root, order.rooted.liesIn outermost named, order.rooted.inside_root known⟩

/-- A module that a path enters may be entered, exactly if it is not private or each module from which
the path steps down to it is the current one or one around it. -/
theorem ModulesInOrder.mayEnter_iff (order : tree.ModulesInOrder)
    (entered : tree.EntersModule current path id) :
    tree.MayEnter current id ↔ ∀ before, tree.StepsDown current path before id →
      tree.IsPrivate id → tree.ModuleInside current before := by
  constructor
  · rintro free before ⟨front, name, more, -, names, last⟩ closed
    obtain ⟨parent, ⟨m, known, lies⟩, inside⟩ := free closed
    obtain ⟨before', m', names', known', named⟩ := pathNames_concat more last
    obtain rfl := names.unique names'
    -- What the path steps down to lies in what it steps down from, and a module lies in one only.
    obtain ⟨inner, there, lies'⟩ := order.rooted.liesIn known' named
    rw [known] at there
    cases there
    rw [lies] at lies'
    cases lies'
    exact inside
  · intro steps closed
    obtain ⟨front, more, part, names⟩ := entered
    obtain ⟨front, name, rfl⟩ := (List.eq_nil_or_concat' front).resolve_left more
    -- The first name is in order by itself; after it the path steps down from some module.
    by_cases alone : front = []
    · subst alone
      cases names with
      | path first leads =>
        cases leads
        exact order.mayEnter_first first closed
    · obtain ⟨before, m, names', known, named⟩ := pathNames_concat alone names
      exact ⟨before, order.rooted.liesIn known named,
        steps before ⟨front, name, alone, part, names', names⟩ closed⟩

/-! ### Trees in order -/

theorem isPrivate_of_samePlaces (same : SamePlaces tree other) (closed : other.IsPrivate id) :
    tree.IsPrivate id := by
  obtain ⟨m, known, access⟩ := closed
  obtain ⟨before, known', place⟩ := same.symm.module known
  exact ⟨before, known', place.access ▸ access⟩

/-- Modules stay in order if they stay where they are and import nothing private. -/
theorem ModulesInOrder.of_samePlaces (order : tree.ModulesInOrder) (same : SamePlaces tree other)
    (imports : ∀ id m name next, other.module id = .ok m → m.importedModules.get? name = some next →
      ¬ tree.IsPrivate next) : other.ModulesInOrder :=
  ⟨order.rooted.of_samePlaces same, fun id m name next known named closed =>
    imports id m name next known named (isPrivate_of_samePlaces same closed)⟩

theorem ModulesInOrder.changeModule (order : tree.ModulesInOrder) (id : ModuleId)
    {change : ScriptModule → ScriptModule} (frame : ∀ m, (change m).frame = m.frame)
    (imports : ∀ m name next, (change m).importedModules.get? name = some next →
      m.importedModules.get? name = some next ∨ ¬ tree.IsPrivate next) :
    (runFrom (Edit.changeModule id change) tree).2.ModulesInOrder := by
  refine order.of_samePlaces ?_ fun at' now name next known named => ?_
  · exact map_changeModule (Prod.eta _).symm rfl frame
  · rw [module_eq_ok, Edit.state_changeModule] at known
    rcases getElem?_modify_cases known with ⟨-, m, there, rfl⟩ | before
    · rcases imports m name next named with old | free
      · exact order.imports at' m name next (module_eq_ok.mpr there) old
      · exact free
    · exact order.imports at' now name next (module_eq_ok.mpr before) named

/-- As a tree is built, no module has imported anything. -/
theorem Built.importedModules (built : tree.Built) {m : ScriptModule} (known : tree.module id = .ok m) :
    m.importedModules = {} := by
  induction built generalizing id m with
  | new name =>
    have found := module_eq_ok.mp known
    simp only [ofRoot, Array.getElem?_singleton, Option.ite_none_right_eq_some,
      Option.some.injEq] at found
    rw [← found.2]
  | @declare tree declaration _ fits ih =>
    -- Only the adding of a module changes the list of modules, and none of the modules starts with
    -- imports.
    by_cases added : ∀ parent name access, declaration ≠ .addModule parent name access
    · have same : (runFrom declaration.edit tree).2.modules.map ScriptModule.importedModules =
          tree.modules.map ScriptModule.importedModules := map_edit (fun _ _ _ _ => rfl) added
      have found := congrArg (·[id.index]?) same
      simp only [Array.getElem?_map, module_eq_ok.mp known, Option.map_some] at found
      obtain ⟨before, there, equal⟩ := Option.map_eq_some_iff.mp found.symm
      rw [← equal]
      exact ih (module_eq_ok.mpr there)
    · push Not at added
      obtain ⟨parent, name, access, rfl⟩ := added
      refine keeps_discard (R := fun s t => s = tree → ∀ id m, t.module id = .ok m →
        m.importedModules = {}) (fun s same => ?_) tree rfl id m known
      rw [same, runFrom_addModule fits]
      split
      next =>
        intro id now known
        rcases (module_withNewModule fits).mp known with ⟨-, rfl⟩ | ⟨m, before, rfl⟩
        · rfl
        · rw [besideNew_importedModules]
          exact ih before
      next => exact fun id m known => ih known

theorem Built.modulesInOrder (built : tree.Built) : tree.ModulesInOrder := by
  refine ⟨built.rooted, fun id m name next known named => ?_⟩
  rw [built.importedModules known] at named
  cases named

end ScopeTree

/-! ### Analyses -/

/-- If the modules are in order, they stay so. -/
def StaysInOrder (s t : AnalysisState) : Prop := s.tree.ModulesInOrder → t.tree.ModulesInOrder

theorem staysInOrder_refl (s : AnalysisState) : StaysInOrder s s := fun order => order

theorem StaysInOrder.trans (r s t : AnalysisState) (first : StaysInOrder r s)
    (rest : StaysInOrder s t) : StaysInOrder r t :=
  rest ∘ first

theorem staysInOrder_preserved (may : Permit) : Preserved StaysInOrder may := by
  have kept : Preserved (fun s t => KeepsModules s t ∧ KeepsBare (fun _ => True) s t) may :=
    (keepsModules_preserved may).and (keepsBare_preserved may)
  refine kept.weaken (fun s t ⟨places, bare⟩ order => ?_) StaysInOrder.trans
  refine order.of_samePlaces places fun id now name next known named => ?_
  -- Visits change modules only in what is found in them, not in what they have imported.
  have same : (t.tree.modules[id.index]?).map ScriptModule.importedModules =
      (s.tree.modules[id.index]?).map ScriptModule.importedModules := bare.read trivial fun _ => rfl
  rw [ScopeTree.module_eq_ok.mp known] at same
  obtain ⟨before, there, equal⟩ := Option.map_eq_some_iff.mp same.symm
  exact order.imports id before name next (ScopeTree.module_eq_ok.mpr there) (equal ▸ named)

theorem staysInOrder_changeModule (id : ModuleId) {change : ScriptModule → ScriptModule}
    (frame : ∀ m, (change m).frame = m.frame)
    (imports : ∀ m, (change m).importedModules = m.importedModules) :
    Keeps StaysInOrder (Walk.edit (ScopeTree.Edit.changeModule id change)) := by
  intro s order
  rw [runFrom_edit_state]
  exact order.changeModule id frame fun m name next named => .inl (imports m ▸ named)

/-- A module that is imported is exported. -/
theorem ScopeTree.imports_importTarget {tree : ScopeTree} {target : ImportTarget} {m : ScriptModule}
    {key name : String} {next : ModuleId} (exported : tree.accessOf target = .ok .exported)
    (named : (m.importTarget key target).importedModules.get? name = some next) :
    m.importedModules.get? name = some next ∨ ¬ tree.IsPrivate next := by
  cases target with
  | function f => exact .inl named
  | struct struct => exact .inl named
  | module id =>
    simp only [ScriptModule.importTarget, ScriptModule.importModule, Table.get?_insert] at named
    split at named
    · cases named
      right
      rintro ⟨n, known, closed⟩
      simp only [accessOf, known] at exported
      exact closed (Except.ok.inj exported)
    · exact .inl named

/-! ### Names with a module path -/

/-- The path is written in a scope of a module, and what it enters from there may be entered, exactly
if it is not private or all modules from which the path steps down to it are that one or around it. -/
def ScopeTree.EntersRightly (tree : ScopeTree) (place : ScopeId) (path : List String) : Prop :=
  ∃ current, tree.moduleOf? place = some current ∧ ∀ id, tree.EntersModule current path id →
    (tree.MayEnter current id ↔ ∀ before, tree.StepsDown current path before id →
      tree.IsPrivate id → tree.ModuleInside current before)

/-- The call was looked up along its path when the walk came to it. -/
def Call.EntersRightly (visited : Visit → Prop) (place : ScopeId) (made : Call) : Prop :=
  ∃ v written, visited v ∧ v.context.scope = place ∧ v.source.kind = .call written ∧
    made.name = written.name ∧ made.path = written.path ∧
    v.before.tree.EntersRightly place made.pathNames

/-- What is known of the modules that calls and constructions with a path are looked up in. The path of
a call that is bound to a reserved word or to a standard function is not followed. -/
def Expr.EntersRightly (visited : Visit → Prop) (place : ScopeId) (n : Expr) : Prop :=
  match n.kind with
  | .call made => made.path ≠ [] →
    made.findings.callType = some .function ∨ made.findings.callType = some .program →
      made.EntersRightly visited place
  | .construct name path _ _ => path ≠ [] →
    ∃ v arguments old, visited v ∧ v.context.scope = place ∧
      v.source.kind = .construct name path arguments old ∧
      v.before.tree.EntersRightly place (path.map Token.text)
  | _ => True

namespace Analysis

variable {registry : Registry} {mode : AnalysisMode} {module : ModuleId} {ast analysed : Ast}
  {s t : AnalysisState} {v : Visit}

theorem staysInOrder_setStatus (status : Status) : Keeps StaysInOrder (setStatus module status) :=
  staysInOrder_changeModule module (fun _ => rfl) fun _ => rfl

theorem staysInOrder_resolveImports (module : ModuleId) :
    Keeps StaysInOrder (Walk.resolveImports module) := by
  refine keeps_importing staysInOrder_refl StaysInOrder.trans ?_ fun s name target exported order => ?_
  · exact staysInOrder_changeModule module (fun _ => rfl) fun _ => rfl
  · rw [runFrom_edit_state]
    exact order.changeModule module
      (fun m => congrArg ScriptModule.bare (m.core_importTarget name target))
      fun m key next named => ScopeTree.imports_importTarget exported named

/-- The modules are in order at each visit. -/
theorem Visited.modulesInOrder (order : s.tree.ModulesInOrder)
    (visited : Visited registry module ast s v) : v.before.tree.ModulesInOrder :=
  (visited.allowed (staysInOrder_preserved (Permit.onScopes fun _ => True)) (staysInOrder_setStatus _)
    (staysInOrder_resolveImports module) (fun _ => trivial)
    fun e _ => e.permitted_everywhere).2 order

/-- What is bound by its path enters modules on the way. -/
theorem entersRightly_of_boundByPath
    (order : ∀ v, Visited registry module ast s v → v.before.tree.ModulesInOrder) {place : ScopeId}
    {n : Expr} (bound : n.BoundByPath registry (Visited registry module ast s) place) :
    n.EntersRightly (Visited registry module ast s) place := by
  have follow {v : Visit} (visited : Visited registry module ast s v) {current : ModuleId}
      {path : List String} (stands : v.before.tree.moduleOf? place = some current) :
      v.before.tree.EntersRightly place path :=
    ⟨current, stands, fun _ entered => (order v visited).mayEnter_iff entered⟩
  unfold Expr.BoundByPath at bound
  unfold Expr.EntersRightly
  split
  next made kind =>
    rw [kind] at bound
    intro qualified type
    obtain ⟨v, written, callee, visited, scope, source, name, path, findings, named⟩ := bound qualified
    refine ⟨v, written, visited, scope, source, name, path, ?_⟩
    cases named with
    | reserved word =>
      have reserved := CallType.builtin?_eq_some word
      simp only [findings, Callee.findings, Option.some.injEq] at type
      -- A reserved word stands for itself, and not for something that is found by a path.
      rcases type with type | type <;> simp [type] at reserved
    | standard => simp [findings, Callee.findings, Callee.callType] at type
    | user _ _ _ stands => exact follow visited stands
    | program _ _ _ stands => exact follow visited stands
  next name path arguments target kind =>
    rw [kind] at bound
    intro qualified
    obtain ⟨found, -, v, arguments, old, visited, scope, source, named⟩ := bound qualified
    refine ⟨v, arguments, old, visited, scope, source, ?_⟩
    cases named with
    | user stands => exact follow visited stands
    | standard stands => exact follow visited stands
  next => trivial

/-- In an analysed tree, a module that the path of a call or construction enters may be entered from
the module in which the path is written, exactly if it is not private or each module from which the
path steps down to it is that module or one around it. So the first name of a path never leads to a
module that may not be entered. -/
theorem entersRightly_of_analysed (order : s.tree.ModulesInOrder)
    (given : Gives (moduleWalk registry mode module ast) s analysed t) :
    ∃ m, s.tree.module module = .ok m ∧ ∀ e ∈ analysed.expressions,
      e.AllAbove (LeftAlone registry module ast s)
        (Expr.EntersRightly (Visited registry module ast s)) m.scope := by
  obtain ⟨m, known, all⟩ := all_of_gives spreads_boundByPath given
  refine ⟨m, known, fun e member place n inside => ?_⟩
  exact entersRightly_of_boundByPath (fun v visited => visited.modulesInOrder order)
    (all e member place n inside)

/-! ### A path through a private module -/

/-- The module `lib` has a private module `inner`, which declares an exported function. -/
def innerScopes : ScopeTree :=
  .declare "main" [.addModule ⟨0⟩ "lib" .exported, .addModule ⟨1⟩ "inner" .restricted,
    .addFunction "f" .exported ⟨2⟩ [] false]

theorem innerScopes_inOrder : innerScopes.ModulesInOrder := by
  have built : innerScopes.Built := ScopeTree.built_declare "main" ⟨rfl, rfl, trivial, trivial⟩
  exact built.modulesInOrder

/-- The root module calls `lib::inner::f`. -/
def innerCall : Ast := ⟨[Build.pathCall ["lib", "inner"] "f" []]⟩

/-- The call is accepted though it enters a module that is private to another one. -/
theorem entered_private_module :
    ∃ analysed t, Gives (moduleWalk .empty .overwrite ⟨0⟩ innerCall) { tree := innerScopes } analysed t ∧
      analysed.expressions.map bindingOf =
        [some { path := ["lib", "inner"], name := "f", callType := some .function }] ∧
      innerScopes.EntersModule ⟨0⟩ ["lib", "inner"] ⟨2⟩ ∧ ¬ innerScopes.MayEnter ⟨0⟩ ⟨2⟩ := by
  have ends : endsWith (moduleWalk .empty .overwrite ⟨0⟩ innerCall) { tree := innerScopes }
      (fun analysed _ => analysed.expressions.map bindingOf ==
        [some { path := ["lib", "inner"], name := "f", callType := some .function }]) = true := by
    decide +kernel
  obtain ⟨analysed, t, given, bound⟩ := gives_of_endsWith ends
  refine ⟨analysed, t, given, eq_of_beq bound, ⟨["lib", "inner"], by simp, List.prefix_rfl, ?_⟩, ?_⟩
  · exact ScopeTree.findModule_eq_some.mp (by decide +kernel)
  · intro free
    obtain ⟨parent, ⟨m, known, lies⟩, inside⟩ := free ⟨_, rfl, by decide⟩
    cases known
    cases lies
    -- The root lies in no module, so it does not lie in `lib`.
    rcases Relation.ReflTransGen.cases_head inside with same | ⟨outer, ⟨top, known, lies⟩, -⟩
    · cases same
    · cases known
      cases lies

theorem entersRightly_of_analysed_inner :
    innerScopes.ModulesInOrder ∧ ∃ analysed t,
      Gives (moduleWalk .empty .overwrite ⟨0⟩ innerCall) { tree := innerScopes } analysed t ∧
      analysed.expressions.length = 1 ∧
      ∃ m, innerScopes.module ⟨0⟩ = .ok m ∧ ∀ e ∈ analysed.expressions,
        e.AllAbove (LeftAlone .empty ⟨0⟩ innerCall { tree := innerScopes })
          (Expr.EntersRightly (Visited .empty ⟨0⟩ innerCall { tree := innerScopes })) m.scope := by
  have ends : endsWith (moduleWalk .empty .overwrite ⟨0⟩ innerCall) { tree := innerScopes }
      (fun analysed _ => analysed.expressions.length == 1) = true := by
    decide +kernel
  obtain ⟨analysed, t, given, one⟩ := gives_of_endsWith ends
  exact ⟨innerScopes_inOrder, analysed, t, given, eq_of_beq one,
    entersRightly_of_analysed (s := { tree := innerScopes }) innerScopes_inOrder given⟩

end Analysis
end ShellSema
