import ShellSema.Proofs.ImportQueues
import ShellSema.Proofs.Paths
import ShellSema.Proofs.Unlinked

/-!
# Imports are resolved at once

The imports of a module are resolved in turn, in a tree that each of them changes. Yet what a name
stands for is read from what its module of origin declares, and an import is entered among what the
importing module has imported. So no import has a say in another, also where a module imports from
itself: each stands for what it stands for before the first of them is resolved. The first that cannot
be resolved ends the resolution. What stands before it is bound by then, and the queue is empty.
-/
namespace ShellSema

/-! ### Overriding a table -/

namespace Table

variable {α : Type}

/-- The table with some pairs entered in turn, each in place of what stands under its name. -/
def override (table : Table α) (pairs : List (String × α)) : Table α :=
  pairs.foldl (fun table pair => table.insert pair.1 pair.2) table

theorem override_cons (table : Table α) (pair : String × α) (pairs : List (String × α)) :
    table.override (pair :: pairs) = (table.insert pair.1 pair.2).override pairs := rfl

/-- Among pairs of one name the last one counts. -/
theorem get?_override (table : Table α) (pairs : List (String × α)) (name : String) :
    (table.override pairs).get? name = (pairs.reverse.lookup name).or (table.get? name) := by
  induction pairs generalizing table with
  | nil => rfl
  | cons pair rest ih =>
    obtain ⟨key, value⟩ := pair
    rw [override_cons, ih, get?_insert, List.reverse_cons, List.lookup_append, Option.or_assoc]
    congr 1
    by_cases same : name = key
    · simp [same]
    · have other : (name == key) = false := by simpa using same
      simp [List.lookup_cons, other, same]

end Table

/-! ### What queued names stand for -/

namespace ImportTarget

def function? : ImportTarget → Option FunctionId
  | .function id => some id
  | _ => none

def struct? : ImportTarget → Option StructId
  | .struct id => some id
  | _ => none

def module? : ImportTarget → Option ModuleId
  | .module id => some id
  | _ => none

end ImportTarget

/-- The names among the bound ones that stand for something of one kind, and what they stand for. -/
def boundAs {α : Type} (kind : ImportTarget → Option α)
    (bound : List (QueuedImport × ImportTarget)) : List (String × α) :=
  bound.filterMap fun pair => (kind pair.2).map (pair.1.token.text, ·)

/-- To bind names is to override the three import tables, each by the names of its kind. -/
theorem ScriptModule.binding_eq (m : ScriptModule) (bound : List (QueuedImport × ImportTarget)) :
    m.binding bound = { m with
      importedFunctions := m.importedFunctions.override (boundAs ImportTarget.function? bound)
      importedStructs := m.importedStructs.override (boundAs ImportTarget.struct? bound)
      importedModules := m.importedModules.override (boundAs ImportTarget.module? bound) } := by
  induction bound generalizing m with
  | nil => rfl
  | cons pair rest ih =>
    obtain ⟨queued, target⟩ := pair
    change (m.importTarget queued.token.text target).binding rest = _
    rw [ih]
    cases target <;> rfl

namespace ScopeTree

variable {tree : ScopeTree} {queued : QueuedImport} {target : ImportTarget}

/-- A module has no function of this name, but for one whose analysis has failed. -/
def LacksFunction (tree : ScopeTree) (m : ScriptModule) (name : String) : Prop :=
  ∀ id, m.functions.get? name = some id → ∃ f, tree.function id = .ok f ∧ f.status = .failed

/-- What a queued name stands for in its module of origin: a function of that module whose analysis
has not failed, or else a struct of it, or else a submodule. -/
inductive StandsFor (tree : ScopeTree) (queued : QueuedImport) : ImportTarget → Prop where
  | function {m : ScriptModule} {id : FunctionId} {f : ScriptFunction}
      (origin : tree.module queued.origin = .ok m)
      (named : m.functions.get? queued.token.text = some id) (known : tree.function id = .ok f)
      (works : f.status ≠ .failed) : StandsFor tree queued (.function id)
  | struct {m : ScriptModule} {id : StructId} (origin : tree.module queued.origin = .ok m)
      (noFunction : tree.LacksFunction m queued.token.text)
      (named : m.structs.get? queued.token.text = some id) : StandsFor tree queued (.struct id)
  | module {m : ScriptModule} {id : ModuleId} (origin : tree.module queued.origin = .ok m)
      (noFunction : tree.LacksFunction m queued.token.text)
      (noStruct : m.structs.get? queued.token.text = none)
      (named : m.submodules.get? queued.token.text = some id) : StandsFor tree queued (.module id)

/-- A queued name stands for nothing in its module of origin. -/
def StandsForNothing (tree : ScopeTree) (queued : QueuedImport) : Prop :=
  ∃ m, tree.module queued.origin = .ok m ∧ tree.LacksFunction m queued.token.text ∧
    m.structs.get? queued.token.text = none ∧ m.submodules.get? queued.token.text = none

/-- A queued name can be imported: what it stands for is exported. -/
def CanImport (tree : ScopeTree) (queued : QueuedImport) (target : ImportTarget) : Prop :=
  tree.StandsFor queued target ∧ tree.accessOf target = .ok .exported

/-- A queued name cannot be imported, with the error that says why. It is placed at the name. -/
inductive Refuses (tree : ScopeTree) (queued : QueuedImport) : AnalysisError → Prop where
  | missing (nothing : tree.StandsForNothing queued) :
      Refuses tree queued ⟨.missingImport queued.token.text, some queued.token.span⟩
  | hidden {target : ImportTarget} {access : Access} (found : tree.StandsFor queued target)
      (known : tree.accessOf target = .ok access) (restricted : access ≠ .exported) :
      Refuses tree queued ⟨.privateImport queued.token.text, some queued.token.span⟩

theorem function?_own (m : ScriptModule) (name : String) :
    m.function? name false = m.functions.get? name := by
  simp [ScriptModule.function?, lookupDeclared]

theorem struct?_own (m : ScriptModule) (name : String) :
    m.struct? name false = m.structs.get? name := by
  simp [ScriptModule.struct?, lookupDeclared]

/-- A search among the functions of a module itself finds one, or tells that there is none. -/
theorem findFunction_own {module : ModuleId} {name : String} {found : Option FunctionId} :
    tree.findFunction module name false = .ok found ↔ ∃ m, tree.module module = .ok m ∧
      match found with
      | some id => m.functions.get? name = some id ∧
        ∃ f, tree.function id = .ok f ∧ f.status ≠ .failed
      | none => tree.LacksFunction m name := by
  rw [findFunction, bind_eq_ok]
  refine exists_congr fun m => and_congr_right fun _ => ?_
  rw [function?_own]
  -- A function that has failed is passed over as if it were not there.
  cases named : m.functions.get? name with
  | none => cases found <;> simp [LacksFunction, named, pure, Except.pure]
  | some id =>
    rw [bind_eq_ok]
    simp only [pure, Except.pure, Except.ok.injEq]
    cases found with
    | none => simp [LacksFunction, named]
    | some other =>
      simp only [Option.ite_none_left_eq_some, Option.some.injEq]
      constructor
      · rintro ⟨f, known, works, rfl⟩
        exact ⟨rfl, f, known, works⟩
      · rintro ⟨rfl, f, known, works⟩
        exact ⟨f, known, works, rfl⟩

theorem declared_eq_ok (found : Option ImportTarget) :
    tree.declared queued.origin queued.token.text = .ok found ↔
      match found with
      | some target => tree.StandsFor queued target
      | none => tree.StandsForNothing queued := by
  rw [declared, bind_eq_ok]
  -- Functions are looked up first, then structs, then modules.
  constructor
  · rintro ⟨function, asked, rest⟩
    obtain ⟨m, origin, functions⟩ := findFunction_own.mp asked
    cases function with
    | some id =>
      cases rest
      obtain ⟨named, f, known, works⟩ := functions
      exact .function origin named known works
    | none =>
      simp only [findStruct, origin, ok_bind, struct?_own] at rest
      cases struct : m.structs.get? queued.token.text with
      | some id =>
        rw [struct] at rest
        cases rest
        exact .struct origin functions struct
      | none =>
        simp only [struct, pure_bind, submodule?_own] at rest
        cases module : m.submodules.get? queued.token.text with
        | some id =>
          rw [module] at rest
          cases rest
          exact .module origin functions struct module
        | none =>
          rw [module] at rest
          cases rest
          exact ⟨m, origin, functions, struct, module⟩
  · intro answer
    cases found with
    | some target =>
      cases answer with
      | function origin named known works =>
        exact ⟨some _, findFunction_own.mpr ⟨_, origin, named, _, known, works⟩, rfl⟩
      | struct origin noFunction named =>
        refine ⟨none, findFunction_own.mpr ⟨_, origin, noFunction⟩, ?_⟩
        simp only [findStruct, origin, ok_bind, struct?_own, named]
        rfl
      | module origin noFunction noStruct named =>
        refine ⟨none, findFunction_own.mpr ⟨_, origin, noFunction⟩, ?_⟩
        simp only [findStruct, origin, ok_bind, struct?_own, noStruct, pure_bind, submodule?_own, named]
        rfl
    | none =>
      obtain ⟨m, origin, noFunction, noStruct, unnamed⟩ := answer
      refine ⟨none, findFunction_own.mpr ⟨m, origin, noFunction⟩, ?_⟩
      simp only [findStruct, origin, ok_bind, struct?_own, noStruct, pure_bind, submodule?_own, unnamed]
      rfl

theorem standsFor_iff :
    tree.StandsFor queued target ↔ tree.declared queued.origin queued.token.text = .ok (some target) :=
  (declared_eq_ok (some target)).symm

theorem standsForNothing_iff :
    tree.StandsForNothing queued ↔ tree.declared queued.origin queued.token.text = .ok none :=
  (declared_eq_ok none).symm

theorem exports_iff : tree.Exports queued target ↔ tree.CanImport queued target :=
  and_congr_left' standsFor_iff.symm

/-- The tree can tell what a queued name stands for, and who may use that. -/
def Judges (tree : ScopeTree) (queued : QueuedImport) : Prop :=
  Answers (tree.declared queued.origin queued.token.text) fun found =>
    ∀ target, found = some target → Answers (tree.accessOf target) fun _ => True

theorem StandsFor.unique {other : ImportTarget} (one : tree.StandsFor queued target)
    (another : tree.StandsFor queued other) : target = other := by
  have same := (standsFor_iff.mp one).symm.trans (standsFor_iff.mp another)
  simpa using same

theorem StandsFor.not_nothing (found : tree.StandsFor queued target) :
    ¬ tree.StandsForNothing queued := by
  intro nothing
  have same := (standsFor_iff.mp found).symm.trans (standsForNothing_iff.mp nothing)
  simp at same

/-- A name that can be imported is not refused. -/
theorem CanImport.not_refuses (can : tree.CanImport queued target) (error : AnalysisError) :
    ¬ tree.Refuses queued error := by
  obtain ⟨standsFor, exported⟩ := can
  rintro (⟨nothing⟩ | ⟨found, known, restricted⟩)
  · exact standsFor.not_nothing nothing
  · rw [standsFor.unique found, known] at exported
    exact restricted (Except.ok.inj exported)

theorem CanImport.judges (can : tree.CanImport queued target) : tree.Judges queued := by
  obtain ⟨standsFor, exported⟩ := can
  refine ⟨_, standsFor_iff.mp standsFor, ?_⟩
  rintro _ ⟨⟩
  exact ⟨_, exported, trivial⟩

/-- A tree without handles that lead nowhere can judge all that its modules have queued. -/
theorem Closed.judges (closed : tree.Closed) {m : ScriptModule} (listed : m ∈ tree.modules)
    (member : queued ∈ m.importQueue) : tree.Judges queued :=
  (closed.declared_answers ((closed.modules m listed).origins queued member) _).mono
    fun _ has target same => closed.accessOf_answers (has target same)

/-! ### The entry of a module -/

/-- The tree with another entry for a module that it has. -/
def withModule (tree : ScopeTree) (id : ModuleId) (m : ScriptModule) : ScopeTree :=
  { tree with modules := tree.modules.modify id.index fun _ => m }

theorem withModule_withModule (tree : ScopeTree) (id : ModuleId) (m m' : ScriptModule) :
    (tree.withModule id m).withModule id m' = tree.withModule id m' := by
  simp only [withModule, mk.injEq, and_true, true_and]
  refine Array.ext_getElem? fun index => ?_
  simp only [Array.getElem?_modify]
  split <;> simp [Function.comp_def]

variable {id : ModuleId} {m : ScriptModule}

theorem withModule_self (found : tree.module id = .ok m) : tree.withModule id m = tree := by
  have entry := module_eq_ok.mp found
  rw [withModule, modify_eq_self fun old there => Option.some.inj (entry.symm.trans there)]

theorem module_withModule (found : tree.module id = .ok m) (m' : ScriptModule) :
    (tree.withModule id m').module id = .ok m' := by
  rw [module_eq_ok]
  exact getElem?_modify_self (module_eq_ok.mp found) _

theorem runFrom_changeModule_found (found : tree.module id = .ok m)
    (change : ScriptModule → ScriptModule) :
    runFrom (Edit.changeModule id change) tree = (.ok (), tree.withModule id (change m)) := by
  have entry := module_eq_ok.mp found
  have same : tree.modules.modify id.index change = tree.modules.modify id.index fun _ => change m :=
    modify_congr fun old there => by cases entry.symm.trans there; rfl
  rw [Edit.runFrom_changeModule, if_pos (hasModule_iff.mpr ⟨m, found⟩), same]
  rfl

end ScopeTree

/-! ### Resolving a queue -/

/-- Why the resolution of imports stops at a queued name: the name cannot be imported, or the tree
cannot tell. -/
inductive ScopeTree.StopsAt (tree : ScopeTree) (queued : QueuedImport) : Halt → Prop where
  | refused {error : AnalysisError} (refuses : tree.Refuses queued error) :
      StopsAt tree queued (.failed error)
  | lost {crash : Crash} (lost : ¬ tree.Judges queued) : StopsAt tree queued (.crashed crash)

/-- How the resolution of imports ends, by what it has left of the queue. -/
inductive ScopeTree.ResolutionEnds (tree : ScopeTree) :
    List QueuedImport → Except Halt Unit → Prop where
  | done : ResolutionEnds tree [] (.ok ())
  | stopped {queued : QueuedImport} {rest : List QueuedImport} {halt : Halt}
      (stops : tree.StopsAt queued halt) : ResolutionEnds tree (queued :: rest) (.error halt)

namespace ScopeTree

variable {tree : ScopeTree} {queued : QueuedImport} {queue rest : List QueuedImport}
  {bound : List (QueuedImport × ImportTarget)} {result : Except Halt Unit}

theorem CanImport.not_stopsAt {target : ImportTarget} (can : tree.CanImport queued target)
    (halt : Halt) : ¬ tree.StopsAt queued halt := by
  rintro (⟨refuses⟩ | ⟨lost⟩)
  · exact can.not_refuses _ refuses
  · exact lost can.judges

/-- The resolution succeeds if and only if each name can be imported. -/
theorem ResolutionEnds.ok_iff (ends : tree.ResolutionEnds rest result)
    (cans : ∀ pair ∈ bound, tree.CanImport pair.1 pair.2) (split : bound.map Prod.fst ++ rest = queue) :
    result = .ok () ↔ ∀ queued ∈ queue, ∃ target, tree.CanImport queued target := by
  subst split
  cases ends with
  | done => simpa using fun queued target member => ⟨target, cans _ member⟩
  | @stopped queued rest halt stops =>
    refine ⟨nofun, fun all => ?_⟩
    obtain ⟨target, can⟩ := all queued (by simp)
    exact absurd stops (can.not_stopsAt halt)

/-- It does not crash if the tree can judge all names. -/
theorem ResolutionEnds.not_crashed (ends : tree.ResolutionEnds rest result)
    (judges : ∀ queued ∈ rest, tree.Judges queued) (crash : Crash) :
    result ≠ .error (.crashed crash) := by
  rintro rfl
  cases ends with
  | stopped stops =>
    cases stops with
    | lost lost => exact lost (judges _ List.mem_cons_self)

end ScopeTree

namespace Analysis

variable {s t : AnalysisState} {module : ModuleId} {queued : QueuedImport} {m : ScriptModule}

/-! What a queued name stands for depends on declarations only. -/

theorem keepsDeclared_withModule (found : s.tree.module module = .ok m) {m' : ScriptModule}
    (core : m'.core = m.core) : KeepsDeclared s { s with tree := s.tree.withModule module m' } := by
  refine ⟨rfl, rfl, fun id => ?_⟩
  simp only [ScopeTree.withModule, Array.getElem?_modify]
  split
  next here => rw [← here, ScopeTree.module_eq_ok.mp found, Option.map_some, Option.map_some,
    Option.map_some, core]
  next => rfl

theorem KeepsDeclared.standsFor (kept : KeepsDeclared s t) {target : ImportTarget} :
    t.tree.StandsFor queued target ↔ s.tree.StandsFor queued target := by
  rw [ScopeTree.standsFor_iff, ScopeTree.standsFor_iff, kept.declared]

theorem KeepsDeclared.standsForNothing (kept : KeepsDeclared s t) :
    t.tree.StandsForNothing queued ↔ s.tree.StandsForNothing queued := by
  rw [ScopeTree.standsForNothing_iff, ScopeTree.standsForNothing_iff, kept.declared]

theorem KeepsDeclared.canImport (kept : KeepsDeclared s t) {target : ImportTarget} :
    t.tree.CanImport queued target ↔ s.tree.CanImport queued target := by
  rw [← ScopeTree.exports_iff, ← ScopeTree.exports_iff, kept.exports]

theorem KeepsDeclared.stopsAt (kept : KeepsDeclared s t) {halt : Halt}
    (stops : t.tree.StopsAt queued halt) : s.tree.StopsAt queued halt := by
  cases stops with
  | refused refuses =>
    refine .refused ?_
    cases refuses with
    | missing nothing => exact .missing (kept.standsForNothing.mp nothing)
    | hidden found known restricted =>
      exact .hidden (kept.standsFor.mp found) (kept.accessOf ▸ known) restricted
  | lost lost =>
    rw [ScopeTree.Judges, kept.declared, kept.accessOf] at lost
    exact .lost lost

theorem KeepsDeclared.resolutionEnds (kept : KeepsDeclared s t) {rest : List QueuedImport}
    {result : Except Halt Unit} (ends : t.tree.ResolutionEnds rest result) :
    s.tree.ResolutionEnds rest result := by
  cases ends with
  | done => exact .done
  | stopped stops => exact .stopped (kept.stopsAt stops)

theorem runFrom_edit_changeModule (found : s.tree.module module = .ok m)
    (change : ScriptModule → ScriptModule) :
    runFrom (Walk.edit (ScopeTree.Edit.changeModule module change)) s =
      (.ok (), { s with tree := s.tree.withModule module (change m) }) := by
  rw [runFrom_edit, ScopeTree.runFrom_changeModule_found found]

/-- A queued name is bound if it can be imported. If not, nothing changes. -/
theorem resolveImport_cases (found : s.tree.module module = .ok m) (queued : QueuedImport) :
    (∃ target, s.tree.CanImport queued target ∧
      runFrom (Walk.resolveImport module queued) s = (.ok (),
        { s with tree := s.tree.withModule module (m.importTarget queued.token.text target) })) ∨
    ∃ halt, s.tree.StopsAt queued halt ∧
      runFrom (Walk.resolveImport module queued) s = (.error halt, s) := by
  unfold Walk.resolveImport
  simp only [runFrom_bind, runFrom_ask]
  -- The name is looked up, then the access of what it stands for is judged.
  cases answer : s.tree.declared queued.origin queued.token.text with
  | error fault =>
    refine .inr ⟨_, .lost ?_, rfl⟩
    rintro ⟨_, answered, -⟩
    rw [answer] at answered
    cases answered
  | ok found' =>
    cases found' with
    | none => exact .inr ⟨_, .refused (.missing (ScopeTree.standsForNothing_iff.mpr answer)), rfl⟩
    | some target =>
      have standsFor : s.tree.StandsFor queued target := ScopeTree.standsFor_iff.mpr answer
      simp only [Except.mapError, runFrom_bind, runFrom_ask]
      cases access : s.tree.accessOf target with
      | error fault =>
        refine .inr ⟨_, .lost ?_, rfl⟩
        rintro ⟨_, answered, judged⟩
        cases answer.symm.trans answered
        obtain ⟨_, known, -⟩ := judged target rfl
        rw [access] at known
        cases known
      | ok access' =>
        by_cases exported : access' = .exported
        · subst exported
          refine .inl ⟨target, ⟨standsFor, access⟩, ?_⟩
          simpa using runFrom_edit_changeModule found _
        · refine .inr ⟨_, .refused (.hidden standsFor access exported), ?_⟩
          simp [exported, Walk.failAt]

/-- The names of a queue are bound up to the first that stops the resolution. Each of them is judged
by the tree in which none of them is bound yet. -/
theorem resolveQueue_cases (found : s.tree.module module = .ok m) (queue : List QueuedImport) :
    ∃ bound rest result, bound.map Prod.fst ++ rest = queue ∧
      (∀ pair ∈ bound, s.tree.CanImport pair.1 pair.2) ∧
      runFrom (queue.forM (Walk.resolveImport module)) s = (result,
        { s with tree := s.tree.withModule module (m.binding bound) }) ∧
      s.tree.ResolutionEnds rest result := by
  -- What is bound changes the imports of the module only, so the later lookups have the same
  -- answers.
  induction queue generalizing s m with
  | nil =>
    refine ⟨[], [], .ok (), rfl, nofun, ?_, .done⟩
    simp [ScriptModule.binding, ScopeTree.withModule_self found]
  | cons queued queue ih =>
    rw [List.forM_eq_forM, List.forM_cons, runFrom_bind]
    rcases resolveImport_cases found queued with ⟨target, can, entered⟩ | ⟨halt, stops, ended⟩
    · have kept := keepsDeclared_withModule found (m.core_importTarget queued.token.text target)
      obtain ⟨bound, rest, result, split, cans, run, ends⟩ :=
        ih (s := { s with tree := s.tree.withModule module _ }) (ScopeTree.module_withModule found _)
      refine ⟨(queued, target) :: bound, rest, result, by simp [split], ?_, ?_, ?_⟩
      · rintro pair (_ | ⟨_, later⟩)
        · exact can
        · exact kept.canImport.mp (cans pair later)
      · rw [ScopeTree.withModule_withModule] at run
        rw [entered]
        exact run
      · exact kept.resolutionEnds ends
    · refine ⟨[], queued :: queue, .error halt, rfl, nofun, ?_, .stopped stops⟩
      rw [ended]
      simp [ScriptModule.binding, ScopeTree.withModule_self found]

/-- The queue is emptied before any name is resolved. -/
theorem runFrom_resolveImports (found : s.tree.module module = .ok m) :
    runFrom (Walk.resolveImports module) s =
      runFrom (m.importQueue.forM (Walk.resolveImport module))
        { s with tree := s.tree.withModule module { m with importQueue := [] } } := by
  simp only [Walk.resolveImports, ScopeTree.Edit.takeImports, edit_bind, edit_ask, edit_pure,
    bind_assoc, pure_bind, runFrom_bind, runFrom_ask, found, Except.mapError,
    runFrom_edit_changeModule found]

/-- Imports are resolved at once. The queue is empty afterwards, and nothing else changes but what the
module has imported. There is a part of the queue, from its start on, of which each name can be
imported and is bound; the names of one kind override the table of that kind in turn. The resolution
succeeds if that part is all of the queue, that is, if each name can be imported. Or else the next
name cannot be imported, and the error says so. What a name stands for, and whether it can be
imported, is told by the tree as it was before. -/
theorem imports_resolved_at_once (found : s.tree.module module = .ok m) :
    ∃ bound rest result, bound.map Prod.fst ++ rest = m.importQueue ∧
      runFrom (Walk.resolveImports module) s = (result, { s with
        tree := s.tree.withModule module { m with
          importQueue := []
          importedFunctions := m.importedFunctions.override (boundAs ImportTarget.function? bound)
          importedStructs := m.importedStructs.override (boundAs ImportTarget.struct? bound)
          importedModules := m.importedModules.override (boundAs ImportTarget.module? bound) } }) ∧
      (∀ pair ∈ bound, s.tree.CanImport pair.1 pair.2) ∧ s.tree.ResolutionEnds rest result ∧
      (result = .ok () ↔ ∀ queued ∈ m.importQueue, ∃ target, s.tree.CanImport queued target) ∧
      (s.tree.Closed → ∀ crash, result ≠ .error (.crashed crash)) := by
  -- Emptying the queue first does not change what the names in it stand for.
  have kept : KeepsDeclared s
      { s with tree := s.tree.withModule module { m with importQueue := [] } } :=
    keepsDeclared_withModule found rfl
  have emptied := ScopeTree.module_withModule found { m with importQueue := [] }
  obtain ⟨bound, rest, result, split, cans, run, ends⟩ :=
    resolveQueue_cases (s := { s with tree := s.tree.withModule module { m with importQueue := [] } })
      emptied m.importQueue
  have cans := fun pair member => kept.canImport.mp (cans pair member)
  have ends := kept.resolutionEnds ends
  refine ⟨bound, rest, result, split, ?_, cans, ends, ends.ok_iff cans split, fun closed => ?_⟩
  · rw [runFrom_resolveImports found, run, ScriptModule.binding_eq, ScopeTree.withModule_withModule]
  · refine ends.not_crashed fun queued member => ?_
    have listed := Array.mem_of_getElem? (ScopeTree.module_eq_ok.mp found)
    exact closed.judges listed (split ▸ List.mem_append_right _ member)

/-- A place of a line. -/
def inColumn (column : UInt32) : Span := { start := { column }, stop := { column } }

/-- A name in some place of a line. -/
def queuedAt (text : String) (column : UInt32) : Token :=
  { Build.name text with span := inColumn column }

/-- A module has queued a function, a struct of the name of a function whose analysis has failed, a
function that is not exported, and a name that stands for nothing. -/
def fourQueued : ScopeTree :=
  let declared := ScopeTree.declare "main" [
    .addModule ⟨0⟩ "lib" .exported,
    .addFunction "run" .exported ⟨1⟩ [] false,
    .addFunction "twin" .exported ⟨1⟩ [] false,
    .addStruct { name := "twin", access := .exported, module := ⟨1⟩ },
    .addFunction "hidden" .restricted ⟨0⟩ [] false,
    .addImport ⟨0⟩ ⟨⟨1⟩, queuedAt "run" 1⟩,
    .addImport ⟨0⟩ ⟨⟨1⟩, queuedAt "twin" 5⟩,
    .addImport ⟨0⟩ ⟨⟨0⟩, queuedAt "hidden" 10⟩,
    .addImport ⟨0⟩ ⟨⟨0⟩, queuedAt "run" 17⟩]
  { declared with functions := declared.functions.modify 1 fun f => { f with status := .failed } }

/-- The first two are bound. The third is refused, and the fourth is not looked at: it would stand
for nothing in its module of origin, also where that has imported the name. -/
theorem imports_resolved_at_once_refused :
    ∃ m, fourQueued.module ⟨0⟩ = .ok m ∧
      m.importQueue.map (·.token.text) = ["run", "twin", "hidden", "run"] ∧
      ∃ bound rest result, bound.map Prod.fst ++ rest = m.importQueue ∧
        (runFrom (Walk.resolveImports ⟨0⟩) { tree := fourQueued }).2.tree =
          fourQueued.withModule ⟨0⟩ { m with
            importQueue := []
            importedFunctions := m.importedFunctions.override (boundAs ImportTarget.function? bound)
            importedStructs := m.importedStructs.override (boundAs ImportTarget.struct? bound)
            importedModules := m.importedModules.override (boundAs ImportTarget.module? bound) } ∧
        (∀ pair ∈ bound, fourQueued.CanImport pair.1 pair.2) ∧ fourQueued.ResolutionEnds rest result ∧
        result = .error (.failed ⟨.privateImport "hidden", some (inColumn 10)⟩) := by
  have known : (fourQueued.module ⟨0⟩).toOption.isSome = true := by decide +kernel
  obtain ⟨m, entered⟩ := Option.isSome_iff_exists.mp known
  have found := ok_of_toOption entered
  have queue : (fourQueued.module ⟨0⟩).toOption.map (·.importQueue.map (·.token.text)) =
      some ["run", "twin", "hidden", "run"] := by decide +kernel
  have refused : (runFrom (Walk.resolveImports ⟨0⟩) { tree := fourQueued }).1 =
      .error (.failed ⟨.privateImport "hidden", some (inColumn 10)⟩) := by decide +kernel
  obtain ⟨bound, rest, result, split, run, cans, ends, -⟩ :=
    imports_resolved_at_once (s := { tree := fourQueued }) found
  rw [run] at refused
  rw [found] at queue
  exact ⟨m, found, Option.some.inj queue, bound, rest, result, split, by rw [run], cans, ends, refused⟩

end Analysis
end ShellSema
