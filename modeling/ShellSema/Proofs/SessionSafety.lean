import ShellSema.Format.AnalysisUnit
import ShellSema.Proofs.CrashFree
import ShellSema.Proofs.Sessions

/-!
# Sessions over checked units

A unit that passes its checks gives a closed tree and syntax trees without problems. An analysis of
one module leaves the tree closed, so the modules of a session can be analysed one after the other.
-/
namespace ShellSema

variable {base : ScopeTree} {s : AnalysisState}

/-- The analysis ended with a result or with an error of the script. -/
def Outcome.Ended {α : Type} (outcome : Outcome α) : Prop :=
  (∃ a, outcome.result = .ok a) ∨ ∃ error, outcome.result = .error (.failed error)

/-! ### Imports -/

/-- An imported name is entered in a table of its kind, and stands for an entry of the tree. -/
private theorem knows_importTarget {tree : ScopeTree} {m : ScriptModule} {name : String}
    {target : ImportTarget} (knows : tree.Knows m)
    (known : tree.HasTarget target) : tree.Knows (m.importTarget name target) := by
  cases target with
  | function id =>
    obtain ⟨own, imported⟩ := List.forall_mem_append.mp knows.functions
    exact { knows with functions :=
      List.forall_mem_append.mpr ⟨own, Table.forall_mem_values_insert imported known⟩ }
  | struct id =>
    obtain ⟨own, imported⟩ := List.forall_mem_append.mp knows.structs
    exact { knows with structs :=
      List.forall_mem_append.mpr ⟨own, Table.forall_mem_values_insert imported known⟩ }
  | module id =>
    obtain ⟨own, imported⟩ := List.forall_mem_append.mp knows.modules
    exact { knows with modules :=
      List.forall_mem_append.mpr ⟨own, Table.forall_mem_values_insert imported known⟩ }

theorem safely_resolveImport (sound : Sound base s) {module : ModuleId}
    (known : base.hasModule module = true) {queued : QueuedImport}
    (origin : base.hasModule queued.origin = true) :
    Safely base (Walk.resolveImport module queued) s fun _ _ => True := by
  have origin' := (sound.fits.hasModule queued.origin).trans origin
  refine (safely_ask sound (sound.fits.closed.declared_answers origin' queued.token.text)).bind ?_
  rintro found t continues ⟨declared, same⟩
  subst same
  cases found with
  | none => exact safely_failAt continues.sound
  | some target =>
    have entry := declared target rfl
    have access := continues.sound.fits.closed.accessOf_answers entry
    refine (safely_ask continues.sound access).bind ?_
    rintro level u later ⟨-, same⟩
    subst same
    dsimp only
    split
    · exact safely_failAt later.sound
    · exact (safely_changeModule later.sound known fun m knows =>
        knows_importTarget knows entry).mono fun _ _ _ => trivial

theorem safely_resolveImports (sound : Sound base s) {module : ModuleId}
    (known : base.hasModule module = true) :
    Safely base (Walk.resolveImports module) s fun _ _ => True := by
  simp only [Walk.resolveImports, ScopeTree.Edit.takeImports, edit_bind, edit_ask, edit_pure,
    bind_assoc, pure_bind]
  refine (safely_ask sound (sound.fits.module_answers known)).bind ?_
  rintro m t continues ⟨knows, same⟩
  subst same
  have emptied (m : ScriptModule) (knows : t.tree.Knows m) :
      t.tree.Knows { m with importQueue := [] } := { knows with origins := by simp }
  refine (safely_changeModule continues.sound known emptied).bind fun _ u emptied _ => ?_
  refine safely_forM emptied.sound m.importQueue fun queued member v later => ?_
  refine safely_resolveImport later.sound known ?_
  exact (continues.sound.fits.hasModule _).symm.trans (knows.origins queued member)

/-! ### One module -/

/-- A module of the tree, with a syntax tree without problems. -/
structure ModuleTree.Fine (base : ScopeTree) (entry : ModuleTree) : Prop where
  module : base.hasModule entry.module = true
  expressions : ∀ e ∈ entry.ast.expressions, e.Fine base

theorem safely_setStatus (sound : Sound base s) {module : ModuleId}
    (known : base.hasModule module = true) (status : Status) :
    Safely base (Analysis.setStatus module status) s fun _ _ => True := by
  refine (safely_changeModule sound known fun m knows => ?_).mono fun _ _ _ => trivial
  exact { knows with }

theorem safely_store (sound : Sound base s) {module : ModuleId}
    (known : base.hasModule module = true) (ast : Ast) :
    Safely base (Analysis.store module ast) s fun _ _ => True := by
  refine (safely_changeModule sound known fun m knows => ?_).mono fun _ _ _ => trivial
  exact { knows with }

theorem safely_moduleWalk (sound : Sound base s) {entry : ModuleTree} (fine : entry.Fine base)
    (registry : Registry) (mode : AnalysisMode) :
    Safely base (Analysis.moduleWalk registry mode entry.module entry.ast) s fun _ _ => True := by
  refine (safely_ask sound (sound.fits.module_answers fine.module)).bind ?_
  rintro m t continues ⟨knows, same⟩
  subst same
  have scope : base.hasScope m.scope = true := (sound.fits.hasScope _).symm.trans knows.scope
  refine (safely_setStatus continues.sound fine.module .analysed).bind fun _ u marked _ => ?_
  have walked : Safely base (Analysis.walkModule ⟨registry, m.scope, none⟩ entry.module entry.ast)
      u fun _ _ => True := by
    refine (safely_resolveImports marked.sound fine.module).bind fun _ v resolved _ => ?_
    have known : Context.Known base v ⟨registry, m.scope, none⟩ := ⟨scope, by simp⟩
    exact (safely_exprs resolved.sound known _ fun e member =>
      (fine.expressions e member).walkable).returning
  -- The module is marked as failed in the tree that the walk leaves behind, which still has it.
  have failing (v : AnalysisState) (fits : ScopeTree.Fits base v.tree) :
      ∃ tree, runFrom (ScopeTree.Edit.changeModule entry.module fun m =>
        { m with status := .failed }) v.tree = (.ok (), tree) ∧ ScopeTree.Fits base tree := by
    refine ⟨{ v.tree with modules := v.tree.modules.modify entry.module.index fun m =>
      { m with status := .failed } }, ?_, fits.modifyModule _ fun m knows => { knows with }⟩
    rw [ScopeTree.Edit.runFrom_changeModule, fits.hasModule, if_pos fine.module]
  refine (safely_onError _ walked failing).bind fun analysed v last _ => ?_
  · dsimp only
    split
    · exact (safely_store last.sound fine.module _).bind fun _ _ stored _ =>
        safely_pure stored.sound trivial
    · exact safely_pure last.sound trivial

/-- How an analysis over a checked unit comes out: only a full store is no reason of the script, and
otherwise the tree is still closed. -/
def Outcome.Orderly {α : Type} (base : ScopeTree) (outcome : Outcome α) : Prop :=
  match outcome.result with
  | .error (.crashed _) => 2 ^ 32 ≤ outcome.tree.structs.size
  | _ => ScopeTree.Fits base outcome.tree

theorem Outcome.Orderly.ended {α : Type} {outcome : Outcome α} (orderly : outcome.Orderly base)
    (room : outcome.tree.structs.size < 2 ^ 32) : outcome.Ended := by
  unfold Outcome.Orderly at orderly
  split at orderly
  · omega
  next notCrashed =>
    rcases same : outcome.result with (error | crash) | a
    · exact .inr ⟨error, same⟩
    · exact absurd same (notCrashed crash)
    · exact .inl ⟨a, same⟩

/-- An analysis starts from a closed tree, with no closure entered. -/
theorem sound_start {tree : ScopeTree} (fits : ScopeTree.Fits base tree)
    (tokens : Option (Array SemanticToken)) : Sound base { tree, tokens } :=
  ⟨fits, by simp, by simp⟩

/-- The end of the walk over a module, as an outcome. -/
private theorem orderly_of_safely {α : Type} {action : Walk α} {P : α → AnalysisState → Prop}
    (safely : Safely base action s P) :
    Outcome.Orderly base ⟨(runFrom action s).1, (runFrom action s).2.tree⟩ := by
  unfold Safely at safely
  unfold Outcome.Orderly
  rcases ended : runFrom action s with ⟨(error | crash) | a, t⟩
  · simpa [ended] using safely
  · simpa [ended] using safely
  · simp only [ended] at safely
    exact safely.1.sound.fits

theorem Outcome.Orderly.map {α β : Type} {result : Except Halt α} {tree : ScopeTree}
    (orderly : Outcome.Orderly base ⟨result, tree⟩) (present : α → β) :
    Outcome.Orderly base ⟨result.map present, tree⟩ := by
  rcases result with (error | crash) | a <;> exact orderly

theorem orderly_semanticTokens {tree : ScopeTree} (fits : ScopeTree.Fits base tree)
    {entry : ModuleTree} (fine : entry.Fine base) (registry : Registry) :
    (Analysis.semanticTokens registry tree entry.module entry.ast).Orderly base :=
  (orderly_of_safely (safely_moduleWalk (sound_start fits _) fine registry .overwrite)).map _

theorem orderly_analyze {tree : ScopeTree} (fits : ScopeTree.Fits base tree)
    {entry : ModuleTree} (fine : entry.Fine base) (registry : Registry) (mode : AnalysisMode) :
    (Analysis.analyze registry mode tree entry.module entry.ast).Orderly base := by
  have stored : Answers (Analysis.stored? tree mode entry.module) fun _ => True := by
    unfold Analysis.stored?
    split
    · exact answers_pure trivial
    · exact (fits.module_answers fine.module).bind fun _ _ => answers_pure trivial
  obtain ⟨found, answered, -⟩ := stored
  simp only [Analysis.analyze, answered]
  cases found with
  | some ast => exact fits
  | none =>
    have walked := orderly_of_safely (safely_moduleWalk (sound_start fits none) fine registry mode)
    exact walked

/-! ### Sessions -/

/-- The tree is closed, and what is left to analyse has no problems. -/
structure Session.Ready (base : ScopeTree) (session : Session) : Prop where
  fits : ScopeTree.Fits base session.tree
  pending : ∀ entry ∈ session.pending, entry.Fine base

/-- The action of a session does not crash, unless the store of structs is full. -/
def Session.Runs {α : Type} (base : ScopeTree) (action : Session.Run α) (session : Session)
    (wanted : α → Prop) : Prop :=
  match runFrom action session with
  | (.ok a, after) => after.Ready base ∧ wanted a
  | (.error (.failed _), after) => ScopeTree.Fits base after.tree
  | (.error (.crashed _), after) => 2 ^ 32 ≤ after.tree.structs.size

namespace Session

variable {α β : Type} {session : Session}

theorem runs_pure {a : α} {P : α → Prop} (ready : session.Ready base) (holds : P a) :
    Runs base (pure a) session P :=
  ⟨ready, holds⟩

theorem Runs.bind {action : Session.Run α} {next : α → Session.Run β} {P : α → Prop}
    {Q : β → Prop} (first : Runs base action session P)
    (rest : ∀ a after, Ready base after → P a → Runs base (next a) after Q) :
    Runs base (action >>= next) session Q := by
  unfold Runs at *
  rw [runFrom_bind]
  rcases ended : runFrom action session with ⟨(_ | _) | a, after⟩
  · simpa [ended] using first
  · simpa [ended] using first
  · simp only [ended] at first ⊢
    exact rest a after first.1 first.2

theorem runs_forM {action : α → Session.Run PUnit} (xs : List α) (ready : session.Ready base)
    (each : ∀ x ∈ xs, ∀ session, Ready base session → Runs base (action x) session fun _ => True) :
    Runs base (xs.forM action) session fun _ => True := by
  induction xs generalizing session with
  | nil => exact runs_pure ready trivial
  | cons x xs ih =>
    rw [List.forM_eq_forM, List.forM_cons]
    refine (each x (by simp) session ready).bind fun _ after ready _ => ?_
    exact ih ready fun y member => each y (by simp [member])

theorem runs_take? (ready : session.Ready base) (module : ModuleId) :
    Runs base (take? module) session fun found =>
      ∀ entry, found = some entry → entry.Fine base ∧ entry.module = module := by
  unfold Runs take?
  simp only [runFrom_bind, runFrom_get]
  cases found : session.pending.find? (·.module = module) with
  | none => exact ⟨ready, by simp⟩
  | some entry =>
    simp only [runFrom_bind, runFrom_set, runFrom_pure]
    have member := List.mem_of_find?_eq_some found
    have same : entry.module = module := by simpa using List.find?_some found
    refine ⟨⟨ready.fits, fun other left => ready.pending other (List.mem_of_mem_filter left)⟩, ?_⟩
    rintro _ ⟨⟩
    exact ⟨ready.pending entry member, same⟩

theorem runs_originsOf (ready : session.Ready base) {module : ModuleId}
    (known : base.hasModule module = true) :
    Runs base (originsOf module) session fun _ => True := by
  obtain ⟨m, found, -⟩ := ready.fits.module_answers known
  unfold Runs originsOf
  simp only [runFrom_bind, runFrom_get, found, runFrom_pure]
  exact ⟨ready, trivial⟩

theorem runs_analyzeEntry (ready : session.Ready base) {entry : ModuleTree}
    (fine : entry.Fine base) (registry : Registry) (mode : AnalysisMode) :
    Runs base (analyzeEntry registry mode entry) session fun _ => True := by
  have orderly := orderly_analyze ready.fits fine registry mode
  unfold Outcome.Orderly at orderly
  unfold Runs analyzeEntry
  simp only [runFrom_bind, runFrom_get, runFrom_set]
  rcases ended : (Analysis.analyze registry mode session.tree entry.module entry.ast).result with
    (error | crash) | ast
  · simpa [ended] using orderly
  · simpa [ended] using orderly
  · simp only [ended] at orderly
    exact ⟨⟨orderly, ready.pending⟩, trivial⟩

/-- A module is analysed after those that it imports from. The induction is on the budget. -/
theorem runs_analyzeModule (registry : Registry) (mode : AnalysisMode) (budget : Nat)
    (module : ModuleId) (ready : session.Ready base) :
    Runs base (analyzeModule registry mode budget module) session fun _ => True := by
  induction budget generalizing session module with
  | zero => exact runs_pure ready trivial
  | succ budget ih =>
    refine (runs_take? ready module).bind fun found after ready taken => ?_
    cases found with
    | none => exact runs_pure ready trivial
    | some entry =>
      obtain ⟨fine, rfl⟩ := taken entry rfl
      refine (runs_originsOf ready fine.module).bind fun origins after ready _ => ?_
      refine (runs_forM origins ready fun origin _ later ready => ih origin ready).bind
        fun _ after ready _ => ?_
      exact runs_analyzeEntry ready fine registry mode

theorem runs_analyzeAll (registry : Registry) (mode : AnalysisMode) (budget : Nat)
    (ready : session.Ready base) :
    Runs base (analyzeAll registry mode budget) session fun _ => True := by
  induction budget generalizing session with
  | zero => exact runs_pure ready trivial
  | succ budget ih =>
    unfold analyzeAll
    refine Runs.bind (P := fun found => found = session) ⟨ready, rfl⟩ fun found after ready _ => ?_
    cases found.pending with
    | nil => exact runs_pure ready trivial
    | cons first rest =>
      exact (runs_analyzeModule registry mode _ first.module ready).bind fun _ after ready _ =>
        ih ready

theorem orderly_run (registry : Registry) (mode : AnalysisMode) (ready : session.Ready base) :
    (session.run registry mode).Orderly base := by
  have runs := runs_analyzeAll registry mode session.pending.length ready
  have orderly : Outcome.Orderly base
      ⟨(runFrom (analyzeAll registry mode session.pending.length) session).1,
        (runFrom (analyzeAll registry mode session.pending.length) session).2.tree⟩ := by
    unfold Runs at runs
    unfold Outcome.Orderly
    rcases ended : runFrom (analyzeAll registry mode session.pending.length) session with
      ⟨(error | crash) | _, after⟩
    · simpa [ended] using runs
    · simpa [ended] using runs
    · simp only [ended] at runs
      exact runs.1.fits
  exact orderly.map _

theorem ready_ofModules {tree : ScopeTree} (fits : ScopeTree.Fits base tree)
    {entries : List ModuleTree} (fine : ∀ entry ∈ entries, entry.Fine base) :
    (ofModules tree entries).Ready base := by
  refine ⟨?_, fun entry member => fine entry (mem_of_mem_ofModules member)⟩
  rwa [(ofModules_tree tree entries).1]

end Session

/-! ### Units -/

theorem fine_of_listedProblem? {tree : ScopeTree} {listed : ModuleTree}
    (fine : tree.listedProblem? listed = none) : listed.Fine tree := by
  unfold ScopeTree.listedProblem? at fine
  split at fine
  · cases fine
  next m found =>
    simp only [Option.map_eq_none_iff, List.findSome?_eq_none_iff] at fine
    refine ⟨ScopeTree.hasModule_iff.mpr ⟨m, found⟩, fun e member n inside => fine n ?_⟩
    exact Ast.mem_nodes.mpr ⟨e, member, inside⟩

/-- A unit that passes its checks has a closed tree, and modules without problems. -/
theorem AnalysisUnit.fine_of_problem? {unit : AnalysisUnit} (checked : unit.problem? = none)
    (acyclic : unit.scopes.ScopesAcyclic) :
    ScopeTree.Fits unit.scopes unit.scopes ∧ ∀ listed ∈ unit.modules, listed.Fine unit.scopes := by
  rw [AnalysisUnit.problem?, Option.or_eq_none_iff, List.findSome?_eq_none_iff] at checked
  exact ⟨(ScopeTree.closed_of_problem? checked.1).fits acyclic,
    fun listed member => fine_of_listedProblem? (checked.2 listed member)⟩

/-- A session ends if its tree and its pending modules make up a unit that passes the checks. -/
theorem Session.ended_run {session : Session}
    (checked : AnalysisUnit.problem? ⟨session.tree, session.pending⟩ = none)
    (acyclic : session.tree.ScopesAcyclic) (registry : Registry) (mode : AnalysisMode)
    (room : (session.run registry mode).tree.structs.size < 2 ^ 32) :
    (session.run registry mode).Ended := by
  obtain ⟨fits, fine⟩ := AnalysisUnit.fine_of_problem? checked acyclic
  exact (Session.orderly_run registry mode ⟨fits, fine⟩).ended room

theorem AnalysisUnit.problem?_of_load {text : String} {unit : AnalysisUnit}
    (loaded : AnalysisUnit.load text = .ok unit) : unit.problem? = none := by
  unfold AnalysisUnit.load at loaded
  split at loaded
  · cases loaded
  · split at loaded
    · cases loaded
    · cases loaded
      assumption

/-- The analysis of a unit that was loaded ends with a result or with an error of the script, and so
does the search for the semantic tokens of any of its modules. -/
theorem AnalysisUnit.analysis_ends {text : String} {unit : AnalysisUnit}
    (loaded : AnalysisUnit.load text = .ok unit) (acyclic : unit.scopes.ScopesAcyclic)
    (registry : Registry) (mode : AnalysisMode) :
    (∀ outcome, outcome = (Session.ofModules unit.scopes unit.modules).run registry mode →
      outcome.tree.structs.size < 2 ^ 32 → outcome.Ended) ∧
    ∀ listed ∈ unit.modules, ∀ outcome,
      outcome = Analysis.semanticTokens registry unit.scopes listed.module listed.ast →
      outcome.tree.structs.size < 2 ^ 32 → outcome.Ended := by
  obtain ⟨fits, fine⟩ :=
    AnalysisUnit.fine_of_problem? (AnalysisUnit.problem?_of_load loaded) acyclic
  constructor
  · rintro _ rfl room
    exact (Session.orderly_run registry mode (Session.ready_ofModules fits fine)).ended room
  · rintro listed member _ rfl room
    exact (orderly_semanticTokens fits (fine listed member) registry).ended room

/-- The text of a unit with one module, whose tree is a block. -/
def AnalysisUnit.blockText : String :=
  "\x7b\"scopes\":\x7b\"scopes\":[\x7b\"module\":0\x7d,\x7b\"parent\":0,\"module\":0\x7d]," ++
    "\"modules\":[\x7b\"name\":\"main\",\"scope\":0\x7d]\x7d,\"modules\":[\x7b\"module\":0," ++
    "\"ast\":\x7b\"expressions\":[\x7b\"kind\":\x7b\"Block\":\x7b\"expressions\":[]," ++
    "\"scope\":1\x7d\x7d\x7d]\x7d\x7d]\x7d"

theorem AnalysisUnit.analysis_ends_block :
    ∃ unit, AnalysisUnit.load AnalysisUnit.blockText = .ok unit ∧ unit.modules.length = 1 ∧
      unit.scopes.ScopesAcyclic ∧
      (∀ outcome, outcome = (Session.ofModules unit.scopes unit.modules).run .empty .overwrite →
        outcome.tree.structs.size < 2 ^ 32 → outcome.Ended) ∧
      ∀ listed ∈ unit.modules, ∀ outcome,
        outcome = Analysis.semanticTokens .empty unit.scopes listed.module listed.ast →
        outcome.tree.structs.size < 2 ^ 32 → outcome.Ended := by
  have read : (match AnalysisUnit.load AnalysisUnit.blockText with
      | .ok unit => decide (unit.modules.length = 1 ∧
        unit.scopes.scopes.toList.map Scope.parent = [none, some ⟨0⟩])
      | .error _ => false) = true := by decide +kernel
  cases loaded : AnalysisUnit.load AnalysisUnit.blockText with
  | error problem => simp [loaded] at read
  | ok unit =>
    simp only [loaded, decide_eq_true_eq] at read
    -- Only the second scope has a parent, and it is the first one.
    have acyclic : unit.scopes.ScopesAcyclic := by
      refine ScopeTree.scopesAcyclic_of_descending fun id parent around => ?_
      have listed : ([none, some ⟨0⟩] : List (Option ScopeId))[id.index]? = some (some parent) := by
        rw [← read.2, List.getElem?_map, Array.getElem?_toList]
        obtain ⟨scope, found, outward⟩ := Option.bind_eq_some_iff.mp around
        rw [found, Option.map_some, outward]
      rcases place : id.index with _ | _ | index
      · simp [place] at listed
      · simp [place] at listed
        simp [← listed, ScopeId.index]
      · simp [place] at listed
    exact ⟨unit, rfl, read.1, acyclic, AnalysisUnit.analysis_ends loaded acyclic .empty .overwrite⟩

end ShellSema
