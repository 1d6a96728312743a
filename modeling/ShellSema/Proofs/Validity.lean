import ShellSema.Proofs.Extent
import ShellSema.Proofs.FineTrees
import ShellSema.Proofs.StoredTrees
import ShellSema.Proofs.Unlinked
import ShellSema.Syntax.Build

/-!
# Units that stay valid

A unit that has passed the checks is analysed, and the trees that come out make a unit again, with the
tree of scopes as it is then. That unit passes the checks as well. Trees that an earlier analysis has
stored are returned as they are, so these have to be without problems themselves.
-/
namespace ShellSema

/-! ### What the checks of a unit ask for -/

namespace ScopeTree

variable {tree : ScopeTree}

theorem moduleProblem?_eq_none {m : ScriptModule} : tree.moduleProblem? m = none ↔
    tree.Knows m ∧ ∀ parent, m.parent = some parent → tree.hasModule parent = true := by
  constructor
  · intro fine
    refine ⟨knows_of_moduleProblem? fine, fun parent around => ?_⟩
    unfold moduleProblem? at fine
    split at fine
    · cases fine
    split at fine
    · cases fine
    next symbols =>
      simp only [symbolsExist, around, Bool.not_eq_true', Bool.not_eq_false, Bool.and_eq_true,
        List.all_eq_true] at symbols
      exact symbols.2 parent (by simp)
  · rintro ⟨⟨scope, functions, structs, modules, origins⟩, parents⟩
    -- The parent is looked up together with the modules that the module names.
    have symbols : tree.symbolsExist m = true := by
      simp only [symbolsExist, Bool.and_eq_true, List.all_eq_true]
      refine ⟨⟨functions, structs⟩, fun id member => ?_⟩
      rcases List.mem_append.mp member with named | around
      · exact modules id named
      · exact parents id (by simpa using around)
    simpa [moduleProblem?, scope, symbols] using origins

/-- Nothing is found wrong in a tree that is closed, and whose modules have parents in it. -/
theorem problem?_eq_none : tree.problem? = none ↔ tree.Closed ∧
    ∀ m ∈ tree.modules, ∀ parent, m.parent = some parent → tree.hasModule parent = true := by
  constructor
  · intro fine
    refine ⟨closed_of_problem? fine, fun m member => ?_⟩
    unfold problem? at fine
    split at fine
    · cases fine
    · simp only [Option.or_eq_none_iff, List.findSome?_eq_none_iff, Array.mem_toList_iff] at fine
      exact (moduleProblem?_eq_none.mp (fine.1 m member)).2
  · rintro ⟨closed, parents⟩
    unfold problem?
    simp only [closed.root, Bool.not_true, Bool.false_eq_true, if_false, Option.or_eq_none_iff,
      List.findSome?_eq_none_iff, Array.mem_toList_iff]
    refine ⟨fun m member => ?_, fun entry member => ?_, fun f member => ?_⟩
    · exact moduleProblem?_eq_none.mpr ⟨closed.modules m member, parents m member⟩
    -- The position of a scope only serves to name it in a problem.
    · have inside : entry.1 ∈ tree.scopes := by
        rw [List.mem_zipIdx_iff_getElem?] at member
        exact Array.mem_toList_iff.mp (List.mem_of_getElem? member)
      have outward : entry.1.parent.toList.all tree.hasScope = true := by
        rw [List.all_eq_true]
        exact fun parent around => closed.parents _ inside parent (by simpa using around)
      simp [scopeProblem?, closed.scopeModules _ inside, outward]
    · simp [functionProblem?, closed.functions f member]

theorem listedProblem?_eq_none {listed : ModuleTree} :
    tree.listedProblem? listed = none ↔ listed.Fine tree := by
  refine ⟨fine_of_listedProblem?, fun fine => ?_⟩
  obtain ⟨m, found⟩ := hasModule_iff.mp fine.module
  simp only [listedProblem?, found, Option.map_eq_none_iff, List.findSome?_eq_none_iff]
  intro n inside
  obtain ⟨e, member, inside⟩ := Ast.mem_nodes.mp inside
  exact fine.expressions e member n inside

end ScopeTree

theorem AnalysisUnit.problem?_eq_none {unit : AnalysisUnit} : unit.problem? = none ↔
    unit.scopes.problem? = none ∧ ∀ listed ∈ unit.modules, listed.Fine unit.scopes := by
  simp only [problem?, Option.or_eq_none_iff, List.findSome?_eq_none_iff,
    ScopeTree.listedProblem?_eq_none]

/-! ### Trees of scopes with the same entries -/

section Entries

variable {base tree : ScopeTree} (fits : ScopeTree.Fits base tree)

include fits

theorem ScopeTree.Fits.fine_iff {e : Expr} : e.Fine tree ↔ e.Fine base := by
  have leads (kind : ExprKind) : tree.Leads kind = base.Leads kind := by
    cases kind <;> simp [ScopeTree.Leads, fits.hasScope, fits.hasModule, fits.hasFunction]
  simp only [Expr.Fine, ScopeTree.nodeProblem?_eq_none, leads]

theorem ModuleTree.Fine.of_fits {entry : ModuleTree} (fine : entry.Fine base) : entry.Fine tree :=
  ⟨(fits.hasModule _).trans fine.module, fun e member => fits.fine_iff.mpr (fine.expressions e member)⟩

end Entries

/-! ### One analysis -/

namespace Analysis

variable {registry : Registry} {mode : AnalysisMode} {base tree later : ScopeTree}
  {entry : ModuleTree} {analysed : Ast}

/-- An analysis that walks makes a tree without problems of one without problems. -/
theorem fine_of_gives {module : ModuleId} {ast : Ast} {s t : AnalysisState}
    (fine : ∀ e ∈ ast.expressions, e.Fine base)
    (given : Gives (moduleWalk registry mode module ast) s analysed t) :
    ∀ e ∈ analysed.expressions, e.Fine base := by
  obtain ⟨context, start, u, -, walked, -⟩ := begins_of_gives given
  have yields : (Plan.each context Expr.slot ast.expressions).Yields
      (fun _ slot e r => slot.attachment = none → e.Fine base → r.Fine base) start
      fun results => ∀ r ∈ results, r.Fine base := by
    refine (Plan.yields_each _ Expr.slot ast.expressions fun _ => rfl).mono fun results parts => ?_
    have parts := (List.forall₂_and_left _ _).mpr ⟨fine, parts⟩
    exact forall_of_forall₂ parts fun _ _ ⟨source, _, plain, stays⟩ => stays plain source
  refine yields.of_gives (fun v r t' _ left plain source => ?_) walked
  exact Visit.fine_of_gives source left (by simp [Slot.piped, plain])

/-- What an analysis returns has no problems, if neither what it is asked for nor what is stored has
any. -/
theorem fine_of_analyze (fine : entry.Fine base)
    (stored : mode = .oncePerModule → ∀ ast, tree.Stores ⟨entry.module, ast⟩ →
      ModuleTree.Fine base ⟨entry.module, ast⟩)
    (ended : analyze registry mode tree entry.module entry.ast = ⟨.ok analysed, later⟩) :
    ModuleTree.Fine base ⟨entry.module, analysed⟩ := by
  unfold analyze at ended
  split at ended
  · cases ended
  next found =>
    cases ended
    obtain ⟨once, stores⟩ := stores_of_stored? found
    exact stored once _ stores
  next =>
    rcases walked : (moduleWalk registry mode entry.module entry.ast).run { tree } with ⟨result, t⟩
    rw [walked] at ended
    cases ended
    exact ⟨fine.module, fine_of_gives fine.expressions walked⟩

/-- An analysis leaves the frames of all modules. -/
theorem frames_analyze (registry : Registry) (mode : AnalysisMode) (tree : ScopeTree)
    (module : ModuleId) (ast : Ast) :
    (analyze registry mode tree module ast).tree.modules.map ScriptModule.frame =
      tree.modules.map ScriptModule.frame := by
  obtain ⟨t, same, kept⟩ := related_declaring registry mode module
    (keepsModules_preserved (ast.declaring tree module)) fun change core =>
      keepsModules_changeModule module fun m => congrArg ScriptModule.bare (core m)
  rw [same]
  exact kept

end Analysis

/-! ### Sessions -/

namespace Session

variable {registry : Registry} {mode : AnalysisMode} {base : ScopeTree} {listed : ModuleId → Prop}

/-- The session stays within the handles of the first tree, and neither what is left to analyse nor
what has been analysed has problems. The same holds of what is stored, if it may be returned. -/
structure Valid (base : ScopeTree) (mode : AnalysisMode) (listed : ModuleId → Prop)
    (session : Session) : Prop where
  fits : ScopeTree.Fits base session.tree
  frames : session.tree.modules.map ScriptModule.frame = base.modules.map ScriptModule.frame
  pending : ∀ entry ∈ session.pending, entry.Fine base ∧ listed entry.module
  analysed : ∀ entry ∈ session.analysed, entry.Fine base
  stored : mode = .oncePerModule → ∀ entry : ModuleTree, listed entry.module →
    session.tree.Stores entry → entry.Fine base

theorem invariant_valid (registry : Registry) (mode : AnalysisMode) :
    Invariant registry mode (Valid base mode listed) fun entry =>
      entry.Fine base ∧ listed entry.module where
  pending session valid := valid.pending
  fewer session pending valid fewer :=
    { valid with pending := fun entry member => valid.pending entry (fewer.subset member) }
  analysed session entry ast later valid able ended := by
    have fine : ModuleTree.Fine base ⟨entry.module, ast⟩ :=
      Analysis.fine_of_analyze able.1 (fun once ast => valid.stored once ⟨_, ast⟩ able.2) ended
    have same : (Analysis.analyze registry mode session.tree entry.module entry.ast).tree = later := by
      rw [ended]
    constructor
    case fits =>
      have orderly := orderly_analyze valid.fits able.1 registry mode
      rw [ended] at orderly
      exact orderly
    case frames => exact same ▸ (Analysis.frames_analyze ..).trans valid.frames
    case pending => exact valid.pending
    case analysed =>
      intro other member
      rcases mem_place member with rfl | before
      · exact fine
      · exact valid.analysed other before
    case stored =>
      rintro rfl ⟨module, ast'⟩ inside stores
      by_cases own : module = entry.module
      · -- What is stored in the module now is what the analysis has returned.
        subst own
        have left : later.Stores ⟨entry.module, ast⟩ := by
          rw [← same]
          exact Analysis.stores_of_analyze (by rw [ended])
        rw [stores.unique left]
        exact fine
      · refine valid.stored rfl _ inside (stores.of_progress ?_)
        rw [← same]
        exact (Analysis.progress_analyze registry _ session.tree entry.module entry.ast own).symm

end Session

/-! ### Units -/

namespace AnalysisUnit

variable {unit : AnalysisUnit} {registry : Registry} {mode : AnalysisMode}
  {returned : List ModuleTree} {later : ScopeTree}

/-- The stored trees that a session over the modules of a unit may return have no problems. -/
def StoredFine (unit : AnalysisUnit) (mode : AnalysisMode) : Prop :=
  mode = .oncePerModule → ∀ listed ∈ unit.modules, ∀ ast, unit.scopes.Stores ⟨listed.module, ast⟩ →
    ∀ e ∈ ast.expressions, e.Fine unit.scopes

/-- A session over the modules of a valid unit starts in order. -/
theorem valid_start (valid : unit.problem? = none) (acyclic : unit.scopes.ScopesAcyclic)
    (stored : unit.StoredFine mode) :
    (Session.ofModules unit.scopes unit.modules).Valid unit.scopes mode
      (· ∈ modulesOf unit.modules) := by
  obtain ⟨scopes, modules⟩ := problem?_eq_none.mp valid
  obtain ⟨tree, nothing⟩ := Session.ofModules_tree unit.scopes unit.modules
  have fits := (ScopeTree.closed_of_problem? scopes).fits acyclic
  constructor
  case fits => rwa [tree]
  case frames => rw [tree]
  case pending =>
    intro entry member
    refine ⟨(Session.ready_ofModules fits modules).pending entry member, ?_⟩
    exact Session.mem_modules_ofModules.mp (List.mem_map_of_mem member)
  case analysed =>
    rw [nothing]
    exact fun _ member => absurd member List.not_mem_nil
  case stored =>
    rintro once ⟨module, ast⟩ inside stores
    obtain ⟨listed, member, rfl⟩ := List.mem_map.mp inside
    rw [tree] at stores
    exact ⟨(modules listed member).module, stored once listed member ast stores⟩

/-- If stored trees have no problems, what comes out of a session is a valid unit. -/
theorem valid_of_stored (valid : unit.problem? = none) (acyclic : unit.scopes.ScopesAcyclic)
    (ended : (Session.ofModules unit.scopes unit.modules).run registry mode = ⟨.ok returned, later⟩)
    (stored : unit.StoredFine mode) : AnalysisUnit.problem? ⟨later, returned⟩ = none := by
  obtain ⟨after, given, rfl, rfl⟩ := Session.run_eq_ok.mp ended
  have last := (Session.invariant_valid registry mode).of_analyzeAll given
    (valid_start valid acyclic stored)
  have parents := (ScopeTree.problem?_eq_none.mp (problem?_eq_none.mp valid).1).2
  rw [problem?_eq_none, ScopeTree.problem?_eq_none]
  refine ⟨⟨last.fits.closed, fun m member parent around => ?_⟩, fun entry member => ?_⟩
  · -- The parent of a module is part of its frame, and so it is the one that it had at first.
    obtain ⟨m', member', frame⟩ : ∃ m' ∈ unit.scopes.modules, m'.frame = m.frame := by
      have inside := Array.mem_map_of_mem (f := ScriptModule.frame) member
      rwa [last.frames, Array.mem_map] at inside
    have same : m'.parent = m.parent := congrArg (·.parent) frame
    rw [last.fits.hasModule]
    exact parents m' member' parent (same.trans around)
  · exact (last.analysed entry member).of_fits last.fits

/-- A stored tree of a listed module is returned, so it has no problems in a valid unit. -/
theorem storedFine_of_valid (valid : unit.problem? = none) (acyclic : unit.scopes.ScopesAcyclic)
    (ended : (Session.ofModules unit.scopes unit.modules).run registry mode = ⟨.ok returned, later⟩)
    (outcome : AnalysisUnit.problem? ⟨later, returned⟩ = none) : unit.StoredFine mode := by
  rintro rfl listed member ast stores
  obtain ⟨scopes, modules⟩ := problem?_eq_none.mp valid
  have fits : ScopeTree.Fits unit.scopes later := by
    have start := (ScopeTree.closed_of_problem? scopes).fits acyclic
    have orderly := Session.orderly_run registry .oncePerModule
      (Session.ready_ofModules start modules)
    rw [ended] at orderly
    exact orderly
  obtain ⟨-, left, returns⟩ := Session.stored_of_ofModules ended
  have asked : listed.module ∈ modulesOf returned :=
    (returns _).mpr (List.mem_map_of_mem member)
  obtain ⟨⟨module, ast'⟩, inside, same⟩ := List.mem_map.mp asked
  obtain rfl : module = listed.module := same
  -- The session has returned what it leaves in the module, and that is what was there before.
  have stays : later.Stores ⟨listed.module, ast⟩ := by
    obtain ⟨after, given, -, rfl⟩ := Session.run_eq_ok.mp ended
    refine (Session.invariant_stores registry _).of_analyzeAll given ?_
    rwa [(Session.ofModules_tree unit.scopes unit.modules).1]
  have fine := (problem?_eq_none.mp outcome).2 _ inside
  rw [(left _ inside).unique stays] at fine
  exact fun e among => fits.fine_iff.mp (fine.expressions e among)

/-- What a session makes of a valid unit is a valid unit, just if the stored trees that it may return
have no problems. -/
theorem valid_of_run (valid : unit.problem? = none) (acyclic : unit.scopes.ScopesAcyclic)
    (ended : (Session.ofModules unit.scopes unit.modules).run registry mode =
      ⟨.ok returned, later⟩) :
    AnalysisUnit.problem? ⟨later, returned⟩ = none ↔ unit.StoredFine mode :=
  ⟨storedFine_of_valid valid acyclic ended, valid_of_stored valid acyclic ended⟩

/-- A function that keeps what it is given, and takes a closure. -/
def keeping : ScriptFunction where
  name := "keep"
  access := .exported
  module := ⟨1⟩
  parameters := [Build.parameter "input"]
  takesClosure := true

/-- The root module pipes a program into a function that it imports, with a closure on it. -/
def importingUnit : AnalysisUnit where
  scopes := .declare "main" [
    .addModule ⟨0⟩ "m" .exported,
    .addScope ⟨1⟩,
    .addScope ⟨0⟩,
    .addFunction keeping.name keeping.access keeping.module keeping.parameters keeping.takesClosure,
    .addImport ⟨0⟩ ⟨⟨1⟩, Build.name "keep"⟩]
  modules := [
    ⟨⟨0⟩, ⟨[Build.pipe (Build.command "ls" ["-l"])
      (Build.closure (Build.call "keep" []) ["line"] (Build.block ⟨3⟩ [Build.variableRef "line"]))]⟩⟩,
    ⟨⟨1⟩, ⟨[Build.function keeping ⟨0⟩
      (Build.blockOf .function ⟨2⟩ [Build.letIn ["x"] (Build.variableRef "input")])]⟩⟩]

theorem valid_of_run_importing :
    ∃ returned later, (Session.ofModules importingUnit.scopes importingUnit.modules).run .empty
        .oncePerModule = ⟨.ok returned, later⟩ ∧
      returned.map ModuleTree.module = [⟨0⟩, ⟨1⟩] ∧
      AnalysisUnit.problem? ⟨later, returned⟩ = none := by
  have read : (match ((Session.ofModules importingUnit.scopes importingUnit.modules).run .empty
      .oncePerModule).result with
    | .ok returned => decide (returned.map ModuleTree.module = [⟨0⟩, ⟨1⟩])
    | .error _ => false) = true := by decide +kernel
  rcases ended : (Session.ofModules importingUnit.scopes importingUnit.modules).run .empty
    .oncePerModule with ⟨halt | returned, later⟩
  · simp [ended] at read
  have valid : importingUnit.problem? = none := by decide +kernel
  have acyclic : importingUnit.scopes.ScopesAcyclic :=
    ScopeTree.scopesAcyclic_of_stored (by decide +kernel)
  have pending : ∀ listed ∈ importingUnit.modules,
      (importingUnit.scopes.modules[listed.module.index]?).map ScriptModule.status =
        some .pending := by
    decide +kernel
  have stored : importingUnit.StoredFine .oncePerModule := by
    rintro - listed member ast ⟨m, found, status, -⟩
    have before := pending listed member
    rw [ScopeTree.module_eq_ok.mp found, Option.map_some, status] at before
    cases before
  rw [ended] at read
  exact ⟨returned, later, rfl, of_decide_eq_true read, (valid_of_run valid acyclic ended).mpr stored⟩

/-- A module counts as analysed, and the tree that is stored in it has a block in an unknown scope. -/
def storedUnknown : AnalysisUnit where
  scopes :=
    { ScopeTree.ofRoot "main" with
      modules := #[{ name := "main", access := .exported, scope := ⟨0⟩, status := .analysed
                     stored := some ⟨[Build.block ⟨9⟩ []]⟩ }] }
  modules := [⟨⟨0⟩, ⟨[]⟩⟩]

/-- The checks let this unit pass, and refuse what a session makes of it. -/
theorem invalid_of_run :
    storedUnknown.problem? = none ∧ storedUnknown.scopes.ScopesAcyclic ∧
      ∃ returned later, (Session.ofModules storedUnknown.scopes storedUnknown.modules).run .empty
          .oncePerModule = ⟨.ok returned, later⟩ ∧
        AnalysisUnit.problem? ⟨later, returned⟩ =
          some (.node "main" (.unknownBlockScope {} ⟨9⟩)) := by
  have read : (match (Session.ofModules storedUnknown.scopes storedUnknown.modules).run .empty
      .oncePerModule with
    | ⟨.ok returned, later⟩ => decide (AnalysisUnit.problem? ⟨later, returned⟩ =
        some (.node "main" (.unknownBlockScope {} ⟨9⟩)))
    | ⟨.error _, _⟩ => false) = true := by decide +kernel
  rcases ended : (Session.ofModules storedUnknown.scopes storedUnknown.modules).run .empty
    .oncePerModule with ⟨halt | returned, later⟩
  · simp [ended] at read
  rw [ended] at read
  refine ⟨by decide +kernel, ScopeTree.scopesAcyclic_of_stored (by decide +kernel), returned, later,
    rfl, of_decide_eq_true read⟩

end AnalysisUnit
end ShellSema
