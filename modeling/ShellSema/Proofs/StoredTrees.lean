import ShellSema.Proofs.Reanalysis
import ShellSema.Proofs.Schedule

/-!
# Trees left for later requests

An analysis that is asked for once per module leaves its tree in the module. From then on requests for
the module are answered with that tree, whatever they hand in, and nothing is changed any more. What
is left of one module survives the analysis of the others, in whatever order these come.
-/
namespace ShellSema

/-- The module of an entry has been analysed, and the tree of the entry is left for later requests. -/
def ScopeTree.Stores (tree : ScopeTree) (entry : ModuleTree) : Prop :=
  ∃ m, tree.module entry.module = .ok m ∧ m.status = .analysed ∧ m.stored = some entry.ast

/-- The module of an entry has been analysed, and some tree is left for later requests. -/
def ScopeTree.Answers (tree : ScopeTree) (module : ModuleId) : Prop :=
  ∃ ast, tree.Stores ⟨module, ast⟩

namespace ScopeTree

variable {tree later : ScopeTree} {entry : ModuleTree}

/-- What is stored is read off the progress of the module. -/
theorem stores_iff : tree.Stores entry ↔ ∃ progress, tree.progress? entry.module = some progress ∧
    progress.status = .analysed ∧ progress.stored = some entry.ast := by
  unfold Stores progress?
  constructor
  · rintro ⟨m, found, status, stored⟩
    exact ⟨m.progress, by rw [module_eq_ok.mp found, Option.map_some], status, stored⟩
  · rintro ⟨progress, there, status, stored⟩
    obtain ⟨m, found, rfl⟩ := Option.map_eq_some_iff.mp there
    exact ⟨m, module_eq_ok.mpr found, status, stored⟩

theorem Stores.of_progress (stores : tree.Stores entry)
    (same : later.progress? entry.module = tree.progress? entry.module) : later.Stores entry := by
  rw [stores_iff] at stores ⊢
  rwa [same]

/-- One tree at most is stored for a module. -/
theorem Stores.unique {module : ModuleId} {ast ast' : Ast} (stores : tree.Stores ⟨module, ast⟩)
    (stores' : tree.Stores ⟨module, ast'⟩) : ast = ast' := by
  obtain ⟨m, found, -, stored⟩ := stores
  obtain ⟨m', found', -, stored'⟩ := stores'
  rw [found] at found'
  cases found'
  exact Option.some.inj (stored.symm.trans stored')

end ScopeTree

namespace Analysis

variable {registry : Registry} {tree : ScopeTree} {module : ModuleId} {ast : Ast}

/-- A request is answered with the stored tree and changes nothing. -/
theorem analyze_of_stores (stores : tree.Stores ⟨module, ast⟩) (registry : Registry) (given : Ast) :
    analyze registry .oncePerModule tree module given = ⟨.ok ast, tree⟩ := by
  obtain ⟨m, found, status, stored⟩ := stores
  have answer : stored? tree .oncePerModule module = .ok (some ast) := by
    unfold stored?
    rw [found]
    simp only [reduceCtorEq, if_false]
    change Except.ok (if m.status = .analysed then m.stored else none) = _
    rw [if_pos status, stored]
  unfold analyze
  rw [answer]

/-- A walk that is asked for once per module leaves its tree in the module. -/
theorem stores_of_gives {analysed : Ast} {s t : AnalysisState}
    (given : Gives (moduleWalk registry .oncePerModule module ast) s analysed t) :
    t.tree.Stores ⟨module, analysed⟩ := by
  obtain ⟨context, start, u, begins, walked, storing⟩ := begins_of_gives given
  obtain ⟨-, m, found, status, -⟩ := begins.underway
  -- The walk over the expressions does not touch the status of the module.
  have kept : (u.tree.modules[module.index]?).map ScriptModule.status =
      (start.tree.modules[module.index]?).map ScriptModule.status := by
    rw [Plan.run_each] at walked
    have bare : KeepsBare (fun _ => True) start u := (keepsBare_exprs _ _).of_gives walked
    exact bare.read trivial fun _ => rfl
  rw [ScopeTree.module_eq_ok.mp found, Option.map_some, status] at kept
  obtain ⟨m', found', status'⟩ := Option.map_eq_some_iff.mp kept
  rw [if_pos rfl] at storing
  refine ⟨{ m' with stored := some analysed }, ?_, status', rfl⟩
  rw [tree_of_edit storing]
  exact ScopeTree.module_changeModule (ScopeTree.module_eq_ok.mpr found') _

/-- A request is answered from what is stored in one of the modes only. -/
theorem stores_of_stored? {mode : AnalysisMode} (found : stored? tree mode module = .ok (some ast)) :
    mode = .oncePerModule ∧ tree.Stores ⟨module, ast⟩ := by
  unfold stored? at found
  split at found
  · cases found
  next other =>
    refine ⟨by cases mode <;> simp_all, ?_⟩
    cases known : tree.module module with
    | error fault =>
      rw [known] at found
      cases found
    | ok m =>
      rw [known] at found
      have left : (if m.status = .analysed then m.stored else none) = some ast :=
        Except.ok.inj found
      split at left
      · exact ⟨m, known, ‹_›, left⟩
      · cases left

/-- The tree that comes out of an analysis is left in the module, whether the analysis walked or
found it there. -/
theorem stores_of_analyze {given : Ast}
    (ended : (analyze registry .oncePerModule tree module given).result = .ok ast) :
    (analyze registry .oncePerModule tree module given).tree.Stores ⟨module, ast⟩ := by
  unfold analyze at ended ⊢
  split at ended
  next => cases ended
  next answer =>
    cases ended
    exact (stores_of_stored? answer).2
  next =>
    rcases walked : (moduleWalk registry .oncePerModule module given).run { tree } with ⟨result, t⟩
    rw [walked] at ended
    dsimp only at ended
    subst ended
    exact stores_of_gives walked

/-- What is stored for a module stays, whichever module is analysed next. -/
theorem stores_analyze {entry : ModuleTree} (stores : tree.Stores entry) (module : ModuleId)
    (given : Ast) : (analyze registry .oncePerModule tree module given).tree.Stores entry := by
  by_cases apart : entry.module = module
  · subst apart
    rw [analyze_of_stores stores]
    exact stores
  · exact stores.of_progress (progress_analyze registry _ tree module given apart)

end Analysis

/-! ### Sessions -/

namespace Session

variable {registry : Registry} {module : ModuleId} {α β : Type}

/-- What the session has returned so far is in order, and is stored. -/
def Stored (session : Session) : Prop :=
  Ascending session.analysed ∧ ∀ entry ∈ session.analysed, session.tree.Stores entry

/-- What is stored stays where it is, as long as requests are answered from what is stored. -/
theorem invariant_stores (registry : Registry) (entry : ModuleTree) :
    Invariant registry .oncePerModule (fun session => session.tree.Stores entry) fun _ => True where
  pending _ _ _ _ := trivial
  fewer _ _ stores _ := stores
  analysed session request ast later stores _ ended := by
    have kept : (Analysis.analyze registry .oncePerModule session.tree request.module
      request.ast).tree.Stores entry := Analysis.stores_analyze stores request.module request.ast
    rw [ended] at kept
    exact kept

/-- An analysis returns what it stores, and leaves what is stored for the others. -/
theorem invariant_stored : Invariant registry .oncePerModule Stored fun _ => True where
  pending _ _ _ _ := trivial
  fewer _ _ stored _ := stored
  analysed session entry ast later := by
    rintro ⟨ascending, stored⟩ able ended
    refine ⟨ascending.place, fun other member => ?_⟩
    rcases mem_place member with rfl | before
    · have left := Analysis.stores_of_analyze (congrArg Outcome.result ended)
      rwa [ended] at left
    · exact (invariant_stores registry other).analysed session entry ast later (stored other before)
        able ended

/-- A session that ends returns what the analyses of its modules have left. -/
theorem run_eq_ok {mode : AnalysisMode} {session : Session} {returned : List ModuleTree}
    {later : ScopeTree} : session.run registry mode = ⟨.ok returned, later⟩ ↔
      ∃ after, Gives (analyzeAll registry mode session.pending.length) session () after ∧
        after.analysed = returned ∧ after.tree = later := by
  have run : session.run registry mode =
      ⟨(runFrom (analyzeAll registry mode session.pending.length) session).1.map fun _ =>
        (runFrom (analyzeAll registry mode session.pending.length) session).2.analysed,
        (runFrom (analyzeAll registry mode session.pending.length) session).2.tree⟩ := rfl
  rw [run]
  unfold Gives
  rcases runFrom (analyzeAll registry mode session.pending.length) session with ⟨_ | _, after⟩
  · simp [Except.map]
  · simp [Except.map]

/-- A session that ends returns what it has stored. -/
theorem stored_of_run {session : Session} {returned : List ModuleTree} {later : ScopeTree}
    (fresh : session.analysed = [])
    (ended : session.run registry .oncePerModule = ⟨.ok returned, later⟩) :
    Ascending returned ∧ ∀ entry ∈ returned, later.Stores entry := by
  obtain ⟨after, given, rfl, rfl⟩ := run_eq_ok.mp ended
  have nothing : session.Stored := by simp [Stored, Ascending, fresh]
  exact invariant_stored.of_analyzeAll given nothing

/-! ### Sessions over modules that have been analysed -/

/-- All modules to be analysed have been, and the tree has stayed as it is. -/
def Served (later : ScopeTree) (session : Session) : Prop :=
  session.tree = later ∧ ∀ id ∈ modulesOf session.pending, later.Answers id

/-- The action does not halt, and the session stays served. -/
def Serves (later : ScopeTree) (action : Run α) : Prop :=
  ∀ session, Served later session → ∃ a after, Gives action session a after ∧ Served later after

variable {later : ScopeTree}

theorem serves_pure (a : α) : Serves later (pure a) :=
  fun session served => ⟨a, session, gives_pure.mpr ⟨rfl, rfl⟩, served⟩

theorem Serves.bind {action : Run α} {next : α → Run β} (first : Serves later action)
    (rest : ∀ a, Serves later (next a)) : Serves later (action >>= next) := by
  intro session served
  obtain ⟨a, middle, given, served'⟩ := first session served
  obtain ⟨b, after, given', served''⟩ := rest a middle served'
  exact ⟨b, after, gives_bind.mpr ⟨a, middle, given, given'⟩, served''⟩

theorem serves_forM {action : α → Run PUnit} (each : ∀ a, Serves later (action a)) (xs : List α) :
    Serves later (xs.forM action) := by
  induction xs with
  | nil => exact serves_pure _
  | cons x xs ih =>
    rw [List.forM_eq_forM, List.forM_cons]
    exact (each x).bind fun _ => ih

theorem serves_originsOf (answers : later.Answers module) : Serves later (originsOf module) := by
  rintro session ⟨rfl, pending⟩
  obtain ⟨ast, m, found, -⟩ := answers
  refine ⟨origins m module, session, ?_, rfl, pending⟩
  simp only [Gives, originsOf, runFrom_bind, runFrom_get, found, runFrom_pure]

theorem serves_analyzeEntry {entry : ModuleTree} (answers : later.Answers entry.module) :
    Serves later (analyzeEntry registry .oncePerModule entry) := by
  rintro session ⟨rfl, pending⟩
  obtain ⟨ast, stores⟩ := answers
  refine ⟨⟨⟩, { session with analysed := place ⟨entry.module, ast⟩ session.analysed }, ?_, rfl,
    pending⟩
  simp only [Gives, analyzeEntry, runFrom_bind, runFrom_get, runFrom_set,
    Analysis.analyze_of_stores stores, runFrom_modify]

/-- What is taken off the pending entries is one of them. -/
theorem serves_analyzeModule (budget : Nat) (module : ModuleId) :
    Serves later (analyzeModule registry .oncePerModule budget module) := by
  induction budget generalizing module with
  | zero => exact serves_pure _
  | succ budget ih =>
    rintro session ⟨rfl, pending⟩
    have taken := runFrom_take? module session
    rw [analyzeModule_succ]
    split at taken
    next none =>
      exact ⟨_, session, gives_bind.mpr ⟨_, _, taken, gives_pure.mpr ⟨rfl, rfl⟩⟩, rfl, pending⟩
    next entry found =>
      -- The entry was pending, so the tree answers for its module; fewer are pending after it.
      obtain rfl : entry.module = module := by simpa using List.find?_some found
      have answers := pending _ (List.mem_map_of_mem (List.mem_of_find?_eq_some found))
      have rest : Serves session.tree
          (analyzeTaken registry .oncePerModule budget entry.module (some entry)) := by
        refine (serves_originsOf answers).bind fun origins => ?_
        exact (serves_forM ih origins).bind fun _ => serves_analyzeEntry answers
      obtain ⟨_, after, given, served⟩ := rest
        { session with pending := session.pending.filter (·.module ≠ entry.module) }
        ⟨rfl, fun id left => pending id ((List.filter_sublist.map _).subset left)⟩
      exact ⟨_, after, gives_bind.mpr ⟨_, _, taken, given⟩, served⟩

theorem serves_analyzeAll (budget : Nat) :
    Serves later (analyzeAll registry .oncePerModule budget) := by
  induction budget with
  | zero => exact serves_pure _
  | succ budget ih =>
    unfold analyzeAll
    have asked : Serves later (get : Run Session) :=
      fun session served => ⟨session, session, gives_get.mpr ⟨rfl, rfl⟩, served⟩
    refine asked.bind fun session => ?_
    split
    · exact serves_pure _
    · exact (serves_analyzeModule _ _).bind fun _ => ih

/-- A session over modules that have been analysed ends and leaves the tree as it is. -/
theorem run_of_served {session : Session}
    (answers : ∀ id ∈ modulesOf session.pending, session.tree.Answers id) :
    ∃ returned, session.run registry .oncePerModule = ⟨.ok returned, session.tree⟩ := by
  have serves : Serves session.tree (analyzeAll registry .oncePerModule session.pending.length) :=
    serves_analyzeAll _
  obtain ⟨_, after, given, same, -⟩ := serves session ⟨rfl, answers⟩
  exact ⟨after.analysed, run_eq_ok.mpr ⟨after, given, rfl, same⟩⟩

/-! ### Entries in their order -/

/-- What ascends is determined by its entries. -/
theorem Ascending.ext {entries others : List ModuleTree} (ascending : Ascending entries)
    (ascending' : Ascending others) (same : ∀ entry, entry ∈ entries ↔ entry ∈ others) :
    entries = others := by
  have nodup {entries : List ModuleTree} (ascending : Ascending entries) : entries.Nodup :=
    ascending.distinct.of_map _
  refine List.Perm.eq_of_pairwise ?_ ascending ascending'
    ((List.perm_ext_iff_of_nodup (nodup ascending) (nodup ascending')).mpr same)
  intro one other _ _ below above
  exact absurd (UInt32.lt_trans below above) (UInt32.lt_irrefl _)

/-- Trees that are stored for some modules are those among all stored ones. -/
theorem eq_filter_of_stores {tree : ScopeTree} {entries returned : List ModuleTree}
    {ids : List ModuleId} (ascending : Ascending entries)
    (stored : ∀ entry ∈ entries, tree.Stores entry) (ascending' : Ascending returned)
    (stored' : ∀ entry ∈ returned, tree.Stores entry)
    (modules : ∀ id, id ∈ modulesOf entries ↔ id ∈ ids) (among : ids ⊆ modulesOf returned) :
    entries = returned.filter (·.module ∈ ids) := by
  refine ascending.ext (ascending'.filter _) fun entry => ?_
  -- An entry and another one for the same module are the same, as both are stored.
  have same {other : ModuleTree} (stores : tree.Stores entry) (stores' : tree.Stores other)
      (module : other.module = entry.module) : other = entry := by
    obtain ⟨id, ast⟩ := entry
    obtain ⟨id', ast'⟩ := other
    obtain rfl : id' = id := module
    rw [stores.unique stores']
  rw [List.mem_filter, decide_eq_true_eq, ← modules]
  constructor
  · intro member
    have inside : entry.module ∈ modulesOf entries := List.mem_map_of_mem member
    obtain ⟨other, there, module⟩ := List.mem_map.mp (among ((modules _).mp inside))
    exact ⟨same (stored _ member) (stored' _ there) module ▸ there, inside⟩
  · rintro ⟨member, inside⟩
    obtain ⟨other, there, module⟩ := List.mem_map.mp inside
    exact same (stored' _ member) (stored _ there) module ▸ there

/-- A session over added modules that ends has returned and stored a tree for each of them. -/
theorem stored_of_ofModules {registry : Registry} {tree later : ScopeTree}
    {entries returned : List ModuleTree}
    (ended : (ofModules tree entries).run registry .oncePerModule = ⟨.ok returned, later⟩) :
    Ascending returned ∧ (∀ entry ∈ returned, later.Stores entry) ∧
      ∀ id, id ∈ modulesOf returned ↔ id ∈ modulesOf entries := by
  have fresh := (ofModules_tree tree entries).2
  have scheduled := scheduled_requests registry .oncePerModule fresh (distinct_ofModules tree entries)
  rw [ended] at scheduled
  obtain ⟨-, -, -, modules⟩ := scheduled.complete returned rfl
  obtain ⟨ascending, stored⟩ := stored_of_run fresh ended
  exact ⟨ascending, stored, fun id => modules.mem_iff.trans mem_modules_ofModules⟩

end Session

/-! ### Inquiries -/

/-- A request to analyse modules once each: a single one, or those of a session. -/
inductive Inquiry where
  | analysis (registry : Registry) (entry : ModuleTree)
  | session (registry : Registry) (entries : List ModuleTree)

namespace Inquiry

/-- The modules that an inquiry is about, each with the tree that is handed in. -/
def entries : Inquiry → List ModuleTree
  | analysis _ entry => [entry]
  | session _ entries => entries

/-- How an inquiry ends that is made in a tree of scopes. -/
def outcome (tree : ScopeTree) : Inquiry → Outcome (List ModuleTree)
  | analysis registry entry =>
    let outcome := Analysis.analyze registry .oncePerModule tree entry.module entry.ast
    ⟨outcome.result.map fun ast => [⟨entry.module, ast⟩], outcome.tree⟩
  | session registry entries => (Session.ofModules tree entries).run registry .oncePerModule

/-- How inquiries end that are made one after the other, each in the tree that the one before has
left. -/
def outcomes : ScopeTree → List Inquiry → List (Outcome (List ModuleTree))
  | _, [] => []
  | tree, inquiry :: inquiries =>
    inquiry.outcome tree :: outcomes (inquiry.outcome tree).tree inquiries

variable {registry : Registry} {tree : ScopeTree} {returned : List ModuleTree}

/-- If all its modules have been analysed, an inquiry gives what is stored and changes nothing. -/
theorem outcome_of_stores (ascending : Session.Ascending returned)
    (stored : ∀ entry ∈ returned, tree.Stores entry) (inquiry : Inquiry)
    (among : modulesOf inquiry.entries ⊆ modulesOf returned) :
    inquiry.outcome tree =
      ⟨.ok (returned.filter (·.module ∈ modulesOf inquiry.entries)), tree⟩ := by
  have answers : ∀ id ∈ modulesOf inquiry.entries, tree.Answers id := by
    intro id asked
    obtain ⟨entry, member, rfl⟩ := List.mem_map.mp (among asked)
    exact ⟨entry.ast, stored entry member⟩
  cases inquiry with
  | analysis registry entry =>
    obtain ⟨ast, stores⟩ := answers entry.module (List.mem_singleton_self _)
    -- The one module that is asked about picks its own tree out of those returned.
    have single : [⟨entry.module, ast⟩] = returned.filter (·.module ∈ modulesOf [entry]) :=
      Session.eq_filter_of_stores (List.pairwise_singleton _ _) (by simpa using stores) ascending
        stored (fun _ => Iff.rfl) among
    have given : (analysis registry entry).outcome tree = ⟨.ok [⟨entry.module, ast⟩], tree⟩ := by
      simp only [outcome, Analysis.analyze_of_stores stores]
      rfl
    exact given.trans (congrArg (fun trees => Outcome.mk (.ok trees) tree) single)
  | session registry entries =>
    obtain ⟨same, -⟩ := Session.ofModules_tree tree entries
    have served : ∀ id ∈ modulesOf (Session.ofModules tree entries).pending,
        (Session.ofModules tree entries).tree.Answers id := by
      intro id pending
      rw [same]
      exact answers id (Session.mem_modules_ofModules.mp pending)
    obtain ⟨results, ended⟩ : ∃ returned, (Session.ofModules tree entries).run registry
        .oncePerModule = ⟨.ok returned, (Session.ofModules tree entries).tree⟩ :=
      Session.run_of_served served
    rw [same] at ended
    obtain ⟨ascending', stored', modules⟩ := Session.stored_of_ofModules ended
    -- A session serves its modules in ascending order, which is that of the trees returned before.
    have all := Session.eq_filter_of_stores ascending' stored' ascending stored modules among
    have given : (session registry entries).outcome tree = ⟨.ok results, tree⟩ := ended
    exact given.trans (congrArg (fun trees => Outcome.mk (.ok trees) tree) all)

/-- Inquiries that come after all their modules have been analysed get what is stored, each of them,
and change nothing. The induction is on the row of inquiries. -/
theorem outcomes_of_stores (ascending : Session.Ascending returned)
    (stored : ∀ entry ∈ returned, tree.Stores entry) (inquiries : List Inquiry)
    (among : ∀ inquiry ∈ inquiries, modulesOf inquiry.entries ⊆ modulesOf returned) :
    outcomes tree inquiries = inquiries.map fun inquiry =>
      ⟨.ok (returned.filter (·.module ∈ modulesOf inquiry.entries)), tree⟩ := by
  induction inquiries with
  | nil => rfl
  | cons inquiry inquiries ih =>
    have first := outcome_of_stores ascending stored inquiry (among inquiry List.mem_cons_self)
    have rest := ih fun other member => among other (List.mem_cons_of_mem _ member)
    rw [outcomes, first, rest, List.map_cons]

end Inquiry

namespace Session

/-- After a session over some modules, no later inquiry about them changes anything, whatever trees it
hands in; each gets, for each of its modules, the tree that the session has returned. -/
theorem outcomes_of_run {registry : Registry} {tree later : ScopeTree}
    {entries returned : List ModuleTree}
    (ended : (ofModules tree entries).run registry .oncePerModule = ⟨.ok returned, later⟩)
    (inquiries : List Inquiry)
    (added : ∀ inquiry ∈ inquiries, modulesOf inquiry.entries ⊆ modulesOf entries) :
    (modulesOf returned).Nodup ∧ (∀ id, id ∈ modulesOf returned ↔ id ∈ modulesOf entries) ∧
      Inquiry.outcomes later inquiries = inquiries.map fun inquiry =>
        ⟨.ok (returned.filter (·.module ∈ modulesOf inquiry.entries)), later⟩ := by
  obtain ⟨ascending, stored, modules⟩ := stored_of_ofModules ended
  refine ⟨ascending.distinct, modules, ?_⟩
  apply Inquiry.outcomes_of_stores ascending stored
  intro inquiry member id asked
  exact (modules id).mpr (added inquiry member asked)

/-- What three modules return, two of which import from each other, is what they go on to return. -/
theorem outcomes_of_run_ring :
    ∃ returned later, (ofModules ringOfImports [⟨⟨2⟩, ⟨[]⟩⟩, ⟨⟨0⟩, ⟨[]⟩⟩, ⟨⟨1⟩, ⟨[]⟩⟩]).run .empty
        .oncePerModule = ⟨.ok returned, later⟩ ∧
      Inquiry.outcomes later [.analysis .empty ⟨⟨1⟩, ⟨[Build.nil]⟩⟩,
          .session .empty [⟨⟨2⟩, ⟨[Build.nil]⟩⟩, ⟨⟨0⟩, ⟨[]⟩⟩]] =
        [⟨.ok [⟨⟨1⟩, ⟨[]⟩⟩], later⟩, ⟨.ok [⟨⟨0⟩, ⟨[]⟩⟩, ⟨⟨2⟩, ⟨[]⟩⟩], later⟩] := by
  have ends : endsWith (analyzeAll .empty .oncePerModule 3)
      (ofModules ringOfImports [⟨⟨2⟩, ⟨[]⟩⟩, ⟨⟨0⟩, ⟨[]⟩⟩, ⟨⟨1⟩, ⟨[]⟩⟩]) (fun _ after =>
        after.analysed.map (fun entry => (entry.module, entry.ast.expressions.length)) =
          [(⟨0⟩, 0), (⟨1⟩, 0), (⟨2⟩, 0)]) = true := by decide +kernel
  obtain ⟨_, after, given, checked⟩ := gives_of_endsWith ends
  have returned : after.analysed = [⟨⟨0⟩, ⟨[]⟩⟩, ⟨⟨1⟩, ⟨[]⟩⟩, ⟨⟨2⟩, ⟨[]⟩⟩] := by
    simp only [decide_eq_true_eq, List.map_eq_cons_iff, List.map_eq_nil_iff, Prod.mk.injEq,
      List.length_eq_zero_iff] at checked
    obtain ⟨⟨_, ⟨_⟩⟩, _, same, ⟨rfl, rfl⟩, ⟨_, ⟨_⟩⟩, _, rfl, ⟨rfl, rfl⟩, ⟨_, ⟨_⟩⟩, _, rfl,
      ⟨rfl, rfl⟩, rfl⟩ := checked
    exact same
  have ended : (ofModules ringOfImports [⟨⟨2⟩, ⟨[]⟩⟩, ⟨⟨0⟩, ⟨[]⟩⟩, ⟨⟨1⟩, ⟨[]⟩⟩]).run .empty
      .oncePerModule = ⟨.ok _, after.tree⟩ := run_eq_ok.mpr ⟨after, given, returned, rfl⟩
  refine ⟨_, after.tree, ended, ?_⟩
  obtain ⟨-, -, answered⟩ := outcomes_of_run ended
    [.analysis .empty ⟨⟨1⟩, ⟨[Build.nil]⟩⟩,
      .session .empty [⟨⟨2⟩, ⟨[Build.nil]⟩⟩, ⟨⟨0⟩, ⟨[]⟩⟩]] (by
    intro inquiry member id asked
    revert inquiry id
    simp [Inquiry.entries, modulesOf])
  exact answered

end Session
end ShellSema
