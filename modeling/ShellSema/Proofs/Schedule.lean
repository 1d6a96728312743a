import Mathlib.Data.List.Perm.Subperm
import Mathlib.Logic.Relation
import ShellSema.Proofs.Budgets
import ShellSema.Proofs.ModuleVisits
import ShellSema.Proofs.OwnModule
import ShellSema.Proofs.Requests
import ShellSema.Proofs.SessionSafety
import ShellSema.Syntax.Build

/-!
# The order in which a session analyses its modules

A session follows the imports between its modules depth first. Entries that have been taken off the
pending ones are held until the modules that they import from have been turned to; the held ones
form a path of imports, so whatever is left out because it is held lies on a ring of imports.
-/
namespace ShellSema

open Relation

/-! ### Imports between added modules -/

/-- A module that a session is to analyse queues an import from another one that it is to analyse. -/
def Session.Imports (start : Session) (module origin : ModuleId) : Prop :=
  module ∈ modulesOf start.pending ∧ origin ∈ modulesOf start.pending ∧
    ∃ m, start.tree.module module = .ok m ∧ m.ImportsFrom origin

/-- A module is asked for after those that it imports from, unless they import from it in turn. -/
def Session.InOrder (start : Session) (requests : List Request) : Prop :=
  ∀ earlier request, earlier ++ [request] <+: requests →
    ∀ origin, start.Imports request.entry.module origin →
      ¬ TransGen start.Imports origin request.entry.module →
      origin ∈ modulesOf (entriesOf earlier)

/-- What holds of the requests of a session at any time. -/
structure Recorded.Orderly (start : Session) (r : Recorded) : Prop where
  untouched : ∀ id, id ∉ modulesOf (entriesOf r.requests) →
    r.session.tree.progress? id = start.tree.progress? id
  inOrder : start.InOrder r.requests

/-- The session goes on: each entry has been asked for, is held, or is pending, and all requests have
been met. -/
structure Recorded.Underway (registry : Registry) (mode : AnalysisMode) (start : Session)
    (held : List ModuleTree) (r : Recorded) : Prop
    extends Recorded.Orderly start r where
  parts : (entriesOf r.requests ++ (held ++ r.session.pending)).Perm start.pending
  met : ∀ request ∈ r.requests, ∃ ast, (request.outcome registry mode).result = .ok ast
  results : r.session.analysed.Perm (r.requests.filterMap (Request.returned? registry mode))

/-- The session has halted. If a script has an error, that is the outcome of the last request, and all
requests before have been met. -/
structure Recorded.Halted (registry : Registry) (mode : AnalysisMode) (start : Session) (halt : Halt)
    (r : Recorded) : Prop
    extends Recorded.Orderly start r where
  once : (entriesOf r.requests).Subperm start.pending
  last : ∀ error, halt = .failed error → ∃ earlier request, r.requests = earlier ++ [request] ∧
    (∀ met ∈ earlier, ∃ ast, (met.outcome registry mode).result = .ok ast) ∧
    (request.outcome registry mode).result = .error (.failed error)

namespace Recorded

variable {registry : Registry} {mode : AnalysisMode} {start : Session} {held : List ModuleTree}
  {entry : ModuleTree} {module : ModuleId} {r : Recorded} {α β : Type}

/-- The action ends as wanted, or halts as a session may halt. -/
def Proceeds (registry : Registry) (mode : AnalysisMode) (start : Session) (action : Run α)
    (r : Recorded) (wanted : α → Recorded → Prop) : Prop :=
  match runFrom action r with
  | (.ok a, after) => wanted a after
  | (.error halt, after) => after.Halted registry mode start halt

theorem proceeds_pure {a : α} {wanted : α → Recorded → Prop} (holds : wanted a r) :
    Proceeds registry mode start (pure a) r wanted :=
  holds

theorem Proceeds.mono {action : Run α} {wanted wanted' : α → Recorded → Prop}
    (proceeds : Proceeds registry mode start action r wanted)
    (weaker : ∀ a after, wanted a after → wanted' a after) :
    Proceeds registry mode start action r wanted' := by
  unfold Proceeds at *
  rcases ended : runFrom action r with ⟨halt | a, after⟩
  · simpa only [ended] using proceeds
  · rw [ended] at proceeds
    exact weaker a after proceeds

theorem Proceeds.bind {action : Run α} {next : α → Run β} {middle : α → Recorded → Prop}
    {wanted : β → Recorded → Prop} (first : Proceeds registry mode start action r middle)
    (rest : ∀ a after, middle a after → Proceeds registry mode start (next a) after wanted) :
    Proceeds registry mode start (action >>= next) r wanted := by
  unfold Proceeds at *
  rw [runFrom_bind]
  rcases ended : runFrom action r with ⟨halt | a, after⟩
  · simpa [ended] using first
  · simp only [ended] at first ⊢
    exact rest a after first

/-! ### Entries that have been asked for, are held, or are pending -/

/-- The modules that are held, pending or have been asked for are different ones. -/
theorem Underway.distinct (underway : r.Underway registry mode start held)
    (distinct : (modulesOf start.pending).Nodup) :
    (modulesOf (entriesOf r.requests) ++ (modulesOf held ++ modulesOf r.session.pending)).Nodup := by
  have perm := underway.parts.map ModuleTree.module
  rw [List.map_append, List.map_append] at perm
  exact perm.nodup_iff.mpr distinct

theorem Underway.mem_added (underway : r.Underway registry mode start held) :
    module ∈ modulesOf start.pending ↔ module ∈ modulesOf (entriesOf r.requests) ∨
      module ∈ modulesOf held ∨ module ∈ modulesOf r.session.pending := by
  have perm := underway.parts.map ModuleTree.module
  rw [List.map_append, List.map_append] at perm
  rw [modulesOf, ← perm.mem_iff, List.mem_append, List.mem_append]
  rfl

/-- No more than what is added has been asked for. -/
theorem Underway.once (underway : r.Underway registry mode start held) :
    (entriesOf r.requests).Subperm start.pending :=
  (List.sublist_append_left _ _).subperm.trans underway.parts.subperm

/-- What is held has not been asked for. -/
theorem Underway.unasked (underway : r.Underway registry mode start (entry :: held))
    (distinct : (modulesOf start.pending).Nodup) :
    entry.module ∉ modulesOf (entriesOf r.requests) := fun asked =>
  (List.nodup_append'.mp (underway.distinct distinct)).2.2 asked (by simp [modulesOf])

/-- A held module still has the imports that it had at the start. -/
theorem Underway.imports_iff (underway : r.Underway registry mode start (entry :: held))
    (distinct : (modulesOf start.pending).Nodup) {m : ScriptModule} {origin : ModuleId}
    (found : r.session.tree.module entry.module = .ok m) :
    start.Imports entry.module origin ↔
      origin ∈ modulesOf start.pending ∧ m.ImportsFrom origin := by
  have added : entry.module ∈ modulesOf start.pending :=
    underway.mem_added.mpr (.inr (.inl (by simp [modulesOf])))
  -- It has not been asked for, so its queue is the one that it had at the start.
  have same := underway.untouched entry.module (underway.unasked distinct)
  unfold ScopeTree.progress? at same
  rw [ScopeTree.module_eq_ok.mp found, Option.map_some] at same
  obtain ⟨old, there, progress⟩ := Option.map_eq_some_iff.mp same.symm
  have queue : old.importQueue = m.importQueue := congrArg Progress.importQueue progress
  unfold Session.Imports ScriptModule.ImportsFrom
  constructor
  · rintro ⟨-, inside, old', there', imported⟩
    rw [ScopeTree.module_eq_ok.mp there'] at there
    cases there
    exact ⟨inside, queue ▸ imported⟩
  · rintro ⟨inside, imported⟩
    exact ⟨added, inside, old, ScopeTree.module_eq_ok.mpr there, queue ▸ imported⟩

/-- Results are returned for what has been asked for. -/
theorem mem_modules_of_returned {requests : List Request}
    (member : module ∈ modulesOf (requests.filterMap (Request.returned? registry mode))) :
    module ∈ modulesOf (entriesOf requests) := by
  obtain ⟨result, inside, rfl⟩ := List.mem_map.mp member
  obtain ⟨request, asked, returned⟩ := List.mem_filterMap.mp inside
  unfold Request.returned? at returned
  split at returned
  · cases returned
    exact List.mem_map.mpr ⟨request.entry, List.mem_map_of_mem asked, rfl⟩
  · cases returned

/-! ### Steps -/

/-- An entry that is taken off the pending ones is held. -/
theorem Underway.take (underway : r.Underway registry mode start held)
    (distinct : (modulesOf start.pending).Nodup) (member : entry ∈ r.session.pending) :
    Underway registry mode start (entry :: held) { r with session := { r.session with
      pending := r.session.pending.filter (·.module ≠ entry.module) } } := by
  refine { underway with parts := ?_ }
  obtain ⟨before, after, split⟩ := List.append_of_mem member
  have apart : (modulesOf r.session.pending).Nodup :=
    (List.nodup_append'.mp (List.nodup_append'.mp (underway.distinct distinct)).2.1).2.1
  have others : r.session.pending.filter (·.module ≠ entry.module) = before ++ after := by
    rw [split, modulesOf, List.map_append, List.map_cons, List.nodup_middle, List.nodup_cons,
      List.mem_append, not_or] at apart
    -- No other entry is of the same module.
    have stays (entries : List ModuleTree) (outside : entry.module ∉ entries.map ModuleTree.module) :
        entries.filter (·.module ≠ entry.module) = entries := by
      refine List.filter_eq_self.mpr fun other inside => decide_eq_true fun same => ?_
      exact outside (same ▸ List.mem_map_of_mem inside)
    rw [split, List.filter_append, List.filter_cons_of_neg (by simp), stays _ apart.1.1,
      stays _ apart.1.2]
  have moved : (entry :: held ++ (before ++ after)).Perm (held ++ r.session.pending) := by
    rw [split, List.cons_append, ← List.append_assoc, ← List.append_assoc]
    exact List.perm_middle.symm
  rw [others]
  exact (moved.append_left _).trans underway.parts

/-- If the entry of a module is taken off, it is held, and the module is pending no longer. -/
theorem proceeds_take? (underway : r.Underway registry mode start held)
    (distinct : (modulesOf start.pending).Nodup) (module : ModuleId) :
    Proceeds registry mode start (quietly (Session.take? module)) r fun found after =>
      module ∉ modulesOf after.session.pending ∧
        match found with
        | none => r = after
        | some entry => entry.module = module ∧ entry ∈ r.session.pending ∧
            after.Underway registry mode start (entry :: held) ∧
            after.session.pending.Sublist r.session.pending := by
  have gone := Session.gone_take? module r.session
  -- The record plays no part in this step.
  have fewer := Session.shrinks_take? module r.session
  unfold Proceeds
  rw [runFrom_quietly]
  rw [Session.runFrom_take?] at gone fewer ⊢
  cases found : r.session.pending.find? (·.module = module) with
  | none =>
    rw [found] at gone
    exact ⟨gone, rfl⟩
  | some entry =>
    rw [found] at gone fewer
    have member := List.mem_of_find?_eq_some found
    obtain rfl : entry.module = module := by simpa using List.find?_some found
    exact ⟨gone, rfl, member, underway.take distinct member, fewer⟩

/-- To ask for the origins of a module changes nothing. It only halts where there is no module. -/
theorem proceeds_originsOf (underway : r.Underway registry mode start held) (module : ModuleId) :
    Proceeds registry mode start (quietly (Session.originsOf module)) r fun origins after =>
      r = after ∧ ∃ m, r.session.tree.module module = .ok m ∧ origins = Session.origins m module := by
  unfold Proceeds
  rw [runFrom_quietly]
  simp only [Session.originsOf, runFrom_bind, runFrom_get]
  cases found : r.session.tree.module module with
  | error fault => exact ⟨underway.toOrderly, underway.once, by simp⟩
  | ok m => exact ⟨rfl, m, rfl, rfl⟩

/-- What a request leaves, whatever its outcome. -/
theorem Underway.orderly_request (underway : r.Underway registry mode start (entry :: held))
    (origins : ∀ origin, start.Imports entry.module origin →
      ¬ TransGen start.Imports origin entry.module → origin ∈ modulesOf (entriesOf r.requests))
    {session : Session}
    (asked : session.tree =
      (Request.outcome registry mode ⟨entry, r.session.tree⟩).tree) :
    Orderly start ⟨session, r.requests ++ [⟨entry, r.session.tree⟩]⟩ := by
  refine ⟨?_, ?_⟩
  · intro id outside
    simp only [entriesOf, modulesOf, List.map_append, List.map_cons, List.map_nil, List.mem_append,
      List.mem_singleton, not_or] at outside
    rw [asked, Request.outcome, Analysis.progress_analyze _ _ _ _ _ outside.2]
    exact underway.untouched id outside.1
  · intro earlier request first
    -- A request before this one is in order already; for this one it is what is assumed.
    rcases List.prefix_concat_iff.mp first with same | before
    · obtain ⟨rfl, last⟩ := List.append_inj' same rfl
      obtain rfl := List.singleton_inj.mp last
      exact origins
    · exact underway.inOrder earlier request before

/-- When a held entry is asked for, it is held no longer. -/
theorem proceeds_analyzeEntry (underway : r.Underway registry mode start (entry :: held))
    (distinct : (modulesOf start.pending).Nodup)
    (origins : ∀ origin, start.Imports entry.module origin →
      ¬ TransGen start.Imports origin entry.module → origin ∈ modulesOf (entriesOf r.requests)) :
    Proceeds registry mode start (analyzeEntry registry mode entry) r fun _ after =>
      after.Underway registry mode start held ∧ after.session.pending = r.session.pending := by
  have parts : (entriesOf (r.requests ++ [⟨entry, r.session.tree⟩]) ++
      (held ++ r.session.pending)).Perm start.pending := by
    have moved := underway.parts
    rwa [entriesOf, List.map_append, List.append_assoc, List.map_cons, List.map_nil]
  unfold Proceeds
  rw [runFrom_analyzeEntry, runFrom_quietly]
  simp only [Session.analyzeEntry, runFrom_bind, runFrom_get, runFrom_set]
  cases ended : (Analysis.analyze registry mode r.session.tree entry.module entry.ast).result with
  | error halt =>
    refine ⟨underway.orderly_request origins rfl, ?_, ?_⟩
    · exact (List.sublist_append_left _ _).subperm.trans parts.subperm
    · rintro error rfl
      exact ⟨r.requests, _, rfl, underway.met, ended⟩
  | ok ast =>
    refine ⟨⟨underway.orderly_request origins rfl, parts, ?_, ?_⟩, ?_⟩
    · intro request member
      rcases List.mem_append.mp member with before | last
      · exact underway.met request before
      · obtain rfl := List.mem_singleton.mp last
        exact ⟨ast, ended⟩
    · have fresh : entry.module ∉ modulesOf r.session.analysed := by
        intro member
        exact underway.unasked distinct
          (mem_modules_of_returned ((underway.results.map _).mem_iff.mp member))
      -- The tree that is returned is placed among those returned before.
      have last : Request.returned? registry mode ⟨entry, r.session.tree⟩ =
          some ⟨entry.module, ast⟩ := by
        simp only [Request.returned?, Request.outcome, ended]
      have placed : List.Perm (Session.place ⟨entry.module, ast⟩ r.session.analysed)
          (⟨entry.module, ast⟩ :: r.session.analysed) := Session.place_perm fresh
      rw [List.filterMap_append, List.filterMap_cons_some last, List.filterMap_nil]
      refine placed.trans ?_
      exact (underway.results.cons _).trans (List.perm_append_singleton _ _).symm
    · rfl

/-! ### Runs -/

/-- The module to be turned to next is imported along the path of the held ones, if it is pending. -/
def Leads (start : Session) (held : List ModuleTree) (r : Recorded) (module : ModuleId) : Prop :=
  module ∈ modulesOf r.session.pending →
    ∀ waiting ∈ held, ReflTransGen start.Imports waiting.module module

/-- After the action, the session goes on with the same entries held, it has no more entries pending,
and none for the modules in question. -/
def Advanced (registry : Registry) (mode : AnalysisMode) (start : Session) (held : List ModuleTree)
    (r : Recorded) (turnedTo : List ModuleId) (after : Recorded) : Prop :=
  after.Underway registry mode start held ∧ after.session.pending.Sublist r.session.pending ∧
    ∀ module ∈ turnedTo, module ∉ modulesOf after.session.pending

/-- Modules are turned to one after the other. -/
theorem proceeds_forM {action : ModuleId → Run PUnit} {budget : Nat}
    (each : ∀ module r, Underway registry mode start held r → r.session.pending.length ≤ budget →
      r.Leads start held module → Proceeds registry mode start (action module) r fun _ =>
        r.Advanced registry mode start held [module])
    (modules : List ModuleId) (underway : r.Underway registry mode start held)
    (enough : r.session.pending.length ≤ budget)
    (leads : ∀ module ∈ modules, r.Leads start held module) :
    Proceeds registry mode start (modules.forM action) r fun _ =>
      r.Advanced registry mode start held modules := by
  induction modules generalizing r with
  | nil => exact proceeds_pure ⟨underway, .refl _, by simp⟩
  | cons module modules ih =>
    rw [List.forM_eq_forM, List.forM_cons]
    refine (each module r underway enough (leads module List.mem_cons_self)).bind ?_
    rintro _ after ⟨underway', fewer, gone⟩
    refine (ih underway' (Nat.le_trans fewer.length_le enough) fun other member pending =>
      leads other (List.mem_cons_of_mem _ member) ((fewer.map _).subset pending)).mono ?_
    rintro _ last ⟨underway', fewer', gone'⟩
    refine ⟨underway', fewer'.trans fewer, ?_⟩
    -- What the first one took off does not come back in the rest.
    intro other member pending
    rcases List.mem_cons.mp member with rfl | later
    · exact gone other List.mem_cons_self ((fewer'.map _).subset pending)
    · exact gone' other later pending

/-- The modules that a held module imports from have been turned to, so they have been asked for, or
they import from it in turn. -/
theorem Underway.mem_asked (underway : r.Underway registry mode start (entry :: held))
    (leads : ∀ waiting ∈ held, ReflTransGen start.Imports waiting.module entry.module)
    {origin : ModuleId} (imports : start.Imports entry.module origin)
    (apart : ¬ TransGen start.Imports origin entry.module)
    (gone : origin ∉ modulesOf r.session.pending) : origin ∈ modulesOf (entriesOf r.requests) := by
  rcases underway.mem_added.mp imports.2.1 with asked | holding | pending
  · exact asked
  · obtain ⟨waiting, member, rfl⟩ := List.mem_map.mp holding
    -- The path of the held entries closes a ring.
    have back : ReflTransGen start.Imports waiting.module entry.module := by
      rcases List.mem_cons.mp member with rfl | below
      · exact .refl
      · exact leads waiting below
    refine absurd ?_ apart
    rcases reflTransGen_iff_eq_or_transGen.mp back with same | ring
    · exact .single (same ▸ imports)
    · exact ring
  · exact absurd pending gone

/-- A pending module is asked for after those that it imports from. The induction is on the budget;
the path of the held entries grows with it. -/
theorem proceeds_analyzeModule (distinct : (modulesOf start.pending).Nodup) (budget : Nat)
    (underway : r.Underway registry mode start held) (enough : r.session.pending.length ≤ budget)
    (leads : r.Leads start held module) :
    Proceeds registry mode start (analyzeModule registry mode budget module) r fun _ =>
      r.Advanced registry mode start held [module] := by
  induction budget generalizing held module r with
  | zero =>
    have nothing : r.session.pending = [] := List.length_eq_zero_iff.mp (Nat.le_zero.mp enough)
    exact proceeds_pure ⟨underway, .refl _, by simp [nothing, modulesOf]⟩
  | succ budget ih =>
    refine (proceeds_take? underway distinct module).bind ?_
    rintro (_ | entry) after ⟨gone, taken⟩
    · subst taken
      exact proceeds_pure ⟨underway, .refl _, by simpa using gone⟩
    obtain ⟨rfl, member, underway', fewer⟩ := taken
    have leads := leads (List.mem_map_of_mem member)
    have enough : after.session.pending.length ≤ budget := by
      have shorter := Session.length_lt_of_gone fewer (List.mem_map_of_mem member) gone
      omega
    refine (proceeds_originsOf underway' entry.module).bind ?_
    rintro _ _ ⟨rfl, m, found, rfl⟩
    have imports (origin : ModuleId) : start.Imports entry.module origin ↔
        origin ∈ modulesOf start.pending ∧ m.ImportsFrom origin :=
      underway'.imports_iff distinct found
    -- The path of the held entries goes on through the new one to its origins.
    have leads' : ∀ origin ∈ Session.origins m entry.module,
        after.Leads start (entry :: held) origin := by
      intro origin listed pending waiting member
      have step : start.Imports entry.module origin := (imports origin).mpr
        ⟨underway'.mem_added.mpr (.inr (.inr pending)), (Session.mem_origins.mp listed).1⟩
      rcases List.mem_cons.mp member with rfl | below
      · exact .single step
      · exact (leads waiting below).tail step
    refine (proceeds_forM (fun _ _ => ih) _ underway' enough leads').bind ?_
    rintro _ later ⟨underway'', fewer', gone'⟩
    -- Its origins have been turned to, so it is asked for itself.
    refine (proceeds_analyzeEntry underway'' distinct fun origin named apart => ?_).mono ?_
    · have listed : origin ∈ Session.origins m entry.module := by
        refine Session.mem_origins.mpr ⟨((imports origin).mp named).2, ?_⟩
        rintro rfl
        exact apart (.single named)
      exact underway''.mem_asked leads named apart (gone' origin listed)
    · rintro _ last ⟨underway, same⟩
      refine ⟨underway, same ▸ fewer'.trans fewer, ?_⟩
      intro module turned left
      obtain rfl := List.mem_singleton.mp turned
      rw [same] at left
      exact gone ((fewer'.map _).subset left)

/-- All pending modules are turned to. The induction is on the budget. -/
theorem proceeds_analyzeAll (distinct : (modulesOf start.pending).Nodup) (budget : Nat)
    (underway : r.Underway registry mode start []) (enough : r.session.pending.length ≤ budget) :
    Proceeds registry mode start (analyzeAll registry mode budget) r fun _ after =>
      after.Underway registry mode start [] ∧ after.session.pending = [] := by
  induction budget generalizing r with
  | zero => exact proceeds_pure ⟨underway, List.length_eq_zero_iff.mp (Nat.le_zero.mp enough)⟩
  | succ budget ih =>
    unfold analyzeAll
    have asked : Proceeds registry mode start get r fun found after => r = found ∧ r = after :=
      ⟨rfl, rfl⟩
    refine asked.bind ?_
    rintro _ _ ⟨rfl, rfl⟩
    split
    next pending => exact proceeds_pure ⟨underway, pending⟩
    next first rest pending =>
      refine (proceeds_analyzeModule distinct _ underway (Nat.le_refl _) (by simp [Leads])).bind ?_
      rintro _ after ⟨underway', fewer, gone⟩
      have member : first.module ∈ modulesOf r.session.pending := by simp [pending, modulesOf]
      have shorter := Session.length_lt_of_gone fewer member (gone _ List.mem_cons_self)
      exact ih underway' (by omega)

end Recorded

/-! ### Whole sessions -/

/-- If all requests are met, a tree is returned for each. -/
theorem modules_returned {registry : Registry} {mode : AnalysisMode} {requests : List Request}
    (met : ∀ request ∈ requests, ∃ ast, (request.outcome registry mode).result = .ok ast) :
    modulesOf (requests.filterMap (Request.returned? registry mode)) =
      modulesOf (entriesOf requests) := by
  induction requests with
  | nil => rfl
  | cons request requests ih =>
    obtain ⟨ast, result⟩ := met request List.mem_cons_self
    have returned : request.returned? registry mode = some ⟨request.entry.module, ast⟩ := by
      simp only [Request.returned?, result]
    rw [List.filterMap_cons_some returned]
    exact congrArg (request.entry.module :: ·)
      (ih fun other member => met other (List.mem_cons_of_mem _ member))

namespace Session

/-- How a session goes, told by its requests and its outcome. Each entry is asked for at most once, and
modules that have not been asked for are left alone. With a result, each entry has been asked for, and
the result holds what the analyses returned; with an error, the last analysis failed and no other. -/
structure Scheduled (registry : Registry) (mode : AnalysisMode) (session : Session)
    (requests : List Request) (outcome : Outcome (List ModuleTree)) : Prop where
  once : (entriesOf requests).Subperm session.pending
  inOrder : session.InOrder requests
  untouched : ∀ id, id ∉ modulesOf (entriesOf requests) →
    outcome.tree.progress? id = session.tree.progress? id
  complete : ∀ results, outcome.result = .ok results →
    (entriesOf requests).Perm session.pending ∧
      (∀ request ∈ requests, ∃ ast, (request.outcome registry mode).result = .ok ast) ∧
      results.Perm (requests.filterMap (Request.returned? registry mode)) ∧
      (modulesOf results).Perm (modulesOf session.pending)
  broken : ∀ error, outcome.result = .error (.failed error) → ∃ earlier request,
    requests = earlier ++ [request] ∧
      (∀ met ∈ earlier, ∃ ast, (met.outcome registry mode).result = .ok ast) ∧
      (request.outcome registry mode).result = .error (.failed error)

theorem underway_start (registry : Registry) (mode : AnalysisMode) {session : Session}
    (fresh : session.analysed = []) :
    Recorded.Underway registry mode session [] { session } := by
  refine ⟨⟨fun _ _ => rfl, ?_⟩, by simp [entriesOf], by simp, by simp [fresh]⟩
  intro earlier request first
  simp at first

theorem scheduled_requests (registry : Registry) (mode : AnalysisMode) {session : Session}
    (fresh : session.analysed = []) (distinct : (modulesOf session.pending).Nodup) :
    session.Scheduled registry mode (session.requests registry mode) (session.run registry mode) := by
  have proceeds := Recorded.proceeds_analyzeAll distinct session.pending.length
    (underway_start registry mode fresh) (Nat.le_refl _)
  have forgets := Recorded.forgets_analyzeAll registry mode session.pending.length { session }
  have run : session.run registry mode =
      ⟨(runFrom (analyzeAll registry mode session.pending.length) session).1.map fun _ =>
        (runFrom (analyzeAll registry mode session.pending.length) session).2.analysed,
        (runFrom (analyzeAll registry mode session.pending.length) session).2.tree⟩ := rfl
  -- What is known of the recorded session is so known of the session.
  rw [run, forgets, requests]
  unfold Recorded.Proceeds at proceeds
  rcases ended : runFrom (Recorded.analyzeAll registry mode session.pending.length) { session } with
    ⟨halt | _, after⟩
  · rw [ended] at proceeds
    exact ⟨proceeds.once, proceeds.inOrder, proceeds.untouched, by simp [Except.map],
      fun error failed => proceeds.last error (by simpa [Except.map] using failed)⟩
  · rw [ended] at proceeds
    obtain ⟨underway, nothing⟩ := proceeds
    refine ⟨underway.once, underway.inOrder, underway.untouched, ?_, by simp [Except.map]⟩
    rintro _ ⟨⟩
    have all : (entriesOf after.requests).Perm session.pending := by
      simpa [nothing] using underway.parts
    refine ⟨all, underway.met, underway.results, ?_⟩
    have returned := underway.results.map ModuleTree.module
    rw [← modulesOf, ← modulesOf, modules_returned underway.met] at returned
    exact returned.trans (all.map _)

/-- A session over any modules has no need of larger budgets. It asks for the analysis of each module
once, after the modules that this one imports from unless they import from it in turn, until an
analysis fails. If the tree and the modules pass the checks of a unit and no scope lies around itself,
the session ends with a result or with an error of the script, as long as structs can be numbered. -/
theorem ofModules_scheduled (registry : Registry) (mode : AnalysisMode) (tree : ScopeTree)
    (entries : List ModuleTree) :
    (AnalysisUnit.problem? ⟨tree, (ofModules tree entries).pending⟩ = none → tree.ScopesAcyclic →
      ((ofModules tree entries).run registry mode).tree.structs.size < 2 ^ 32 →
      ((ofModules tree entries).run registry mode).Ended) ∧
    (∀ budget more, Agree budget (analyzeAll registry mode (budget + more))
        (analyzeAll registry mode budget) ∧
      ∀ module, Agree budget (analyzeModule registry mode (budget + more) module)
        (analyzeModule registry mode budget module)) ∧
    (ofModules tree entries).tree = tree ∧
    (∀ budget, Recorded.Forgets (Recorded.analyzeAll registry mode budget)
      (analyzeAll registry mode budget)) ∧
    (∀ id, id ∈ modulesOf (ofModules tree entries).pending ↔ id ∈ modulesOf entries) ∧
    (modulesOf (ofModules tree entries).pending).Nodup ∧
    (ofModules tree entries).Scheduled registry mode
      ((ofModules tree entries).requests registry mode)
      ((ofModules tree entries).run registry mode) := by
  have same : (ofModules tree entries).tree = tree := (ofModules_tree tree entries).1
  refine ⟨fun checked acyclic room => ?_,
    fun budget more => ⟨agree_analyzeAll budget more, agree_analyzeModule budget more⟩,
    same, Recorded.forgets_analyzeAll registry mode,
    fun id => mem_modules_ofModules, distinct_ofModules tree entries, ?_⟩
  · exact ended_run (by rwa [same]) (by rwa [same]) registry mode room
  · exact scheduled_requests registry mode (ofModules_tree tree entries).2
      (distinct_ofModules tree entries)

/-- Two modules that import from each other, and one that imports from both. -/
def ringOfImports : ScopeTree where
  scopes := #[{ parent := none, module := ⟨0⟩ }, { parent := none, module := ⟨1⟩ },
    { parent := none, module := ⟨2⟩ }]
  modules := #[
    { name := "user", scope := ⟨0⟩, importQueue := [⟨⟨1⟩, .identifier "f"⟩, ⟨⟨2⟩, .identifier "g"⟩] },
    { name := "left", scope := ⟨1⟩, functions := .ofList [("f", ⟨0⟩)]
      importQueue := [⟨⟨2⟩, .identifier "g"⟩] },
    { name := "right", scope := ⟨2⟩, functions := .ofList [("g", ⟨1⟩)]
      importQueue := [⟨⟨1⟩, .identifier "f"⟩] }]
  functions := #[{ name := "f", access := .exported, module := ⟨1⟩ },
    { name := "g", access := .exported, module := ⟨2⟩ }]

def ringEntries : List ModuleTree := [⟨⟨0⟩, ⟨[]⟩⟩, ⟨⟨1⟩, ⟨[]⟩⟩, ⟨⟨2⟩, ⟨[]⟩⟩]

example : ((ofModules ringOfImports ringEntries).requests .empty .overwrite).map
    (·.entry.module.number) = [2, 1, 0] := by decide +kernel

/-- A ring of imports does not keep a session from its end. -/
theorem ofModules_scheduled_ring :
    AnalysisUnit.problem? ⟨ringOfImports, (ofModules ringOfImports ringEntries).pending⟩ = none ∧
      ringOfImports.ScopesAcyclic ∧
      ((ofModules ringOfImports ringEntries).run .empty .overwrite).tree.structs.size < 2 ^ 32 ∧
      ((ofModules ringOfImports ringEntries).run .empty .overwrite).Ended := by
  have checked : AnalysisUnit.problem?
      ⟨ringOfImports, (ofModules ringOfImports ringEntries).pending⟩ = none := by decide +kernel
  have acyclic : ringOfImports.ScopesAcyclic :=
    ScopeTree.scopesAcyclic_of_stored (by decide +kernel)
  have room : ((ofModules ringOfImports ringEntries).run .empty .overwrite).tree.structs.size <
      2 ^ 32 := by decide +kernel
  have scheduled := ofModules_scheduled .empty .overwrite ringOfImports ringEntries
  exact ⟨checked, acyclic, room, scheduled.1 checked acyclic room⟩

/-! ### Sessions over one module, and those that do not end -/

section OneModule

variable {registry : Registry} {mode : AnalysisMode} {tree : ScopeTree} {entry : ModuleTree}

theorem runFrom_take?_only :
    runFrom (take? entry.module) { tree, pending := [entry] } = (.ok (some entry), { tree }) := by
  rw [runFrom_take?]
  simp

/-- Without a budget, nothing is done about the modules that are imported from. -/
theorem runFrom_idle (origins : List ModuleId) (session : Session) :
    runFrom (origins.forM fun _ => (pure () : Run Unit)) session = (.ok (), session) := by
  induction origins with
  | nil => rfl
  | cons origin origins ih =>
    rw [List.forM_eq_forM, List.forM_cons, runFrom_bind]
    exact ih

/-- A session over one module is the analysis of that module. -/
theorem result_run_only {m : ScriptModule} (found : tree.module entry.module = .ok m) :
    ((ofModules tree [entry]).run registry mode).result =
      (Analysis.analyze registry mode tree entry.module entry.ast).result.map fun ast =>
        [⟨entry.module, ast⟩] := by
  have origins : runFrom (originsOf entry.module) { tree } =
      (.ok (Session.origins m entry.module), { tree }) := by
    simp only [originsOf, runFrom_bind, runFrom_get, found, runFrom_pure]
  have all : runFrom (analyzeAll registry mode 1) { tree, pending := [entry] } =
      runFrom (analyzeEntry registry mode entry) { tree } := by
    simp only [analyzeAll, runFrom_bind, runFrom_get, List.length_singleton, analyzeModule,
      runFrom_take?_only, origins, runFrom_idle]
    rcases runFrom (analyzeEntry registry mode entry) { tree } with ⟨_ | _, _⟩ <;> rfl
  have run : ((ofModules tree [entry]).run registry mode).result =
      (runFrom (analyzeAll registry mode 1) { tree, pending := [entry] }).1.map fun _ =>
        (runFrom (analyzeAll registry mode 1) { tree, pending := [entry] }).2.analysed := rfl
  rw [run, all]
  simp only [analyzeEntry, runFrom_bind, runFrom_get, runFrom_set]
  cases (Analysis.analyze registry mode tree entry.module entry.ast).result <;> rfl

end OneModule

/-- A module in one scope. -/
def oneModule (parent : Option ScopeId) (structs : Array ScriptStruct) : ScopeTree where
  scopes := #[{ parent, module := ⟨0⟩ }]
  modules := #[{ name := "main", scope := ⟨0⟩ }]
  structs

def oneStruct : ScriptStruct := { name := "S", access := .exported, module := ⟨0⟩ }

def oneDeclaration : Ast := ⟨[Build.struct oneStruct]⟩

/-- A struct that is new to its module and cannot be numbered stops the walk over its declaration. -/
theorem runFrom_exprs_full (context : Context) {tree : ScopeTree} {m : ScriptModule}
    (found : tree.module oneStruct.module = .ok m) (absent : m.structs.get? oneStruct.name = none)
    (full : 2 ^ 32 ≤ tree.structs.size) :
    runFrom (Walk.exprs context oneDeclaration.expressions) { tree } =
      (.error (.crashed (.fault .storeFull)), { tree }) := by
  let e := Build.struct oneStruct
  let s : AnalysisState := { tree }
  have node : runFrom (Walk.node context e.slot {} e.kind) s =
      (.error (.crashed (.fault .storeFull)), s) := by
    have registers : runFrom (Walk.node context e.slot {} e.kind) s = runFrom (do
        let _ ← Walk.edit (ScopeTree.Edit.registerStruct oneStruct)
        return e) s := rfl
    have asks : Gives (Walk.ask (·.module oneStruct.module)) s m s := gives_ask.mpr ⟨found, rfl⟩
    rw [registers, runFrom_bind, ScopeTree.Edit.registerStruct, edit_bind, edit_ask, runFrom_bind,
      show runFrom _ s = _ from asks]
    simp only [absent]
    rw [runFrom_declareStruct_full full]
  change runFrom (do
      let e ← (do
        let analysed ← Walk.locate {} (Walk.node context e.slot {} e.kind)
        return { analysed with enclosing := context.enclosing })
      let es ← Walk.exprs context []
      return e :: es) s = _
  rw [runFrom_bind, runFrom_bind, Walk.locate, runFrom_tryCatch, node]
  rfl

theorem analyze_full (structs : Array ScriptStruct) (full : 2 ^ 32 ≤ structs.size) :
    (Analysis.analyze .empty .overwrite (oneModule none structs) ⟨0⟩ oneDeclaration).result =
      .error (.crashed (.fault .storeFull)) := by
  -- The module counts as analysed while its one node is visited.
  let marked : ScopeTree := { oneModule none structs with
    modules := #[{ name := "main", scope := ⟨0⟩, status := .analysed }] }
  have found : marked.module ⟨0⟩ = .ok { name := "main", scope := ⟨0⟩, status := .analysed } := rfl
  have asks : runFrom (Walk.ask (·.module ⟨0⟩)) { tree := oneModule none structs } =
      (.ok { name := "main", scope := ⟨0⟩ }, { tree := oneModule none structs }) := rfl
  have marks : runFrom (Analysis.setStatus ⟨0⟩ .analysed) { tree := oneModule none structs } =
      (.ok (), { tree := marked }) := rfl
  have imports : runFrom (Walk.resolveImports ⟨0⟩) { tree := marked } = (.ok (), { tree := marked }) :=
    rfl
  rw [Analysis.analyze_overwrite, Analysis.moduleWalk]
  simp only [runFrom_bind, asks, marks, runFrom_tryCatch, Analysis.walkModule, imports]
  rw [runFrom_exprs_full _ found rfl full]
  rfl

instance {α : Type} (result : Except Halt α) (halt : Halt) : Decidable (result = .error halt) :=
  match result with
  | .ok _ => isFalse nofun
  | .error other => decidable_of_iff (other = halt) (by simp)

/-- A session does not end if the body of a loop is no block, if a scope lies around itself, though all
checks are passed, or if a struct is declared that cannot be numbered. -/
theorem crashed_run :
    (∃ ast : Ast, ((ofModules (oneModule none #[]) [⟨⟨0⟩, ast⟩]).run .empty .overwrite).result =
      .error (.crashed (.blockExpected "literal"))) ∧
    (∃ ast : Ast, AnalysisUnit.problem? ⟨oneModule (some ⟨0⟩) #[], [⟨⟨0⟩, ast⟩]⟩ = none ∧
      ((ofModules (oneModule (some ⟨0⟩) #[]) [⟨⟨0⟩, ast⟩]).run .empty .overwrite).result =
        .error (.crashed (.fault .endlessChain))) ∧
    ∃ ast : Ast, ((ofModules (oneModule none (.replicate (2 ^ 32) oneStruct)) [⟨⟨0⟩, ast⟩]).run
      .empty .overwrite).result = .error (.crashed (.fault .storeFull)) := by
  refine ⟨⟨⟨[Build.forEach ["x"] (Build.list []) (Build.integer "1")]⟩, by decide +kernel⟩,
    ⟨⟨[Build.variableRef "x"]⟩, by decide +kernel, by decide +kernel⟩, oneDeclaration, ?_⟩
  have full := analyze_full (.replicate (2 ^ 32) oneStruct)
    (Nat.le_of_eq Array.size_replicate.symm)
  have found : (oneModule none (.replicate (2 ^ 32) oneStruct)).module ⟨0⟩ =
      .ok { name := "main", scope := ⟨0⟩ } := rfl
  rw [result_run_only found, full]
  rfl

end Session
end ShellSema
