import ShellSema.Analysis.Run
import ShellSema.Input.AnalysisUnit

/-!
# Analysing several modules

A session analyses modules that share a tree of scopes. The modules that a module imports from come
before it, as far as they belong to the session; modules that import from each other come in the
order in which they are reached. The first error ends the session.
-/
namespace ShellSema

/-- Entries by module, in ascending order of the handles. -/
structure Session where
  tree : ScopeTree
  pending : List ModuleTree := []
  analysed : List ModuleTree := []

namespace Session

/-- Put an entry into its place; it replaces one for the same module. -/
def place (entry : ModuleTree) : List ModuleTree → List ModuleTree
  | [] => [entry]
  | other :: rest =>
    if entry.module = other.module then entry :: rest
    else if entry.module.number < other.module.number then entry :: other :: rest
    else other :: place entry rest

def add (session : Session) (entry : ModuleTree) : Session :=
  { session with pending := place entry session.pending }

/-- A session that is to analyse some modules. -/
def ofModules (tree : ScopeTree) (entries : List ModuleTree) : Session :=
  entries.foldl add { tree }

abbrev Run (α : Type) := ExceptT Halt (StateM Session) α

/-- Put a handle into its place in an ascending list, unless it stands there. -/
def placeId (id : ModuleId) : List ModuleId → List ModuleId
  | [] => [id]
  | other :: rest =>
    if id = other then other :: rest
    else if id.number < other.number then id :: other :: rest
    else other :: placeId id rest

/-- The other modules that a module imports from, ascending. -/
def origins (m : ScriptModule) (id : ModuleId) : List ModuleId :=
  ((m.importQueue.map (·.origin)).filter (· ≠ id)).foldr placeId []

/-- Take the entry of a module off the pending ones. -/
def take? (module : ModuleId) : Run (Option ModuleTree) := do
  let session ← get
  match session.pending.find? (·.module = module) with
  | none => return none
  | some entry =>
    set { session with pending := session.pending.filter (·.module ≠ module) }
    return some entry

/-- Analyse an entry in the tree of the session. -/
def analyzeEntry (registry : Registry) (mode : AnalysisMode) (entry : ModuleTree) : Run Unit := do
  let session ← get
  let outcome := Analysis.analyze registry mode session.tree entry.module entry.ast
  set { session with tree := outcome.tree }
  match outcome.result with
  | .error halt => throw halt
  | .ok ast => modify fun s => { s with analysed := place ⟨entry.module, ast⟩ s.analysed }

def originsOf (module : ModuleId) : Run (List ModuleId) := do
  match (← get).tree.module module with
  | .ok m => return origins m module
  | .error fault => throw (.crashed (.fault fault))

/-- Analyse a pending module after the modules it imports from. The budget is the number of pending
modules: each is taken off before those it imports from are turned to. -/
def analyzeModule (registry : Registry) (mode : AnalysisMode) : Nat → ModuleId → Run Unit
  | 0, _ => return ()
  | budget + 1, module => do
    match ← take? module with
    | none => return ()
    | some entry =>
      -- The entry is off the pending ones by now, which ends rings of imports.
      (← originsOf module).forM (analyzeModule registry mode budget)
      analyzeEntry registry mode entry

/-- Analyse pending modules, the one of the smallest handle first, until none is left. -/
def analyzeAll (registry : Registry) (mode : AnalysisMode) : Nat → Run Unit
  | 0 => return ()
  | budget + 1 => do
    let session ← get
    match session.pending with
    | [] => return ()
    | first :: _ =>
      analyzeModule registry mode session.pending.length first.module
      analyzeAll registry mode budget

/-- Analyse every module of a session. -/
def run (registry : Registry) (mode : AnalysisMode) (session : Session) :
    Outcome (List ModuleTree) :=
  let (result, session) := (analyzeAll registry mode session.pending.length).run session
  ⟨result.map fun _ => session.analysed, session.tree⟩

end Session
end ShellSema
