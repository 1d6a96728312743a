import ShellSema.Proofs.Sessions

/-!
# The requests of a session

To tell which analyses a session asks for, and in which order, its actions are carried out along with
a record of the requests. Apart from the record, a recorded session is the session itself.
-/
namespace ShellSema

/-- A request for the analysis of an entry, in the tree of scopes of that time. -/
structure Request where
  entry : ModuleTree
  tree : ScopeTree

/-- How the analysis ends that is asked for. -/
def Request.outcome (registry : Registry) (mode : AnalysisMode) (request : Request) : Outcome Ast :=
  Analysis.analyze registry mode request.tree request.entry.module request.entry.ast

/-- The entry with the tree that its analysis returns. -/
def Request.returned? (registry : Registry) (mode : AnalysisMode) (request : Request) :
    Option ModuleTree :=
  match (request.outcome registry mode).result with
  | .ok ast => some ⟨request.entry.module, ast⟩
  | .error _ => none

/-- The entries that are passed to the analysis. -/
def entriesOf (requests : List Request) : List ModuleTree := requests.map Request.entry

/-- A session and the requests that it has made so far. -/
structure Recorded where
  session : Session
  requests : List Request := []

namespace Recorded

abbrev Run (α : Type) := ExceptT Halt (StateM Recorded) α

/-- An action of the session that leaves the record as it is. -/
def quietly {α : Type} (action : Session.Run α) : Run α := do
  let recorded ← get
  let (result, session) := runFrom action recorded.session
  set { recorded with session }
  match result with
  | .ok a => return a
  | .error halt => throw halt

/-- Analyse an entry, and note that it has been asked for. -/
def analyzeEntry (registry : Registry) (mode : AnalysisMode) (entry : ModuleTree) : Run Unit := do
  modify fun recorded =>
    { recorded with requests := recorded.requests ++ [⟨entry, recorded.session.tree⟩] }
  quietly (Session.analyzeEntry registry mode entry)

/-- `Session.analyzeModule` with a record. -/
def analyzeModule (registry : Registry) (mode : AnalysisMode) : Nat → ModuleId → Run Unit
  | 0, _ => return ()
  | budget + 1, module => do
    match ← quietly (Session.take? module) with
    | none => return ()
    | some entry =>
      (← quietly (Session.originsOf module)).forM (analyzeModule registry mode budget)
      analyzeEntry registry mode entry

/-- `Session.analyzeAll` with a record. -/
def analyzeAll (registry : Registry) (mode : AnalysisMode) : Nat → Run Unit
  | 0 => return ()
  | budget + 1 => do
    let recorded ← get
    match recorded.session.pending with
    | [] => return ()
    | first :: _ =>
      analyzeModule registry mode recorded.session.pending.length first.module
      analyzeAll registry mode budget

end Recorded

/-- The requests that a session makes, in their order. -/
def Session.requests (registry : Registry) (mode : AnalysisMode) (session : Session) : List Request :=
  (runFrom (Recorded.analyzeAll registry mode session.pending.length) { session }).2.requests

/-! ### Without the record -/

namespace Recorded

variable {α β : Type}

/-- Without the record, the one action is the other. -/
def Forgets (recorded : Run α) (plain : Session.Run α) : Prop :=
  ∀ r : Recorded, runFrom plain r.session =
    ((runFrom recorded r).1, (runFrom recorded r).2.session)

theorem runFrom_quietly (action : Session.Run α) (r : Recorded) :
    runFrom (quietly action) r =
      ((runFrom action r.session).1, { r with session := (runFrom action r.session).2 }) := by
  simp only [quietly, runFrom_bind, runFrom_get]
  rcases runFrom action r.session with ⟨_ | _, _⟩ <;> rfl

theorem forgets_quietly (action : Session.Run α) : Forgets (quietly action) action := by
  intro r
  rw [runFrom_quietly]

theorem forgets_pure (a : α) : Forgets (pure a) (pure a) := fun _ => rfl

theorem Forgets.bind {recorded : Run α} {plain : Session.Run α} {next : α → Run β}
    {plainNext : α → Session.Run β} (first : Forgets recorded plain)
    (rest : ∀ a, Forgets (next a) (plainNext a)) :
    Forgets (recorded >>= next) (plain >>= plainNext) := by
  intro r
  rw [runFrom_bind, runFrom_bind, first r]
  rcases runFrom recorded r with ⟨_ | a, after⟩
  · rfl
  · exact rest a after

theorem forgets_forM {recorded : α → Run PUnit} {plain : α → Session.Run PUnit}
    (each : ∀ a, Forgets (recorded a) (plain a)) (xs : List α) :
    Forgets (xs.forM recorded) (xs.forM plain) := by
  induction xs with
  | nil => exact forgets_pure _
  | cons x xs ih =>
    rw [List.forM_eq_forM, List.forM_eq_forM, List.forM_cons, List.forM_cons]
    exact (each x).bind fun _ => ih

variable (registry : Registry) (mode : AnalysisMode)

theorem runFrom_analyzeEntry (entry : ModuleTree) (r : Recorded) :
    runFrom (analyzeEntry registry mode entry) r =
      runFrom (quietly (Session.analyzeEntry registry mode entry))
        { r with requests := r.requests ++ [⟨entry, r.session.tree⟩] } := by
  unfold analyzeEntry
  rw [runFrom_bind, runFrom_modify]

theorem forgets_analyzeEntry (entry : ModuleTree) :
    Forgets (analyzeEntry registry mode entry) (Session.analyzeEntry registry mode entry) := by
  intro r
  rw [runFrom_analyzeEntry, runFrom_quietly]

theorem forgets_analyzeModule (budget : Nat) (module : ModuleId) :
    Forgets (analyzeModule registry mode budget module)
      (Session.analyzeModule registry mode budget module) := by
  induction budget generalizing module with
  | zero => exact forgets_pure ()
  | succ budget ih =>
    refine (forgets_quietly _).bind fun found => ?_
    cases found with
    | none => exact forgets_pure ()
    | some entry =>
      refine (forgets_quietly _).bind fun origins => ?_
      exact (forgets_forM ih origins).bind fun _ => forgets_analyzeEntry registry mode entry

theorem forgets_analyzeAll (budget : Nat) :
    Forgets (analyzeAll registry mode budget) (Session.analyzeAll registry mode budget) := by
  induction budget with
  | zero => exact forgets_pure ()
  | succ budget ih =>
    intro r
    unfold analyzeAll Session.analyzeAll
    simp only [runFrom_bind, runFrom_get]
    cases r.session.pending with
    | nil => rfl
    | cons first rest =>
      exact (forgets_analyzeModule registry mode _ _).bind (fun _ => ih) r

end Recorded
end ShellSema
