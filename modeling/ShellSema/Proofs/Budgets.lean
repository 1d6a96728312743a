import ShellSema.Proofs.Sessions

/-!
# The budgets of a session

A session turns to its modules within budgets that are the numbers of pending entries. Each module
is taken off before those that it imports from are turned to, so no larger budget changes anything:
the recursion ends of its own.
-/
namespace ShellSema
namespace Session

variable {registry : Registry} {mode : AnalysisMode} {α β : Type}

theorem length_lt_of_gone {module : ModuleId} {entries others : List ModuleTree}
    (fewer : others.Sublist entries) (member : module ∈ modulesOf entries)
    (gone : module ∉ modulesOf others) : others.length < entries.length := by
  refine Nat.lt_of_le_of_ne fewer.length_le fun same => gone ?_
  rwa [fewer.eq_of_length same]

/-! ### Pending entries -/

/-- No entry becomes pending again. -/
def Shrinks (before after : Session) : Prop := after.pending.Sublist before.pending

theorem shrinks_refl (session : Session) : Shrinks session session := .refl _

theorem Shrinks.trans (first second third : Session) (one : Shrinks first second)
    (other : Shrinks second third) : Shrinks first third :=
  List.Sublist.trans other one

theorem shrinks_take? (module : ModuleId) : Keeps Shrinks (take? module) := by
  intro session
  rw [runFrom_take?]
  split
  · exact shrinks_refl session
  · exact List.filter_sublist

theorem gone_take? (module : ModuleId) (session : Session) :
    module ∉ modulesOf (runFrom (take? module) session).2.pending := by
  intro left
  obtain ⟨entry, inside, same⟩ := List.mem_map.mp left
  rw [runFrom_take?] at inside
  split at inside
  next none => exact List.find?_eq_none.mp none entry inside (decide_eq_true same)
  next => exact of_decide_eq_true (List.mem_filter.mp inside).2 same

theorem gives_originsOf {module : ModuleId} {origins : List ModuleId} {session after : Session}
    (given : Gives (originsOf module) session origins after) : after = session := by
  obtain ⟨_, _, asked, rest⟩ := gives_bind.mp given
  obtain ⟨rfl, rfl⟩ := gives_get.mp asked
  split at rest
  · exact (gives_pure.mp rest).2
  · exact (gives_throw.mp rest).elim

theorem shrinks_originsOf (module : ModuleId) : Keeps Shrinks (originsOf module) := by
  refine keeps_bind Shrinks.trans (keeps_get shrinks_refl) fun session => ?_
  split
  · exact keeps_pure shrinks_refl _
  · exact keeps_throw shrinks_refl _

theorem shrinks_analyzeEntry (entry : ModuleTree) :
    Keeps Shrinks (analyzeEntry registry mode entry) := by
  intro session
  simp only [analyzeEntry, runFrom_bind, runFrom_get, runFrom_set]
  split <;> exact List.Sublist.refl _

/-- What becomes of a module once its entry has been looked for. -/
def analyzeTaken (registry : Registry) (mode : AnalysisMode) (budget : Nat) (module : ModuleId) :
    Option ModuleTree → Run Unit
  | none => return ()
  | some entry => do
    (← originsOf module).forM (analyzeModule registry mode budget)
    analyzeEntry registry mode entry

theorem analyzeModule_succ (budget : Nat) (module : ModuleId) :
    analyzeModule registry mode (budget + 1) module =
      take? module >>= analyzeTaken registry mode budget module := by
  rw [analyzeModule]
  congr

theorem shrinks_analyzeTaken {budget : Nat}
    (each : ∀ module, Keeps Shrinks (analyzeModule registry mode budget module))
    (module : ModuleId) (found : Option ModuleTree) :
    Keeps Shrinks (analyzeTaken registry mode budget module found) := by
  cases found with
  | none => exact keeps_pure shrinks_refl _
  | some entry =>
    refine keeps_bind Shrinks.trans (shrinks_originsOf module) fun origins => ?_
    refine keeps_bind Shrinks.trans ?_ fun _ => shrinks_analyzeEntry entry
    exact keeps_forM shrinks_refl Shrinks.trans origins fun origin _ => each origin

theorem shrinks_analyzeModule (budget : Nat) (module : ModuleId) :
    Keeps Shrinks (analyzeModule registry mode budget module) := by
  induction budget generalizing module with
  | zero => exact keeps_pure shrinks_refl _
  | succ budget ih =>
    rw [analyzeModule_succ]
    exact keeps_bind Shrinks.trans (shrinks_take? module) (shrinks_analyzeTaken ih module)

/-- A module that has been turned to is pending no longer. -/
theorem gone_analyzeModule (budget : Nat) (module : ModuleId) (session : Session) :
    module ∉ modulesOf
      (runFrom (analyzeModule registry mode (budget + 1) module) session).2.pending := by
  have gone := gone_take? module session
  rw [analyzeModule_succ, runFrom_bind]
  rcases ended : runFrom (take? module) session with ⟨halt | found, after⟩ <;> rw [ended] at gone
  · exact gone
  · have fewer : Shrinks after (runFrom (analyzeTaken registry mode budget module found) after).2 :=
      shrinks_analyzeTaken (shrinks_analyzeModule budget) module found after
    exact fun left => gone ((fewer.map _).subset left)

/-! ### Invariants -/

/-- What holds of a session all along: fewer entries may be pending, and an entry may be analysed, if
it is one that may be pending. -/
structure Invariant (registry : Registry) (mode : AnalysisMode) (holds : Session → Prop)
    (allowed : ModuleTree → Prop) : Prop where
  pending : ∀ session, holds session → ∀ entry ∈ session.pending, allowed entry
  fewer : ∀ session pending, holds session → pending.Sublist session.pending →
    holds { session with pending }
  analysed : ∀ session entry ast later, holds session → allowed entry →
    Analysis.analyze registry mode session.tree entry.module entry.ast = ⟨.ok ast, later⟩ →
      holds { session with
        tree := later
        analysed := place ⟨entry.module, ast⟩ session.analysed }

namespace Invariant

variable {holds : Session → Prop} {allowed : ModuleTree → Prop} {session after : Session}
  (invariant : Invariant registry mode holds allowed)

include invariant

theorem of_analyzeEntry {entry : ModuleTree} (able : allowed entry)
    (given : Gives (analyzeEntry registry mode entry) session () after) (start : holds session) :
    holds after := by
  rcases ended : Analysis.analyze registry mode session.tree entry.module entry.ast with ⟨result, later⟩
  simp only [Gives, analyzeEntry, runFrom_bind, runFrom_get, runFrom_set, ended] at given
  cases result with
  | error halt => simp at given
  | ok ast =>
    simp only [runFrom_modify, Prod.mk.injEq, true_and] at given
    subst given
    exact invariant.analysed session entry ast later start able ended

theorem of_analyzeModule {budget : Nat} {module : ModuleId}
    (given : Gives (analyzeModule registry mode budget module) session () after)
    (start : holds session) : holds after := by
  induction budget generalizing module session after with
  | zero =>
    obtain ⟨-, rfl⟩ := gives_pure.mp given
    exact start
  | succ budget ih =>
    rw [analyzeModule_succ] at given
    obtain ⟨found, taken, took, rest⟩ := gives_bind.mp given
    rw [Gives, runFrom_take?] at took
    split at took
    · cases took
      obtain ⟨-, rfl⟩ := gives_pure.mp rest
      exact start
    next entry found =>
      cases took
      -- The entry was pending, so it may be analysed once its origins have been.
      have able := invariant.pending session start entry (List.mem_of_find?_eq_some found)
      have fewer := invariant.fewer session (session.pending.filter (·.module ≠ module)) start
        List.filter_sublist
      obtain ⟨origins, u, asked, others⟩ := gives_bind.mp rest
      obtain ⟨⟨⟩, u', turned, last⟩ := gives_bind.mp others
      obtain rfl := gives_originsOf asked
      exact invariant.of_analyzeEntry able last (turned.forM_holds (fun _ _ _ => ih) fewer)

theorem of_analyzeAll {budget : Nat}
    (given : Gives (analyzeAll registry mode budget) session () after) (start : holds session) :
    holds after := by
  induction budget generalizing session with
  | zero =>
    obtain ⟨-, rfl⟩ := gives_pure.mp given
    exact start
  | succ budget ih =>
    obtain ⟨_, _, asked, rest⟩ := gives_bind.mp given
    obtain ⟨rfl, rfl⟩ := gives_get.mp asked
    split at rest
    · obtain ⟨-, rfl⟩ := gives_pure.mp rest
      exact start
    · obtain ⟨⟨⟩, middle, first, others⟩ := gives_bind.mp rest
      exact ih others (invariant.of_analyzeModule first start)

end Invariant

/-! ### Budgets -/

/-- The actions are the same where no more than so many entries are pending. -/
def Agree (count : Nat) (action other : Run α) : Prop :=
  ∀ session : Session, session.pending.length ≤ count →
    runFrom action session = runFrom other session

variable {count : Nat}

theorem agree_refl (action : Run α) : Agree count action action := fun _ _ => rfl

theorem Agree.bind {action other : Run α} {next next' : α → Run β} (first : Agree count action other)
    (shrinks : Keeps Shrinks action) (rest : ∀ a, Agree count (next a) (next' a)) :
    Agree count (action >>= next) (other >>= next') := by
  intro session enough
  have shrinks := shrinks session
  rw [runFrom_bind, runFrom_bind, ← first session enough]
  rcases ended : runFrom action session with ⟨halt | a, after⟩
  · rfl
  · rw [ended] at shrinks
    exact rest a after (Nat.le_trans shrinks.length_le enough)

theorem agree_forM {action other : α → Run PUnit} (each : ∀ a, Agree count (action a) (other a))
    (shrinks : ∀ a, Keeps Shrinks (action a)) (xs : List α) :
    Agree count (xs.forM action) (xs.forM other) := by
  induction xs with
  | nil => exact agree_refl _
  | cons x xs ih =>
    rw [List.forM_eq_forM, List.forM_cons, List.forM_cons]
    exact (each x).bind (shrinks x) fun _ => ih

/-- To turn to a module, no budget is needed beyond the number of pending entries. -/
theorem agree_analyzeModule (budget more : Nat) (module : ModuleId) :
    Agree budget (analyzeModule registry mode (budget + more) module)
      (analyzeModule registry mode budget module) := by
  induction budget generalizing module with
  | zero =>
    intro session enough
    have nothing : session.pending = [] := List.length_eq_zero_iff.mp (Nat.le_zero.mp enough)
    cases more with
    | zero => rfl
    | succ more =>
      rw [Nat.zero_add, analyzeModule_succ, runFrom_bind, runFrom_take?, nothing]
      rfl
  | succ budget ih =>
    intro session enough
    have gone := gone_take? module session
    have fewer := shrinks_take? module session
    have found := runFrom_take? module session
    rw [Nat.succ_add, analyzeModule_succ, analyzeModule_succ, runFrom_bind, runFrom_bind]
    cases taken : session.pending.find? (·.module = module) with
    | none =>
      rw [taken] at found
      rw [found]
      rfl
    | some entry =>
      rw [taken] at found
      rw [found] at fewer gone ⊢
      obtain rfl : entry.module = module := by simpa using List.find?_some taken
      -- With the entry taken off, one entry less is pending, and the budget is one less too.
      have shorter := length_lt_of_gone fewer
        (List.mem_map_of_mem (List.mem_of_find?_eq_some taken)) gone
      have rest : Agree budget (analyzeTaken registry mode (budget + more) entry.module (some entry))
          (analyzeTaken registry mode budget entry.module (some entry)) := by
        refine (agree_refl _).bind (shrinks_originsOf _) fun origins => ?_
        refine (agree_forM ih (shrinks_analyzeModule _) origins).bind ?_ fun _ => agree_refl _
        exact keeps_forM shrinks_refl Shrinks.trans origins fun origin _ =>
          shrinks_analyzeModule _ origin
      exact rest _ (Nat.le_of_lt_succ (Nat.lt_of_lt_of_le shorter enough))

/-- To analyse all modules, no budget is needed beyond the number of pending entries. -/
theorem agree_analyzeAll (budget more : Nat) :
    Agree budget (analyzeAll registry mode (budget + more)) (analyzeAll registry mode budget) := by
  induction budget with
  | zero =>
    intro session enough
    have nothing : session.pending = [] := List.length_eq_zero_iff.mp (Nat.le_zero.mp enough)
    cases more with
    | zero => rfl
    | succ more =>
      simp only [analyzeAll, runFrom_bind, runFrom_get, nothing]
  | succ budget ih =>
    intro session enough
    rw [Nat.succ_add]
    unfold analyzeAll
    simp only [runFrom_bind, runFrom_get]
    cases pending : session.pending with
    | nil => rfl
    | cons first rest =>
      -- Whatever becomes of the first entry, it is pending no longer.
      have fewer : Shrinks session
          (runFrom (analyzeModule registry mode (rest.length + 1) first.module) session).2 :=
        shrinks_analyzeModule (rest.length + 1) first.module session
      have shorter := length_lt_of_gone fewer (by simp [pending, modulesOf])
        (gone_analyzeModule rest.length first.module session)
      simp only [runFrom_bind, List.length_cons]
      rcases ended : runFrom (analyzeModule registry mode (rest.length + 1) first.module) session with
        ⟨halt | _, after⟩
      · rfl
      · rw [ended] at shorter
        dsimp only at shorter
        exact ih after (by omega)

end Session
end ShellSema
