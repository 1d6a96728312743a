import ShellSema.Analysis.Run

/-!
# What actions do

The analysis and the edits of the tree of scopes are built from actions, which read and change a
state and may halt. Two questions are asked of an action: what it gives from a state when it does
not halt, and which relation between the states before and after it holds however it ends. Both are
answered piece by piece along the way an action is put together.
-/
namespace ShellSema

variable {ε σ α β : Type}

/-- How an action ends from a state, and the state that it leaves. -/
def runFrom (action : ExceptT ε (StateM σ) α) (s : σ) : Except ε α × σ := action.run.run s

/-- From the first state the action does not halt: it gives a value and leaves the second state. -/
def Gives (action : ExceptT ε (StateM σ) α) (s : σ) (a : α) (t : σ) : Prop :=
  runFrom action s = (.ok a, t)

/-- The states before and after the action are related, also when it halts. -/
def Keeps (R : σ → σ → Prop) (action : ExceptT ε (StateM σ) α) : Prop :=
  ∀ s, R s (runFrom action s).2

/-! ### Running -/

@[simp] theorem runFrom_pure (a : α) (s : σ) :
    runFrom (pure a : ExceptT ε (StateM σ) α) s = (.ok a, s) := rfl

@[simp] theorem runFrom_throw (e : ε) (s : σ) :
    runFrom (throw e : ExceptT ε (StateM σ) α) s = (.error e, s) := rfl

@[simp] theorem runFrom_get (s : σ) : runFrom (get : ExceptT ε (StateM σ) σ) s = (.ok s, s) := rfl

@[simp] theorem runFrom_set (s t : σ) :
    runFrom (set t : ExceptT ε (StateM σ) PUnit) s = (.ok ⟨⟩, t) := rfl

@[simp] theorem runFrom_modify (change : σ → σ) (s : σ) :
    runFrom (modify change : ExceptT ε (StateM σ) PUnit) s = (.ok ⟨⟩, change s) := rfl

theorem runFrom_bind (action : ExceptT ε (StateM σ) α) (next : α → ExceptT ε (StateM σ) β) (s : σ) :
    runFrom (action >>= next) s =
      match runFrom action s with
      | (.ok a, t) => runFrom (next a) t
      | (.error e, t) => (.error e, t) := by
  simp only [runFrom, ExceptT.run_bind, StateT.run_bind]
  generalize action.run.run s = ended
  rcases ended with ⟨_ | _, _⟩ <;> rfl

/-- Two actions in two parts end alike if their first parts do, and their second parts from there. -/
theorem runFrom_bind_congr {action action' : ExceptT ε (StateM σ) α}
    {next next' : α → ExceptT ε (StateM σ) β} {s : σ} (first : runFrom action s = runFrom action' s)
    (rest : ∀ a t, Gives action s a t → runFrom (next a) t = runFrom (next' a) t) :
    runFrom (action >>= next) s = runFrom (action' >>= next') s := by
  rw [runFrom_bind, runFrom_bind, ← first]
  rcases ended : runFrom action s with ⟨_ | a, t⟩
  · rfl
  · exact rest a t ended

theorem runFrom_tryCatch (action : ExceptT ε (StateM σ) α) (handler : ε → ExceptT ε (StateM σ) α)
    (s : σ) :
    runFrom (tryCatch action handler) s =
      match runFrom action s with
      | (.ok a, t) => (.ok a, t)
      | (.error e, t) => runFrom (handler e) t := by
  simp only [runFrom, ExceptT.run_tryCatch, StateT.run_bind]
  generalize action.run.run s = ended
  rcases ended with ⟨_ | _, _⟩ <;> rfl

/-! ### Giving a value -/

@[simp] theorem gives_pure {a b : α} {s t : σ} :
    Gives (pure a : ExceptT ε (StateM σ) α) s b t ↔ b = a ∧ t = s := by
  simp [Gives, eq_comm]

@[simp] theorem gives_throw {e : ε} {a : α} {s t : σ} :
    Gives (throw e : ExceptT ε (StateM σ) α) s a t ↔ False := by
  simp [Gives]

@[simp] theorem gives_get {s r t : σ} :
    Gives (get : ExceptT ε (StateM σ) σ) s r t ↔ r = s ∧ t = s := by
  simp [Gives, eq_comm]

@[simp] theorem gives_modify {change : σ → σ} {u : PUnit} {s t : σ} :
    Gives (modify change : ExceptT ε (StateM σ) PUnit) s u t ↔ t = change s := by
  simp [Gives, eq_comm]

@[simp] theorem gives_set {s r t : σ} {u : PUnit} :
    Gives (set r : ExceptT ε (StateM σ) PUnit) s u t ↔ t = r := by
  simp [Gives, eq_comm]

@[simp] theorem gives_bind {action : ExceptT ε (StateM σ) α} {next : α → ExceptT ε (StateM σ) β}
    {s t : σ} {b : β} :
    Gives (action >>= next) s b t ↔ ∃ a r, Gives action s a r ∧ Gives (next a) r b t := by
  simp only [Gives, runFrom_bind]
  rcases runFrom action s with ⟨_ | a, r⟩
  · simp
  · constructor
    · exact fun gives => ⟨a, r, rfl, gives⟩
    · rintro ⟨_, _, same, gives⟩
      cases same
      exact gives

/-- A handler that only halts adds nothing to what an action gives. -/
theorem gives_tryCatch {action : ExceptT ε (StateM σ) α} {handler : ε → ExceptT ε (StateM σ) α}
    (halts : ∀ e s a t, ¬ Gives (handler e) s a t) {s t : σ} {a : α} :
    Gives (tryCatch action handler) s a t ↔ Gives action s a t := by
  simp only [Gives, runFrom_tryCatch]
  rcases runFrom action s with ⟨e | _, r⟩
  · exact ⟨fun given => absurd given (halts e r a t), by simp⟩
  · exact Iff.rfl

/-- An action gives at most one value. -/
theorem Gives.unique {action : ExceptT ε (StateM σ) α} {s t t' : σ} {a a' : α}
    (one : Gives action s a t) (other : Gives action s a' t') : a = a' ∧ t = t' := by
  have same : (Except.ok a, t) = ((Except.ok a', t') : Except ε α × σ) := one.symm.trans other
  simpa using same

/-- What outlasts every turn of a loop outlasts the loop. -/
theorem Gives.forM_holds {holds : σ → Prop} {action : α → ExceptT ε (StateM σ) PUnit} {xs : List α}
    (each : ∀ x s t, Gives (action x) s ⟨⟩ t → holds s → holds t) {s t : σ}
    (given : Gives (xs.forM action) s ⟨⟩ t) (start : holds s) : holds t := by
  induction xs generalizing s with
  | nil =>
    obtain ⟨-, rfl⟩ := gives_pure.mp given
    exact start
  | cons x xs ih =>
    rw [List.forM_eq_forM, List.forM_cons] at given
    obtain ⟨⟨⟩, r, first, rest⟩ := gives_bind.mp given
    exact ih rest (each x s r first start)

/-- The action does not halt, and its value and the state it leaves pass a check. -/
def endsWith (action : ExceptT ε (StateM σ) α) (s : σ) (check : α → σ → Bool) : Bool :=
  match runFrom action s with
  | (.ok a, t) => check a t
  | (.error _, _) => false

theorem gives_of_endsWith {action : ExceptT ε (StateM σ) α} {s : σ} {check : α → σ → Bool}
    (ends : endsWith action s check = true) : ∃ a t, Gives action s a t ∧ check a t = true := by
  unfold endsWith at ends
  split at ends
  next a t ended => exact ⟨a, t, ended, ends⟩
  next => cases ends

/-! ### Relating the states before and after -/

section Keeping

variable {R : σ → σ → Prop}

theorem Keeps.of_gives {action : ExceptT ε (StateM σ) α} {s t : σ} {a : α}
    (keeps : Keeps R action) (gives : Gives action s a t) : R s t := by
  have related := keeps s
  rwa [show runFrom action s = (.ok a, t) from gives] at related

theorem keeps_pure (refl : ∀ s, R s s) (a : α) : Keeps R (pure a : ExceptT ε (StateM σ) α) := refl

theorem keeps_throw (refl : ∀ s, R s s) (e : ε) : Keeps R (throw e : ExceptT ε (StateM σ) α) := refl

theorem keeps_get (refl : ∀ s, R s s) : Keeps R (get : ExceptT ε (StateM σ) σ) := refl

/-- A relation to an earlier state that holds after an action holds after what follows. -/
theorem related_bind (trans : ∀ r s t, R r s → R s t → R r t) {action : ExceptT ε (StateM σ) α}
    {next : α → ExceptT ε (StateM σ) β} {r s : σ} (first : R r (runFrom action s).2)
    (rest : ∀ a, Keeps R (next a)) : R r (runFrom (action >>= next) s).2 := by
  rw [runFrom_bind]
  generalize runFrom action s = ended at first
  rcases ended with ⟨_ | a, t⟩
  · exact first
  · exact trans _ _ _ first (rest a t)

theorem keeps_bind (trans : ∀ r s t, R r s → R s t → R r t) {action : ExceptT ε (StateM σ) α}
    {next : α → ExceptT ε (StateM σ) β} (first : Keeps R action) (rest : ∀ a, Keeps R (next a)) :
    Keeps R (action >>= next) :=
  fun s => related_bind trans (first s) rest

/-- From where an action ends, at most its handler changes something. -/
theorem related_tryCatch (refl : ∀ s, R s s) {handler : ε → ExceptT ε (StateM σ) α}
    (handled : ∀ e, Keeps R (handler e)) (action : ExceptT ε (StateM σ) α) (s : σ) :
    R (runFrom action s).2 (runFrom (tryCatch action handler) s).2 := by
  rw [runFrom_tryCatch]
  rcases runFrom action s with ⟨e | _, t⟩
  · exact handled e t
  · exact refl t

theorem keeps_tryCatch (trans : ∀ r s t, R r s → R s t → R r t) {action : ExceptT ε (StateM σ) α}
    {handler : ε → ExceptT ε (StateM σ) α} (first : Keeps R action)
    (handled : ∀ e, Keeps R (handler e)) : Keeps R (tryCatch action handler) := by
  intro s
  have start := first s
  rw [runFrom_tryCatch]
  generalize runFrom action s = ended at start
  rcases ended with ⟨e | _, t⟩
  · exact trans _ _ _ start (handled e t)
  · exact start

theorem keeps_forM (refl : ∀ s, R s s) (trans : ∀ r s t, R r s → R s t → R r t)
    {action : α → ExceptT ε (StateM σ) PUnit} (xs : List α) (each : ∀ x ∈ xs, Keeps R (action x)) :
    Keeps R (xs.forM action) := by
  induction xs with
  | nil => exact keeps_pure refl _
  | cons x xs ih =>
    rw [List.forM_eq_forM, List.forM_cons]
    exact keeps_bind trans (each x (by simp)) fun _ => ih fun y member => each y (by simp [member])

end Keeping
end ShellSema
