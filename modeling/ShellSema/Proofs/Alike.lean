import ShellSema.Proofs.Walks

/-!
# Two runs side by side

An action is run from two states that are related. If it gives a value both times, it may be asked
whether that is the same value, and whether the states in which it ends are related again. Along a
plan it suffices to ask this of the actions of the nodes.
-/
namespace ShellSema

/-- From related states, the action gives the same value if it gives one both times, and leaves
related states. -/
def Alike {ε σ α : Type} (R : σ → σ → Prop) (action : ExceptT ε (StateM σ) α) : Prop :=
  ∀ s t a b s' t', R s t → Gives action s a s' → Gives action t b t' → b = a ∧ R s' t'

section Actions

variable {ε σ α β : Type} {R : σ → σ → Prop}

theorem alike_pure (a : α) : Alike R (pure a : ExceptT ε (StateM σ) α) := by
  intro s t _ _ _ _ related one other
  obtain ⟨rfl, rfl⟩ := gives_pure.mp one
  obtain ⟨rfl, rfl⟩ := gives_pure.mp other
  exact ⟨rfl, related⟩

/-- There is nothing to compare if the action always halts. -/
theorem alike_of_halts {action : ExceptT ε (StateM σ) α} (halts : ∀ s a t, ¬ Gives action s a t) :
    Alike R action :=
  fun s _ a _ s' _ _ one _ => (halts s a s' one).elim

/-- An action is alike if another one is that gives what it gives. -/
theorem alike_of_gives {action action' : ExceptT ε (StateM σ) α}
    (given : ∀ s a t, Gives action s a t → Gives action' s a t) (alike : Alike R action') :
    Alike R action :=
  fun s t a b s' t' related one other =>
    alike s t a b s' t' related (given s a s' one) (given t b t' other)

/-- What follows may rely on what the first run gives. -/
theorem alike_bind {action : ExceptT ε (StateM σ) α} {next : α → ExceptT ε (StateM σ) β}
    (first : Alike R action)
    (rest : ∀ a s t s', R s t → Gives action s a s' → Alike R (next a)) :
    Alike R (action >>= next) := by
  intro s t _ _ _ _ related one other
  obtain ⟨a, r, one, one'⟩ := gives_bind.mp one
  obtain ⟨_, _, other, other'⟩ := gives_bind.mp other
  obtain ⟨rfl, related'⟩ := first _ _ _ _ _ _ related one other
  exact rest _ s t r related one _ _ _ _ _ _ related' one' other'

theorem alike_forM {action : α → ExceptT ε (StateM σ) PUnit} (xs : List α)
    (each : ∀ x ∈ xs, Alike R (action x)) : Alike R (xs.forM action) := by
  induction xs with
  | nil => exact alike_pure _
  | cons x xs ih =>
    rw [List.forM_eq_forM, List.forM_cons]
    exact alike_bind (each x (by simp)) fun _ _ _ _ _ _ => ih fun y member => each y (by simp [member])

theorem alike_modify {change : σ → σ} (same : ∀ s t, R s t → R (change s) (change t)) :
    Alike R (modify change : ExceptT ε (StateM σ) PUnit) := by
  intro s t _ _ _ _ related one other
  obtain rfl := gives_modify.mp one
  obtain rfl := gives_modify.mp other
  exact ⟨rfl, same s t related⟩

/-- What follows may depend on the part of the state that is the same in both. -/
theorem alike_get {next : σ → ExceptT ε (StateM σ) α} (same : ∀ s t, R s t → next t = next s)
    (rest : ∀ s, Alike R (next s)) : Alike R (get >>= next) := by
  intro s t a b s' t' related one other
  simp only [gives_bind, gives_get] at one other
  obtain ⟨_, _, ⟨rfl, rfl⟩, one⟩ := one
  obtain ⟨_, _, ⟨rfl, rfl⟩, other⟩ := other
  rw [same _ _ related] at other
  exact rest _ _ _ a b s' t' related one other

end Actions

/-! ### Actions of a walk -/

section Walking

variable {α β : Type} {R : AnalysisState → AnalysisState → Prop}

theorem alike_fail {cause : ErrorCause} : Alike R (Walk.fail cause : Walk α) :=
  alike_of_halts fun _ _ _ => by simp

theorem alike_crash {crash : Crash} : Alike R (Walk.crash crash : Walk α) :=
  alike_of_halts fun _ _ _ => by simp

/-- An action that only reads leaves the states related. -/
theorem Unchanging.alike {action : Walk α} (unchanging : Unchanging action)
    (same : ∀ s t a b, R s t → Gives action s a s → Gives action t b t → b = a) :
    Alike R action := by
  intro s t a b s' t' related one other
  obtain rfl := unchanging.of_gives one
  obtain rfl := unchanging.of_gives other
  exact ⟨same _ _ a b related one other, related⟩

/-- A check gives nothing that could differ. -/
theorem Unchanging.alike_check {action : Walk Unit} (unchanging : Unchanging action) :
    Alike R action :=
  unchanging.alike fun _ _ _ _ _ _ _ => rfl

theorem alike_ask {question : ScopeTree → Except ScopeTree.Fault α}
    (same : ∀ s t, R s t → question t.tree = question s.tree) : Alike R (Walk.ask question) := by
  refine unchanging_ask.alike fun s t a b related one other => ?_
  have answer := (gives_ask.mp one).1
  have answer' := (gives_ask.mp other).1
  rw [same s t related, answer] at answer'
  exact (Except.ok.inj answer').symm

/-- Of an answer of the tree, what follows may depend on the part that is the same in both. -/
theorem alike_read {question : ScopeTree → Except ScopeTree.Fault α} {next : α → Walk β}
    (same : ∀ s t a b, R s t → question s.tree = .ok a → question t.tree = .ok b →
      next b = next a)
    (rest : ∀ a s t, R s t → question s.tree = .ok a → Alike R (next a)) :
    Alike R (Walk.ask question >>= next) := by
  intro s t c d s' t' related one other
  simp only [gives_bind, gives_ask] at one other
  obtain ⟨a, _, ⟨answer, rfl⟩, one⟩ := one
  obtain ⟨b, _, ⟨answer', rfl⟩, other⟩ := other
  rw [same _ _ a b related answer answer'] at other
  exact rest a _ _ related answer _ _ c d s' t' related one other

theorem alike_editGiving {change : ScopeTree.Edit α}
    (value : ∀ s t a b tree tree', R s t → Gives change s.tree a tree → Gives change t.tree b tree' →
      b = a)
    (state : ∀ s t, R s t → R { s with tree := (runFrom change s.tree).2 }
      { t with tree := (runFrom change t.tree).2 }) : Alike R (Walk.edit change) := by
  intro s t a b s' t' related one other
  obtain ⟨tree, first, rfl⟩ := gives_edit.mp one
  obtain ⟨tree', second, rfl⟩ := gives_edit.mp other
  have states := state s t related
  rw [show runFrom change s.tree = (.ok a, tree) from first,
    show runFrom change t.tree = (.ok b, tree') from second] at states
  exact ⟨value s t a b tree tree' related first second, states⟩

theorem alike_edit {change : ScopeTree.Edit Unit}
    (state : ∀ s t, R s t → R { s with tree := (runFrom change s.tree).2 }
      { t with tree := (runFrom change t.tree).2 }) : Alike R (Walk.edit change) :=
  alike_editGiving (fun _ _ _ _ _ _ _ _ _ => rfl) state

theorem alike_filterM {names : List String} {test : String → Walk Bool}
    (each : ∀ name, Alike R (test name)) : Alike R (names.filterM test) := by
  have filtered (kept : List String) : Alike R (names.filterAuxM test kept) := by
    induction names generalizing kept with
    | nil => exact alike_pure _
    | cons name names ih =>
      rw [List.filterAuxM]
      exact alike_bind (each name) fun _ _ _ _ _ _ => ih _
  exact alike_bind (filtered []) fun _ _ _ _ _ _ => alike_pure _

theorem alike_blockScope {e : Expr} : Alike R (Walk.blockScope e) := by
  unfold Walk.blockScope
  cases e.blockScope? with
  | some scope => exact alike_pure _
  | none => exact alike_crash

theorem alike_attachedCall {e : Expr} : Alike R (Walk.attachedCall e) := by
  unfold Walk.attachedCall
  cases e.call? with
  | some made => exact alike_pure _
  | none => exact alike_crash

theorem alike_redirect {op : BinaryOp} {redirection : Redirection} {left : Expr} :
    Alike R (Walk.redirect op redirection left) := by
  unfold Walk.redirect
  split
  · exact alike_pure _
  · split
    · exact alike_pure _
    · exact alike_fail

end Walking

/-! ### Plans -/

namespace Plan

variable {α β : Type} {R : AnalysisState → AnalysisState → Prop}

/-- All actions of the plan itself are alike in two runs. -/
def Steady (R : AnalysisState → AnalysisState → Prop) : {α : Type} → Plan α → Prop
  | _, .done _ => True
  | _, .act action next => Alike R action ∧ ∀ b s t, Gives action s b t → (next b).Steady R
  | _, .visit _ _ _ next => ∀ r, (next r).Steady R
  | _, .guarded _ inner next => inner.Steady R ∧ ∀ b, (next b).Steady R

theorem steady_pure (a : α) : (pure a : Plan α).Steady R := trivial

theorem steady_enter (context : Context) (slot : Slot) (e : Expr) :
    (enter context slot e).Steady R :=
  fun _ => trivial

theorem steady_guard {id : FunctionId} {inner : Plan α} (steady : inner.Steady R) :
    (guard id inner).Steady R :=
  ⟨steady, fun _ => trivial⟩

theorem steady_bind {p : Plan α} {next : α → Plan β} (first : p.Steady R)
    (rest : ∀ a, (next a).Steady R) : (p >>= next).Steady R := by
  change (p.bind next).Steady R
  induction p with
  | done a => exact rest a
  | act action others ih => exact ⟨first.1, fun b s t given => ih b (first.2 b s t given) rest⟩
  | visit context slot e others ih => exact fun r => ih r (first r) rest
  | guarded id inner others _ ih => exact ⟨first.1, fun b => ih b (first.2 b) rest⟩

/-- What follows an action may rely on what the action gives. -/
theorem steady_act {action : Walk α} {next : α → Plan β} (alike : Alike R action)
    (rest : ∀ a s t, Gives action s a t → (next a).Steady R) : (liftM action >>= next).Steady R :=
  ⟨alike, rest⟩

/-- After a visit comes what is steady by itself. -/
theorem steady_visit {context : Context} {slot : Slot} {e : Expr} {next : Expr → Plan β}
    (rest : ∀ r, (next r).Steady R) : (enter context slot e >>= next).Steady R :=
  steady_bind (steady_enter ..) rest

theorem steady_each (context : Context) (slot : Expr → Slot) (es : List Expr) :
    (each context slot es).Steady R := by
  induction es with
  | nil => exact steady_pure _
  | cons e es ih => exact steady_visit fun _ => steady_bind ih fun _ => steady_pure _

theorem steady_option (context : Context) (isRoot : Option Bool) (e : Option Expr) :
    (option context isRoot e).Steady R := by
  cases e with
  | none => exact steady_pure _
  | some e => exact steady_visit fun _ => steady_pure _

theorem steady_pairs (context : Context) (entries : List (Expr × Expr)) :
    (pairs context entries).Steady R := by
  induction entries with
  | nil => exact steady_pure _
  | cons entry entries ih =>
    exact steady_visit fun _ => steady_visit fun _ => steady_bind ih fun _ => steady_pure _

theorem steady_environmentValues (context : Context) (entries : List (String × Expr)) :
    (environmentValues context entries).Steady R := by
  induction entries with
  | nil => exact steady_pure _
  | cons entry entries ih => exact steady_visit fun _ => steady_bind ih fun _ => steady_pure _

/-- A plan is alike in two runs if its own actions and its visits are. -/
theorem alike_run {p : Plan α} {V : Context → Slot → Expr → Prop} (steady : p.Steady R)
    (within : p.Within (fun _ _ => True) V)
    (visits : ∀ context slot e, V context slot e → Alike R (Walk.expr context slot e)) :
    Alike R p.run := by
  induction p with
  | done a => exact alike_pure a
  | act action next ih =>
    refine alike_bind steady.1 fun b s t s' _ given => ?_
    exact ih b (steady.2 b s s' given) (within.2 b s s' given)
  | visit context slot e next ih =>
    exact alike_bind (visits context slot e within.1) fun r _ _ _ _ _ =>
      ih r (steady r) (within.2 r)
  | guarded id inner next innerIh ih =>
    -- A run that gives a value has not been caught by the guard.
    refine alike_bind ?_ fun b _ _ _ _ _ => ih b (steady.2 b) (within.2.2 b)
    intro s t a b s' t' related one other
    exact innerIh steady.1 within.2.1 s t a b s' t' related (gives_orFailFunction.mp one)
      (gives_orFailFunction.mp other)

end Plan
end ShellSema
