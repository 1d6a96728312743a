import ShellSema.Proofs.Edits
import ShellSema.Proofs.Reading

/-!
# Actions that arrive

Crashes and errors of a script are excluded by different arguments: that an action does not crash
follows from how a tree is built, that it meets no error from what can be found in the tree. An action
arrives if it ends as wanted or crashes. Actions that meet no error wherever they start are unfailing.
-/
namespace ShellSema

variable {α β : Type}

/-- The action ends as wanted, unless it crashes. -/
def Arrives (action : Walk α) (s : AnalysisState) (wanted : α → AnalysisState → Prop) : Prop :=
  match runFrom action s with
  | (.ok a, t) => wanted a t
  | (.error (.failed _), _) => False
  | (.error (.crashed _), _) => True

/-- The action meets no error of the script. -/
def Unfailing (action : Walk α) : Prop := ∀ s, Arrives action s fun _ _ => True

section Arriving

variable {action : Walk α} {next : α → Walk β} {s : AnalysisState} {P : α → AnalysisState → Prop}
  {Q : β → AnalysisState → Prop}

theorem arrives_of_gives {a : α} {t : AnalysisState} (given : Gives action s a t) (holds : P a t) :
    Arrives action s P := by
  unfold Arrives
  rw [show runFrom action s = (.ok a, t) from given]
  exact holds

theorem arrives_pure {a : α} (holds : P a s) : Arrives (pure a) s P := holds

theorem Arrives.bind (first : Arrives action s P)
    (rest : ∀ a t, Gives action s a t → P a t → Arrives (next a) t Q) :
    Arrives (action >>= next) s Q := by
  unfold Arrives at first ⊢
  rw [runFrom_bind]
  rcases ended : runFrom action s with ⟨(_ | _) | a, t⟩
  · simp [ended] at first
  · trivial
  · rw [ended] at first
    exact rest a t ended first

theorem Arrives.mono {P' : α → AnalysisState → Prop} (arrives : Arrives action s P)
    (weaker : ∀ a t, Gives action s a t → P a t → P' a t) : Arrives action s P' := by
  unfold Arrives at arrives ⊢
  rcases ended : runFrom action s with ⟨(_ | _) | a, t⟩
  · simp [ended] at arrives
  · trivial
  · rw [ended] at arrives
    exact weaker a t ended arrives

/-- A handler that passes on crashes has nothing to do. -/
theorem arrives_tryCatch {handler : Halt → Walk α}
    (passes : ∀ crash, handler (.crashed crash) = throw (.crashed crash)) (arrives : Arrives action s P) :
    Arrives (tryCatch action handler) s P := by
  unfold Arrives at arrives ⊢
  rw [runFrom_tryCatch]
  rcases ended : runFrom action s with ⟨(_ | crash) | a, t⟩
  · simp [ended] at arrives
  · simp [passes]
  · rwa [ended] at arrives

/-- What arrives and does not crash gives something. -/
theorem Arrives.gives (arrives : Arrives action s P)
    (safe : ∀ crash, (runFrom action s).1 ≠ .error (.crashed crash)) :
    ∃ a t, Gives action s a t ∧ P a t := by
  unfold Arrives at arrives
  rcases ended : runFrom action s with ⟨(_ | crash) | a, t⟩
  · simp [ended] at arrives
  · exact absurd (congrArg Prod.fst ended) (safe crash)
  · rw [ended] at arrives
    exact ⟨a, t, ended, arrives⟩

/-- Where an error is placed does not matter if there is none. -/
theorem arrives_locate {span : Span} (arrives : Arrives action s P) :
    Arrives (Walk.locate span action) s P :=
  arrives_tryCatch (fun _ => rfl) arrives

theorem arrives_ask {question : ScopeTree → Except ScopeTree.Fault α} {a : α}
    (answered : question s.tree = .ok a) (holds : P a s) : Arrives (Walk.ask question) s P :=
  arrives_of_gives (gives_ask.mpr ⟨answered, rfl⟩) holds

/-- An expression that its slot admits is gone over by the plan of its node. -/
theorem arrives_expr {context : Context} {slot : Slot} {e : Expr} {P : Expr → AnalysisState → Prop}
    (admitted : slot.admits e.kind = true)
    (arrives : Arrives (Plan.node context slot e.span e.kind).run s fun r t =>
      P { r with enclosing := context.enclosing } t) : Arrives (Walk.expr context slot e) s P := by
  obtain ⟨kind, span, isRoot, enclosing⟩ := e
  rw [← Plan.node_eq_run] at arrives
  unfold Walk.expr
  rw [if_pos admitted]
  exact (arrives_locate arrives).bind fun r t _ holds => arrives_pure holds

/-- An action that meets no error arrives if what it gives is as wanted. -/
theorem Unfailing.arrives (unfailing : Unfailing action) (holds : ∀ a t, Gives action s a t → P a t) :
    Arrives action s P :=
  (unfailing s).mono fun a t given _ => holds a t given

end Arriving

/-! ### Actions that meet no error -/

section Unfailing

theorem unfailing_pure {a : α} : Unfailing (pure a : Walk α) := fun _ => trivial

theorem unfailing_get : Unfailing get := fun _ => trivial

theorem unfailing_modify {change : AnalysisState → AnalysisState} :
    Unfailing (modify change : Walk PUnit) :=
  fun _ => trivial

theorem unfailing_crash {crash : Crash} : Unfailing (Walk.crash crash : Walk α) := fun _ => trivial

theorem unfailing_bind {action : Walk α} {next : α → Walk β} (first : Unfailing action)
    (rest : ∀ a, Unfailing (next a)) : Unfailing (action >>= next) :=
  fun s => (first s).bind fun a t _ _ => rest a t

theorem unfailing_ask {question : ScopeTree → Except ScopeTree.Fault α} :
    Unfailing (Walk.ask question) := by
  apply unfailing_bind unfailing_get
  intro state
  cases question state.tree
  · exact unfailing_crash
  · exact unfailing_pure

theorem unfailing_frame {id : ClosureId} : Unfailing (Walk.frame id) := by
  apply unfailing_bind unfailing_get
  intro state
  cases state.closures[id.index]?
  · exact unfailing_crash
  · exact unfailing_pure

theorem unfailing_edit {change : ScopeTree.Edit α} : Unfailing (Walk.edit change) := by
  intro s
  unfold Arrives
  rw [runFrom_edit]
  rcases runFrom change s.tree with ⟨_ | _, _⟩ <;> trivial

theorem unfailing_filterM {names : List String} {test : String → Walk Bool}
    (each : ∀ name, Unfailing (test name)) : Unfailing (names.filterM test) := by
  have filtered (kept : List String) : Unfailing (names.filterAuxM test kept) := by
    induction names generalizing kept with
    | nil => exact unfailing_pure
    | cons name names ih =>
      rw [List.filterAuxM]
      exact unfailing_bind (each name) fun _ => ih _
  exact unfailing_bind (filtered []) fun _ => unfailing_pure

theorem unfailing_reachesOut {inner outer : ClosureFrame} {outside : ScopeId} {name : String} :
    Unfailing (Walk.reachesOut inner outer outside name) := by
  apply unfailing_bind unfailing_ask
  intro visible
  split
  · exact unfailing_pure
  split
  · exact unfailing_pure
  apply unfailing_bind unfailing_ask
  intro declares
  split
  · exact unfailing_pure
  · exact unfailing_bind unfailing_ask fun _ => unfailing_pure

theorem unfailing_capturedFrom {context : Context} {frame : ClosureFrame} {name : String} :
    Unfailing (Walk.capturedFrom context frame name) := by
  apply unfailing_bind unfailing_ask
  intro scope
  cases scope.parent with
  | none => exact unfailing_pure
  | some outside =>
    apply unfailing_bind unfailing_ask
    intro found
    cases found with
    | none => exact unfailing_pure
    | some declaring =>
      apply unfailing_bind unfailing_ask
      intro between
      cases between <;> exact unfailing_pure

theorem unfailing_captureName {context : Context} {name : String} :
    Unfailing (Walk.captureName context name) := by
  unfold Walk.captureName
  split
  · apply unfailing_bind unfailing_frame
    intro frame
    apply unfailing_bind unfailing_capturedFrom
    intro found
    cases found with
    | none => exact unfailing_pure
    | some declaring =>
      apply unfailing_bind unfailing_modify
      exact fun _ => unfailing_bind unfailing_edit fun _ => unfailing_pure
  · exact unfailing_pure

theorem unfailing_propagateCaptures {inner : ClosureId} {enclosing : Option Enclosing} :
    Unfailing (Walk.propagateCaptures inner enclosing) := by
  unfold Walk.propagateCaptures
  split
  · apply unfailing_bind unfailing_frame
    intro innerFrame
    apply unfailing_bind unfailing_frame
    intro outerFrame
    apply unfailing_bind unfailing_ask
    intro scope
    cases scope.parent with
    | none => exact unfailing_pure
    | some outside =>
      exact unfailing_bind (unfailing_filterM fun _ => unfailing_reachesOut) fun _ => unfailing_modify
  · exact unfailing_pure

end Unfailing
end ShellSema
