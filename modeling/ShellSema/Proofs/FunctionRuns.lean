import ShellSema.Proofs.Moments
import ShellSema.Proofs.Surroundings

/-!
# The course of a function

A function that is met for the first time is noted together with whether it takes a closure, its
defaults and its body are gone over, and in the end it is registered. Nothing else in an analysis
changes what is noted or registered of it, if it is declared once.
-/
namespace ShellSema

/-- The node declares a function that takes a closure. -/
def Expr.takesClosure (e : Expr) : Bool :=
  match e.kind with
  | .functionDecl _ _ _ _ _ takesClosure _ => takesClosure
  | _ => false

theorem Expr.isBlock_of_default {e : Expr} (constant : e.isDefault = true) : e.isBlock = false := by
  obtain ⟨kind, span, isRoot, enclosing⟩ := e
  cases kind
  case block => simp [isDefault] at constant
  all_goals rfl

theorem Expr.functionIds_of_kind {e : Expr} {access : Access} {name : Token}
    {parameters : List Parameter} {body : Expr} {module : ModuleId} {takesClosure : Bool}
    {id : FunctionId} (kind : e.kind = .functionDecl access name parameters body module takesClosure id) :
    e.functionIds = id :: e.children.flatMap Expr.functionIds := by
  rw [functionIds_eq]
  simp [declaredFunction?, kind]

theorem Expr.kind_of_declared {e : Expr} {id : FunctionId} (declared : e.declaredFunction? = some id) :
    ∃ access name parameters body module takesClosure,
      e.kind = .functionDecl access name parameters body module takesClosure id := by
  unfold declaredFunction? at declared
  split at declared
  next access name parameters body module takesClosure own kind =>
    cases declared
    exact ⟨access, name, parameters, body, module, takesClosure, kind⟩
  next => cases declared

theorem Expr.kindName_of_declared {e : Expr} {id : FunctionId}
    (declared : e.declaredFunction? = some id) : e.kindName = "function" := by
  obtain ⟨_, _, _, _, _, _, kind⟩ := kind_of_declared declared
  simp [kindName, ExprKind.name, kind]

/-! ### What is registered -/

/-- A function that is registered stands in the tree as it was given, with what is known of its
closure by then. -/
theorem function_of_registerFunction {access : Access} {name : Token} {parameters : List Parameter}
    {module : ModuleId} {takesClosure : Bool} {id : FunctionId} {s t : AnalysisState} {u : Unit}
    (given : Gives (Walk.registerFunction access name parameters module takesClosure id) s u t) :
    t.carrierCaptured = s.carrierCaptured ∧ t.tree.function id = .ok
      { name := name.text, access, module, parameters, takesClosure, status := .analysed
        carrierCaptured := s.carrierCaptured.contains id } := by
  simp only [Walk.registerFunction, ScopeTree.Edit.registerFunction, edit_bind, gives_bind, gives_get]
    at given
  obtain ⟨_, s, ⟨rfl, rfl⟩, _, s', replaced, entered⟩ := given
  obtain ⟨tree, first, rfl⟩ := gives_edit.mp replaced
  obtain ⟨tree', second, rfl⟩ := gives_edit.mp entered
  refine ⟨rfl, ?_⟩
  -- The function is put in its place, and then only its module is changed.
  have first : runFrom _ _ = (.ok (), tree) := first
  have second : runFrom _ _ = (.ok u, tree') := second
  rw [ScopeTree.Edit.runFrom_changeFunction] at first
  rw [ScopeTree.Edit.runFrom_changeModule] at second
  split at first
  next known =>
    split at second
    · cases first
      cases second
      obtain ⟨f, found⟩ := ScopeTree.hasFunction_iff.mp known
      apply ScopeTree.function_eq_ok.mpr
      exact getElem?_modify_self (ScopeTree.function_eq_ok.mp found) _
    · cases second
  · cases first

/-! ### What is noted of functions -/

section Noted

variable {R : AnalysisState → AnalysisState → Prop} {may : Permit} (refl : ∀ s, R s s)
  (trans : ∀ r s t, R r s → R s t → R r t)
  (blind : ∀ s t : AnalysisState, t.closureSupport = s.closureSupport →
    t.carrierCaptured = s.carrierCaptured → R s t)
  (support : ∀ s access name module takesClosure id, may.function access name module takesClosure id →
    R s { s with closureSupport := (id, takesClosure) :: s.closureSupport })

include blind in
theorem keeps_edit_of_notes {α : Type} (change : ScopeTree.Edit α) : Keeps R (Walk.edit change) := by
  intro s
  rw [runFrom_edit_state]
  exact blind _ _ rfl rfl

include refl trans blind support

/-- A relation that only what is noted of functions matters to is kept by all actions that capture
variables, if it is kept when a function is met. -/
theorem settled_of_notes : Settled R may where
  refl
  trans
  note _ _ _ := blind _ _ rfl rfl
  support
  declare _ _ _ := keeps_edit_of_notes blind _
  registerFunction _ _ _ _ _ _ _ :=
    keeps_bind trans (keeps_get refl) fun _ => keeps_edit_of_notes blind _
  registerStruct _ _ _ _ _ := keeps_edit_of_notes blind _
  failFunction _ _ _ _ _ _ := keeps_edit_of_notes blind _
  capture _ _ _ := blind _ _ rfl rfl
  mark _ _ := keeps_edit_of_notes blind _

/-- The walk keeps such a relation if it is kept as well when the closure of a function is used in
another closure. -/
theorem preserved_of_notes
    (carriers : ∀ s provider, (s.closureSupport.lookup provider).getD false = true →
      R s { s with carrierCaptured := provider :: s.carrierCaptured }) : Preserved R may :=
  (settled_of_notes refl trans blind support).preserved carriers (fun _ _ => blind _ _ rfl rfl)
    fun _ _ _ => blind _ _ rfl rfl

end Noted

/-! ### Functions and the visits around them -/

/-- What is registered of the function is the same. -/
def KeepsRecord (id : FunctionId) (s t : AnalysisState) : Prop :=
  t.tree.function id = s.tree.function id

/-- What is noted of the function when it is met is the same. -/
def KeepsSupport (id : FunctionId) (s t : AnalysisState) : Prop :=
  t.closureSupport.lookup id = s.closureSupport.lookup id

section Keeping

variable {id : FunctionId}

theorem KeepsRecord.trans (r s t : AnalysisState) (first : KeepsRecord id r s)
    (rest : KeepsRecord id s t) : KeepsRecord id r t :=
  Eq.trans rest first

theorem keepsRecord_of_functions {s t : AnalysisState} (same : t.tree.functions = s.tree.functions) :
    KeepsRecord id s t := by
  unfold KeepsRecord ScopeTree.function
  rw [same]

theorem keepsRecord_changeFunction {other : FunctionId} (apart : other ≠ id)
    (change : ScriptFunction → ScriptFunction) :
    Keeps (KeepsRecord id) (Walk.edit (ScopeTree.Edit.changeFunction other change)) := by
  intro s
  rw [runFrom_edit_state, ScopeTree.Edit.state_changeFunction]
  have different : other.index ≠ id.index := fun same => apart (FunctionId.index_injective same)
  simp only [KeepsRecord, ScopeTree.function, Array.getElem?_modify, if_neg different]

theorem keepsRecord_changeModule (module : ModuleId) (change : ScriptModule → ScriptModule) :
    Keeps (KeepsRecord id) (Walk.edit (ScopeTree.Edit.changeModule module change)) := by
  intro s
  rw [runFrom_edit_state, ScopeTree.Edit.state_changeModule]
  exact keepsRecord_of_functions rfl

theorem keepsRecord_preserved (id : FunctionId) :
    Preserved (KeepsRecord id) (Permit.onFunctions (· ≠ id)) := by
  apply preserved_of_sameSymbols KeepsRecord.trans
  · exact fun s t same => keepsRecord_of_functions same.functions
  · intro access name parameters module takesClosure other apart
    refine keeps_bind KeepsRecord.trans (keeps_get fun _ => rfl) fun state => ?_
    exact keeps_registerFunction KeepsRecord.trans (keepsRecord_changeFunction apart _)
      (keepsRecord_changeModule _ _)
  · intro access name parameters module _
    refine keeps_registerStruct KeepsRecord.trans (fun _ => rfl) (fun struct s => ?_) fun s => ?_
    · rw [runFrom_edit_state, ScopeTree.Edit.state_changeStruct]
      exact keepsRecord_of_functions rfl
    · rw [runFrom_edit_state]
      apply keepsRecord_of_functions
      exact functions_declareStruct _ _
  · intro access name module takesClosure other apart
    exact keepsRecord_changeFunction apart _

theorem keepsSupport_refl (s : AnalysisState) : KeepsSupport id s s := rfl

theorem KeepsSupport.trans (r s t : AnalysisState) (first : KeepsSupport id r s)
    (rest : KeepsSupport id s t) : KeepsSupport id r t :=
  Eq.trans rest first

theorem keepsSupport_preserved (id : FunctionId) :
    Preserved (KeepsSupport id) (Permit.onFunctions (· ≠ id)) := by
  apply preserved_of_notes keepsSupport_refl KeepsSupport.trans
  · intro s t support _
    rw [KeepsSupport, support]
  · intro s access name module takesClosure other apart
    have different : (id == other) = false := by simpa using Ne.symm apart
    simp only [KeepsSupport, List.lookup_cons, different]
  · exact fun s provider _ => rfl

end Keeping

/-! ### The visit of a function -/

namespace Visit

variable {f b w : Visit} {id : FunctionId}

/-- The second visit is that of the body of the function that the first one declares. -/
def EntersFunction (f b : Visit) (id : FunctionId) : Prop :=
  f.Enters b ∧ b.source.isBlock = true ∧ ∃ access name parameters module takesClosure,
    f.source.kind = .functionDecl access name parameters b.source module takesClosure id

/-- Of the visits that a function enters, that of its body is the one of a block. -/
theorem entersFunction_of_block (entered : f.Enters b) (declared : f.source.declaredFunction? = some id)
    (block : b.source.isBlock = true) : f.EntersFunction b id := by
  obtain ⟨access, name, parameters, body, module, takesClosure, source⟩ := Expr.kind_of_declared declared
  rcases function_enters source entered with ⟨-, constant⟩ | ⟨scope, -, rfl, -⟩
  · rw [Expr.isBlock_of_default constant] at block
    cases block
  · exact ⟨entered, block, access, name, parameters, module, takesClosure, source⟩

theorem EntersFunction.enclosing (body : f.EntersFunction b id) :
    b.context.enclosing = some (.function id) := by
  obtain ⟨entered, block, access, name, parameters, module, takesClosure, source⟩ := body
  rcases function_enters source entered with ⟨-, constant⟩ | ⟨scope, place, -⟩
  · rw [Expr.isBlock_of_default constant] at block
    cases block
  · rw [place]

theorem EntersFunction.mem_functionIds (body : f.EntersFunction b id) :
    id ∈ f.source.functionIds := by
  obtain ⟨-, -, access, name, parameters, module, takesClosure, source⟩ := body
  rw [Expr.functionIds_of_kind source]
  exact List.mem_cons_self

/-- The body of a function does not declare the function again. -/
theorem EntersFunction.not_mem_functionIds (body : f.EntersFunction b id)
    (once : f.source.functionIds.Nodup) : id ∉ b.source.functionIds := by
  obtain ⟨entered, -, access, name, parameters, module, takesClosure, source⟩ := body
  rw [Expr.functionIds_of_kind source, List.nodup_cons] at once
  exact fun member => once.1 (List.mem_flatMap.mpr ⟨_, mem_children_of_enters entered, member⟩)

theorem EntersFunction.declaresNoModule (body : f.EntersFunction b id)
    (modules : f.source.kindName = "function" → f.source.DeclaresNoModule) :
    b.source.DeclaresNoModule := by
  obtain ⟨entered, -, access, name, parameters, module, takesClosure, source⟩ := body
  have function : f.source.kindName = "function" := by
    simp [Expr.kindName, ExprKind.name, source]
  exact (modules function).child (mem_children_of_enters entered)

/-- A function that is met for the first time is registered when its body has been gone over. -/
theorem registers_of_gives {access : Access} {name : Token} {parameters : List Parameter} {body : Expr}
    {module : ModuleId} {takesClosure : Bool}
    (source : f.source.kind = .functionDecl access name parameters body module takesClosure id)
    {r : Expr} {t : AnalysisState} (given : f.Gives r t) (met : ¬ f.Skips) :
    ∃ b body' parameters' walked, f.EntersFunction b id ∧ b.Gives body' walked ∧
      (∃ u w, ShellSema.Gives (Walk.parameterList f.context false parameters) u parameters' w) ∧
      r.kind = .functionDecl access name parameters' body' module takesClosure id ∧
      ShellSema.Gives (Walk.registerFunction access name parameters' module takesClosure id) walked ()
        t := by
  obtain ⟨admitted, made, carried, rfl⟩ := gives_iff.mp given
  simp only [plan, source, Plan.node, Plan.run_bind, Plan.run_lift, gives_bind, gives_ask] at carried
  obtain ⟨f', _, ⟨found, rfl⟩, carried⟩ := carried
  -- A visit that does not skip the function has found it pending.
  have pending : ¬ f'.status ≠ .pending := fun before =>
    met ⟨access, name, parameters, body, module, takesClosure, id, f', source, found, before⟩
  rw [if_neg pending] at carried
  simp only [Plan.functionDecl, Plan.run_bind, Plan.run_lift, Plan.run_guard, Plan.run_enter,
    Plan.run_pure, gives_bind, gives_pure, Plan.gives_orFailFunction] at carried
  obtain ⟨_, s₁, noted, _, s₂, met', made, walked, ⟨parameters', s₃, listed, scope, _, block, _, s₄,
    declared, inner, s₅, located, body', _, visited, rfl, rfl⟩, _, _, registered, rfl, rfl⟩ := carried
  obtain ⟨isBlock, rfl⟩ := gives_blockScope.mp block
  refine ⟨⟨inner, body.slot, body, s₅⟩, body', parameters', walked, ⟨⟨admitted, ?_⟩, ?_, ?_⟩, visited,
    ⟨_, _, Plan.run_parameterList .. ▸ listed⟩, rfl, registered⟩
  · simp only [plan, source, Plan.node, Plan.enters_bind, Plan.enters_lift, Plan.run_lift, gives_ask,
      false_or]
    refine ⟨f', _, ⟨found, rfl⟩, ?_⟩
    rw [if_neg pending]
    simp only [Plan.functionDecl, Plan.enters_bind, Plan.enters_lift, Plan.enters_guard,
      Plan.enters_enter, Plan.run_lift, false_or]
    refine ⟨_, s₁, noted, _, s₂, met', .inl (.inr ?_)⟩
    exact ⟨parameters', _, listed, scope, _, block, _, s₄, declared, inner, s₅, located, .inl rfl⟩
  · exact Expr.isBlock_of_blockScope? isBlock
  · exact ⟨access, name, parameters, module, takesClosure, source⟩

/-- In the body of a function it is known whether the function takes a closure. -/
theorem EntersFunction.support (body : f.EntersFunction b id) (once : f.source.functionIds.Nodup) :
    b.before.closureSupport.lookup id = some f.source.takesClosure := by
  have enclosing := body.enclosing
  obtain ⟨entered, block, access, name, parameters, module, takesClosure, source⟩ := body
  have enters := entered.2
  simp only [plan, source, Plan.node, Plan.enters_bind, Plan.enters_lift, Plan.run_lift, false_or]
    at enters
  obtain ⟨found, _, -, enters⟩ := enters
  split at enters
  · simp at enters
  simp only [Plan.enters_bind, Plan.enters_lift, Plan.enters_pure, Plan.run_lift, gives_modify,
    false_or, or_false, and_false, exists_false] at enters
  obtain ⟨_, s, _, _, t, met, enters⟩ := enters
  -- From there on, only other functions are met.
  have within : (Plan.functionDecl f.context parameters b.source module takesClosure id).Within
      (KeepsSupport id) fun _ _ _ => True :=
    have calm := (keepsSupport_preserved id).toCalm
    Plan.within_functionDecl calm (fun _ _ => trivial) (fun _ _ _ _ => calm.declare _ _ trivial)
      (fun _ _ _ => calm.declare _ _ trivial) module id (fun s => by rw [runFrom_edit_state]; rfl)
      fun _ _ _ => trivial
  rw [Expr.functionIds_of_kind source, List.nodup_cons] at once
  have kept : KeepsSupport id t b.before := by
    refine ((within.follow (Plan.follows_functionDecl ..)).enters keepsSupport_refl KeepsSupport.trans
      (fun v r t wanted given => ?_) enters).2
    refine apart_of_gives (keepsSupport_preserved id) (fun member => once.1 ?_) given
    refine List.mem_flatMap.mpr ⟨v.source, ?_, member⟩
    simpa [Expr.children, ExprKind.children, source] using wanted.2
  rw [kept, met, List.lookup_cons]
  simp [Expr.takesClosure, source]

end Visit
end ShellSema
