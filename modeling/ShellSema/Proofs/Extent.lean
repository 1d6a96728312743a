import ShellSema.Input.AnalysisUnit
import ShellSema.Proofs.FunctionRuns
import ShellSema.Proofs.Onward
import ShellSema.Proofs.OwnModule
import ShellSema.Syntax.Build

/-!
# How far an analysis reaches

An analysis changes the tree of scopes from many places, and it may halt at any of them; nothing is
taken back then. What it may have changed is the same however it ends: variables are declared where
the tree under analysis has its blocks, the module in question gets its imports and its status, and
functions and structs are registered that the tree declares. Each of these bounds is a relation that
the single steps keep, so an analysis keeps it whether it ends or halts.
-/
namespace ShellSema

/-- A relation that follows from one that is kept is kept as well. -/
theorem Preserved.weaken {R R' : AnalysisState → AnalysisState → Prop} {may : Permit}
    (kept : Preserved R may) (weaker : ∀ s t, R s t → R' s t)
    (trans : ∀ r s t, R' r s → R' s t → R' r t) : Preserved R' may where
  refl s := weaker _ _ (kept.refl s)
  trans := trans
  note s span category := weaker _ _ (kept.note s span category)
  support s access name module takesClosure id allowed :=
    weaker _ _ (kept.support s access name module takesClosure id allowed)
  declare scope name allowed s := weaker _ _ (kept.declare scope name allowed s)
  registerFunction access name parameters module takesClosure id allowed s :=
    weaker _ _ (kept.registerFunction access name parameters module takesClosure id allowed s)
  registerStruct access name parameters module allowed s :=
    weaker _ _ (kept.registerStruct access name parameters module allowed s)
  failFunction access name module takesClosure id allowed s :=
    weaker _ _ (kept.failFunction access name module takesClosure id allowed s)
  capture s id names := weaker _ _ (kept.capture s id names)
  mark scope name s := weaker _ _ (kept.mark scope name s)
  carriers s provider supported := weaker _ _ (kept.carriers s provider supported)
  enter context scope parameters captured allowed s :=
    weaker _ _ (kept.enter context scope parameters captured allowed s)
  expand id attached scope parameters body allowed s :=
    weaker _ _ (kept.expand id attached scope parameters body allowed s)

/-- What the first permit allows is allowed by the second one. -/
structure Permit.Within (less may : Permit) : Prop where
  scope : ∀ id, less.scope id → may.scope id
  function : ∀ access name module takesClosure id,
    less.function access name module takesClosure id → may.function access name module takesClosure id
  struct : ∀ access name module, less.struct access name module → may.struct access name module

/-- A relation is kept by walks that are allowed less. -/
theorem Preserved.restrict {R : AnalysisState → AnalysisState → Prop} {less may : Permit}
    (kept : Preserved R may) (within : less.Within may) : Preserved R less where
  refl := kept.refl
  trans := kept.trans
  note := kept.note
  support s access name module takesClosure id allowed :=
    kept.support s access name module takesClosure id (within.function _ _ _ _ _ allowed)
  declare scope name allowed := kept.declare scope name (within.scope _ allowed)
  registerFunction access name parameters module takesClosure id allowed :=
    kept.registerFunction access name parameters module takesClosure id
      (within.function _ _ _ _ _ allowed)
  registerStruct access name parameters module allowed :=
    kept.registerStruct access name parameters module (within.struct _ _ _ allowed)
  failFunction access name module takesClosure id allowed :=
    kept.failFunction access name module takesClosure id (within.function _ _ _ _ _ allowed)
  capture := kept.capture
  mark := kept.mark
  carriers := kept.carriers
  enter context scope parameters captured allowed :=
    kept.enter context scope parameters captured (within.scope _ allowed)
  expand id attached scope parameters body allowed :=
    kept.expand id attached scope parameters body (within.scope _ allowed)

/-! ### Variables -/

/-- All variables are as they were, apart from those that have come to be captured. -/
def KeepsVariables (s t : AnalysisState) : Prop :=
  ∀ id name v, s.tree.ownVariable? id name = some v →
    ∃ isCaptured, t.tree.ownVariable? id name = some { v with isCaptured } ∧
      (v.isCaptured = true → isCaptured = true)

section Variables

theorem keepsVariables_of_scopes {s t : AnalysisState} (same : t.tree.scopes = s.tree.scopes) :
    KeepsVariables s t := by
  intro id name v found
  refine ⟨v.isCaptured, ?_, fun captured => captured⟩
  unfold ScopeTree.ownVariable?
  rw [same]
  exact found

theorem KeepsVariables.trans (r s t : AnalysisState) (first : KeepsVariables r s)
    (rest : KeepsVariables s t) : KeepsVariables r t := by
  intro id name v found
  obtain ⟨isCaptured, found', still⟩ := first id name v found
  obtain ⟨isCaptured', found'', still'⟩ := rest id name _ found'
  exact ⟨isCaptured', found'', still' ∘ still⟩

theorem keepsVariables_changeScope (id : ScopeId) {change : Scope → Scope}
    (kept : ∀ scope name v, scope.locals.get? name = some v →
      ∃ isCaptured, (change scope).locals.get? name = some { v with isCaptured } ∧
        (v.isCaptured = true → isCaptured = true)) :
    Keeps KeepsVariables (Walk.edit (ScopeTree.Edit.changeScope id change)) := by
  intro s
  rw [runFrom_edit_state, ScopeTree.Edit.state_changeScope]
  intro other name v found
  dsimp only
  rw [ScopeTree.ownVariable?_modify]
  split
  next same =>
    subst same
    obtain ⟨scope, there, found⟩ := Option.bind_eq_some_iff.mp found
    rw [there, Option.bind_some]
    exact kept scope name v found
  next => exact ⟨v.isCaptured, found, fun captured => captured⟩

theorem keepsVariables_edit {α : Type} {change : ScopeTree.Edit α} (leaves : change.LeavesScopes) :
    Keeps KeepsVariables (Walk.edit change) := by
  intro s
  rw [runFrom_edit_state]
  exact keepsVariables_of_scopes (leaves s.tree)

theorem keepsVariables_preserved (may : Permit) : Preserved KeepsVariables may := by
  have refl (s : AnalysisState) : KeepsVariables s s := keepsVariables_of_scopes rfl
  have settled : Settled KeepsVariables may :=
    { refl
      trans := KeepsVariables.trans
      note := fun s _ _ => keepsVariables_of_scopes rfl
      support := fun s _ _ _ _ _ _ => keepsVariables_of_scopes rfl
      capture := fun s _ _ => keepsVariables_of_scopes rfl
      declare := fun scope name _ => by
        -- A name that has been declared already keeps its entry.
        apply keepsVariables_changeScope
        intro scope key v found
        refine ⟨v.isCaptured, ?_, fun captured => captured⟩
        rw [Table.get?_insertNew, if_neg]
        · exact found
        · rintro ⟨rfl, missing⟩
          rw [missing] at found
          cases found
      mark := fun scope name => by
        -- Marking sets the flag of one variable, and clears none.
        apply keepsVariables_changeScope
        intro scope key v found
        rw [Table.get?_adjust, found]
        by_cases same : key = name
        · exact ⟨true, by simp [same], fun _ => rfl⟩
        · exact ⟨v.isCaptured, by simp [same], fun captured => captured⟩
      registerFunction := fun access name parameters module takesClosure id _ => by
        refine keeps_bind KeepsVariables.trans (keeps_get refl) fun state => ?_
        exact keepsVariables_edit (ScopeTree.Edit.leavesScopes_registerFunction _ _)
      registerStruct := fun _ _ _ _ _ =>
        keepsVariables_edit (ScopeTree.Edit.leavesScopes_registerStruct _)
      failFunction := fun _ _ _ _ _ _ =>
        keepsVariables_edit (ScopeTree.Edit.leavesScopes_changeFunction _ _) }
  exact settled.preserved (fun _ _ _ => keepsVariables_of_scopes rfl)
    (fun _ _ => keepsVariables_of_scopes rfl) fun _ _ _ => keepsVariables_of_scopes rfl

end Variables

/-! ### Modules -/

/-- What there is of a module without its imports, its progress and its declarations: its name and
access, its place among the modules and its root scope. -/
def ScriptModule.frame (m : ScriptModule) : ScriptModule := m.core.bare

/-- The modules are the same, apart from their imports, progress and declarations. -/
def KeepsModules (s t : AnalysisState) : Prop :=
  t.tree.modules.map ScriptModule.frame = s.tree.modules.map ScriptModule.frame

section Modules

theorem keepsModules_of_same {s t : AnalysisState} (same : t.tree.modules = s.tree.modules) :
    KeepsModules s t := by
  rw [KeepsModules, same]

theorem KeepsModules.trans (r s t : AnalysisState) (first : KeepsModules r s)
    (rest : KeepsModules s t) : KeepsModules r t :=
  Eq.trans rest first

theorem map_modify_of_same {α β : Type} {part : α → β} {change : α → α}
    (same : ∀ a, part (change a) = part a) (entries : Array α) (index : Nat) :
    (entries.modify index change).map part = entries.map part := by
  apply Array.ext_getElem?
  intro other
  rw [Array.getElem?_map, Array.getElem?_map]
  exact map_getElem?_modify (fun a _ => same a) other

theorem keepsModules_changeModule (id : ModuleId) {change : ScriptModule → ScriptModule}
    (same : ∀ m, (change m).frame = m.frame) :
    Keeps KeepsModules (Walk.edit (ScopeTree.Edit.changeModule id change)) := by
  intro s
  rw [runFrom_edit_state, ScopeTree.Edit.state_changeModule]
  exact map_modify_of_same same _ _

theorem keepsModules_preserved (may : Permit) : Preserved KeepsModules may := by
  have replaced (id : FunctionId) (change : ScriptFunction → ScriptFunction) :
      Keeps KeepsModules (Walk.edit (ScopeTree.Edit.changeFunction id change)) := by
    intro s
    rw [runFrom_edit_state, ScopeTree.Edit.state_changeFunction]
    exact keepsModules_of_same rfl
  apply preserved_of_sameSymbols KeepsModules.trans
  · exact fun s t same => keepsModules_of_same same.modules
  · intro access name parameters module takesClosure id _
    refine keeps_bind KeepsModules.trans (keeps_get fun _ => rfl) fun state => ?_
    exact keeps_registerFunction KeepsModules.trans (replaced _ _)
      (keepsModules_changeModule _ fun _ => rfl)
  · intro access name parameters module _ s
    rw [runFrom_edit_state]
    rcases ScopeTree.registerStruct_cases _ s.tree with same | ⟨id, -, same⟩ | ⟨-, -, -, same⟩
    · rw [same]
      exact keepsModules_of_same rfl
    · rw [same]
      exact keepsModules_of_same rfl
    · rw [same]
      -- A new struct is entered under its name, which is no part of the frame.
      unfold KeepsModules ScopeTree.withStruct
      dsimp only
      apply map_modify_of_same
      exact fun _ => rfl
  · exact fun access name module takesClosure id _ => replaced _ _

end Modules

/-! ### Functions -/

def KeepsFunctionCount (s t : AnalysisState) : Prop :=
  t.tree.functions.size = s.tree.functions.size

/-- A function that has been met stays as it is. -/
def KeepsMetFunction (id : FunctionId) (s t : AnalysisState) : Prop :=
  ∀ f, s.tree.function id = .ok f → f.status ≠ .pending → t.tree.function id = .ok f

section Functions

variable {id : FunctionId}

theorem keepsFunctionCount_preserved (may : Permit) : Preserved KeepsFunctionCount may := by
  have trans (r s t : AnalysisState) (first : KeepsFunctionCount r s) (rest : KeepsFunctionCount s t) :
      KeepsFunctionCount r t := Eq.trans rest first
  have same {s t : AnalysisState} (functions : t.tree.functions = s.tree.functions) :
      KeepsFunctionCount s t := congrArg Array.size functions
  have replaced (id : FunctionId) (change : ScriptFunction → ScriptFunction) :
      Keeps KeepsFunctionCount (Walk.edit (ScopeTree.Edit.changeFunction id change)) := by
    intro s
    rw [runFrom_edit_state, ScopeTree.Edit.state_changeFunction]
    exact Array.size_modify
  apply preserved_of_sameSymbols trans
  · exact fun s t symbols => same symbols.functions
  · intro access name parameters module takesClosure id _
    refine keeps_bind trans (keeps_get fun _ => rfl) fun state => ?_
    apply keeps_registerFunction trans (replaced _ _)
    intro s
    rw [runFrom_edit_state, ScopeTree.Edit.state_changeModule]
    exact same rfl
  · intro access name parameters module _ s
    rw [runFrom_edit_state]
    -- However a struct is entered, it is none of the functions.
    rcases ScopeTree.registerStruct_cases _ s.tree with
      ended | ⟨id, -, ended⟩ | ⟨-, -, -, ended⟩ <;> rw [ended] <;> exact same rfl
  · exact fun access name module takesClosure id _ => replaced _ _

theorem KeepsMetFunction.trans (r s t : AnalysisState) (first : KeepsMetFunction id r s)
    (rest : KeepsMetFunction id s t) : KeepsMetFunction id r t :=
  fun f found met => rest f (first f found met) met

theorem KeepsRecord.keepsMetFunction {s t : AnalysisState} (kept : KeepsRecord id s t) :
    KeepsMetFunction id s t :=
  fun _ found _ => Eq.trans kept found

theorem keepsMetFunction_preserved (id : FunctionId) :
    Preserved (KeepsMetFunction id) (Permit.onFunctions (· ≠ id)) :=
  (keepsRecord_preserved id).weaken (fun _ _ => KeepsRecord.keepsMetFunction) KeepsMetFunction.trans

/-- A walk leaves a function that has been met as it is, also if it comes to its declaration. -/
theorem keepsMetFunction_expr {e : Expr} {context : Context} {slot : Slot} :
    Keeps (KeepsMetFunction id) (Walk.expr context slot e) := by
  have kept := keepsMetFunction_preserved id
  induction e using Expr.induction generalizing context slot with
  | inherited e ih =>
    apply keeps_expr_of_node kept.refl kept.trans
    by_cases own : e.declaredFunction? = some id
    · obtain ⟨access, name, parameters, body, module, takesClosure, kind⟩ : ∃ access name parameters
          body module takesClosure,
            e.kind = .functionDecl access name parameters body module takesClosure id := by
        unfold Expr.declaredFunction? at own
        split at own
        next kind =>
          cases own
          exact ⟨_, _, _, _, _, _, kind⟩
        next => cases own
      -- The function is asked for first, and nothing is done if it is not pending.
      intro s f found met
      have asked : Gives (Walk.ask (·.function id)) s f s := gives_ask.mpr ⟨found, rfl⟩
      have ended : (runFrom (Walk.node context slot e.span e.kind) s).2 = s := by
        rw [kind, Walk.node, runFrom_bind, show runFrom _ s = _ from asked]
        simp [met]
      rw [ended]
      exact found
    · have here : e.PermittedHere (Permit.onFunctions (· ≠ id)) := by
        refine ⟨?_, fun _ _ _ _ => trivial⟩
        cases kind : e.kind
        case functionDecl =>
          rintro rfl
          exact own (by simp [Expr.declaredFunction?, kind])
        all_goals trivial
      rw [Plan.node_eq_run]
      have within := (Plan.within_node kept here (.inl trivial)).follow
        (Plan.follows_node context slot e.span e.kind)
      exact within.keeps_run kept.refl kept.trans fun _ _ c wanted => ih c wanted.2

theorem keepsMetFunction_exprs (context : Context) (es : List Expr) :
    Keeps (KeepsMetFunction id) (Walk.exprs context es) := by
  have kept := keepsMetFunction_preserved id
  rw [← Plan.run_each]
  have within : (Plan.each context Expr.slot es).Within (KeepsMetFunction id) fun _ _ _ => True :=
    Plan.within_each (fun _ _ => trivial) _ es
  exact within.keeps_run kept.refl kept.trans fun _ _ _ _ => keepsMetFunction_expr

/-- If a function that has been met stays as it is, then the status of one that changes was pending
before, and is not so any more. -/
theorem ScopeTree.statusOf?_of_met {tree later : ScopeTree}
    (count : later.functions.size = tree.functions.size)
    (met : ∀ f, tree.function id = .ok f → f.status ≠ .pending → later.function id = .ok f) :
    later.statusOf? id = tree.statusOf? id ∨ tree.statusOf? id = some .pending ∧
      (later.statusOf? id = some .analysed ∨ later.statusOf? id = some .failed) := by
  unfold statusOf?
  cases here : tree.functions[id.index]? with
  | none =>
    left
    rw [Array.getElem?_eq_none_iff] at here
    rw [Array.getElem?_eq_none_iff.mpr (by omega)]
  | some f =>
    have inside := (Array.getElem?_eq_some_iff.mp here).1
    rw [← count] at inside
    rw [Array.getElem?_eq_getElem inside, Option.map_some, Option.map_some]
    -- Only a pending function can change at all, so its status has been left if it differs.
    by_cases pending : f.status = .pending
    · rw [pending]
      cases later.functions[id.index].status <;> simp
    · have kept := function_eq_ok.mp (met f (function_eq_ok.mpr here) pending)
      rw [Array.getElem?_eq_getElem inside, Option.some.injEq] at kept
      exact .inl (by rw [kept])

end Functions

/-! ### Structs -/

/-- Structs are added or replaced by those that may be declared. -/
def KeepsStructs (may : Permit) (s t : AnalysisState) : Prop :=
  s.tree.structs.size ≤ t.tree.structs.size ∧
    ∀ (index : Nat) struct, t.tree.structs[index]? = some struct →
      s.tree.structs[index]? = some struct ∨
        ∃ name : Token, may.struct struct.access name struct.module ∧ struct.name = name.text

/-- Each module knows structs by the names that they have, and only its own. -/
def ScopeTree.StructsInOrder (tree : ScopeTree) : Prop :=
  ∀ module name id, tree.structNamed? module name = some id →
    ∃ struct, tree.structs[id.index]? = some struct ∧ struct.name = name ∧ struct.module = module

/-- If the structs are in order, they stay so, and none gets another name or another module. -/
def KeepsOrder (s t : AnalysisState) : Prop :=
  s.tree.StructsInOrder → t.tree.StructsInOrder ∧
    ∀ (index : Nat) struct, s.tree.structs[index]? = some struct →
      ∃ struct', t.tree.structs[index]? = some struct' ∧ struct'.name = struct.name ∧
        struct'.module = struct.module

/-- A struct is replaced only where its module has known a struct by that name from the start. -/
structure ReplacesNamed (s t : AnalysisState) : Prop where
  count : s.tree.structs.size ≤ t.tree.structs.size
  named : ∀ module name id, t.tree.structNamed? module name = some id →
    id.index < s.tree.structs.size → s.tree.structNamed? module name = some id
  replaced : ∀ (index : Nat) old, s.tree.structs[index]? = some old →
    t.tree.structs[index]? = some old ∨ ∃ struct id, t.tree.structs[index]? = some struct ∧
      s.tree.structNamed? struct.module struct.name = some id ∧ id.index = index

section Structs

variable {may : Permit}

theorem keepsStructs_of_structs (s t : AnalysisState)
    (_ : t.tree.structNamed? = s.tree.structNamed?) (same : t.tree.structs = s.tree.structs) :
    KeepsStructs may s t := by
  rw [KeepsStructs, same]
  exact ⟨Nat.le_refl _, fun _ _ found => .inl found⟩

theorem KeepsStructs.trans (r s t : AnalysisState) (first : KeepsStructs may r s)
    (rest : KeepsStructs may s t) : KeepsStructs may r t := by
  refine ⟨Nat.le_trans first.1 rest.1, fun index struct found => ?_⟩
  rcases rest.2 index struct found with before | declared
  · exact first.2 index struct before
  · exact .inr declared

theorem keepsStructs_preserved (may : Permit) : Preserved (KeepsStructs may) may := by
  apply preserved_of_structs keepsStructs_of_structs KeepsStructs.trans
  · rintro s t struct id declared - same
    -- The struct that has the name is replaced where it stands.
    rw [KeepsStructs, same]
    refine ⟨Nat.le_of_eq Array.size_modify.symm, fun index other found => ?_⟩
    dsimp only at found
    rw [Array.getElem?_modify] at found
    split at found
    · obtain ⟨_, -, rfl⟩ := Option.map_eq_some_iff.mp found
      exact .inr declared
    · exact .inl found
  · rintro s t struct declared - - - same
    -- A new struct comes last, and the others keep their places.
    rw [KeepsStructs, same, ScopeTree.withStruct]
    refine ⟨by simp, fun index other found => ?_⟩
    dsimp only at found
    rw [Array.getElem?_push] at found
    split at found
    · cases found
      exact .inr declared
    · exact .inl found

theorem keepsOrder_of_structs (s t : AnalysisState)
    (named : t.tree.structNamed? = s.tree.structNamed?) (same : t.tree.structs = s.tree.structs) :
    KeepsOrder s t := by
  intro order
  unfold ScopeTree.StructsInOrder at order ⊢
  rw [named, same]
  exact ⟨order, fun index struct found => ⟨struct, found, rfl, rfl⟩⟩

theorem KeepsOrder.trans (r s t : AnalysisState) (first : KeepsOrder r s) (rest : KeepsOrder s t) :
    KeepsOrder r t := by
  intro order
  obtain ⟨order', first⟩ := first order
  obtain ⟨order'', rest⟩ := rest order'
  refine ⟨order'', fun index struct found => ?_⟩
  obtain ⟨struct', found', name, module⟩ := first index struct found
  obtain ⟨struct'', found'', name', module'⟩ := rest index struct' found'
  exact ⟨struct'', found'', name'.trans name, module'.trans module⟩

/-- A struct is replaced by one of the same name in the same module. -/
theorem ScopeTree.StructsInOrder.replace {tree : ScopeTree} (order : tree.StructsInOrder)
    {struct : ScriptStruct} {id : StructId}
    (named : tree.structNamed? struct.module struct.name = some id) :
    ScopeTree.StructsInOrder { tree with structs := tree.structs.modify id.index fun _ => struct } ∧
      ∀ (index : Nat) old, tree.structs[index]? = some old →
        ∃ new, (tree.structs.modify id.index fun _ => struct)[index]? = some new ∧
          new.name = old.name ∧ new.module = old.module := by
  obtain ⟨old, found, name, module⟩ := order _ _ _ named
  have replaced (index : Nat) (other : ScriptStruct) (there : tree.structs[index]? = some other) :
      ∃ new, (tree.structs.modify id.index fun _ => struct)[index]? = some new ∧
        new.name = other.name ∧ new.module = other.module := by
    rw [Array.getElem?_modify]
    split
    next same =>
      -- The one that is replaced had the name and the module of the new one.
      subst same
      obtain rfl := Option.some.inj (found.symm.trans there)
      exact ⟨struct, by rw [found, Option.map_some], name.symm, module.symm⟩
    next => exact ⟨other, there, rfl, rfl⟩
  refine ⟨fun module' name' other named' => ?_, replaced⟩
  obtain ⟨before, there, same, same'⟩ := order module' name' other named'
  obtain ⟨new, found', name, module⟩ := replaced _ _ there
  exact ⟨new, found', name.trans same, module.trans same'⟩

/-- A struct that is new to its module is entered there under its name. -/
theorem ScopeTree.StructsInOrder.add {tree : ScopeTree} (order : tree.StructsInOrder)
    {struct : ScriptStruct} (room : tree.structs.size < 2 ^ 32)
    (known : (tree.modules[struct.module.index]?).isSome = true) :
    (tree.withStruct struct).StructsInOrder := by
  intro module name id named
  rw [ScopeTree.structNamed?_withStruct known] at named
  unfold ScopeTree.withStruct
  dsimp only
  rw [Array.getElem?_push]
  split at named
  next same =>
    obtain ⟨rfl, rfl⟩ := same
    cases named
    have index : (⟨UInt32.ofNat tree.structs.size⟩ : StructId).index = tree.structs.size :=
      UInt32.toNat_ofNat_of_lt' room
    exact ⟨struct, by rw [if_pos index], rfl, rfl⟩
  next =>
    obtain ⟨old, found, same⟩ := order module name id named
    have inside := (Array.getElem?_eq_some_iff.mp found).1
    exact ⟨old, by rw [if_neg (Nat.ne_of_lt inside)]; exact found, same⟩

theorem keepsOrder_preserved (may : Permit) : Preserved KeepsOrder may := by
  apply preserved_of_structs keepsOrder_of_structs KeepsOrder.trans
  · rintro s t struct id - known same order
    rw [same]
    exact order.replace known
  · rintro s t struct - - room known same order
    rw [same]
    refine ⟨order.add room known, fun index old found => ⟨old, ?_, rfl, rfl⟩⟩
    exact getElem?_push_of_some found _

theorem replacesNamed_of_structs (s t : AnalysisState)
    (named : t.tree.structNamed? = s.tree.structNamed?) (same : t.tree.structs = s.tree.structs) :
    ReplacesNamed s t where
  count := by rw [same]
  named module name id known _ := by rwa [named] at known
  replaced index old found := .inl (by rwa [same])

theorem ReplacesNamed.trans (r s t : AnalysisState) (first : ReplacesNamed r s)
    (rest : ReplacesNamed s t) : ReplacesNamed r t where
  count := Nat.le_trans first.count rest.count
  named module name id known old := by
    have known' := rest.named module name id known (Nat.lt_of_lt_of_le old first.count)
    exact first.named module name id known' old
  replaced index old found := by
    have inside := (Array.getElem?_eq_some_iff.mp found).1
    rcases first.replaced index old found with still | ⟨struct, id, found', known, rfl⟩
    · rcases rest.replaced index old still with still | ⟨struct, id, found', known, rfl⟩
      · exact .inl still
      · exact .inr ⟨struct, id, found', first.named _ _ id known inside, rfl⟩
    · rcases rest.replaced _ struct found' with still | ⟨struct', id', found'', known', same⟩
      · exact .inr ⟨struct, id, still, known, rfl⟩
      · exact .inr ⟨struct', id', found'', first.named _ _ id' known' (same ▸ inside), same⟩

theorem replacesNamed_preserved (may : Permit) : Preserved ReplacesNamed may := by
  apply preserved_of_structs replacesNamed_of_structs ReplacesNamed.trans
  · rintro s t struct id - known same
    exact
      { count := by rw [same, Array.size_modify]
        named := fun module name id known _ => by rwa [same] at known
        replaced := fun index old found => by
          rw [same, Array.getElem?_modify]
          split
          next here =>
            subst here
            exact .inr ⟨struct, id, by rw [found, Option.map_some], known, rfl⟩
          next => exact .inl found }
  · rintro s t struct - - room known same
    exact
      { count := by rw [same, ScopeTree.withStruct, Array.size_push]; exact Nat.le_succ _
        named := fun module name id entered old => by
          rw [same, ScopeTree.structNamed?_withStruct known] at entered
          split at entered
          next =>
            -- The new struct stands behind all that were there.
            cases entered
            exact absurd old (Nat.not_lt.mpr (Nat.le_of_eq (UInt32.toNat_ofNat_of_lt' room).symm))
          next => exact entered
        replaced := fun index old found => by
          rw [same]
          exact .inl (getElem?_push_of_some found _) }

end Structs

/-! ### The whole analysis -/

/-- A node of the tree declares a struct of this name. -/
def Ast.DeclaresStruct (ast : Ast) (access : Access) (name : Token) (module : ModuleId) : Prop :=
  ∃ n ∈ ast.nodes, ∃ parameters, n.kind = .structDecl access name parameters module

/-- The scope is the root scope of the module, or that of a block. -/
def Ast.DeclaresIn (ast : Ast) (tree : ScopeTree) (module : ModuleId) (scope : ScopeId) : Prop :=
  (∃ m, tree.module module = .ok m ∧ m.scope = scope) ∨ ∃ n ∈ ast.nodes, n.blockScope? = some scope

/-- What an analysis of a module may change in the tree of scopes. -/
structure ScopeTree.Reached (module : ModuleId) (ast : Ast) (tree later : ScopeTree) : Prop where
  /-- No scope is added, and all scopes keep their places. -/
  scopeCount : later.scopes.size = tree.scopes.size
  parents : later.parentScope? = tree.parentScope?
  belongs : later.moduleOf? = tree.moduleOf?
  /-- Variables stay, and if anything changes about them, they come to be captured. -/
  stay : ∀ id name v, tree.ownVariable? id name = some v →
    ∃ isCaptured, later.ownVariable? id name = some { v with isCaptured } ∧
      (v.isCaptured = true → isCaptured = true)
  declared : ∀ id name, later.Declares id name → tree.Declares id name ∨ ast.DeclaresIn tree module id
  /-- The modules are the same, and of the others only functions and structs are registered. -/
  modules : later.modules.map ScriptModule.frame = tree.modules.map ScriptModule.frame
  others : ∀ id, id ≠ module → (later.modules[id.index]?).map ScriptModule.bare =
    (tree.modules[id.index]?).map ScriptModule.bare
  /-- Only functions change that are declared, and of these only such as had been pending. -/
  functionCount : later.functions.size = tree.functions.size
  undeclared : ∀ id, id ∉ ast.functionIds → later.function id = tree.function id
  met : ∀ id f, tree.function id = .ok f → f.status ≠ .pending → later.function id = .ok f
  statuses : ∀ id, later.statusOf? id = tree.statusOf? id ∨ tree.statusOf? id = some .pending ∧
    (later.statusOf? id = some .analysed ∨ later.statusOf? id = some .failed)
  /-- Structs are added or replaced by those that are declared. What is replaced is what the module of a
  declared struct knew by its name before. -/
  structCount : tree.structs.size ≤ later.structs.size
  structs : ∀ (index : Nat) struct, later.structs[index]? = some struct →
    tree.structs[index]? = some struct ∨
      ∃ name, ast.DeclaresStruct struct.access name struct.module ∧ struct.name = name.text
  replaced : ∀ (index : Nat) old, tree.structs[index]? = some old →
    later.structs[index]? = some old ∨ ∃ struct name id, later.structs[index]? = some struct ∧
      ast.DeclaresStruct struct.access name struct.module ∧ struct.name = name.text ∧
      tree.structNamed? struct.module struct.name = some id ∧ id.index = index
  /-- If modules know structs by their names, a struct is replaced by one of its own name only. -/
  structsInOrder : tree.StructsInOrder → later.StructsInOrder ∧
    ∀ (index : Nat) struct, tree.structs[index]? = some struct →
      ∃ struct', later.structs[index]? = some struct' ∧ struct'.name = struct.name ∧
        struct'.module = struct.module

/-- What a tree declares. -/
def Ast.declaring (ast : Ast) (tree : ScopeTree) (module : ModuleId) : Permit where
  scope := ast.DeclaresIn tree module
  function _ _ _ _ id := id ∈ ast.functionIds
  struct := ast.DeclaresStruct

theorem Ast.permitted_declaring (ast : Ast) (tree : ScopeTree) (module : ModuleId) :
    ∀ e ∈ ast.expressions, e.Permitted (ast.declaring tree module) := by
  intro e member n inside
  have inside : n ∈ ast.nodes := Ast.mem_nodes.mpr ⟨e, member, inside⟩
  cases kind : n.kind
  case block => exact .inr ⟨n, inside, by simp [Expr.blockScope?, kind]⟩
  case functionDecl => exact List.mem_filterMap.mpr ⟨n, inside, by simp [Expr.declaredFunction?, kind]⟩
  case structDecl access name parameters home => exact ⟨n, inside, parameters, kind⟩
  all_goals trivial

namespace Analysis

variable (registry : Registry) (mode : AnalysisMode) (module : ModuleId) (ast : Ast)

/-- A relation that an analysis keeps holds between the tree that it starts from and the tree that it
leaves, however it ends. -/
theorem related_analyze {R : AnalysisState → AnalysisState → Prop} (tree : ScopeTree)
    (refl : ∀ s, R s s) (trans : ∀ r s t, R r s → R s t → R r t)
    (changes : ∀ change : ScriptModule → ScriptModule, (∀ m, (change m).core = m.core) →
      Keeps R (Walk.edit (ScopeTree.Edit.changeModule module change)))
    (walked : ∀ m, tree.module module = .ok m →
      Keeps R (Walk.exprs ⟨registry, m.scope, none⟩ ast.expressions)) :
    ∃ t : AnalysisState, (analyze registry mode tree module ast).tree = t.tree ∧ R { tree } t := by
  have whole : R { tree } (runFrom (moduleWalk registry mode module ast) { tree }).2 := by
    refine related_of_moduleWalk refl trans (fun _ => changes _ fun _ => rfl)
      (fun _ _ => changes _ fun _ => rfl) (keeps_resolveImports refl trans changes) ?_
    rintro _ start ⟨m, found, rfl, -⟩
    exact walked m found start
  -- A request that is answered from the store, or for a module that is not there, changes nothing.
  unfold analyze
  split
  · exact ⟨{ tree }, rfl, refl _⟩
  · exact ⟨{ tree }, rfl, refl _⟩
  · exact ⟨_, rfl, whole⟩

variable {ast} in
/-- Any relation is kept that all steps keep which the declarations of the tree permit. -/
theorem related_declaring {R : AnalysisState → AnalysisState → Prop} {tree : ScopeTree}
    (kept : Preserved R (ast.declaring tree module))
    (changes : ∀ change : ScriptModule → ScriptModule, (∀ m, (change m).core = m.core) →
      Keeps R (Walk.edit (ScopeTree.Edit.changeModule module change))) :
    ∃ t : AnalysisState, (analyze registry mode tree module ast).tree = t.tree ∧ R { tree } t := by
  refine related_analyze registry mode module ast tree kept.refl kept.trans changes fun m found => ?_
  have home : (ast.declaring tree module).scope (Context.scope ⟨registry, m.scope, none⟩) :=
    .inl ⟨m, found, rfl⟩
  exact kept.keeps_exprs home _ (ast.permitted_declaring tree module)

theorem function_of_undeclared (tree : ScopeTree) {id : FunctionId} (other : id ∉ ast.functionIds) :
    (analyze registry mode tree module ast).tree.function id = tree.function id := by
  have apart : (ast.declaring tree module).Within (Permit.onFunctions (· ≠ id)) :=
    ⟨fun _ _ => trivial, fun _ _ _ _ _ member same => other (same ▸ member), fun _ _ _ _ => trivial⟩
  obtain ⟨_, same, kept⟩ := related_declaring registry mode module
    ((keepsRecord_preserved id).restrict apart) fun change _ => keepsRecord_changeModule module change
  rw [same]
  exact kept

/-- A function that has a status already is kept, wherever the tree declares it. -/
theorem function_of_met (tree : ScopeTree) {id : FunctionId} {f : ScriptFunction}
    (found : tree.function id = .ok f) (before : f.status ≠ .pending) :
    (analyze registry mode tree module ast).tree.function id = .ok f := by
  obtain ⟨_, same, kept⟩ := related_analyze registry mode module ast tree
    (keepsMetFunction_preserved id).refl KeepsMetFunction.trans
    (fun change _ s => (keepsRecord_changeModule module change s).keepsMetFunction)
    fun _ _ => keepsMetFunction_exprs _ _
  rw [same]
  exact kept f found before

/-- Structs are added, and each one that was not there before is declared. -/
theorem structs_analyze (tree : ScopeTree) :
    tree.structs.size ≤ (analyze registry mode tree module ast).tree.structs.size ∧
      ∀ (index : Nat) struct, (analyze registry mode tree module ast).tree.structs[index]? = some struct →
        tree.structs[index]? = some struct ∨
          ∃ name, ast.DeclaresStruct struct.access name struct.module ∧ struct.name = name.text := by
  obtain ⟨_, same, kept⟩ := related_declaring registry mode module
    (keepsStructs_preserved (ast.declaring tree module)) fun _ core =>
      keeps_changeModule_of_core keepsStructs_of_structs module core
  rw [same]
  exact kept

/-- A struct is replaced by one that is declared, where the module of that one knows it by that name. -/
theorem replaced_analyze (tree : ScopeTree) {index : Nat} {old : ScriptStruct}
    (found : tree.structs[index]? = some old) :
    (analyze registry mode tree module ast).tree.structs[index]? = some old ∨
      ∃ struct name id, (analyze registry mode tree module ast).tree.structs[index]? = some struct ∧
        ast.DeclaresStruct struct.access name struct.module ∧ struct.name = name.text ∧
        tree.structNamed? struct.module struct.name = some id ∧ id.index = index := by
  obtain ⟨_, same, named⟩ := related_declaring registry mode module
    (replacesNamed_preserved (ast.declaring tree module)) fun _ core =>
      keeps_changeModule_of_core replacesNamed_of_structs module core
  rcases named.replaced index old found with still | ⟨struct, id, found', known, place⟩
  · exact .inl (same ▸ still)
  · rw [← same] at found'
    -- If what stands there is none of what is declared, it is what has stood there before.
    rcases (structs_analyze registry mode module ast tree).2 index struct found' with
      before | ⟨name, declared, text⟩
    · obtain rfl : old = struct := Option.some.inj (found.symm.trans before)
      exact .inl found'
    · exact .inr ⟨struct, name, id, found', declared, text, known, place⟩

/-- Whatever the tree of scopes, however an analysis ends, and whatever the tree under analysis
declares, this is all that it changes. -/
theorem reached_analyze (tree : ScopeTree) :
    tree.Reached module ast (analyze registry mode tree module ast).tree := by
  have leaves := ScopeTree.Edit.leavesScopes_changeModule module
  -- Scopes and their variables.
  have onScopes : (ast.declaring tree module).Within (Permit.onScopes (ast.DeclaresIn tree module)) :=
    ⟨fun _ => id, fun _ _ _ _ _ _ => trivial, fun _ _ _ _ => trivial⟩
  obtain ⟨_, same₁, grows⟩ := related_declaring registry mode module
    ((grows_preserved _).restrict onScopes) fun change _ => grows_edit_of_leavesScopes (leaves change)
  obtain ⟨_, same₂, places⟩ := related_declaring registry mode module
    (keepsPlaces_preserved (ast.declaring tree module)) fun change _ => keepsPlaces_edit (leaves change)
  obtain ⟨_, same₃, stay⟩ := related_declaring registry mode module
    (keepsVariables_preserved (ast.declaring tree module)) fun change _ =>
      keepsVariables_edit (leaves change)
  -- Modules.
  obtain ⟨_, same₄, modules⟩ := related_declaring registry mode module
    (keepsModules_preserved (ast.declaring tree module)) fun change core =>
      keepsModules_changeModule module fun m => congrArg ScriptModule.bare (core m)
  have own (change : ScriptModule → ScriptModule) :
      Keeps (KeepsBare (· ≠ module)) (Walk.edit (ScopeTree.Edit.changeModule module change)) :=
    keepsBare_changeModule (.inl (not_not.mpr rfl))
  obtain ⟨_, same₅, others⟩ := related_declaring registry mode module
    (keepsBare_preserved (ast.declaring tree module)) fun change _ => own change
  -- Functions and structs.
  obtain ⟨_, same₆, functions⟩ := related_declaring registry mode module
    (keepsFunctionCount_preserved (ast.declaring tree module)) fun change _ s => by
      rw [runFrom_edit_state, ScopeTree.Edit.state_changeModule]
      rfl
  obtain ⟨_, same₇, order⟩ := related_declaring registry mode module
    (keepsOrder_preserved (ast.declaring tree module)) fun _ core =>
      keeps_changeModule_of_core keepsOrder_of_structs module core
  obtain ⟨structCount, structs⟩ := structs_analyze registry mode module ast tree
  exact
    { scopeCount := by rw [same₂]; exact places.count
      parents := by rw [same₁]; exact grows.tree.parents
      belongs := by rw [same₂]; exact places.belongs
      stay := by rw [same₃]; exact stay
      declared := fun id name declares => by
        by_cases home : ast.DeclaresIn tree module id
        · exact .inr home
        · exact .inl (grows.tree.still id name home (same₁ ▸ declares))
      modules := by rw [same₄]; exact modules
      others := by rw [same₅]; exact others
      functionCount := by rw [same₆]; exact functions
      undeclared := fun _ => function_of_undeclared registry mode module ast tree
      met := fun _ _ => function_of_met registry mode module ast tree
      statuses := fun id => ScopeTree.statusOf?_of_met (by rw [same₆]; exact functions)
        fun _ => function_of_met registry mode module ast tree
      structCount
      structs
      replaced := fun _ _ => replaced_analyze registry mode module ast tree
      structsInOrder := by rw [same₇]; exact order }

/-- The root module knows a struct of some name as `S`. -/
def knowsAsS (name : String) : ScopeTree where
  scopes := #[{ parent := none, module := ⟨0⟩ }]
  modules := #[{ name := "main", scope := ⟨0⟩, structs := .ofList [("S", ⟨0⟩)] }]
  structs := #[{ name, module := ⟨0⟩ }]

def exportedS : Expr := Build.struct { name := "S", access := .exported, module := ⟨0⟩ }

/-- A struct is replaced by its declaration. -/
theorem reached_analyze_declared :
    (knowsAsS "S").StructsInOrder ∧
      ∃ struct, (analyze .empty .overwrite (knowsAsS "S") ⟨0⟩ ⟨[exportedS]⟩).tree.structs[0]? =
        some struct ∧ struct.access = .exported ∧ struct.name = "S" ∧ struct.module = ⟨0⟩ := by
  have order : (knowsAsS "S").StructsInOrder := by
    intro module name id named
    obtain ⟨m, found, entered⟩ := Option.bind_eq_some_iff.mp named
    -- There is one module, and its table has one entry.
    rcases place : module.index with _ | index
    · rw [place] at found
      cases found
      have single : (Table.ofList [("S", (⟨0⟩ : StructId))]).get? name = some id := entered
      rw [Table.ofList, List.foldl_cons, List.foldl_nil, Table.get?_insert] at single
      split at single
      next same =>
        cases single
        exact ⟨_, rfl, same.symm, ModuleId.index_injective place.symm⟩
      next => cases single
    · rw [place] at found
      cases found
  have reached := reached_analyze .empty .overwrite ⟨0⟩ ⟨[exportedS]⟩ (knowsAsS "S")
  obtain ⟨struct, found, same⟩ := (reached.structsInOrder order).2 0 _ rfl
  have access : ((analyze .empty .overwrite (knowsAsS "S") ⟨0⟩ ⟨[exportedS]⟩).tree.structs[0]?).map
      ScriptStruct.access = some .exported := by decide +kernel
  rw [found] at access
  exact ⟨order, struct, found, Option.some.inj access, same⟩

/-- A struct is replaced by a declaration of another name, if its module knows it by that name. All
checks are passed, and no struct of the old name is declared. -/
theorem replaced_by_other_name :
    AnalysisUnit.problem? ⟨knowsAsS "T", [⟨⟨0⟩, ⟨[exportedS]⟩⟩]⟩ = none ∧
      (Ast.mk [exportedS]).functionIds.Nodup ∧
      (knowsAsS "T").structs.map ScriptStruct.name = #["T"] ∧
      (analyze .empty .overwrite (knowsAsS "T") ⟨0⟩ ⟨[exportedS]⟩).tree.structs.map
        ScriptStruct.name = #["S"] ∧
      ∀ access name module, (Ast.mk [exportedS]).DeclaresStruct access name module →
        name.text ≠ "T" := by
  refine ⟨by decide +kernel, by decide +kernel, by decide +kernel, by decide +kernel, ?_⟩
  rintro access name module ⟨n, member, parameters, kind⟩
  have nodes : (Ast.mk [exportedS]).nodes = [exportedS] := rfl
  obtain rfl := List.mem_singleton.mp (nodes ▸ member)
  cases kind
  decide

end Analysis
end ShellSema
