import ShellSema.Proofs.Declared
import ShellSema.Proofs.Walks

/-!
# What grows in the course of a walk

The scopes of the tree stay where they are and only gain variables, a variable that is captured stays
captured, and the closures entered so far only gain captured names. Variables are declared in the
scopes that the tree under analysis may touch and nowhere else.
-/
namespace ShellSema

namespace Table

variable {α : Type}

theorem get?_insertNew (table : Table α) (name key : String) (value : α) :
    (table.insertNew name value).get? key =
      if key = name ∧ table.get? name = none then some value else table.get? key := by
  unfold insertNew contains
  cases there : table.get? name with
  | some old => simp
  | none => simp [get?_insert]

theorem get?_adjust (table : Table α) (name key : String) (change : α → α) :
    (table.adjust name change).get? key =
      if key = name then (table.get? key).map change else table.get? key := by
  unfold adjust
  cases there : table.get? name with
  | some old =>
    rw [get?_insert]
    by_cases same : key = name
    · simp [same, there]
    · simp [same]
  | none =>
    by_cases same : key = name
    · simp [same, there]
    · simp [same]

end Table

theorem NameSet.mem_union {set : NameSet} {names : List String} {key : String} :
    key ∈ set.union names ↔ key ∈ names ∨ key ∈ set := by
  unfold union
  induction names generalizing set with
  | nil => simp
  | cons name names ih =>
    rw [List.foldl_cons, ih, mem_insert, List.mem_cons]
    constructor
    · rintro (member | same | member) <;> simp [*]
    · rintro ((same | member) | member) <;> simp [*]

/-! ### Trees -/

namespace ScopeTree

/-- The second tree has the scopes of the first, with more variables. New names are declared in some
scopes only. -/
structure GrowsTo (scopes : ScopeId → Prop) (tree later : ScopeTree) : Prop where
  parents : later.parentScope? = tree.parentScope?
  declared : ∀ id name, tree.Declares id name → later.Declares id name
  still : ∀ id name, ¬ scopes id → later.Declares id name → tree.Declares id name
  marked : ∀ id name, tree.Marks id name → later.Marks id name

variable {scopes : ScopeId → Prop} {tree later : ScopeTree}

theorem growsTo_of_scopes (same : later.scopes = tree.scopes) : GrowsTo scopes tree later := by
  have entries (id : ScopeId) (name : String) :
      later.ownVariable? id name = tree.ownVariable? id name := by
    simp only [ownVariable?, same]
  refine ⟨?_, ?_, ?_, ?_⟩
  · funext id
    simp only [parentScope?, same]
  · intro id name declares
    rwa [Declares, entries]
  · intro id name _ declares
    rwa [Declares, entries] at declares
  · intro id name marks
    rwa [Marks, entries]

theorem GrowsTo.trans {third : ScopeTree} (first : GrowsTo scopes tree later)
    (second : GrowsTo scopes later third) : GrowsTo scopes tree third where
  parents := second.parents.trans first.parents
  declared id name declares := second.declared id name (first.declared id name declares)
  still id name outside declares :=
    first.still id name outside (second.still id name outside declares)
  marked id name marks := second.marked id name (first.marked id name marks)

theorem ownVariable?_modify (id : ScopeId) (change : Scope → Scope) (other : ScopeId)
    (name : String) :
    ownVariable? { tree with scopes := tree.scopes.modify id.index change } other name =
      if id = other then
        (tree.scopes[other.index]?).bind fun scope => (change scope).locals.get? name
      else tree.ownVariable? other name := by
  simp only [ownVariable?, Array.getElem?_modify]
  by_cases same : id = other
  · simp only [same, if_true, Option.bind_map]
    rfl
  · have apart : id.index ≠ other.index := fun equal => same (ScopeId.index_injective equal)
    simp only [same, apart, if_false]

/-- A change of a scope that keeps its place and its variables. -/
theorem growsTo_modifyScope {id : ScopeId} {change : Scope → Scope}
    (parent : ∀ scope, (change scope).parent = scope.parent)
    (kept : ∀ scope name v, scope.locals.get? name = some v →
      ∃ v', (change scope).locals.get? name = some v' ∧
        (v.isCaptured = true → v'.isCaptured = true))
    (fresh : scopes id ∨ ∀ scope name, ((change scope).locals.get? name).isSome = true →
      (scope.locals.get? name).isSome = true) :
    GrowsTo scopes tree { tree with scopes := tree.scopes.modify id.index change } := by
  -- Entries of other scopes are untouched, and those of the changed scope are kept by the change.
  have entry (other : ScopeId) (name : String) (v : Variable)
      (found : tree.ownVariable? other name = some v) :
      ∃ v', ownVariable? { tree with scopes := tree.scopes.modify id.index change } other name =
        some v' ∧ (v.isCaptured = true → v'.isCaptured = true) := by
    rw [ownVariable?_modify]
    by_cases same : id = other
    · obtain ⟨scope, there, found⟩ := Option.bind_eq_some_iff.mp found
      rw [if_pos same, there, Option.bind_some]
      exact kept scope name v found
    · rw [if_neg same]
      exact ⟨v, found, fun captured => captured⟩
  refine ⟨?_, ?_, ?_, ?_⟩
  · funext other
    simp only [parentScope?, Array.getElem?_modify]
    by_cases same : id.index = other.index
    · rw [if_pos same]
      cases tree.scopes[other.index]? with
      | none => rfl
      | some scope => exact parent scope
    · rw [if_neg same]
  · intro other name declares
    obtain ⟨v, found⟩ := Option.isSome_iff_exists.mp declares
    obtain ⟨v', found', -⟩ := entry other name v found
    exact Option.isSome_iff_exists.mpr ⟨v', found'⟩
  · intro other name outside declares
    rw [Declares, ownVariable?_modify] at declares
    by_cases same : id = other
    · subst same
      rw [if_pos rfl] at declares
      have before := fresh.resolve_left outside
      unfold Declares ownVariable?
      cases there : tree.scopes[id.index]? with
      | none => simp [there] at declares
      | some scope =>
        rw [there, Option.bind_some] at declares
        exact before scope name declares
    · rwa [if_neg same] at declares
  · rintro other name ⟨v, found, captured⟩
    obtain ⟨v', found', still⟩ := entry other name v found
    exact ⟨v', found', still captured⟩

/-! ### Edits -/

theorem growsTo_changeScope {id : ScopeId} {change : Scope → Scope}
    (grows : GrowsTo scopes tree { tree with scopes := tree.scopes.modify id.index change }) :
    GrowsTo scopes tree (runFrom (Edit.changeScope id change) tree).2 := by
  rw [Edit.state_changeScope]
  exact grows

theorem growsTo_addVariable {id : ScopeId} (allowed : scopes id) (name : String) :
    GrowsTo scopes tree (runFrom (Edit.addVariable id name) tree).2 := by
  apply growsTo_changeScope
  refine growsTo_modifyScope (fun _ => rfl) ?_ (.inl allowed)
  intro scope key v found
  refine ⟨v, ?_, fun captured => captured⟩
  rw [Table.get?_insertNew]
  split
  next new =>
    rw [new.1, new.2] at found
    cases found
  next => exact found

theorem growsTo_captureHere (id : ScopeId) (name : String) :
    GrowsTo scopes tree (runFrom (Edit.captureHere id name) tree).2 := by
  apply growsTo_changeScope
  refine growsTo_modifyScope (fun _ => rfl) ?_ (.inr ?_)
  · intro scope key v found
    rw [Table.get?_adjust, found]
    by_cases same : key = name
    · exact ⟨{ v with isCaptured := true }, by simp [same], fun _ => rfl⟩
    · exact ⟨v, by simp [same], fun captured => captured⟩
  · intro scope key declares
    rw [Table.get?_adjust] at declares
    split at declares
    · rwa [Option.isSome_map] at declares
    · exact declares

/-- The edit leaves the scopes of the tree as they are. -/
def Edit.LeavesScopes {α : Type} (change : Edit α) : Prop :=
  Keeps (fun tree later => later.scopes = tree.scopes) change

namespace Edit

variable {α β : Type}

theorem leavesScopes_bind {change : Edit α} {next : α → Edit β} (first : change.LeavesScopes)
    (rest : ∀ a, (next a).LeavesScopes) : LeavesScopes (change >>= next) :=
  keeps_bind (fun _ _ _ same same' => same'.trans same) first rest

theorem leavesScopes_pure (a : α) : LeavesScopes (pure a : Edit α) := fun _ => rfl

theorem leavesScopes_ask (question : ScopeTree → Except Fault α) :
    LeavesScopes (ask question) := by
  intro tree
  rw [runFrom_ask]

theorem leavesScopes_changeModule (id : ModuleId) (change : ScriptModule → ScriptModule) :
    LeavesScopes (changeModule id change) := by
  intro tree
  rw [state_changeModule]

theorem leavesScopes_changeFunction (id : FunctionId) (change : ScriptFunction → ScriptFunction) :
    LeavesScopes (changeFunction id change) := by
  intro tree
  rw [state_changeFunction]

theorem leavesScopes_changeStruct (id : StructId) (change : ScriptStruct → ScriptStruct) :
    LeavesScopes (changeStruct id change) := by
  intro tree
  rw [state_changeStruct]

theorem leavesScopes_registerFunction (id : FunctionId) (function : ScriptFunction) :
    LeavesScopes (registerFunction id function) :=
  leavesScopes_bind (leavesScopes_changeFunction _ _) fun _ => leavesScopes_changeModule _ _

theorem leavesScopes_declareStruct (struct : ScriptStruct) :
    LeavesScopes (declareStruct struct) := by
  intro tree
  rw [runFrom_declareStruct]
  split
  · have kept := leavesScopes_changeModule struct.module
      (fun m => { m with structs := m.structs.insert struct.name ⟨UInt32.ofNat tree.structs.size⟩ })
      { tree with structs := tree.structs.push struct }
    split
    next ended => rw [ended] at kept; exact kept
    next ended => rw [ended] at kept; exact kept
  · rfl

theorem leavesScopes_registerStruct (struct : ScriptStruct) :
    LeavesScopes (registerStruct struct) := by
  refine leavesScopes_bind (leavesScopes_ask _) fun module => ?_
  split
  · exact leavesScopes_bind (leavesScopes_changeStruct _ _) fun _ => leavesScopes_pure _
  · exact leavesScopes_declareStruct struct

end Edit
end ScopeTree

/-! ### Closures -/

/-- The closures entered so far are the same, with more captured names. -/
def FramesGrow (frames later : Array ClosureFrame) : Prop :=
  ∀ (index : Nat) frame, frames[index]? = some frame → ∃ frame', later[index]? = some frame' ∧
    frame'.bodyScope = frame.bodyScope ∧ ∀ name ∈ frame.captured, name ∈ frame'.captured

theorem framesGrow_refl (frames : Array ClosureFrame) : FramesGrow frames frames :=
  fun _ frame found => ⟨frame, found, rfl, fun _ member => member⟩

theorem FramesGrow.trans {first second third : Array ClosureFrame} (start : FramesGrow first second)
    (rest : FramesGrow second third) : FramesGrow first third := by
  intro index frame found
  obtain ⟨frame', found', same, captured⟩ := start index frame found
  obtain ⟨frame'', found'', same', captured'⟩ := rest index frame' found'
  exact ⟨frame'', found'', same'.trans same, fun name member => captured' name (captured name member)⟩

theorem framesGrow_modify (frames : Array ClosureFrame) (index : Nat)
    {change : ClosureFrame → ClosureFrame}
    (scope : ∀ frame, (change frame).bodyScope = frame.bodyScope)
    (captured : ∀ frame, ∀ name ∈ frame.captured, name ∈ (change frame).captured) :
    FramesGrow frames (frames.modify index change) := by
  intro other frame found
  rw [Array.getElem?_modify, found]
  by_cases same : index = other
  · rw [if_pos same]
    exact ⟨change frame, rfl, scope frame, captured frame⟩
  · rw [if_neg same]
    exact ⟨frame, rfl, rfl, fun _ member => member⟩

theorem framesGrow_push (frames : Array ClosureFrame) (frame : ClosureFrame) :
    FramesGrow frames (frames.push frame) := by
  intro index old found
  exact ⟨old, getElem?_push_of_some found frame, rfl, fun _ member => member⟩

/-! ### Walks -/

/-- From the first state to the second, the tree and the closures grow, and variables are declared
in some scopes only. -/
structure Grows (scopes : ScopeId → Prop) (s t : AnalysisState) : Prop where
  tree : ScopeTree.GrowsTo scopes s.tree t.tree
  frames : FramesGrow s.closures t.closures

/-- The scopes in which variables are declared; nothing else is limited. -/
def Permit.onScopes (scopes : ScopeId → Prop) : Permit where
  scope := scopes
  function _ _ _ _ _ := True
  struct _ _ _ := True

theorem Expr.permitted_everywhere (e : Expr) : e.Permitted (Permit.onScopes fun _ => True) := by
  intro n _
  cases kind : n.kind <;> trivial

section Growing

variable {scopes : ScopeId → Prop}

theorem grows_of_same {s t : AnalysisState} (tree : t.tree = s.tree)
    (closures : t.closures = s.closures) : Grows scopes s t := by
  refine ⟨ScopeTree.growsTo_of_scopes (by rw [tree]), ?_⟩
  rw [closures]
  exact framesGrow_refl _

theorem grows_refl (s : AnalysisState) : Grows scopes s s := grows_of_same rfl rfl

theorem Grows.trans (r s t : AnalysisState) (first : Grows scopes r s) (rest : Grows scopes s t) :
    Grows scopes r t :=
  ⟨first.tree.trans rest.tree, first.frames.trans rest.frames⟩

theorem grows_frames {s : AnalysisState} {closures : Array ClosureFrame}
    (frames : FramesGrow s.closures closures) : Grows scopes s { s with closures } :=
  ⟨ScopeTree.growsTo_of_scopes rfl, frames⟩

/-- An edit keeps the closures, so it grows the state if it grows the tree. -/
theorem grows_edit {α : Type} {change : ScopeTree.Edit α}
    (grows : ∀ tree, ScopeTree.GrowsTo scopes tree (runFrom change tree).2) :
    Keeps (Grows scopes) (Walk.edit change) := by
  intro s
  rw [runFrom_edit_state]
  exact ⟨grows s.tree, framesGrow_refl _⟩

theorem grows_edit_of_leavesScopes {α : Type} {change : ScopeTree.Edit α}
    (leaves : change.LeavesScopes) : Keeps (Grows scopes) (Walk.edit change) :=
  grows_edit fun tree => ScopeTree.growsTo_of_scopes (leaves tree)

theorem grows_openFrame (frame : ClosureFrame) : Keeps (Grows scopes) (Walk.openFrame frame) :=
  fun _ => grows_frames (framesGrow_push _ _)

/-- The walk grows the state, and declares variables where it may. -/
theorem grows_preserved (scopes : ScopeId → Prop) :
    Preserved (Grows scopes) (Permit.onScopes scopes) := by
  -- Captures grow by union, variables by entry, and functions and structs are kept elsewhere.
  have settled : Settled (Grows scopes) (Permit.onScopes scopes) :=
    { refl := grows_refl
      trans := Grows.trans
      note := fun _ _ _ => grows_of_same rfl rfl
      support := fun _ _ _ _ _ _ _ => grows_of_same rfl rfl
      capture := fun s id names => by
        apply grows_frames
        apply framesGrow_modify
        · exact fun _ => rfl
        · exact fun frame name member => NameSet.mem_union.mpr (.inr member)
      declare := fun scope name allowed =>
        grows_edit fun tree => ScopeTree.growsTo_addVariable allowed name
      mark := fun scope name => grows_edit fun tree => ScopeTree.growsTo_captureHere scope name
      registerFunction := fun access name parameters module takesClosure id _ => by
        refine keeps_bind Grows.trans (keeps_get grows_refl) fun state => ?_
        exact grows_edit_of_leavesScopes (ScopeTree.Edit.leavesScopes_registerFunction _ _)
      registerStruct := fun access name parameters module _ =>
        grows_edit_of_leavesScopes (ScopeTree.Edit.leavesScopes_registerStruct _)
      failFunction := fun access name module takesClosure id _ =>
        grows_edit_of_leavesScopes (ScopeTree.Edit.leavesScopes_changeFunction _ _) }
  refine settled.preserved (fun _ _ _ => grows_of_same rfl rfl) (fun frame => grows_openFrame frame)
    fun s id parameters => ?_
  apply grows_frames
  apply framesGrow_modify
  · exact fun _ => rfl
  · exact fun _ _ member => member

end Growing
end ShellSema
