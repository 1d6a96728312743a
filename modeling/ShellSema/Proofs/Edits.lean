import ShellSema.Proofs.Actions
import ShellSema.Proofs.Entries

/-!
# What edits do to the tree of scopes

Each edit is described by the tree that it leaves. Of an edit that meets a fault in its second part,
the first part stays.
-/
namespace ShellSema

namespace ScopeTree.Edit

variable {α β : Type}

@[simp] theorem runFrom_ask (question : ScopeTree → Except Fault α) (tree : ScopeTree) :
    runFrom (ask question) tree = (question tree, tree) := by
  simp only [ask, runFrom_bind, runFrom_get]
  cases question tree <;> rfl

theorem runFrom_changeScope (id : ScopeId) (change : Scope → Scope) (tree : ScopeTree) :
    runFrom (changeScope id change) tree =
      if tree.hasScope id then (.ok (), { tree with scopes := tree.scopes.modify id.index change })
      else (.error (.unknownScope id), tree) := by
  simp only [changeScope, runFrom_bind, runFrom_get]
  split <;> rfl

theorem runFrom_changeModule (id : ModuleId) (change : ScriptModule → ScriptModule)
    (tree : ScopeTree) :
    runFrom (changeModule id change) tree =
      if tree.hasModule id then
        (.ok (), { tree with modules := tree.modules.modify id.index change })
      else (.error (.unknownModule id), tree) := by
  simp only [changeModule, runFrom_bind, runFrom_get]
  split <;> rfl

theorem runFrom_changeFunction (id : FunctionId) (change : ScriptFunction → ScriptFunction)
    (tree : ScopeTree) :
    runFrom (changeFunction id change) tree =
      if tree.hasFunction id then
        (.ok (), { tree with functions := tree.functions.modify id.index change })
      else (.error (.unknownFunction id), tree) := by
  simp only [changeFunction, runFrom_bind, runFrom_get]
  split <;> rfl

theorem runFrom_changeStruct (id : StructId) (change : ScriptStruct → ScriptStruct)
    (tree : ScopeTree) :
    runFrom (changeStruct id change) tree =
      if tree.hasStruct id then
        (.ok (), { tree with structs := tree.structs.modify id.index change })
      else (.error (.unknownStruct id), tree) := by
  simp only [changeStruct, runFrom_bind, runFrom_get]
  split <;> rfl

/-! A change of an entry that is missing changes nothing. -/

theorem state_changeScope (id : ScopeId) (change : Scope → Scope) (tree : ScopeTree) :
    (runFrom (changeScope id change) tree).2 =
      { tree with scopes := tree.scopes.modify id.index change } := by
  rw [runFrom_changeScope]
  split
  next => rfl
  next unknown => rw [modify_of_unknown (by simpa [hasScope] using unknown)]

theorem state_changeModule (id : ModuleId) (change : ScriptModule → ScriptModule)
    (tree : ScopeTree) : (runFrom (changeModule id change) tree).2 =
      { tree with modules := tree.modules.modify id.index change } := by
  rw [runFrom_changeModule]
  split
  next => rfl
  next unknown => rw [modify_of_unknown (by simpa [hasModule] using unknown)]

theorem state_changeFunction (id : FunctionId) (change : ScriptFunction → ScriptFunction)
    (tree : ScopeTree) : (runFrom (changeFunction id change) tree).2 =
      { tree with functions := tree.functions.modify id.index change } := by
  rw [runFrom_changeFunction]
  split
  next => rfl
  next unknown => rw [modify_of_unknown (by simpa [hasFunction] using unknown)]

theorem state_changeStruct (id : StructId) (change : ScriptStruct → ScriptStruct)
    (tree : ScopeTree) : (runFrom (changeStruct id change) tree).2 =
      { tree with structs := tree.structs.modify id.index change } := by
  rw [runFrom_changeStruct]
  split
  next => rfl
  next unknown => rw [modify_of_unknown (by simpa [hasStruct] using unknown)]

theorem runFrom_capture (scope : ScopeId) (name : String) (tree : ScopeTree) :
    (runFrom (capture scope name) tree).2 =
      match tree.declaringScope scope name with
      | .ok (some declaring) => (runFrom (captureHere declaring name) tree).2
      | _ => tree := by
  simp only [capture, runFrom_bind, runFrom_ask]
  rcases tree.declaringScope scope name with _ | (_ | declaring)
  · rfl
  · rfl
  · simp only [runFrom_bind]
    rcases runFrom (captureHere declaring name) tree with ⟨_ | _, _⟩ <;> rfl

theorem runFrom_addScope (parent : ScopeId) (tree : ScopeTree) :
    runFrom (addScope parent) tree =
      match tree.scope parent with
      | .error fault => (.error fault, tree)
      | .ok outer =>
        if tree.scopes.size < 2 ^ 32 then
          (.ok ⟨UInt32.ofNat tree.scopes.size⟩,
            { tree with scopes := tree.scopes.push { parent := some parent, module := outer.module } })
        else (.error .storeFull, tree) := by
  simp only [addScope, allocate, runFrom_bind, runFrom_get, runFrom_ask]
  cases tree.scope parent with
  | error fault => rfl
  | ok outer =>
    by_cases room : tree.scopes.size < 2 ^ 32
    · simp only [room, if_true, runFrom_pure, runFrom_set]
    · simp only [room, if_false, runFrom_throw]

theorem runFrom_declareFunction (function : ScriptFunction) (tree : ScopeTree) :
    runFrom (declareFunction function) tree =
      if tree.functions.size < 2 ^ 32 then
        match runFrom (changeModule function.module fun m => { m with
            functions := m.functions.insert function.name ⟨UInt32.ofNat tree.functions.size⟩ })
            { tree with functions := tree.functions.push function } with
        | (.ok _, after) => (.ok ⟨UInt32.ofNat tree.functions.size⟩, after)
        | (.error fault, after) => (.error fault, after)
      else (.error .storeFull, tree) := by
  simp only [declareFunction, allocate, runFrom_bind, runFrom_get]
  by_cases room : tree.functions.size < 2 ^ 32
  · simp only [room, if_true, runFrom_pure, runFrom_set]
    rcases runFrom (changeModule _ _) _ with ⟨_ | _, _⟩ <;> rfl
  · simp only [room, if_false, runFrom_throw]

theorem runFrom_declareStruct (struct : ScriptStruct) (tree : ScopeTree) :
    runFrom (declareStruct struct) tree =
      if tree.structs.size < 2 ^ 32 then
        match runFrom (changeModule struct.module fun m =>
            { m with structs := m.structs.insert struct.name ⟨UInt32.ofNat tree.structs.size⟩ })
            { tree with structs := tree.structs.push struct } with
        | (.ok _, after) => (.ok ⟨UInt32.ofNat tree.structs.size⟩, after)
        | (.error fault, after) => (.error fault, after)
      else (.error .storeFull, tree) := by
  simp only [declareStruct, allocate, runFrom_bind, runFrom_get]
  by_cases room : tree.structs.size < 2 ^ 32
  · simp only [room, if_true, runFrom_pure, runFrom_set]
    rcases runFrom (changeModule _ _) _ with ⟨_ | _, _⟩ <;> rfl
  · simp only [room, if_false, runFrom_throw]

end ScopeTree.Edit

/-- An edit that an analysis makes leaves the rest of its state alone. -/
theorem runFrom_edit {α : Type} (change : ScopeTree.Edit α) (s : AnalysisState) :
    runFrom (Walk.edit change) s =
      match runFrom change s.tree with
      | (.ok a, tree) => (.ok a, { s with tree })
      | (.error fault, tree) => (.error (.crashed (.fault fault)), { s with tree }) := by
  simp only [Walk.edit, runFrom_bind, runFrom_get]
  generalize ended : runFrom change s.tree = outcome
  rw [show ExceptT.run change s.tree = outcome from ended]
  rcases outcome with ⟨_ | _, _⟩ <;> rfl

theorem runFrom_edit_state {α : Type} (change : ScopeTree.Edit α) (s : AnalysisState) :
    (runFrom (Walk.edit change) s).2 = { s with tree := (runFrom change s.tree).2 } := by
  rw [runFrom_edit]
  rcases runFrom change s.tree with ⟨_ | _, _⟩ <;> rfl

theorem gives_edit {α : Type} {change : ScopeTree.Edit α} {s t : AnalysisState}
    {a : α} :
    Gives (Walk.edit change) s a t ↔
      ∃ tree, Gives change s.tree a tree ∧ t = { s with tree } := by
  unfold Gives
  rw [runFrom_edit]
  rcases runFrom change s.tree with ⟨fault | answer, tree⟩
  · simp
  · simp only [Prod.mk.injEq, Except.ok.injEq]
    constructor
    · rintro ⟨rfl, rfl⟩
      exact ⟨tree, ⟨rfl, rfl⟩, rfl⟩
    · rintro ⟨_, ⟨rfl, rfl⟩, rfl⟩
      exact ⟨rfl, rfl⟩

theorem tree_of_edit {α : Type} {change : ScopeTree.Edit α} {s t : AnalysisState} {a : α}
    (given : Gives (Walk.edit change) s a t) : t.tree = (runFrom change s.tree).2 := by
  obtain ⟨tree, made, rfl⟩ := gives_edit.mp given
  exact congrArg Prod.snd made.symm

/-! ### Edits made by an analysis -/

section Editing

variable {α β : Type}

/-- Actions that end alike from every state are the same. -/
theorem action_ext {ε σ : Type} {action other : ExceptT ε (StateM σ) α}
    (same : ∀ s, runFrom action s = runFrom other s) : action = other :=
  funext same

@[simp] theorem edit_pure (a : α) : Walk.edit (pure a : ScopeTree.Edit α) = pure a := by
  refine action_ext fun s => ?_
  simp [runFrom_edit]

@[simp] theorem edit_bind (change : ScopeTree.Edit α) (next : α → ScopeTree.Edit β) :
    Walk.edit (change >>= next) = Walk.edit change >>= fun a => Walk.edit (next a) := by
  refine action_ext fun s => ?_
  simp only [runFrom_bind, runFrom_edit]
  rcases runFrom change s.tree with ⟨_ | a, tree⟩ <;> rfl

@[simp] theorem edit_ask (question : ScopeTree → Except ScopeTree.Fault α) :
    Walk.edit (ScopeTree.Edit.ask question) = Walk.ask question := by
  refine action_ext fun s => ?_
  simp only [runFrom_edit, ScopeTree.Edit.runFrom_ask, Walk.ask, runFrom_bind, runFrom_get]
  cases question s.tree <;> rfl

end Editing
end ShellSema
