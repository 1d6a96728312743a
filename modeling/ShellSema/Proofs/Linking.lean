import ShellSema.Proofs.Symbols

/-!
# Links in the course of a walk

Most actions of a walk leave all symbols as they are. Only declarations change functions and structs,
and if they carry the labels of their symbols, the tree stays linked. Apart from the functions that
are declared in it, a walk leaves the status of all functions as it is.
-/
namespace ShellSema

/-! ### Actions that leave symbols alone -/

/-- The modules, functions and structs are the same, and scopes belong to the same modules. -/
structure SameSymbols (s t : AnalysisState) : Prop where
  scopes : t.tree.moduleOf? = s.tree.moduleOf?
  count : t.tree.scopes.size = s.tree.scopes.size
  modules : t.tree.modules = s.tree.modules
  functions : t.tree.functions = s.tree.functions
  structs : t.tree.structs = s.tree.structs

theorem sameSymbols_of_same {s t : AnalysisState} (tree : t.tree = s.tree) : SameSymbols s t := by
  constructor <;> rw [tree]

theorem sameSymbols_changeScope (id : ScopeId) {change : Scope → Scope}
    (same : ∀ scope, (change scope).module = scope.module) :
    Keeps SameSymbols (Walk.edit (ScopeTree.Edit.changeScope id change)) := by
  intro s
  rw [runFrom_edit_state, ScopeTree.Edit.state_changeScope]
  refine ⟨?_, Array.size_modify, rfl, rfl, rfl⟩
  funext other
  exact map_getElem?_modify (fun scope _ => same scope) other.index

/-- A relation that has no regard to variables and closures is kept if declarations keep it. -/
theorem preserved_of_sameSymbols {R : AnalysisState → AnalysisState → Prop} {may : Permit}
    (trans : ∀ r s t, R r s → R s t → R r t) (blind : ∀ s t, SameSymbols s t → R s t)
    (registerFunction : ∀ access name parameters module takesClosure id,
      may.function access name module takesClosure id →
      Keeps R (Walk.registerFunction access name parameters module takesClosure id))
    (registerStruct : ∀ access (name : Token) parameters module, may.struct access name module →
      Keeps R (Walk.edit
        (ScopeTree.Edit.registerStruct { name := name.text, access, module, parameters })))
    (failFunction : ∀ access name module takesClosure id,
      may.function access name module takesClosure id →
      Keeps R (Walk.edit (ScopeTree.Edit.changeFunction id fun f => { f with status := .failed }))) :
    Preserved R may := by
  have same {s t : AnalysisState} (tree : t.tree = s.tree) : R s t :=
    blind s t (sameSymbols_of_same tree)
  -- Only the registering of symbols and the marking of failed functions can break the relation.
  have settled : Settled R may :=
    { refl := fun _ => same rfl
      trans
      note := fun _ _ _ => same rfl
      support := fun _ _ _ _ _ _ _ => same rfl
      capture := fun _ _ _ => same rfl
      declare := fun scope name _ s => by
        apply blind
        apply sameSymbols_changeScope
        exact fun _ => rfl
      mark := fun scope name s => by
        apply blind
        apply sameSymbols_changeScope
        exact fun _ => rfl
      registerFunction
      registerStruct
      failFunction }
  exact settled.preserved (fun _ _ _ => same rfl) (fun _ _ => same rfl) fun _ _ _ => same rfl

section Registering

variable {R : AnalysisState → AnalysisState → Prop} (trans : ∀ r s t, R r s → R s t → R r t)

include trans

/-- To register a function is to replace it, and to enter its name. -/
theorem keeps_registerFunction {id : FunctionId} {f : ScriptFunction}
    (replaced : Keeps R (Walk.edit (ScopeTree.Edit.changeFunction id fun _ => f)))
    (entered : Keeps R (Walk.edit (ScopeTree.Edit.changeModule f.module fun m =>
      { m with functions := m.functions.insert f.name id }))) :
    Keeps R (Walk.edit (ScopeTree.Edit.registerFunction id f)) := by
  unfold ScopeTree.Edit.registerFunction
  rw [edit_bind]
  exact keeps_bind trans replaced fun _ => entered

/-- To register a struct is to replace it if its module has it under its name, and to declare it if
not. -/
theorem keeps_registerStruct (refl : ∀ s, R s s) {struct : ScriptStruct}
    (replaced : ∀ id, Keeps R (Walk.edit (ScopeTree.Edit.changeStruct id fun _ => struct)))
    (declared : Keeps R (Walk.edit (ScopeTree.Edit.declareStruct struct))) :
    Keeps R (Walk.edit (ScopeTree.Edit.registerStruct struct)) := by
  unfold ScopeTree.Edit.registerStruct
  rw [edit_bind, edit_ask]
  refine keeps_bind trans (unchanging_ask.keeps refl) fun m => ?_
  split
  · rw [edit_bind]
    refine keeps_bind trans (replaced _) fun _ => ?_
    rw [edit_pure]
    exact keeps_pure refl _
  · exact declared

end Registering

/-! ### Links -/

/-- The declarations that carry the labels of their symbols. A struct is the one that its module has
under its name. -/
def Permit.declaredIn (base : ScopeTree) : Permit where
  scope _ := True
  function access _ module _ id := base.functionLabel? id = some ⟨module, access⟩
  struct access name module :=
    (base.structNamed? module name.text).bind base.structLabel? = some ⟨module, access⟩

instance (base : ScopeTree) (scope : ScopeId) : Decidable ((Permit.declaredIn base).scope scope) :=
  inferInstanceAs (Decidable True)

instance (base : ScopeTree) (access : Access) (name : Token) (module : ModuleId)
    (takesClosure : Bool) (id : FunctionId) :
    Decidable ((Permit.declaredIn base).function access name module takesClosure id) :=
  inferInstanceAs (Decidable (_ = _))

instance (base : ScopeTree) (access : Access) (name : Token) (module : ModuleId) :
    Decidable ((Permit.declaredIn base).struct access name module) :=
  inferInstanceAs (Decidable (_ = _))

/-- If the tree was linked, it still is. -/
def StaysLinked (base : ScopeTree) (s t : AnalysisState) : Prop :=
  ScopeTree.Linked base s.tree → ScopeTree.Linked base t.tree

section Linking

variable {base : ScopeTree}

theorem staysLinked_refl (s : AnalysisState) : StaysLinked base s s := id

theorem StaysLinked.trans (r s t : AnalysisState) (first : StaysLinked base r s)
    (rest : StaysLinked base s t) : StaysLinked base r t :=
  rest ∘ first

theorem staysLinked_of_sameSymbols (s t : AnalysisState) (same : SameSymbols s t) :
    StaysLinked base s t := by
  intro linked
  refine ⟨same.scopes.trans linked.scopes, ?_, ?_, ?_, ?_⟩
  · rw [← linked.functions]
    funext id
    simp only [ScopeTree.functionLabel?, same.functions]
  · rw [← linked.structs]
    funext id
    simp only [ScopeTree.structLabel?, same.structs]
  · rw [same.modules]
    exact linked.count
  · rw [same.modules]
    exact linked.modules

theorem staysLinked_edit {α : Type} {change : ScopeTree.Edit α}
    (kept : ∀ tree, ScopeTree.Linked base tree → ScopeTree.Linked base (runFrom change tree).2) :
    Keeps (StaysLinked base) (Walk.edit change) := by
  intro s
  rw [runFrom_edit_state]
  exact kept s.tree

/-- The walk keeps a tree linked if its declarations carry the labels of their symbols. -/
theorem staysLinked_preserved (base : ScopeTree) :
    Preserved (StaysLinked base) (Permit.declaredIn base) := by
  refine preserved_of_sameSymbols StaysLinked.trans staysLinked_of_sameSymbols ?_ ?_ ?_
  · intro access name parameters module takesClosure id label
    refine keeps_bind StaysLinked.trans (keeps_get staysLinked_refl) fun state => ?_
    exact staysLinked_edit fun tree linked => ScopeTree.linked_registerFunction linked label
  · intro access name parameters module carries
    obtain ⟨id, found, label⟩ := Option.bind_eq_some_iff.mp carries
    obtain ⟨m, known, named⟩ := Option.bind_eq_some_iff.mp found
    exact staysLinked_edit fun tree linked =>
      ScopeTree.linked_registerStruct linked known named label
  · intro access name module takesClosure id _
    exact staysLinked_edit fun tree linked =>
      ScopeTree.linked_changeFunction linked id fun _ label => label

end Linking

/-! ### The status of functions -/

def ScopeTree.statusOf? (tree : ScopeTree) (id : FunctionId) : Option Status :=
  (tree.functions[id.index]?).map ScriptFunction.status

/-- The function that a node declares. -/
def Expr.declaredFunction? (e : Expr) : Option FunctionId :=
  match e.kind with
  | .functionDecl _ _ _ _ _ _ id => some id
  | _ => none

/-- The functions that are declared in a tree. -/
def Expr.functionIds (e : Expr) : List FunctionId := e.nodes.filterMap Expr.declaredFunction?

def Ast.functionIds (ast : Ast) : List FunctionId := ast.nodes.filterMap Expr.declaredFunction?

/-- The walk may declare these functions and no others. -/
def Permit.onFunctions (touched : FunctionId → Prop) : Permit where
  scope _ := True
  function _ _ _ _ id := touched id
  struct _ _ _ := True

/-- All functions have the status that they had, apart from some. -/
def KeepsStatus (touched : FunctionId → Prop) (s t : AnalysisState) : Prop :=
  ∀ id, ¬ touched id → t.tree.statusOf? id = s.tree.statusOf? id

section Statuses

variable {touched : FunctionId → Prop}

theorem keepsStatus_refl (s : AnalysisState) : KeepsStatus touched s s := fun _ _ => rfl

theorem KeepsStatus.trans (r s t : AnalysisState) (first : KeepsStatus touched r s)
    (rest : KeepsStatus touched s t) : KeepsStatus touched r t :=
  fun id outside => (rest id outside).trans (first id outside)

theorem keepsStatus_of_functions {s t : AnalysisState}
    (same : t.tree.functions = s.tree.functions) : KeepsStatus touched s t := by
  intro id _
  simp only [ScopeTree.statusOf?, same]

theorem keepsStatus_changeFunction {id : FunctionId} (allowed : touched id)
    (change : ScriptFunction → ScriptFunction) :
    Keeps (KeepsStatus touched) (Walk.edit (ScopeTree.Edit.changeFunction id change)) := by
  intro s
  rw [runFrom_edit_state, ScopeTree.Edit.state_changeFunction]
  intro other outside
  have apart : id.index ≠ other.index := fun same =>
    outside (FunctionId.index_injective same ▸ allowed)
  simp only [ScopeTree.statusOf?, Array.getElem?_modify, if_neg apart]

theorem keepsStatus_changeModule (id : ModuleId) (change : ScriptModule → ScriptModule) :
    Keeps (KeepsStatus touched) (Walk.edit (ScopeTree.Edit.changeModule id change)) := by
  intro s
  rw [runFrom_edit_state, ScopeTree.Edit.state_changeModule]
  exact keepsStatus_of_functions rfl

theorem keepsStatus_changeStruct (id : StructId) (change : ScriptStruct → ScriptStruct) :
    Keeps (KeepsStatus touched) (Walk.edit (ScopeTree.Edit.changeStruct id change)) := by
  intro s
  rw [runFrom_edit_state, ScopeTree.Edit.state_changeStruct]
  exact keepsStatus_of_functions rfl

/-- To declare a struct leaves the functions as they are. -/
theorem functions_declareStruct (struct : ScriptStruct) (tree : ScopeTree) :
    (runFrom (ScopeTree.Edit.declareStruct struct) tree).2.functions = tree.functions := by
  rw [ScopeTree.Edit.runFrom_declareStruct]
  split
  · rw [ScopeTree.Edit.runFrom_changeModule]
    cases ScopeTree.hasModule { tree with structs := tree.structs.push struct } struct.module <;> rfl
  · rfl

theorem keepsStatus_declareStruct (struct : ScriptStruct) :
    Keeps (KeepsStatus touched) (Walk.edit (ScopeTree.Edit.declareStruct struct)) := by
  intro s
  rw [runFrom_edit_state]
  exact keepsStatus_of_functions (functions_declareStruct struct s.tree)

/-- A walk leaves the status of all functions as it is that it does not declare. -/
theorem keepsStatus_preserved (touched : FunctionId → Prop) :
    Preserved (KeepsStatus touched) (Permit.onFunctions touched) := by
  refine preserved_of_sameSymbols KeepsStatus.trans
    (fun s t same => keepsStatus_of_functions same.functions) ?_ ?_ ?_
  · intro access name parameters module takesClosure id allowed
    refine keeps_bind KeepsStatus.trans (keeps_get keepsStatus_refl) fun state => ?_
    exact keeps_registerFunction KeepsStatus.trans (keepsStatus_changeFunction allowed _)
      (keepsStatus_changeModule _ _)
  · intro access name parameters module _
    exact keeps_registerStruct KeepsStatus.trans keepsStatus_refl
      (fun _ => keepsStatus_changeStruct _ _) (keepsStatus_declareStruct _)
  · intro access name module takesClosure id allowed
    exact keepsStatus_changeFunction allowed _

end Statuses
end ShellSema
