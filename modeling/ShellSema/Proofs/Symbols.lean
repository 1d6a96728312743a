import ShellSema.Proofs.Closed
import ShellSema.Proofs.Growth
import ShellSema.Proofs.Results

/-!
# To which module a symbol belongs

Functions and structs have a label: the module that declares them, and who may use them. The tables
of a module lead to symbols of its own, and its import tables to exported ones. `Linked` says so of a
tree, with the labels that the symbols have in a base tree, and the walk keeps it as long as the
declarations in the script carry the labels of their symbols.
-/
namespace ShellSema

/-- The module that declares a function or struct, and who may use it. -/
structure Label where
  module : ModuleId
  access : Access
deriving DecidableEq

/-- Code of a module may use a symbol of that module, and an exported one. -/
def Label.VisibleFrom (label : Label) (current : ModuleId) : Prop :=
  label.module = current ∨ label.access = .exported

namespace ScopeTree

/-- The module to which a scope belongs. -/
def moduleOf? (tree : ScopeTree) (id : ScopeId) : Option ModuleId :=
  (tree.scopes[id.index]?).map Scope.module

def functionLabel? (tree : ScopeTree) (id : FunctionId) : Option Label :=
  (tree.functions[id.index]?).map fun f => ⟨f.module, f.access⟩

def structLabel? (tree : ScopeTree) (id : StructId) : Option Label :=
  (tree.structs[id.index]?).map fun struct => ⟨struct.module, struct.access⟩

/-- The struct that a module declares under a name. -/
def structNamed? (tree : ScopeTree) (module : ModuleId) (name : String) : Option StructId :=
  (tree.modules[module.index]?).bind fun m => m.structs.get? name

/-- Code of the module may use the function. -/
def SeesFunction (tree : ScopeTree) (current : ModuleId) (id : FunctionId) : Prop :=
  ∃ label, tree.functionLabel? id = some label ∧ label.VisibleFrom current

/-- Code of the module may use the struct. -/
def SeesStruct (tree : ScopeTree) (current : ModuleId) (id : StructId) : Prop :=
  ∃ label, tree.structLabel? id = some label ∧ label.VisibleFrom current

end ScopeTree

/-! ### Names in analysed trees -/

/-- The functions and structs of the script that a node has been found to name may be used in the
module. -/
def Expr.Visible (tree : ScopeTree) (current : ModuleId) (e : Expr) : Prop :=
  match e.kind with
  | .call made => ∀ id, made.findings.function = some id → tree.SeesFunction current id
  | .construct _ _ _ target => ∀ id, target = some (.user id) → tree.SeesStruct current id
  | .typeRef _ target => ∀ id, target = some (.struct id) → tree.SeesStruct current id
  | _ => True

/-- The node names what may be used in the module to which its place belongs. -/
def Expr.VisibleAt (tree : ScopeTree) (place : ScopeId) (e : Expr) : Prop :=
  ∀ current, tree.moduleOf? place = some current → e.Visible tree current

/-- The nodes of a tree that stands in a scope name what may be used where they stand. -/
def Ast.Visible (tree : ScopeTree) (scope : ScopeId) (ast : Ast) : Prop :=
  ∀ e ∈ ast.expressions, e.AllIn (Expr.VisibleAt tree) scope

/-! ### Linked trees -/

/-- The tables of a module lead to symbols of its own, and its import tables to exported ones. Its
structs are those that it has in the base tree. -/
structure ScriptModule.Linked (base : ScopeTree) (id : ModuleId) (m : ScriptModule) : Prop where
  functions : ∀ name f, m.functions.get? name = some f →
    ∃ access, base.functionLabel? f = some ⟨id, access⟩
  structs : ∀ name struct, m.structs.get? name = some struct →
    ∃ access, base.structLabel? struct = some ⟨id, access⟩
  importedFunctions : ∀ name f, m.importedFunctions.get? name = some f →
    ∃ owner, base.functionLabel? f = some ⟨owner, .exported⟩
  importedStructs : ∀ name struct, m.importedStructs.get? name = some struct →
    ∃ owner, base.structLabel? struct = some ⟨owner, .exported⟩
  origin : ∃ old, base.modules[id.index]? = some old ∧ m.structs = old.structs ∧ m.scope = old.scope
  stored : ∀ ast, m.stored = some ast → ast.Visible base m.scope

namespace ScopeTree

/-- The symbols have the labels that they have in the base tree, and the tables of all modules lead
to what they may lead to. -/
structure Linked (base tree : ScopeTree) : Prop where
  scopes : tree.moduleOf? = base.moduleOf?
  functions : tree.functionLabel? = base.functionLabel?
  structs : tree.structLabel? = base.structLabel?
  count : tree.modules.size = base.modules.size
  modules : ∀ (id : ModuleId) m, tree.modules[id.index]? = some m → m.Linked base id

/-- What may be used is the same in the base tree and in a linked one. -/
theorem Linked.visible {base tree : ScopeTree} (linked : Linked base tree) {scope : ScopeId} {ast : Ast}
    (visible : ast.Visible base scope) : ast.Visible tree scope := by
  have same : Expr.VisibleAt tree = Expr.VisibleAt base := by
    funext place e
    simp only [Expr.VisibleAt, Expr.Visible, SeesFunction, SeesStruct, linked.scopes,
      linked.functions, linked.structs]
  rw [Ast.Visible, same]
  exact visible

variable {base tree : ScopeTree}

/-! ### Edits -/

theorem linked_changeFunction (linked : Linked base tree) (id : FunctionId)
    {change : ScriptFunction → ScriptFunction}
    (kept : ∀ f : ScriptFunction, base.functionLabel? id = some ⟨f.module, f.access⟩ →
      base.functionLabel? id = some ⟨(change f).module, (change f).access⟩) :
    Linked base (runFrom (Edit.changeFunction id change) tree).2 := by
  rw [Edit.state_changeFunction]
  refine ⟨linked.scopes, ?_, linked.structs, linked.count, linked.modules⟩
  rw [← linked.functions] at kept ⊢
  funext other
  refine map_getElem?_modify (fun f found => ?_) other.index
  have label : tree.functionLabel? id = some ⟨f.module, f.access⟩ := by
    rw [functionLabel?, found, Option.map_some]
  exact Option.some.inj ((kept f label).symm.trans label)

theorem linked_changeStruct (linked : Linked base tree) (id : StructId)
    {change : ScriptStruct → ScriptStruct}
    (kept : ∀ struct : ScriptStruct, base.structLabel? id = some ⟨struct.module, struct.access⟩ →
      base.structLabel? id = some ⟨(change struct).module, (change struct).access⟩) :
    Linked base (runFrom (Edit.changeStruct id change) tree).2 := by
  rw [Edit.state_changeStruct]
  refine ⟨linked.scopes, linked.functions, ?_, linked.count, linked.modules⟩
  rw [← linked.structs] at kept ⊢
  funext other
  refine map_getElem?_modify (fun struct found => ?_) other.index
  have label : tree.structLabel? id = some ⟨struct.module, struct.access⟩ := by
    rw [structLabel?, found, Option.map_some]
  exact Option.some.inj ((kept struct label).symm.trans label)

theorem linked_changeModule (linked : Linked base tree) (id : ModuleId)
    {change : ScriptModule → ScriptModule}
    (kept : ∀ m : ScriptModule, m.Linked base id → (change m).Linked base id) :
    Linked base (runFrom (Edit.changeModule id change) tree).2 := by
  rw [Edit.state_changeModule]
  refine ⟨linked.scopes, linked.functions, linked.structs, ?_, fun other m found => ?_⟩
  · simpa using linked.count
  · rcases getElem?_modify_cases found with ⟨same, old, there, rfl⟩ | before
    · obtain rfl : id = other := ModuleId.index_injective same
      exact kept old (linked.modules id old there)
    · exact linked.modules other m before

/-- A function is entered under a name in its own module. -/
theorem linked_registerFunction (linked : Linked base tree) {id : FunctionId}
    {function : ScriptFunction}
    (label : base.functionLabel? id = some ⟨function.module, function.access⟩) :
    Linked base (runFrom (Edit.registerFunction id function) tree).2 := by
  have changed : Linked base (runFrom (Edit.changeFunction id fun _ => function) tree).2 :=
    linked_changeFunction linked id fun _ _ => label
  unfold Edit.registerFunction
  rw [runFrom_bind]
  rcases ended : runFrom (Edit.changeFunction id fun _ => function) tree with ⟨fault | _, later⟩
  · rwa [ended] at changed
  · rw [ended] at changed
    refine linked_changeModule changed function.module fun m linked => ?_
    refine ⟨fun name f found => ?_, linked.structs, linked.importedFunctions, linked.importedStructs,
      linked.origin, linked.stored⟩
    rw [Table.get?_insert] at found
    split at found
    · cases found
      exact ⟨function.access, label⟩
    · exact linked.functions name f found

/-- A struct is registered again under the name that it has in its module. -/
theorem linked_registerStruct (linked : Linked base tree) {struct : ScriptStruct} {m : ScriptModule}
    {id : StructId} (known : base.modules[struct.module.index]? = some m)
    (named : m.structs.get? struct.name = some id)
    (label : base.structLabel? id = some ⟨struct.module, struct.access⟩) :
    Linked base (runFrom (Edit.registerStruct struct) tree).2 := by
  unfold Edit.registerStruct
  rw [runFrom_bind, Edit.runFrom_ask]
  cases found : tree.module struct.module with
  | error fault => exact linked
  | ok later =>
    obtain ⟨old, known', same, -⟩ :=
      (linked.modules struct.module later (module_eq_ok.mp found)).origin
    rw [known] at known'
    cases known'
    -- The handle that the module has for the name is still that of the tree before.
    simp only [same, named]
    have changed : Linked base (runFrom (Edit.changeStruct id fun _ => struct) tree).2 :=
      linked_changeStruct linked id fun _ _ => label
    rw [runFrom_bind]
    rcases ended : runFrom (Edit.changeStruct id fun _ => struct) tree with ⟨fault | _, after⟩
    · rwa [ended] at changed
    · rw [ended] at changed
      exact changed

end ScopeTree
end ShellSema
