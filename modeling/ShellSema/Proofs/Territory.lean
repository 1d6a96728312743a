import ShellSema.Proofs.Moments
import ShellSema.Proofs.Registering

/-!
# What an analysis may change for others

The tree of a module has a territory: its own module and those nested in it, with their scopes. To
code that stands elsewhere, an analysis changes nothing but the imports of its own module: what it
registers has the signature that it had, under the name that it had, and what it declares are
variables of its own scopes.
-/
namespace ShellSema

/-- The modules and scopes in which a tree may declare something. -/
structure Territory where
  modules : ModuleId → Prop
  scopes : ScopeId → Prop

/-- Scopes lead outwards within the territory, and belong to its modules, whose root scopes are in it
too. -/
structure Territory.Closed (own : Territory) (tree : ScopeTree) : Prop where
  outward : ∀ id parent, own.scopes id → tree.parentScope? id = some parent → own.scopes parent
  belongs : ∀ id module, own.scopes id → tree.moduleOf? id = some module → own.modules module
  roots : ∀ id m, own.modules id → tree.modules[id.index]? = some m → own.scopes m.scope

/-- The two have no module and no scope in common. -/
structure Territory.Apart (own other : Territory) : Prop where
  modules : ∀ id, own.modules id → ¬ other.modules id
  scopes : ∀ id, own.scopes id → ¬ other.scopes id

theorem Territory.Apart.symm {own other : Territory} (apart : own.Apart other) : other.Apart own :=
  ⟨fun id there here => apart.modules id here there, fun id there here => apart.scopes id here there⟩

/-- The function that a module has under a name. -/
def ScopeTree.functionNamed? (tree : ScopeTree) (module : ModuleId) (name : String) :
    Option FunctionId :=
  (tree.modules[module.index]?).bind fun m => m.functions.get? name

/-- The function that a module declares or has imported under a name. -/
def ScopeTree.functionSeen? (tree : ScopeTree) (module : ModuleId) (name : String) :
    Option FunctionId :=
  (tree.modules[module.index]?).bind fun m => m.function? name true

def ScopeTree.structSeen? (tree : ScopeTree) (module : ModuleId) (name : String) : Option StructId :=
  (tree.modules[module.index]?).bind fun m => m.struct? name true

/-- What a node declares is declared already: its module has it under its name, and a function with the
signature that it has here. Scopes and functions are in the territory. -/
def ExprKind.Declared (tree : ScopeTree) (own : Territory) : ExprKind → Prop
  | .block _ _ scope => own.scopes scope
  | .functionDecl access name parameters _ module takesClosure id =>
    own.modules module ∧ tree.functionNamed? module name.text = some id ∧
      tree.functionSignature? id =
        some ⟨name.text, access, module, takesClosure, shapesOf parameters⟩
  | .structDecl _ name _ module => (tree.structNamed? module name.text).isSome = true
  | _ => True

def Expr.Declared (tree : ScopeTree) (own : Territory) (e : Expr) : Prop :=
  ∀ n ∈ e.nodes, n.kind.Declared tree own

theorem Expr.Declared.child {tree : ScopeTree} {own : Territory} {c e : Expr}
    (declared : e.Declared tree own) (child : c ∈ e.children) : c.Declared tree own :=
  fun n inside => declared n (mem_nodes_of_child child inside)

theorem Expr.Declared.permitted {tree : ScopeTree} {own : Territory} {e : Expr}
    (declared : e.Declared tree own) : e.Permitted (Permit.onScopes own.scopes) := by
  intro n inside
  have here := declared n inside
  cases kind : n.kind
  case block => rwa [kind] at here
  all_goals trivial

/-! ### Tables -/

theorem assign_of_lookup {α : Type} {name : String} {value : α} {entries : List (String × α)}
    (found : entries.lookup name = some value) : assign name value entries = entries := by
  induction entries with
  | nil => cases found
  | cons entry rest ih =>
    obtain ⟨other, old⟩ := entry
    unfold assign
    by_cases same : other = name
    · subst same
      simp only [List.lookup_cons, BEq.rfl] at found
      rw [if_pos rfl, Option.some.inj found]
    · have differ : (name == other) = false := by simpa using Ne.symm same
      rw [List.lookup_cons, differ] at found
      rw [if_neg same, ih found]

/-- To enter what a table has changes nothing. -/
theorem Table.insert_of_get? {α : Type} {table : Table α} {name : String} {value : α}
    (found : table.get? name = some value) : table.insert name value = table := by
  obtain ⟨entries, distinct⟩ := table
  unfold insert
  congr
  exact assign_of_lookup found

/-! ### Entries after an edit -/

namespace ScopeTree.Edit

variable {tree : ScopeTree}

/-- A function that is registered under the name that its module has it under is replaced, and no
more. -/
theorem state_registerFunction {id : FunctionId} {f : ScriptFunction}
    (named : tree.functionNamed? f.module f.name = some id) :
    (runFrom (registerFunction id f) tree).2 =
      { tree with functions := tree.functions.modify id.index fun _ => f } := by
  have changed := state_changeFunction id (fun _ => f) tree
  unfold registerFunction
  rw [runFrom_bind]
  rcases ended : runFrom (changeFunction id fun _ => f) tree with ⟨fault | _, after⟩
  · rw [ended] at changed
    exact changed
  · rw [ended] at changed
    dsimp only at changed ⊢
    rw [state_changeModule, changed]
    congr
    -- The module has the entry already, so its table stays as it is.
    refine modify_eq_self fun m found => ?_
    obtain ⟨m', found', entry⟩ := Option.bind_eq_some_iff.mp named
    cases found.symm.trans found'
    rw [Table.insert_of_get? entry]

/-- A struct that its module has under its name is replaced. -/
theorem registerStruct_of_named {struct : ScriptStruct} {id : StructId}
    (named : tree.structNamed? struct.module struct.name = some id) :
    runFrom (registerStruct struct) tree =
      runFrom (do changeStruct id fun _ => struct; return id) tree := by
  obtain ⟨m, found, entry⟩ := Option.bind_eq_some_iff.mp named
  unfold registerStruct
  rw [runFrom_bind, runFrom_ask, module_eq_ok.mpr found]
  simp only [entry]

theorem state_registerStruct {struct : ScriptStruct} {id : StructId}
    (named : tree.structNamed? struct.module struct.name = some id) :
    (runFrom (registerStruct struct) tree).2 =
      { tree with structs := tree.structs.modify id.index fun _ => struct } := by
  have changed := state_changeStruct id (fun _ => struct) tree
  rw [registerStruct_of_named named, runFrom_bind]
  rcases ended : runFrom (changeStruct id fun _ => struct) tree with ⟨fault | _, after⟩ <;>
    rw [ended] at changed <;> exact changed

end ScopeTree.Edit

/-! ### Replacing a function -/

namespace ScopeTree

variable {tree : ScopeTree} {id : FunctionId} {f : ScriptFunction}

theorem functionSignature?_replace (signature : tree.functionSignature? id = some f.signature) :
    functionSignature? { tree with functions := tree.functions.modify id.index fun _ => f } =
      tree.functionSignature? := by
  funext other
  unfold functionSignature? at signature ⊢
  dsimp only
  rw [getElem?_modify_handle FunctionId.index_injective]
  split
  next equal =>
    subst equal
    obtain ⟨old, found, same⟩ := Option.map_eq_some_iff.mp signature
    rw [found, Option.map_some, Option.map_some, Option.map_some, same]
  next => rfl

/-- It had not failed, and has not now. -/
theorem failed_replace (well : f.status ≠ .failed) (before : tree.statusOf? id ≠ some .failed)
    (other : FunctionId) :
    statusOf? { tree with functions := tree.functions.modify id.index fun _ => f } other =
      some .failed ↔ tree.statusOf? other = some .failed := by
  unfold statusOf? at before ⊢
  dsimp only
  rw [getElem?_modify_handle FunctionId.index_injective]
  split
  next equal =>
    subst equal
    cases found : tree.functions[id.index]? with
    | none => exact .rfl
    | some old =>
      rw [found] at before
      exact iff_of_false (by simpa using well) before
  next => exact .rfl

end ScopeTree

/-! ### Symbols seen from outside -/

/-- The trees differ at most in the imports and the progress of a module, in what the functions of a
territory do not show in their signature, and in what is stored of structs. -/
structure ScopeTree.AgreesOutside (own : Territory) (module : ModuleId) (tree other : ScopeTree) :
    Prop where
  modules : ∀ id, id ≠ module → other.modules[id.index]? = tree.modules[id.index]?
  core : (other.modules[module.index]?).map ScriptModule.core =
    (tree.modules[module.index]?).map ScriptModule.core
  signatures : other.functionSignature? = tree.functionSignature?
  failed : ∀ id, other.statusOf? id = some .failed ↔ tree.statusOf? id = some .failed
  functions : ∀ (id : FunctionId) f, tree.functions[id.index]? = some f → ¬ own.modules f.module →
    other.functions[id.index]? = some f

namespace ScopeTree.AgreesOutside

variable {own : Territory} {module : ModuleId} {base tree later : ScopeTree}

theorem refl (tree : ScopeTree) : tree.AgreesOutside own module tree :=
  ⟨fun _ _ => rfl, rfl, rfl, fun _ => .rfl, fun _ _ found _ => found⟩

theorem of_sameSymbols (agrees : base.AgreesOutside own module tree)
    (modules : later.modules = tree.modules) (functions : later.functions = tree.functions) :
    base.AgreesOutside own module later := by
  obtain ⟨first, core, signatures, failed, others⟩ := agrees
  refine ⟨?_, ?_, ?_, ?_, ?_⟩
  · rwa [modules]
  · rwa [modules]
  · unfold functionSignature? at signatures ⊢
    rwa [functions]
  · unfold statusOf? at failed ⊢
    rwa [functions]
  · rwa [functions]

/-- What is read from a module is the same, if it has no regard to imports and progress. -/
theorem read (agrees : base.AgreesOutside own module tree) {α : Type} (id : ModuleId)
    {question : ScriptModule → Option α} (shown : ∀ m, question m.core = question m) :
    (tree.modules[id.index]?).bind question = (base.modules[id.index]?).bind question := by
  by_cases same : id = module
  · subst same
    have core := congrArg (Option.bind · question) agrees.core
    simpa only [Option.bind_map, Function.comp_def, shown] using core
  · rw [agrees.modules id same]

theorem functionNamed? (agrees : base.AgreesOutside own module tree) (id : ModuleId) (name : String) :
    tree.functionNamed? id name = base.functionNamed? id name :=
  agrees.read id fun _ => rfl

theorem structNamed? (agrees : base.AgreesOutside own module tree) (id : ModuleId) (name : String) :
    tree.structNamed? id name = base.structNamed? id name :=
  agrees.read id fun _ => rfl

/-- The imports and the progress of the module itself may be changed. -/
theorem changeModule (agrees : base.AgreesOutside own module tree)
    {change : ScriptModule → ScriptModule} (core : ∀ m, (change m).core = m.core) :
    base.AgreesOutside own module (runFrom (Edit.changeModule module change) tree).2 := by
  rw [Edit.state_changeModule]
  refine { agrees with modules := ?_, core := ?_ }
  · intro id apart
    rw [← agrees.modules id apart,
      getElem?_modify_handle ModuleId.index_injective, if_neg (Ne.symm apart)]
  · rw [← agrees.core, getElem?_modify_handle ModuleId.index_injective, if_pos rfl, Option.map_map]
    exact congrArg (Option.map · _) (funext core)

/-- A function of the territory may be registered with its signature. -/
theorem registerFunction (agrees : base.AgreesOutside own module tree) {id : FunctionId}
    {f : ScriptFunction} (inside : own.modules f.module)
    (named : base.functionNamed? f.module f.name = some id)
    (signature : base.functionSignature? id = some f.signature) (well : f.status ≠ .failed)
    (before : base.statusOf? id ≠ some .failed) :
    base.AgreesOutside own module (runFrom (Edit.registerFunction id f) tree).2 := by
  rw [Edit.state_registerFunction ((agrees.functionNamed? _ _).trans named)]
  obtain ⟨old, known, same⟩ := Option.map_eq_some_iff.mp signature
  have signature' := (congrFun agrees.signatures id).trans signature
  refine { agrees with signatures := ?_, failed := ?_, functions := ?_ }
  · exact (functionSignature?_replace signature').trans agrees.signatures
  · intro other
    rw [← agrees.failed]
    exact failed_replace well ((agrees.failed id).not.mpr before) other
  · intro other g found outside
    dsimp only
    -- The function that is registered belongs to the territory, so it is none of these.
    rw [getElem?_modify_handle FunctionId.index_injective, if_neg,
      agrees.functions other g found outside]
    rintro rfl
    rw [known] at found
    cases found
    have belongs : old.module = f.module := congrArg FunctionSignature.module same
    exact outside (belongs ▸ inside)

end ScopeTree.AgreesOutside

/-! ### The walk seen from outside -/

section Walking

variable {base : ScopeTree} {own : Territory} {module : ModuleId}

/-- If the tree agreed with the base tree, it still does. -/
def StaysAgreeing (base : ScopeTree) (own : Territory) (module : ModuleId) (s t : AnalysisState) :
    Prop :=
  base.AgreesOutside own module s.tree → base.AgreesOutside own module t.tree

/-- What is registered has the signature that it had, under the name that it had, and it has not failed. -/
theorem staysAgreeing_registering :
    KeptByRegistering (StaysAgreeing base own module) (ExprKind.Declared base own) where
  trans _ _ _ first rest := rest ∘ first
  blind _ _ same agrees := agrees.of_sameSymbols same.modules same.functions
  function := by
    intro access name parameters body home takesClosure id analysed r s t declared pending stays gone
      registered agrees
    obtain ⟨inside, named, signature⟩ := declared
    -- It had been pending, so it has not failed in the base tree either.
    have before : base.statusOf? id ≠ some .failed := by
      refine (agrees.failed id).not.mp ?_
      simp [pending]
    simp only [Walk.registerFunction, gives_bind, gives_get] at registered
    obtain ⟨_, s, ⟨rfl, rfl⟩, registered⟩ := registered
    rw [tree_of_edit registered]
    refine (stays agrees).registerFunction inside named ?_ (by simp) before
    rw [signature, ScriptFunction.signature, gone.shapes]
  struct := by
    intro access name parameters home analysed s id t declared _ registered agrees
    obtain ⟨known, named⟩ := Option.isSome_iff_exists.mp declared
    rw [tree_of_edit registered,
      ScopeTree.Edit.state_registerStruct ((agrees.structNamed? _ _).trans named)]
    exact agrees.of_sameSymbols rfl rfl

end Walking

/-! ### Scopes seen from outside -/

/-- The scopes are the same, apart from the variables of some. -/
structure ScopeTree.SameScopes (own : Territory) (tree other : ScopeTree) : Prop where
  parents : other.parentScope? = tree.parentScope?
  belongs : other.moduleOf? = tree.moduleOf?
  count : other.scopes.size = tree.scopes.size
  declares : ∀ id name, ¬ own.scopes id → (other.Declares id name ↔ tree.Declares id name)

/-- Scopes belong to the modules they belonged to, and there are as many of them. -/
structure KeepsPlaces (s t : AnalysisState) : Prop where
  belongs : t.tree.moduleOf? = s.tree.moduleOf?
  count : t.tree.scopes.size = s.tree.scopes.size

theorem keepsPlaces_refl (s : AnalysisState) : KeepsPlaces s s := ⟨rfl, rfl⟩

theorem KeepsPlaces.trans (r s t : AnalysisState) (first : KeepsPlaces r s)
    (rest : KeepsPlaces s t) : KeepsPlaces r t :=
  ⟨rest.belongs.trans first.belongs, rest.count.trans first.count⟩

/-- An edit that leaves the scopes alone leaves them in their places. -/
theorem keepsPlaces_edit {α : Type} {change : ScopeTree.Edit α} (leaves : change.LeavesScopes) :
    Keeps KeepsPlaces (Walk.edit change) := by
  intro s
  rw [runFrom_edit_state]
  have same := leaves s.tree
  refine ⟨?_, congrArg Array.size same⟩
  unfold ScopeTree.moduleOf?
  rw [same]

theorem keepsPlaces_preserved (may : Permit) : Preserved KeepsPlaces may := by
  refine preserved_of_sameSymbols KeepsPlaces.trans (fun s t same => ⟨same.scopes, same.count⟩) ?_ ?_ ?_
  · intro access name parameters module takesClosure id _
    refine keeps_bind KeepsPlaces.trans (keeps_get keepsPlaces_refl) fun state => ?_
    exact keepsPlaces_edit (ScopeTree.Edit.leavesScopes_registerFunction _ _)
  · intro access name parameters module _
    exact keepsPlaces_edit (ScopeTree.Edit.leavesScopes_registerStruct _)
  · intro access name module takesClosure id _
    exact keepsPlaces_edit (ScopeTree.Edit.leavesScopes_changeFunction _ _)

theorem Grows.sameScopes {own : Territory} {s t : AnalysisState} (grows : Grows own.scopes s t)
    (places : KeepsPlaces s t) : s.tree.SameScopes own t.tree :=
  ⟨grows.tree.parents, places.belongs, places.count, fun id name outside =>
    ⟨grows.tree.still id name outside, grows.tree.declared id name⟩⟩

/-! ### The analysis seen from outside -/

/-- The trees differ only in what belongs to a territory, and in the imports and the progress of a
module. -/
structure ScopeTree.ChangedWithin (own : Territory) (module : ModuleId) (tree other : ScopeTree) : Prop
    extends tree.AgreesOutside own module other, tree.SameScopes own other

namespace Analysis

variable {registry : Registry} {mode : AnalysisMode} {module : ModuleId} {ast analysed : Ast}
  {own : Territory} {s t : AnalysisState}

section Related

variable {R : AnalysisState → AnalysisState → Prop} (refl : ∀ s, R s s)
  (trans : ∀ r s t, R r s → R s t → R r t)
  (changes : ∀ change : ScriptModule → ScriptModule, (∀ m, (change m).core = m.core) →
    Keeps R (Walk.edit (ScopeTree.Edit.changeModule module change)))

include refl trans changes

/-- Before its walk, an analysis changes its module, but not the core of it. -/
theorem Begins.related {context : Context} {start : AnalysisState}
    (begins : Begins registry module s context start) : R s start :=
  begins.keeps trans (changes _ fun _ => rfl) (keeps_resolveImports refl trans changes)

/-- So it does after its walk. -/
theorem related_of_gives
    (walks : ∀ context start u, Begins registry module s context start →
      Gives (Walk.exprs context ast.expressions) start analysed.expressions u → R start u)
    (given : Gives (moduleWalk registry mode module ast) s analysed t) : R s t := by
  obtain ⟨context, start, u, begins, walked, last⟩ := begins_of_gives given
  rw [Plan.run_each] at walked
  have between : R start u := walks context start u begins walked
  refine trans _ _ _ (begins.related refl trans changes) (trans _ _ _ between ?_)
  split at last
  · exact (changes (fun m => { m with stored := some analysed }) fun _ => rfl).of_gives last
  · obtain ⟨-, rfl⟩ := gives_pure.mp last
    exact refl _

end Related

theorem staysAgreeing_changeModule {base : ScopeTree} {change : ScriptModule → ScriptModule}
    (core : ∀ m, (change m).core = m.core) :
    Keeps (StaysAgreeing base own module)
      (Walk.edit (ScopeTree.Edit.changeModule module change)) := by
  intro s agrees
  rw [runFrom_edit_state]
  exact agrees.changeModule core

theorem keepsPlaces_changeModule (module : ModuleId) (change : ScriptModule → ScriptModule) :
    Keeps KeepsPlaces (Walk.edit (ScopeTree.Edit.changeModule module change)) :=
  keepsPlaces_edit (ScopeTree.Edit.leavesScopes_changeModule module change)

/-- Until its walk begins, an analysis changes nothing but the imports and the progress of its
module. -/
theorem Begins.changedWithin {context : Context} {start : AnalysisState}
    (begins : Begins registry module s context start) :
    s.tree.ChangedWithin own module start.tree where
  toAgreesOutside := begins.related (R := StaysAgreeing s.tree own module) (fun _ => id)
    (fun _ _ _ first rest => rest ∘ first) (fun _ => staysAgreeing_changeModule) (.refl s.tree)
  toSameScopes := Grows.sameScopes
    (begins.related grows_refl Grows.trans fun change _ => grows_changeModule module change)
    (begins.related keepsPlaces_refl KeepsPlaces.trans fun change _ =>
      keepsPlaces_changeModule module change)

theorem staysAgreeing_of_gives {base : ScopeTree}
    (declared : ∀ e ∈ ast.expressions, e.Declared base own)
    (given : Gives (moduleWalk registry mode module ast) s analysed t) :
    StaysAgreeing base own module s t := by
  refine related_of_gives (fun _ => id) (fun _ _ _ first rest => rest ∘ first)
    (fun _ => staysAgreeing_changeModule) (fun context start u _ walked => ?_) given
  · exact staysAgreeing_registering.of_exprs declared walked

theorem grows_of_gives (closed : own.Closed s.tree) (inside : own.modules module)
    {base : ScopeTree} (declared : ∀ e ∈ ast.expressions, e.Declared base own)
    (given : Gives (moduleWalk registry mode module ast) s analysed t) : Grows own.scopes s t := by
  refine related_of_gives grows_refl Grows.trans (fun change _ => grows_changeModule module change)
    (fun context start u begins walked => ?_) given
  · have root : own.scopes context.scope := by
      obtain ⟨m, found, rfl, -⟩ := begins
      exact closed.roots module m inside (ScopeTree.module_eq_ok.mp found)
    have kept : Keeps (Grows own.scopes) (Walk.exprs context ast.expressions) :=
      (grows_preserved own.scopes).keeps_exprs root _ fun e member =>
        (declared e member).permitted
    exact kept.of_gives walked

theorem keepsPlaces_of_gives (given : Gives (moduleWalk registry mode module ast) s analysed t) :
    KeepsPlaces s t := by
  refine related_of_gives keepsPlaces_refl KeepsPlaces.trans
    (fun change _ => keepsPlaces_changeModule module change) (fun context start u _ walked => ?_) given
  · exact ((keepsPlaces_preserved (Permit.onScopes fun _ => True)).keeps_exprs trivial _ fun e _ =>
      e.permitted_everywhere).of_gives walked

/-- A successful analysis of a tree changes nothing beyond the territory of the tree. -/
theorem changedWithin_of_gives (closed : own.Closed s.tree) (inside : own.modules module)
    (declared : ∀ e ∈ ast.expressions, e.Declared s.tree own)
    (given : Gives (moduleWalk registry mode module ast) s analysed t) :
    s.tree.ChangedWithin own module t.tree where
  toAgreesOutside := staysAgreeing_of_gives declared given (.refl s.tree)
  toSameScopes := (grows_of_gives closed inside declared given).sameScopes (keepsPlaces_of_gives given)

end Analysis
end ShellSema
