import ShellSema.Proofs.Unaffected

/-!
# What a walk leaves to be found

A walk that registers only what is declared already, or what nothing of its name stood for, leaves
everything to be found that could be found: functions keep their signature, and structs their fields.
The tree at its end recalls the tree at each of its moments.
-/
namespace ShellSema

/-- What others see of a struct. -/
structure StructSignature where
  name : String
  access : Access
  module : ModuleId
  parameters : List ParameterShape
deriving DecidableEq

def ScriptStruct.signature (struct : ScriptStruct) : StructSignature :=
  ⟨struct.name, struct.access, struct.module, shapesOf struct.parameters⟩

/-- What there is of a module without the structs that it declares. -/
def ScriptModule.withoutStructs (m : ScriptModule) : ScriptModule := { m with structs := {} }

namespace ScopeTree

variable {base tree later : ScopeTree}

def structSignature? (tree : ScopeTree) (id : StructId) : Option StructSignature :=
  (tree.structs[id.index]?).map ScriptStruct.signature

/-- The struct that a module has imported under a name. -/
def structImported? (tree : ScopeTree) (module : ModuleId) (name : String) : Option StructId :=
  (tree.modules[module.index]?).bind fun m => m.importedStructs.get? name

/-- A struct that is declared hides one that is imported. -/
theorem structSeen?_eq (tree : ScopeTree) (module : ModuleId) (name : String) :
    tree.structSeen? module name =
      (tree.structNamed? module name).or (tree.structImported? module name) := by
  unfold structSeen? structNamed? structImported?
  cases tree.modules[module.index]? <;> simp [ScriptModule.struct?, lookupDeclared]

/-- What is found in the first tree is found in the second one, which may have more structs. -/
structure Recalls (tree later : ScopeTree) : Prop where
  modules : ∀ id : ModuleId, (later.modules[id.index]?).map ScriptModule.withoutStructs =
    (tree.modules[id.index]?).map ScriptModule.withoutStructs
  signatures : later.functionSignature? = tree.functionSignature?
  failed : ∀ id, later.statusOf? id = some .failed ↔ tree.statusOf? id = some .failed
  named : ∀ module name id, tree.structNamed? module name = some id →
    later.structNamed? module name = some id
  /-- No struct comes to hide one that is imported. -/
  unhidden : ∀ module name, tree.structNamed? module name = none →
    (tree.structImported? module name).isSome → later.structNamed? module name = none
  fields : ∀ id signature, tree.structSignature? id = some signature →
    later.structSignature? id = some signature

namespace Recalls

theorem refl (tree : ScopeTree) : tree.Recalls tree :=
  ⟨fun _ => rfl, rfl, fun _ => .rfl, fun _ _ _ => id, fun _ _ absent _ => absent, fun _ _ => id⟩

variable (recalls : tree.Recalls later)

include recalls

/-- What is read from a module is the same, if it has no regard to the structs that it declares. -/
theorem read {α : Type} (id : ModuleId) {question : ScriptModule → Option α}
    (shown : ∀ m, question m.withoutStructs = question m) :
    (later.modules[id.index]?).bind question = (tree.modules[id.index]?).bind question := by
  have same := congrArg (Option.bind · question) (recalls.modules id)
  simpa only [Option.bind_map, Function.comp_def, shown] using same

theorem structImported? (module : ModuleId) (name : String) :
    later.structImported? module name = tree.structImported? module name :=
  recalls.read module fun _ => rfl

theorem functionNamed? (module : ModuleId) (name : String) :
    later.functionNamed? module name = tree.functionNamed? module name :=
  recalls.read module fun _ => rfl

theorem structSeen? {module : ModuleId} {name : String} {id : StructId}
    (seen : tree.structSeen? module name = some id) : later.structSeen? module name = some id := by
  rw [structSeen?_eq] at seen ⊢
  rw [recalls.structImported?]
  cases named : tree.structNamed? module name with
  | some other =>
    rw [named] at seen
    rw [recalls.named module name other named]
    exact seen
  | none =>
    rw [named, Option.none_or] at seen
    rw [recalls.unhidden module name named (by simp [seen]), Option.none_or]
    exact seen

/-! ### Lookups -/

theorem module_cases (id : ModuleId) :
    (tree.module id = .error (.unknownModule id) ∧ later.module id = .error (.unknownModule id)) ∨
      ∃ m m', tree.module id = .ok m ∧ later.module id = .ok m' ∧
        m'.withoutStructs = m.withoutStructs := by
  have same := recalls.modules id
  unfold ScopeTree.module
  cases here : tree.modules[id.index]? with
  | none =>
    rw [here] at same
    rw [Option.map_eq_none_iff.mp same]
    exact .inl ⟨rfl, rfl⟩
  | some m =>
    rw [here, Option.map_some] at same
    obtain ⟨m', there, same⟩ := Option.map_eq_some_iff.mp same
    rw [there]
    exact .inr ⟨m, m', rfl, rfl, same⟩

theorem sameSubmodules (inImports : Bool) (id : ModuleId) :
    tree.SameSubmodules later inImports id := by
  rcases recalls.module_cases id with missing | ⟨m, m', found, found', same⟩
  · exact .inl missing
  · refine .inr ⟨m, m', found, found', fun segment => ?_⟩
    exact congrArg (·.submodule? segment inImports) same

theorem findModule_eq (module : ModuleId) (path : List String) (inImports : Bool) :
    later.findModule module path inImports = tree.findModule module path inImports :=
  findModule_of_same (recalls.sameSubmodules false) (recalls.sameSubmodules inImports module) path

theorem findFunction_eq (module : ModuleId) (name : String) (inImports : Bool) :
    later.findFunction module name inImports = tree.findFunction module name inImports := by
  unfold findFunction
  rcases recalls.module_cases module with ⟨missing, missing'⟩ | ⟨m, m', found, found', same⟩
  · rw [missing, missing']
    rfl
  have named : m'.function? name inImports = m.function? name inImports :=
    congrArg (·.function? name inImports) same
  rw [found, found', ok_bind, ok_bind, named]
  cases m.function? name inImports with
  | none => rfl
  | some id => exact askFailed_of_same recalls.signatures recalls.failed id

/-- A struct that is found is found later. -/
theorem findStruct_eq {module : ModuleId} {name : String} {id : StructId}
    (found : tree.findStruct module name true = .ok (some id)) :
    later.findStruct module name true = .ok (some id) := by
  unfold findStruct at found ⊢
  rcases recalls.module_cases module with ⟨missing, -⟩ | ⟨m, m', here, there, -⟩
  · rw [missing] at found
    cases found
  rw [here, ok_bind] at found
  rw [there, ok_bind]
  have seen : tree.structSeen? module name = some id := by
    rw [ScopeTree.structSeen?, module_eq_ok.mp here]
    exact Except.ok.inj found
  have seen' := recalls.structSeen? seen
  rw [ScopeTree.structSeen?, module_eq_ok.mp there, Option.bind_some] at seen'
  rw [seen']
  rfl

end Recalls

/-! ### Registering structs -/

/-- The tree with a struct that is new to its module. -/
def withStruct (tree : ScopeTree) (struct : ScriptStruct) : ScopeTree :=
  { tree with
    structs := tree.structs.push struct
    modules := tree.modules.modify struct.module.index fun m =>
      { m with structs := m.structs.insert struct.name ⟨UInt32.ofNat tree.structs.size⟩ } }

/-- To register a struct is to replace the one of its name, or else to add it. -/
theorem registerStruct_cases (struct : ScriptStruct) (tree : ScopeTree) :
    (runFrom (Edit.registerStruct struct) tree).2 = tree ∨
      (∃ id, tree.structNamed? struct.module struct.name = some id ∧
        (runFrom (Edit.registerStruct struct) tree).2 =
          { tree with structs := tree.structs.modify id.index fun _ => struct }) ∨
      tree.structNamed? struct.module struct.name = none ∧ tree.structs.size < 2 ^ 32 ∧
        (tree.modules[struct.module.index]?).isSome = true ∧
        (runFrom (Edit.registerStruct struct) tree).2 = tree.withStruct struct := by
  cases named : tree.structNamed? struct.module struct.name with
  | some id => exact .inr (.inl ⟨id, rfl, Edit.state_registerStruct named⟩)
  | none =>
    unfold Edit.registerStruct
    rw [runFrom_bind, Edit.runFrom_ask]
    -- A new name can be entered only in a module that is there, and only while the store has room.
    cases known : tree.modules[struct.module.index]? with
    | none =>
      left
      rw [ScopeTree.module, known]
    | some m =>
      rw [structNamed?, known, Option.bind_some] at named
      rw [module_eq_ok.mpr known]
      simp only [named]
      rw [Edit.runFrom_declareStruct]
      split
      next room =>
        refine .inr (.inr ⟨trivial, room, rfl, ?_⟩)
        have entered := Edit.state_changeModule struct.module
          (fun m => { m with structs := m.structs.insert struct.name ⟨UInt32.ofNat tree.structs.size⟩ })
          { tree with structs := tree.structs.push struct }
        split
        next ended => rw [ended] at entered; exact entered
        next ended => rw [ended] at entered; exact entered
      next => exact .inl rfl

section WithStruct

variable {struct : ScriptStruct}

theorem structNamed?_withStruct (known : (tree.modules[struct.module.index]?).isSome = true)
    (module : ModuleId) (name : String) :
    (tree.withStruct struct).structNamed? module name =
      if module = struct.module ∧ name = struct.name then some ⟨UInt32.ofNat tree.structs.size⟩
      else tree.structNamed? module name := by
  unfold structNamed? withStruct
  dsimp only
  rw [getElem?_modify_handle ModuleId.index_injective]
  by_cases home : module = struct.module
  · subst home
    obtain ⟨m, found⟩ := Option.isSome_iff_exists.mp known
    simp [found]
  · rw [if_neg (Ne.symm home), if_neg fun both => home both.1]

theorem modules_withStruct (id : ModuleId) :
    ((tree.withStruct struct).modules[id.index]?).map ScriptModule.withoutStructs =
      (tree.modules[id.index]?).map ScriptModule.withoutStructs := by
  unfold withStruct
  dsimp only
  rw [getElem?_modify_handle ModuleId.index_injective]
  split
  · rw [Option.map_map]
    rfl
  · rfl

theorem structSignature?_withStruct (room : tree.structs.size < 2 ^ 32) (id : StructId) :
    (tree.withStruct struct).structSignature? id =
      if id = ⟨UInt32.ofNat tree.structs.size⟩ then some struct.signature
      else tree.structSignature? id := by
  have index : (⟨UInt32.ofNat tree.structs.size⟩ : StructId).index = tree.structs.size :=
    UInt32.toNat_ofNat_of_lt' room
  unfold structSignature? withStruct
  dsimp only
  rw [Array.getElem?_push]
  by_cases new : id = ⟨UInt32.ofNat tree.structs.size⟩
  · rw [if_pos (new ▸ index), if_pos new]
    rfl
  · rw [if_neg, if_neg new]
    intro same
    exact new (StructId.index_injective (same.trans index.symm))

end WithStruct

theorem structSignature?_replace (id other : StructId) (struct : ScriptStruct) :
    structSignature? { tree with structs := tree.structs.modify id.index fun _ => struct } other =
      if id = other then (tree.structSignature? other).map fun _ => struct.signature
      else tree.structSignature? other := by
  unfold structSignature?
  dsimp only
  rw [getElem?_modify_handle StructId.index_injective]
  split
  · rw [Option.map_map, Option.map_map]
    rfl
  · rfl

/-! ### What registering leaves -/

/-- The declaration of a struct shows in the second tree, changes nothing that shows in the first one,
and hides nothing that is imported. -/
structure KeepsStruct (base final : ScopeTree) (struct : StructSignature) : Prop where
  lasting : ∃ id, final.structNamed? struct.module struct.name = some id ∧
    final.structSignature? id = some struct
  unchanged : ∀ id, base.structNamed? struct.module struct.name = some id →
    base.structSignature? id = some struct
  unhiding : base.structNamed? struct.module struct.name = none →
    final.structImported? struct.module struct.name = none

/-- The second tree recalls the first one, and has new structs where the first one has none. -/
structure Registered (base tree : ScopeTree) : Prop extends base.Recalls tree where
  fresh : ∀ module name id, tree.structNamed? module name = some id →
    base.structNamed? module name = some id ∨ base.structs.size ≤ id.index
  count : base.structs.size ≤ tree.structs.size

/-- Structs keep their names, and those that come to have other fields have the ones of the final
tree. -/
structure Registers (tree final later : ScopeTree) : Prop where
  named : ∀ module name id, tree.structNamed? module name = some id →
    later.structNamed? module name = some id
  fields : ∀ id signature, later.structSignature? id = some signature →
    tree.structSignature? id = some signature ∨
      ∃ module name id', later.structNamed? module name = some id ∧
        final.structNamed? module name = some id' ∧ final.structSignature? id' = some signature

variable {final : ScopeTree}

theorem Registered.refl (tree : ScopeTree) : tree.Registered tree :=
  ⟨.refl tree, fun _ _ _ => .inl, Nat.le_refl _⟩

theorem Registered.of_same (registered : base.Registered tree) (modules : later.modules = tree.modules)
    (structs : later.structs = tree.structs)
    (signatures : later.functionSignature? = tree.functionSignature?)
    (failed : ∀ id, later.statusOf? id = some .failed ↔ tree.statusOf? id = some .failed) :
    base.Registered later where
  modules := by rw [modules]; exact registered.modules
  signatures := signatures.trans registered.signatures
  failed id := (failed id).trans (registered.failed id)
  named := by unfold structNamed?; rw [modules]; exact registered.named
  unhidden := by unfold structNamed?; rw [modules]; exact registered.unhidden
  fields := by unfold structSignature?; rw [structs]; exact registered.fields
  fresh := by unfold structNamed?; rw [modules]; exact registered.fresh
  count := by rw [structs]; exact registered.count

theorem Registers.of_same (modules : later.modules = tree.modules)
    (structs : later.structs = tree.structs) : tree.Registers final later where
  named := by unfold structNamed?; rw [modules]; exact fun _ _ _ => id
  fields := by unfold structSignature?; rw [structs]; exact fun _ _ => .inl

theorem Registers.trans {last : ScopeTree} (first : tree.Registers final later)
    (rest : later.Registers final last) : tree.Registers final last where
  named module name id found := rest.named module name id (first.named module name id found)
  fields id signature found := by
    rcases rest.fields id signature found with before | other
    · rcases first.fields id signature before with early | ⟨module, name, id', named, same⟩
      · exact .inl early
      · exact .inr ⟨module, name, id', rest.named module name id named, same⟩
    · exact .inr other

/-- A struct is replaced by one with the same fields, or it is one that the walk has added. -/
theorem Registered.replace (registered : base.Registered tree) {struct : ScriptStruct} {id : StructId}
    (kept : base.KeepsStruct final struct.signature)
    (named : tree.structNamed? struct.module struct.name = some id) :
    base.Registered { tree with structs := tree.structs.modify id.index fun _ => struct } ∧
      tree.Registers final { tree with structs := tree.structs.modify id.index fun _ => struct } := by
  constructor
  · refine { registered with fields := ?_, count := ?_ }
    · intro other signature found
      have before := registered.fields other signature found
      rw [structSignature?_replace]
      split
      next same =>
        subst same
        rw [before, Option.map_some]
        -- A struct of the base keeps its fields when it is replaced. Of a new one the base knows
        -- nothing.
        rcases registered.fresh _ _ _ named with early | new
        · exact (kept.unchanged id early).symm.trans found
        · rw [structSignature?, Array.getElem?_eq_none new] at found
          cases found
      next => exact before
    · rw [Array.size_modify]
      exact registered.count
  · refine ⟨fun _ _ _ found => found, fun other signature found => ?_⟩
    rw [structSignature?_replace] at found
    split at found
    next same =>
      subst same
      obtain ⟨_, -, rfl⟩ := Option.map_eq_some_iff.mp found
      obtain ⟨id', last, shown⟩ := kept.lasting
      exact .inr ⟨_, _, id', named, last, shown⟩
    next => exact .inl found

/-- A struct is added under a name that stood for nothing. -/
theorem Registered.add (registered : base.Registered tree) {struct : ScriptStruct}
    (kept : base.KeepsStruct final struct.signature)
    (imports : ∀ module name, base.structImported? module name = final.structImported? module name)
    (absent : tree.structNamed? struct.module struct.name = none)
    (known : (tree.modules[struct.module.index]?).isSome = true) (room : tree.structs.size < 2 ^ 32) :
    base.Registered (tree.withStruct struct) ∧ tree.Registers final (tree.withStruct struct) := by
  have index : (⟨UInt32.ofNat tree.structs.size⟩ : StructId).index = tree.structs.size :=
    UInt32.toNat_ofNat_of_lt' room
  have unknown : tree.structSignature? ⟨UInt32.ofNat tree.structs.size⟩ = none := by
    rw [structSignature?, Array.getElem?_eq_none (Nat.le_of_eq index.symm)]
    rfl
  -- The new struct has a name that no other one has in its module, and a place that was free.
  have persists (module : ModuleId) (name : String) (id : StructId)
      (found : tree.structNamed? module name = some id) :
      (tree.withStruct struct).structNamed? module name = some id := by
    rw [structNamed?_withStruct known, if_neg]
    · exact found
    · rintro ⟨rfl, rfl⟩
      rw [absent] at found
      cases found
  constructor
  · refine ⟨⟨?_, registered.signatures, registered.failed, ?_, ?_, ?_⟩, ?_, ?_⟩
    · exact fun id => (modules_withStruct id).trans (registered.modules id)
    · exact fun module name id found => persists _ _ _ (registered.named module name id found)
    · intro module name missing imported
      rw [structNamed?_withStruct known, if_neg]
      · exact registered.unhidden module name missing imported
      · rintro ⟨rfl, rfl⟩
        have nothing : final.structImported? struct.module struct.name = none := kept.unhiding missing
        rw [imports, nothing] at imported
        cases imported
    · intro id signature found
      have before := registered.fields id signature found
      rw [structSignature?_withStruct room, if_neg]
      · exact before
      · rintro rfl
        rw [unknown] at before
        cases before
    · intro module name id found
      rw [structNamed?_withStruct known] at found
      split at found
      · cases found
        exact .inr (by rw [index]; exact registered.count)
      · exact registered.fresh module name id found
    · exact Nat.le_trans registered.count (by simp [withStruct])
  · refine ⟨persists, fun id signature found => ?_⟩
    rw [structSignature?_withStruct room] at found
    split at found
    next same =>
      subst same
      cases found
      obtain ⟨id', last, shown⟩ := kept.lasting
      refine .inr ⟨struct.module, struct.name, id', ?_, last, shown⟩
      rw [structNamed?_withStruct known, if_pos ⟨rfl, rfl⟩]
    next => exact .inl found

/-- What the final tree recalls, it recalls after some more has been registered. -/
theorem Recalls.registers (recalls : tree.Recalls final) (before : base.Registered tree)
    (after : base.Registered later) (registers : tree.Registers final later)
    (named : ∀ module name id, later.structNamed? module name = some id →
      final.structNamed? module name = some id) : later.Recalls final where
  modules id := (recalls.modules id).trans ((before.modules id).trans (after.modules id).symm)
  signatures := recalls.signatures.trans (before.signatures.trans after.signatures.symm)
  failed id := (recalls.failed id).trans ((before.failed id).trans (after.failed id).symm)
  named := named
  unhidden module name absent imported := by
    have absent' : tree.structNamed? module name = none := by
      rw [Option.eq_none_iff_forall_ne_some] at absent ⊢
      exact fun id found => absent id (registers.named module name id found)
    rw [after.structImported?, ← before.structImported?] at imported
    exact recalls.unhidden module name absent' imported
  fields id signature found := by
    rcases registers.fields id signature found with early | ⟨module, name, id', here, last, shown⟩
    · exact recalls.fields id signature early
    · rw [named module name id here] at last
      cases last
      exact shown

end ScopeTree

/-- A function is declared already, with the signature that it has here, and a struct lasts. -/
def ExprKind.Repeatable (base final : ScopeTree) : ExprKind → Prop
  | .functionDecl access name parameters _ module takesClosure id =>
    base.functionNamed? module name.text = some id ∧
      base.functionSignature? id =
        some ⟨name.text, access, module, takesClosure, shapesOf parameters⟩
  | .structDecl access name parameters module =>
    base.KeepsStruct final ⟨name.text, access, module, shapesOf parameters⟩
  | _ => True

namespace ScopeTree

variable {base final : ScopeTree} {struct : StructSignature}

theorem keepsStruct_iff : base.KeepsStruct final struct ↔
    (final.structNamed? struct.module struct.name).bind final.structSignature? = some struct ∧
      (∀ id ∈ base.structNamed? struct.module struct.name, base.structSignature? id = some struct) ∧
      (base.structNamed? struct.module struct.name = none →
        final.structImported? struct.module struct.name = none) := by
  rw [Option.bind_eq_some_iff]
  exact ⟨fun keeps => ⟨keeps.lasting, keeps.unchanged, keeps.unhiding⟩,
    fun ⟨lasting, unchanged, unhiding⟩ => ⟨lasting, unchanged, unhiding⟩⟩

instance : Decidable (base.KeepsStruct final struct) := decidable_of_iff' _ keepsStruct_iff

end ScopeTree

instance ExprKind.decidableRepeatable (base final : ScopeTree) (kind : ExprKind) :
    Decidable (kind.Repeatable base final) := by
  -- By the eliminator itself, so that the instance carries no equations.
  induction kind using ExprKind.casesOn <;> dsimp only [ExprKind.Repeatable] <;> infer_instance

/-- What is found in the first tree of a walk is found at each of its moments. -/
theorem registers_registering {base final : ScopeTree}
    (imports : ∀ module name, base.structImported? module name = final.structImported? module name) :
    KeptByRegistering (fun s t => base.Registered s.tree →
      base.Registered t.tree ∧ s.tree.Registers final t.tree) (ExprKind.Repeatable base final) where
  trans r s t first rest registered := by
    obtain ⟨registered', registers⟩ := first registered
    obtain ⟨registered'', registers'⟩ := rest registered'
    exact ⟨registered'', registers.trans registers'⟩
  blind s t same registered := by
    refine ⟨registered.of_same same.modules same.structs ?_ ?_, .of_same same.modules same.structs⟩
    · unfold ScopeTree.functionSignature?
      rw [same.functions]
    · unfold ScopeTree.statusOf?
      rw [same.functions]
      exact fun _ => .rfl
  function := by
    intro access name parameters body home takesClosure id analysed r s t declared pending between
      gone given before
    obtain ⟨named, signature⟩ := declared
    obtain ⟨registered, registers⟩ := between before
    simp only [Walk.registerFunction, gives_bind, gives_get] at given
    obtain ⟨_, s, ⟨rfl, rfl⟩, given⟩ := given
    rw [tree_of_edit given,
      ScopeTree.Edit.state_registerFunction ((registered.functionNamed? _ _).trans named)]
    -- It had been pending, so it has not failed.
    have well : s.tree.statusOf? id ≠ some .failed := by
      rw [ne_eq, registered.failed, ← before.failed, pending]
      simp
    have same : s.tree.functionSignature? id = some (ScriptFunction.signature
        { name := name.text, access, module := home, parameters := analysed, takesClosure,
          carrierCaptured := s.carrierCaptured.contains id, status := .analysed }) := by
      rw [registered.signatures, signature, ScriptFunction.signature, gone.shapes]
    constructor
    · refine registered.of_same rfl rfl (ScopeTree.functionSignature?_replace same) ?_
      exact ScopeTree.failed_replace (by simp) well
    · exact registers.trans (.of_same rfl rfl)
  struct := by
    intro access name parameters home analysed s id t declared gone given registered
    have kept : base.KeepsStruct final (ScriptStruct.signature
        { name := name.text, access, module := home, parameters := analysed }) := by
      rw [ScriptStruct.signature, gone.shapes]
      exact declared
    rw [tree_of_edit given]
    rcases ScopeTree.registerStruct_cases _ s.tree with
      same | ⟨id, named, same⟩ | ⟨absent, room, known, same⟩
    · rw [same]
      exact ⟨registered, .of_same rfl rfl⟩
    · rw [same]
      exact registered.replace kept named
    · rw [same]
      exact registered.add kept imports absent known room

end ShellSema
