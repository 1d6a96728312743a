import ShellSema.Proofs.ClosureOwners
import ShellSema.Proofs.Noting
import ShellSema.Proofs.Recalling

/-!
# From a moment of a walk to its end

Whatever a walk declares, from each of its moments to its end scopes keep their places and names,
structs their names, closures their owners, and what is noted stays noted. A tree that resembles the
one at the end answers like it.
-/
namespace ShellSema

/-! ### Names of structs -/

/-- Structs keep their names, and modules what they import. -/
structure KeepsStructNames (s t : AnalysisState) : Prop where
  named : ∀ module name id, s.tree.structNamed? module name = some id →
    t.tree.structNamed? module name = some id
  imported : t.tree.structImported? = s.tree.structImported?

theorem keepsStructNames_of_same {s t : AnalysisState} (modules : t.tree.modules = s.tree.modules) :
    KeepsStructNames s t := by
  constructor
  · unfold ScopeTree.structNamed?
    rw [modules]
    exact fun _ _ _ named => named
  · unfold ScopeTree.structImported?
    rw [modules]

theorem KeepsStructNames.trans (r s t : AnalysisState) (first : KeepsStructNames r s)
    (rest : KeepsStructNames s t) : KeepsStructNames r t :=
  ⟨fun module name id named => rest.named module name id (first.named module name id named),
    rest.imported.trans first.imported⟩

/-- A change of a module that leaves its table of structs leaves the names of structs. -/
theorem ScopeTree.structNamed?_changeModule (id : ModuleId) {change : ScriptModule → ScriptModule}
    (structs : ∀ m, (change m).structs = m.structs) (tree : ScopeTree) :
    (runFrom (Edit.changeModule id change) tree).2.structNamed? = tree.structNamed? := by
  rw [Edit.state_changeModule]
  funext module name
  unfold structNamed?
  dsimp only
  rw [getElem?_modify_handle ModuleId.index_injective]
  split
  · rw [Option.bind_map]
    simp only [Function.comp_def, structs]
  · rfl

theorem keepsStructNames_changeModule (id : ModuleId) {change : ScriptModule → ScriptModule}
    (structs : ∀ m, (change m).structs = m.structs)
    (imported : ∀ m, (change m).importedStructs = m.importedStructs) :
    Keeps KeepsStructNames (Walk.edit (ScopeTree.Edit.changeModule id change)) := by
  intro s
  rw [runFrom_edit_state]
  constructor
  · dsimp only
    rw [ScopeTree.structNamed?_changeModule id structs]
    exact fun _ _ _ named => named
  · funext module name
    dsimp only
    rw [ScopeTree.Edit.state_changeModule]
    unfold ScopeTree.structImported?
    dsimp only
    rw [getElem?_modify_handle ModuleId.index_injective]
    split
    · rw [Option.bind_map]
      simp only [Function.comp_def, imported]
    · rfl

theorem keepsStructNames_registerStruct (struct : ScriptStruct) :
    Keeps KeepsStructNames (Walk.edit (ScopeTree.Edit.registerStruct struct)) := by
  intro s
  rw [runFrom_edit_state]
  rcases ScopeTree.registerStruct_cases struct s.tree with
    same | ⟨id, -, same⟩ | ⟨absent, -, known, same⟩
  · rw [same]
    exact keepsStructNames_of_same rfl
  · rw [same]
    exact keepsStructNames_of_same rfl
  · rw [same]
    refine ⟨fun module name id named => ?_, ?_⟩
    · dsimp only
      rw [ScopeTree.structNamed?_withStruct known, if_neg]
      · exact named
      · rintro ⟨rfl, rfl⟩
        rw [absent] at named
        cases named
    · funext module name
      have modules : (s.tree.withStruct struct).modules[module.index]?.map ScriptModule.withoutStructs =
          _ := ScopeTree.modules_withStruct module
      have imported := congrArg (Option.bind · fun m => m.importedStructs.get? name) modules
      rwa [Option.bind_map, Option.bind_map] at imported

theorem keepsStructNames_preserved (may : Permit) : Preserved KeepsStructNames may := by
  have trans := KeepsStructNames.trans
  have refl (s : AnalysisState) : KeepsStructNames s s := keepsStructNames_of_same rfl
  have replaced (id : FunctionId) (change : ScriptFunction → ScriptFunction) :
      Keeps KeepsStructNames (Walk.edit (ScopeTree.Edit.changeFunction id change)) := by
    intro s
    rw [runFrom_edit_state, ScopeTree.Edit.state_changeFunction]
    exact keepsStructNames_of_same rfl
  refine preserved_of_sameSymbols trans (fun s t same => keepsStructNames_of_same same.modules) ?_ ?_ ?_
  · intro access name parameters module takesClosure id _
    refine keeps_bind trans (keeps_get refl) fun state => ?_
    apply keeps_registerFunction trans
    · exact replaced _ _
    · exact keepsStructNames_changeModule _ (fun _ => rfl) fun _ => rfl
  · exact fun access name parameters module _ => keepsStructNames_registerStruct _
  · exact fun access name module takesClosure id _ => replaced _ _

/-! ### Relations of the structs -/

section OfStructs

variable {R : AnalysisState → AnalysisState → Prop} {may : Permit}
  (same : ∀ s t, t.tree.structNamed? = s.tree.structNamed? → t.tree.structs = s.tree.structs → R s t)

include same

theorem keeps_changeModule_of_structs (id : ModuleId) {change : ScriptModule → ScriptModule}
    (structs : ∀ m, (change m).structs = m.structs) :
    Keeps R (Walk.edit (ScopeTree.Edit.changeModule id change)) := by
  intro s
  rw [runFrom_edit_state]
  apply same _ _ (ScopeTree.structNamed?_changeModule id structs s.tree)
  dsimp only
  rw [ScopeTree.Edit.state_changeModule]

theorem keeps_changeModule_of_core (id : ModuleId) {change : ScriptModule → ScriptModule}
    (core : ∀ m, (change m).core = m.core) :
    Keeps R (Walk.edit (ScopeTree.Edit.changeModule id change)) := by
  apply keeps_changeModule_of_structs same
  intro m
  show (change m).core.structs = m.core.structs
  rw [core]

/-- A relation that has regard to nothing but structs is kept if it is where a struct takes the place of
the one that its module knows by its name, and where one is added that its module does not know. -/
theorem preserved_of_structs (trans : ∀ r s t, R r s → R s t → R r t)
    (replaced : ∀ s t struct id, (∃ name : Token,
        may.struct struct.access name struct.module ∧ struct.name = name.text) →
      s.tree.structNamed? struct.module struct.name = some id →
      t.tree = { s.tree with structs := s.tree.structs.modify id.index fun _ => struct } → R s t)
    (added : ∀ s t struct, (∃ name : Token,
        may.struct struct.access name struct.module ∧ struct.name = name.text) →
      s.tree.structNamed? struct.module struct.name = none → s.tree.structs.size < 2 ^ 32 →
      (s.tree.modules[struct.module.index]?).isSome = true → t.tree = s.tree.withStruct struct →
      R s t) : Preserved R may := by
  have refl (s : AnalysisState) : R s s := same s s rfl rfl
  have changed (id : FunctionId) (change : ScriptFunction → ScriptFunction) :
      Keeps R (Walk.edit (ScopeTree.Edit.changeFunction id change)) := by
    intro s
    rw [runFrom_edit_state, ScopeTree.Edit.state_changeFunction]
    exact same _ _ rfl rfl
  apply preserved_of_sameSymbols trans
  · intro s t symbols
    refine same s t ?_ symbols.structs
    unfold ScopeTree.structNamed?
    rw [symbols.modules]
  · intro access name parameters module takesClosure id _
    refine keeps_bind trans (keeps_get refl) fun state => ?_
    exact keeps_registerFunction trans (changed _ _)
      (keeps_changeModule_of_structs same _ fun _ => rfl)
  · intro access name parameters module allowed s
    rw [runFrom_edit_state]
    -- A struct is refused, takes the place of one with its name, or comes last.
    rcases ScopeTree.registerStruct_cases _ s.tree with
      ended | ⟨id, known, ended⟩ | ⟨absent, room, known, ended⟩
    · rw [ended]
      exact refl s
    · exact replaced s _ _ id ⟨name, allowed, rfl⟩ known ended
    · exact added s _ _ ⟨name, allowed, rfl⟩ absent room known ended
  · exact fun access name module takesClosure id _ => changed _ _

end OfStructs

/-! ### Functions that have been met -/

/-- No function becomes pending. -/
def KeepsMet (s t : AnalysisState) : Prop :=
  ∀ id, t.tree.statusOf? id = some .pending → s.tree.statusOf? id = some .pending

theorem keepsMet_of_same {s t : AnalysisState} (functions : t.tree.functions = s.tree.functions) :
    KeepsMet s t := by
  unfold KeepsMet ScopeTree.statusOf?
  rw [functions]
  exact fun _ => id

theorem KeepsMet.trans (r s t : AnalysisState) (first : KeepsMet r s) (rest : KeepsMet s t) :
    KeepsMet r t :=
  fun id pending => first id (rest id pending)

theorem keepsMet_changeFunction (id : FunctionId) {change : ScriptFunction → ScriptFunction}
    (met : ∀ f, (change f).status ≠ .pending) :
    Keeps KeepsMet (Walk.edit (ScopeTree.Edit.changeFunction id change)) := by
  intro s
  rw [runFrom_edit_state, ScopeTree.Edit.state_changeFunction]
  intro other pending
  unfold ScopeTree.statusOf? at pending ⊢
  dsimp only at pending
  rw [getElem?_modify_handle FunctionId.index_injective] at pending
  split at pending
  · rw [Option.map_map] at pending
    obtain ⟨f, -, impossible⟩ := Option.map_eq_some_iff.mp pending
    exact absurd impossible (met f)
  · exact pending

theorem keepsMet_changeModule (id : ModuleId) (change : ScriptModule → ScriptModule) :
    Keeps KeepsMet (Walk.edit (ScopeTree.Edit.changeModule id change)) := by
  intro s
  rw [runFrom_edit_state, ScopeTree.Edit.state_changeModule]
  exact keepsMet_of_same rfl

theorem keepsMet_preserved (may : Permit) : Preserved KeepsMet may := by
  refine preserved_of_sameSymbols KeepsMet.trans (fun s t same => keepsMet_of_same same.functions)
    ?_ ?_ ?_
  · intro access name parameters module takesClosure id _
    refine keeps_bind KeepsMet.trans (keeps_get fun _ => keepsMet_of_same rfl) fun state => ?_
    apply keeps_registerFunction KeepsMet.trans
    · exact keepsMet_changeFunction id fun _ => Status.noConfusion
    · exact keepsMet_changeModule _ _
  · intro access name parameters module _ s
    rw [runFrom_edit_state]
    rcases ScopeTree.registerStruct_cases _ s.tree with same | ⟨id, -, same⟩ | ⟨-, -, -, same⟩
    all_goals
      rw [same]
      exact keepsMet_of_same rfl
  · exact fun access name module takesClosure id _ =>
      keepsMet_changeFunction id fun _ => Status.noConfusion

/-! ### What stays -/

/-- The second state is as far as the first one in all that a walk does not take back. -/
def Onward (s t : AnalysisState) : Prop :=
  (Grows (fun _ => True) s t ∧ KeepsPlaces s t) ∧ KeepsOwners s t ∧ KeepsStructNames s t ∧ KeepsMet s t

theorem onward_preserved : Preserved Onward (Permit.onScopes fun _ => True) :=
  ((grows_preserved _).and (keepsPlaces_preserved _)).and
    (keepsOwners_preserved.and ((keepsStructNames_preserved _).and (keepsMet_preserved _)))

namespace Onward

variable {s t : AnalysisState} (onward : Onward s t)

include onward

theorem grows : Grows (fun _ => True) s t := onward.1.1

theorem places : KeepsPlaces s t := onward.1.2

theorem owners : KeepsOwners s t := onward.2.1

theorem names : KeepsStructNames s t := onward.2.2.1

theorem met : KeepsMet s t := onward.2.2.2

end Onward

theorem Visit.onward_of_gives {v : Visit} {r : Expr} {t : AnalysisState} (given : v.Gives r t) :
    Onward v.before t :=
  (onward_preserved.keeps_expr v.source.permitted_everywhere (.inl trivial)).of_gives given

namespace ScopeTree

variable {scopes : ScopeId → Prop} {tree later : ScopeTree} {name : String}

theorem GrowsTo.scope_cases (grows : GrowsTo scopes tree later)
    (belongs : later.moduleOf? = tree.moduleOf?) (id : ScopeId) :
    (tree.scope id = .error (.unknownScope id) ∧ later.scope id = .error (.unknownScope id)) ∨
      ∃ scope scope', tree.scope id = .ok scope ∧ later.scope id = .ok scope' ∧
        scope'.parent = scope.parent ∧
        ∀ name, scope.locals.contains name = true → scope'.locals.contains name = true := by
  have module := congrFun belongs id
  unfold moduleOf? at module
  -- A scope that is there belongs to a module in both trees, and one that is not belongs to none.
  cases here : tree.scopes[id.index]? with
  | none =>
    rw [here, Option.map_none] at module
    have there := Option.map_eq_none_iff.mp module
    left
    unfold ScopeTree.scope
    rw [here, there]
    exact ⟨rfl, rfl⟩
  | some scope =>
    rw [here, Option.map_some] at module
    obtain ⟨scope', there, -⟩ := Option.map_eq_some_iff.mp module
    have found : tree.scope id = .ok scope := scope_eq_ok.mpr here
    have found' : later.scope id = .ok scope' := scope_eq_ok.mpr there
    refine .inr ⟨scope, scope', found, found', ?_, fun name contains => ?_⟩
    · rw [← parentScope?_eq found, ← parentScope?_eq found', grows.parents]
    · rw [contains_iff_declares found']
      exact grows.declared id name ((contains_iff_declares found).mp contains)

/-- A name that is found is found later, perhaps in a scope further in. -/
theorem GrowsTo.declaringWithin (grows : GrowsTo scopes tree later)
    (belongs : later.moduleOf? = tree.moduleOf?) {steps : Nat} {id declaring : ScopeId}
    (answered : tree.declaringWithin name steps id = .ok (some declaring)) :
    ∃ declaring', later.declaringWithin name steps id = .ok (some declaring') := by
  induction steps generalizing id with
  | zero => cases answered
  | succ steps ih =>
    unfold ScopeTree.declaringWithin at answered ⊢
    rcases grows.scope_cases belongs id with ⟨missing, -⟩ | ⟨scope, scope', found, found', parent, kept⟩
    · rw [missing] at answered
      cases answered
    rw [found, ok_bind] at answered
    rw [found', ok_bind, parent]
    -- The later tree may declare the name earlier on the way, and then it finds that declaration.
    by_cases here' : scope'.locals.contains name = true
    · rw [if_pos here']
      exact ⟨id, rfl⟩
    · rw [if_neg here']
      rw [if_neg fun here => here' (kept name here)] at answered
      cases outward : scope.parent with
      | none => rw [outward] at answered; cases answered
      | some outer =>
        rw [outward] at answered
        exact ih answered

/-- Where no scope between two places declares a name, none has declared it before. -/
theorem GrowsTo.declaredWithin (grows : GrowsTo scopes tree later)
    (belongs : later.moduleOf? = tree.moduleOf?) {steps : Nat} {id last : ScopeId}
    (answered : later.declaredWithin name last steps id = .ok false) :
    tree.declaredWithin name last steps id = .ok false := by
  induction steps generalizing id with
  | zero => cases answered
  | succ steps ih =>
    unfold ScopeTree.declaredWithin declaresHere at answered ⊢
    rcases grows.scope_cases belongs id with ⟨-, missing⟩ | ⟨scope, scope', found, found', parent, kept⟩
    · rw [missing] at answered
      cases answered
    simp only [found', ok_bind, parent] at answered
    simp only [found, ok_bind]
    by_cases here' : scope'.locals.contains name = true
    · rw [here'] at answered
      cases answered
    -- What the later tree does not declare, the earlier one does not declare either.
    have here : scope.locals.contains name = false :=
      Bool.eq_false_iff.mpr fun here => here' (kept name here)
    rw [Bool.eq_false_iff.mpr here'] at answered
    rw [here]
    by_cases atEnd : id = last
    · rw [pure_bind, if_neg Bool.false_ne_true, if_pos atEnd]
      rfl
    · simp only [pure_bind, Bool.false_eq_true, if_false, atEnd] at answered ⊢
      cases outward : scope.parent with
      | none => rfl
      | some outer =>
        rw [outward] at answered
        exact ih answered

end ScopeTree

/-! ### What is noted -/

/-- What has been noted stays, and more is noted after it. -/
def KeepsNoted (s t : AnalysisState) : Prop :=
  ∀ noted, s.tokens = some noted → ∃ more, t.tokens = some (noted ++ more)

theorem keepsNoted_of_same {s t : AnalysisState} (same : t.tokens = s.tokens) : KeepsNoted s t := by
  intro noted found
  exact ⟨#[], by rw [same, found, Array.append_empty]⟩

theorem KeepsNoted.trans (r s t : AnalysisState) (first : KeepsNoted r s) (rest : KeepsNoted s t) :
    KeepsNoted r t := by
  intro noted found
  obtain ⟨more, found'⟩ := first noted found
  obtain ⟨more', found''⟩ := rest _ found'
  exact ⟨more ++ more', by rw [found'', Array.append_assoc]⟩

theorem keepsNoted_preserved (may : Permit) : Preserved KeepsNoted may := by
  have silent {α : Type} {action : Walk α} (silent : Silent action) : Keeps KeepsNoted action :=
    fun s => keepsNoted_of_same (silent s)
  have settled : Settled KeepsNoted may :=
    { refl := fun _ => keepsNoted_of_same rfl
      trans := KeepsNoted.trans
      note := fun s span category noted found => ⟨#[⟨span, category⟩], by
        rw [found, Option.map_some, Array.push_eq_append]⟩
      support := fun _ _ _ _ _ _ _ => keepsNoted_of_same rfl
      declare := fun _ _ _ => silent (silent_edit _)
      registerFunction := fun _ _ _ _ _ _ _ => silent (silent_registerFunction _ _ _ _ _ _)
      registerStruct := fun _ _ _ _ _ => silent (silent_edit _)
      failFunction := fun _ _ _ _ _ _ => silent (silent_edit _)
      capture := fun _ _ _ => keepsNoted_of_same rfl
      mark := fun _ _ => silent (silent_edit _) }
  exact settled.preserved (fun _ _ _ => keepsNoted_of_same rfl) (fun _ => silent fun _ => rfl)
    fun _ _ _ => keepsNoted_of_same rfl

/-! ### Trees that resemble each other -/

/-- The second tree has the symbols of the first one, and its scopes, which declare the same names. -/
structure ScopeTree.Resembles (tree other : ScopeTree) : Prop
    extends tree.SameScopes ⟨fun _ => False, fun _ => False⟩ other where
  modules : other.modules = tree.modules
  functions : other.functions = tree.functions
  fields : other.structSignature? = tree.structSignature?
  structs : other.structs.size = tree.structs.size

namespace ScopeTree.Resembles

variable {tree other : ScopeTree} {name : String}

theorem refl (tree : ScopeTree) : tree.Resembles tree :=
  ⟨⟨rfl, rfl, rfl, fun _ _ _ => .rfl⟩, rfl, rfl, rfl, rfl⟩

/-- No symbol changes and no name is declared. -/
theorem grown {s t : AnalysisState} (resembles : tree.Resembles s.tree) (same : SameSymbols s t)
    (grows : Grows (fun _ => False) s t) : tree.Resembles t.tree where
  parents := grows.tree.parents.trans resembles.parents
  belongs := same.scopes.trans resembles.belongs
  count := same.count.trans resembles.count
  declares id name outside := by
    rw [← resembles.declares id name outside]
    exact ⟨grows.tree.still id name not_false, grows.tree.declared id name⟩
  modules := same.modules.trans resembles.modules
  functions := same.functions.trans resembles.functions
  fields := by
    rw [← resembles.fields]
    unfold structSignature?
    rw [same.structs]
  structs := (congrArg Array.size same.structs).trans resembles.structs

private theorem outward (inner outer : ScopeId) (_ : True)
    (_ : tree.parentScope? inner = some outer) : True :=
  trivial

variable (resembles : tree.Resembles other)

include resembles

theorem declares_iff (id : ScopeId) (name : String) : other.Declares id name ↔ tree.Declares id name :=
  resembles.declares id name not_false

theorem isVisible_eq (id : ScopeId) (name : String) : other.isVisible id name = tree.isVisible id name :=
  resembles.toSameScopes.isVisible_eq outward (fun _ _ => not_false) trivial

theorem declaredBetween_eq (first last : ScopeId) (name : String) :
    other.declaredBetween name first last = tree.declaredBetween name first last :=
  resembles.toSameScopes.declaredBetween_eq outward (fun _ _ => not_false) trivial

/-- A struct is replaced by one with the same fields. -/
theorem replaceStruct {struct : ScriptStruct} {id : StructId}
    (shown : tree.structSignature? id = some struct.signature) :
    tree.Resembles { other with structs := other.structs.modify id.index fun _ => struct } where
  toSameScopes := { resembles.toSameScopes with }
  modules := resembles.modules
  functions := resembles.functions
  fields := by
    funext found
    rw [structSignature?_replace, resembles.fields]
    split
    next same =>
      subst same
      rw [shown, Option.map_some]
    next => rfl
  structs := Array.size_modify.trans resembles.structs

/-- What is found in a tree is found in one that resembles it. -/
theorem recalls {earlier : ScopeTree} (recalls : earlier.Recalls tree) : earlier.Recalls other where
  modules := by rw [resembles.modules]; exact recalls.modules
  signatures := by
    unfold functionSignature?
    rw [resembles.functions]
    exact recalls.signatures
  failed := by
    unfold statusOf?
    rw [resembles.functions]
    exact recalls.failed
  named := by unfold structNamed?; rw [resembles.modules]; exact recalls.named
  unhidden := by unfold structNamed?; rw [resembles.modules]; exact recalls.unhidden
  fields := by rw [resembles.fields]; exact recalls.fields

end ScopeTree.Resembles

/-- A name that a scope declares is not declared again. -/
theorem ScopeTree.runFrom_addVariable {tree : ScopeTree} {scope : ScopeId} {name : String}
    (declares : tree.Declares scope name) :
    runFrom (Edit.addVariable scope name) tree = (.ok (), tree) := by
  obtain ⟨v, found⟩ := Option.isSome_iff_exists.mp declares
  obtain ⟨entry, there, named⟩ := Option.bind_eq_some_iff.mp found
  have known : tree.hasScope scope = true := hasScope_iff.mpr ⟨entry, scope_eq_ok.mpr there⟩
  have contains : entry.locals.contains name = true := by simp [Table.contains, named]
  have same : tree.scopes.modify scope.index (fun s =>
      { s with locals := s.locals.insertNew name { name } }) = tree.scopes := by
    refine modify_eq_self fun s there' => ?_
    cases there.symm.trans there'
    rw [Table.insertNew, if_pos contains]
  rw [Edit.addVariable, Edit.runFrom_changeScope, if_pos known, same]

/-! ### Places in two walks -/

/-- The closures entered so far have their bodies where they had them, and their owners. -/
def FramesStay (frames later : Array ClosureFrame) : Prop :=
  ∀ (index : Nat) frame, frames[index]? = some frame → ∃ frame', later[index]? = some frame' ∧
    frame'.bodyScope = frame.bodyScope ∧ frame'.owner = frame.owner

theorem framesStay_refl (frames : Array ClosureFrame) : FramesStay frames frames :=
  fun _ frame found => ⟨frame, found, rfl, rfl⟩

theorem Onward.framesStay {s t : AnalysisState} (onward : Onward s t) :
    FramesStay s.closures t.closures := by
  intro index frame found
  obtain ⟨frame', there, owner⟩ := onward.owners index frame found
  obtain ⟨other, same, scope, -⟩ := onward.grows.frames index frame found
  rw [there] at same
  cases same
  exact ⟨frame', there, scope, owner⟩

/-- Closures may be entered and come to capture more without more being changed. -/
theorem onward_of_frames {s : AnalysisState} {closures : Array ClosureFrame}
    (grow : FramesGrow s.closures closures) (stay : FramesStay s.closures closures) :
    Onward s { s with closures } := by
  refine ⟨⟨grows_frames grow, rfl, rfl⟩, ?_, keepsStructNames_of_same rfl, keepsMet_of_same rfl⟩
  intro index frame found
  obtain ⟨frame', there, -, owner⟩ := stay index frame found
  exact ⟨frame', there, owner⟩

/-- A place outside of functions in two walks: the scope of the body of the closure around it, and that
closure in each of the walks. -/
structure Spot where
  around : Option ScopeId := none
  first : Option Enclosing := none
  second : Option Enclosing := none

/-- The frames lead out of the place in step, through closures that have their bodies in the same
scopes. -/
inductive Linked (frames frames' : Array ClosureFrame) : Spot → Prop where
  | outermost : Linked frames frames' {}
  | closure {id id' : ClosureId} {frame frame' : ClosureFrame} {around : Option ScopeId}
      (found : frames[id.index]? = some frame) (found' : frames'[id'.index]? = some frame')
      (body : frame'.bodyScope = frame.bodyScope)
      (outside : Linked frames frames' ⟨around, frame.owner, frame'.owner⟩) :
      Linked frames frames' ⟨some frame.bodyScope, some (.closure id), some (.closure id')⟩

namespace Linked

variable {frames later frames' later' : Array ClosureFrame} {spot : Spot}

theorem ownedBy (linked : Linked frames frames' spot) : OwnedBy frames spot.first none := by
  induction linked with
  | outermost => exact .outermost
  | closure found _ _ _ ih => exact .closure found ih

/-- The closures around a place stay around it. -/
theorem kept (linked : Linked frames frames' spot) (first : FramesStay frames later)
    (second : FramesStay frames' later') : Linked later later' spot := by
  induction linked with
  | outermost => exact .outermost
  | closure found found' body _ ih =>
    obtain ⟨frame, there, scope, owner⟩ := first _ _ found
    obtain ⟨frame', there', scope', owner'⟩ := second _ _ found'
    rw [← owner, ← owner'] at ih
    rw [← scope]
    exact .closure there there' (scope'.trans (body.trans scope.symm)) ih

end Linked
end ShellSema
