import ShellSema.Proofs.Alike
import ShellSema.Proofs.Unaffected

/-!
# Walks in step

Two walks over one tree keep in step if one of them starts from a tree of scopes that has been changed
in the territory of others. An edit that both make leaves them in step: a scope declares and marks the
same names in both, and what is registered is registered in both.
-/
namespace ShellSema

/-! ### The same edit in two trees -/

namespace ScopeTree

variable {tree other : ScopeTree} {foreign : Territory} {stranger : ModuleId}

section Scopes

variable {id : ScopeId} {change : Scope → Scope}
  (parent : ∀ scope, (change scope).parent = scope.parent)
  (module : ∀ scope, (change scope).module = scope.module)

include parent in
theorem parentScope?_modify :
    parentScope? { tree with scopes := tree.scopes.modify id.index change } = tree.parentScope? := by
  funext scope
  unfold parentScope?
  dsimp only
  rw [getElem?_modify_handle ScopeId.index_injective]
  split
  next same => rw [Option.bind_map]; exact congrArg (Option.bind _) (funext parent)
  next => rfl

include module in
theorem moduleOf?_modify :
    moduleOf? { tree with scopes := tree.scopes.modify id.index change } = tree.moduleOf? := by
  funext scope
  unfold moduleOf?
  dsimp only
  rw [getElem?_modify_handle ScopeId.index_injective]
  split
  next same => rw [Option.map_map]; exact congrArg (Option.map · _) (funext module)
  next => rfl

include parent module in
/-- A change of a scope that shows in the names which the scope declares. -/
theorem SameScopes.changeScope (same : tree.SameScopes foreign other) (shows : String → Bool → Bool)
    (declares : ∀ scope name,
      (change scope).locals.contains name = shows name (scope.locals.contains name)) :
    SameScopes foreign { tree with scopes := tree.scopes.modify id.index change }
      { other with scopes := other.scopes.modify id.index change } where
  parents := by rw [parentScope?_modify parent, parentScope?_modify parent, same.parents]
  belongs := by rw [moduleOf?_modify module, moduleOf?_modify module, same.belongs]
  count := by simp only [Array.size_modify, same.count]
  declares scope name outside := by
    have before := same.declares scope name outside
    have known : (other.scopes[scope.index]?).isSome = (tree.scopes[scope.index]?).isSome := by
      simpa [moduleOf?] using congrArg Option.isSome (congrFun same.belongs scope)
    unfold Declares at before ⊢
    rw [ownVariable?_modify, ownVariable?_modify]
    split
    next equal =>
      unfold ownVariable? at before
      cases here : tree.scopes[scope.index]? with
      | none =>
        rw [here] at known
        rw [Option.not_isSome_iff_eq_none.mp (Bool.eq_false_iff.mp known)]
      | some s =>
        rw [here] at known before
        obtain ⟨s', there⟩ := Option.isSome_iff_exists.mp known
        rw [there] at before ⊢
        -- Whether the name was declared before tells whether it is now.
        have contains : s'.locals.contains name = s.locals.contains name :=
          Bool.eq_iff_iff.mpr before
        change (change s').locals.contains name = true ↔ (change s).locals.contains name = true
        rw [declares, declares, contains]
    next => exact before

end Scopes

theorem AgreesOutside.changeFunction (agrees : tree.AgreesOutside foreign stranger other)
    (id : FunctionId) (f : ScriptFunction) :
    AgreesOutside foreign stranger
      { tree with functions := tree.functions.modify id.index fun _ => f }
      { other with functions := other.functions.modify id.index fun _ => f } := by
  have entry (tree : ScopeTree) (other : FunctionId) :
      (tree.functions.modify id.index fun _ => f)[other.index]? =
        if id = other then (tree.functions[other.index]?).map fun _ => f
        else tree.functions[other.index]? :=
    getElem?_modify_handle FunctionId.index_injective ..
  have known : (other.functions[id.index]?).isSome = (tree.functions[id.index]?).isSome := by
    simpa [functionSignature?] using congrArg Option.isSome (congrFun agrees.signatures id)
  -- What the function was may differ in its status, but not what it is replaced by.
  have replaced : (other.functions[id.index]?).map (fun _ => f) =
      (tree.functions[id.index]?).map fun _ => f := by
    cases here : tree.functions[id.index]? <;> cases there : other.functions[id.index]? <;>
      simp_all
  refine { agrees with signatures := ?_, failed := ?_, functions := ?_ }
  · funext function
    have before := congrFun agrees.signatures function
    unfold functionSignature? at before ⊢
    dsimp only
    rw [entry, entry]
    split
    next same => rw [← same, replaced]
    next => exact before
  · intro function
    have before := agrees.failed function
    unfold statusOf? at before ⊢
    dsimp only
    rw [entry, entry]
    split
    next same => rw [← same, replaced]
    next => exact before
  · intro function g found outside
    dsimp only at found ⊢
    rw [entry] at found ⊢
    split at found
    next same => rwa [if_pos same, ← same, replaced, same]
    next differ => rw [if_neg differ]; exact agrees.functions function g found outside

end ScopeTree

/-! ### Walks in step -/

/-- Two walks, each of which has begun in a given tree, have come to states that differ only in the
territory of others. -/
structure InStep (here there : ScopeTree) (home foreign : Territory) (stranger : ModuleId)
    (s t : AnalysisState) : Prop where
  changed : s.tree.ChangedWithin foreign stranger t.tree
  modules : s.tree.modules = here.modules
  modules' : t.tree.modules = there.modules
  owners : s.tree.moduleOfFunction? = here.moduleOfFunction?
  parents : s.tree.parentScope? = here.parentScope?
  belongs : s.tree.moduleOf? = here.moduleOf?
  closures : t.closures = s.closures
  support : t.closureSupport = s.closureSupport
  carriers : t.carrierCaptured = s.carrierCaptured
  /-- The bodies of closures are in the territory of the walk. -/
  bodies : ∀ (index : Nat) frame, s.closures[index]? = some frame → home.scopes frame.bodyScope

section Steps

variable {here there : ScopeTree} {home foreign : Territory} {stranger : ModuleId} {s t : AnalysisState}

namespace InStep

variable (step : InStep here there home foreign stranger s t)

include step

theorem outward (closed : home.Closed here) (id parent : ScopeId) (inside : home.scopes id)
    (outer : s.tree.parentScope? id = some parent) : home.scopes parent :=
  closed.outward id parent inside (by rwa [step.parents] at outer)

/-- The walk is in a module of its own, which is not the stranger. -/
theorem current_ne (closed : home.Closed here) (apart : home.Apart foreign)
    (strange : foreign.modules stranger) {scope : ScopeId} {current : ModuleId}
    (inside : home.scopes scope) (belongs : s.tree.moduleOf? scope = some current) :
    home.modules current ∧ current ≠ stranger := by
  rw [step.belongs] at belongs
  have own := closed.belongs scope current inside belongs
  exact ⟨own, fun same => apart.modules current own (same ▸ strange)⟩

theorem functionNamed? (module : ModuleId) (name : String) :
    s.tree.functionNamed? module name = here.functionNamed? module name := by
  unfold ScopeTree.functionNamed?
  rw [step.modules]

theorem functionSeen? {module : ModuleId} {name : String}
    (same : there.functionSeen? module name = here.functionSeen? module name) :
    t.tree.functionSeen? module name = s.tree.functionSeen? module name := by
  unfold ScopeTree.functionSeen? at same ⊢
  rwa [step.modules, step.modules']

theorem structSeen? {module : ModuleId} {name : String}
    (same : there.structSeen? module name = here.structSeen? module name) :
    t.tree.structSeen? module name = s.tree.structSeen? module name := by
  unfold ScopeTree.structSeen? at same ⊢
  rwa [step.modules, step.modules']

theorem structNamed? (module : ModuleId) (name : String) :
    s.tree.structNamed? module name = here.structNamed? module name := by
  unfold ScopeTree.structNamed?
  rw [step.modules]

theorem descend (module : ModuleId) (path : List String) :
    s.tree.descend module path = here.descend module path := by
  induction path generalizing module with
  | nil => rfl
  | cons segment path ih => simp only [ScopeTree.descend, ScopeTree.module, step.modules, ih]

theorem findModule (module : ModuleId) (path : List String) (inImports : Bool) :
    s.tree.findModule module path inImports = here.findModule module path inImports := by
  cases path with
  | nil => rfl
  | cons first path =>
    simp only [ScopeTree.findModule, ScopeTree.module, step.modules, step.descend]

/-! ### Edits in step -/

theorem changeScope {id : ScopeId} {change : Scope → Scope} (shows : String → Bool → Bool)
    (parent : ∀ scope, (change scope).parent = scope.parent)
    (module : ∀ scope, (change scope).module = scope.module)
    (declares : ∀ scope name,
      (change scope).locals.contains name = shows name (scope.locals.contains name)) :
    InStep here there home foreign stranger
      { s with tree := (runFrom (ScopeTree.Edit.changeScope id change) s.tree).2 }
      { t with tree := (runFrom (ScopeTree.Edit.changeScope id change) t.tree).2 } := by
  rw [ScopeTree.Edit.state_changeScope, ScopeTree.Edit.state_changeScope]
  refine { step with
    changed := { step.changed with toSameScopes := ?_ }, parents := ?_, belongs := ?_ }
  · exact step.changed.toSameScopes.changeScope parent module shows declares
  · exact (ScopeTree.parentScope?_modify parent).trans step.parents
  · exact (ScopeTree.moduleOf?_modify module).trans step.belongs

/-- A function that its module has under its name is registered in both trees. -/
theorem registerFunction {id : FunctionId} {f : ScriptFunction}
    (named : here.functionNamed? f.module f.name = some id)
    (owner : here.moduleOfFunction? id = some f.module) :
    InStep here there home foreign stranger
      { s with tree := (runFrom (ScopeTree.Edit.registerFunction id f) s.tree).2 }
      { t with tree := (runFrom (ScopeTree.Edit.registerFunction id f) t.tree).2 } := by
  have named₁ := (step.functionNamed? _ _).trans named
  have named₂ := (step.changed.functionNamed? _ _).trans named₁
  rw [ScopeTree.Edit.state_registerFunction named₁, ScopeTree.Edit.state_registerFunction named₂]
  have symbols := step.changed.toAgreesOutside.changeFunction id f
  -- The function is replaced in both trees and keeps its module, so every function has the owner it
  -- had.
  refine { step with changed := { step.changed with toAgreesOutside := symbols }, owners := ?_ }
  rw [← step.owners] at owner ⊢
  funext other
  unfold ScopeTree.moduleOfFunction? at owner ⊢
  dsimp only
  rw [getElem?_modify_handle FunctionId.index_injective]
  split
  next same =>
    subst same
    obtain ⟨old, found, module⟩ := Option.map_eq_some_iff.mp owner
    rw [found]
    exact congrArg some module.symm
  next => rfl

/-- A struct that its module has under its name is registered in both trees. -/
theorem registerStruct {struct : ScriptStruct} {id : StructId}
    (named : here.structNamed? struct.module struct.name = some id) :
    InStep here there home foreign stranger
      { s with tree := (runFrom (ScopeTree.Edit.registerStruct struct) s.tree).2 }
      { t with tree := (runFrom (ScopeTree.Edit.registerStruct struct) t.tree).2 } := by
  have named₁ := (step.structNamed? _ _).trans named
  have named₂ := (step.changed.structNamed? _ _).trans named₁
  rw [ScopeTree.Edit.state_registerStruct named₁, ScopeTree.Edit.state_registerStruct named₂]
  exact { step with changed := { step.changed with } }

end InStep

/-! ### Actions in step -/

theorem alike_note (span : Span) (category : SemanticCategory) :
    Alike (InStep here there home foreign stranger) (Walk.note span category) :=
  alike_modify fun _ _ step => { step with }

theorem alike_noteAll (path : List Token) (category : SemanticCategory) :
    Alike (InStep here there home foreign stranger)
      (path.forM fun segment => Walk.note segment.span category) :=
  alike_forM path fun _ _ => alike_note _ _

theorem alike_addVariable (scope : ScopeId) (name : String) :
    Alike (InStep here there home foreign stranger)
      (Walk.edit (ScopeTree.Edit.addVariable scope name)) := by
  refine alike_edit fun s t step => ?_
  refine step.changeScope (fun key declared => decide (key = name) || declared) (fun _ => rfl)
    (fun _ => rfl) fun scope key => ?_
  unfold Table.contains
  rw [Table.get?_insertNew]
  by_cases same : key = name
  -- A name is declared afterwards if it was before, or if it is the one that is added.
  · subst same
    cases scope.locals.get? key <;> simp
  · simp [same]

theorem alike_captureHere (scope : ScopeId) (name : String) :
    Alike (InStep here there home foreign stranger)
      (Walk.edit (ScopeTree.Edit.captureHere scope name)) := by
  refine alike_edit fun s t step => ?_
  refine step.changeScope (fun _ declared => declared) (fun _ => rfl) (fun _ => rfl)
    fun scope key => ?_
  unfold Table.contains
  rw [Table.get?_adjust]
  split
  · exact Option.isSome_map
  · rfl

theorem alike_declare (scope : ScopeId) (category : SemanticCategory) (name : Token) :
    Alike (InStep here there home foreign stranger) (Walk.declare scope category name) :=
  alike_bind (alike_addVariable scope name.text) fun _ _ _ _ _ _ => alike_note _ _

theorem alike_declareAll (scope : ScopeId) (category : SemanticCategory) (names : List Token) :
    Alike (InStep here there home foreign stranger) (names.forM (Walk.declare scope category)) :=
  alike_forM names fun _ _ => alike_declare _ _ _

theorem alike_declareOption (scope : ScopeId) (category : SemanticCategory) (name : Option Token) :
    Alike (InStep here there home foreign stranger) (name.forM (Walk.declare scope category)) := by
  cases name with
  | none => exact alike_pure _
  | some name => exact alike_declare scope category name

theorem alike_bindAll (context : Context) (names : List Token) :
    Alike (InStep here there home foreign stranger) (names.forM (Walk.bind context)) := by
  refine alike_forM names fun name _ => ?_
  unfold Walk.bind
  split
  · exact alike_note _ _
  · exact alike_declare _ _ _

theorem alike_declareParameters (scope : ScopeId) (parameters : List Parameter)
    (takesClosure : Bool) :
    Alike (InStep here there home foreign stranger)
      (Walk.declareParameters scope parameters takesClosure) := by
  refine alike_bind (alike_forM parameters fun _ _ => alike_addVariable _ _) fun _ _ _ _ _ _ => ?_
  split
  · exact alike_addVariable _ _
  · exact alike_pure _

theorem alike_frame (id : ClosureId) :
    Alike (InStep here there home foreign stranger) (Walk.frame id) := by
  refine unchanging_frame.alike fun s t frame frame' step one other => ?_
  have found := (gives_frame.mp one).1
  have found' := (gives_frame.mp other).1
  rw [step.closures, found] at found'
  exact (Option.some.inj found').symm

theorem alike_changeFrame (id : ClosureId) {change : ClosureFrame → ClosureFrame}
    (scope : ∀ frame, (change frame).bodyScope = frame.bodyScope) :
    Alike (InStep here there home foreign stranger) (Walk.changeFrame id change) := by
  refine alike_modify fun s t step => ?_
  refine { step with closures := congrArg (·.modify id.index change) step.closures, bodies := ?_ }
  intro index frame found
  dsimp only at found
  rw [Array.getElem?_modify] at found
  split at found
  · obtain ⟨old, before, rfl⟩ := Option.map_eq_some_iff.mp found
    rw [scope]
    exact step.bodies index old before
  · exact step.bodies index frame found

theorem alike_openFrame {frame : ClosureFrame} (inside : home.scopes frame.bodyScope) :
    Alike (InStep here there home foreign stranger) (Walk.openFrame frame) := by
  intro s t a b s' t' step one other
  simp only [Walk.openFrame, gives_bind, gives_get, gives_set, gives_pure] at one other
  obtain ⟨_, _, ⟨rfl, rfl⟩, _, _, rfl, rfl, rfl⟩ := one
  obtain ⟨_, _, ⟨rfl, rfl⟩, _, _, rfl, rfl, rfl⟩ := other
  refine ⟨by rw [step.closures], ?_⟩
  refine { step with closures := congrArg (·.push frame) step.closures, bodies := ?_ }
  intro index old found
  -- The frame that is opened is the only one that was not there before.
  rw [Array.getElem?_push] at found
  split at found
  · cases found
    exact inside
  · exact step.bodies index old found

theorem alike_enterClosure (context : Context) {scope : ScopeId} (inside : home.scopes scope)
    (parameters : List Token) (captured : NameSet) :
    Alike (InStep here there home foreign stranger)
      (Walk.enterClosure context scope parameters captured) :=
  alike_bind (alike_openFrame inside) fun _ _ _ _ _ _ =>
    alike_bind (alike_declareAll _ _ _) fun _ _ _ _ _ _ => alike_pure _

theorem alike_literal (context : Context) (span : Span) (token : Token) :
    Alike (InStep here there home foreign stranger) (Walk.literal context span token) := by
  unfold Walk.literal
  split
  · exact alike_bind (alike_note _ _) fun _ _ _ _ _ _ => alike_pure _
  · exact alike_bind (alike_note _ _) fun _ _ _ _ _ _ => alike_pure _
  · exact alike_fail

theorem alike_registerFunction {access : Access} {name : Token} {module : ModuleId}
    {id : FunctionId} (named : here.functionNamed? module name.text = some id)
    (owner : here.moduleOfFunction? id = some module) (parameters : List Parameter)
    (takesClosure : Bool) :
    Alike (InStep here there home foreign stranger)
      (Walk.registerFunction access name parameters module takesClosure id) :=
  alike_get (fun _ _ step => by rw [step.carriers]) fun _ =>
    alike_edit fun _ _ step => step.registerFunction named owner

theorem alike_registerStruct {struct : ScriptStruct}
    (named : (here.structNamed? struct.module struct.name).isSome = true) :
    Alike (InStep here there home foreign stranger)
      (Walk.edit (ScopeTree.Edit.registerStruct struct)) := by
  obtain ⟨id, named⟩ := Option.isSome_iff_exists.mp named
  -- The struct is known, so what is given is its handle, and none is made.
  have made {tree tree' : ScopeTree} {a : StructId}
      (found : tree.structNamed? struct.module struct.name = some id)
      (given : Gives (ScopeTree.Edit.registerStruct struct) tree a tree') : a = id := by
    unfold Gives at given
    rw [ScopeTree.Edit.registerStruct_of_named found] at given
    obtain ⟨_, _, -, last⟩ := gives_bind.mp given
    exact (gives_pure.mp last).1
  refine alike_editGiving (fun s t a b _ _ step one other => ?_) fun s t step =>
    step.registerStruct named
  have named₁ := (step.structNamed? _ _).trans named
  have named₂ := (step.changed.structNamed? _ _).trans named₁
  rw [made named₁ one, made named₂ other]

end Steps
end ShellSema
