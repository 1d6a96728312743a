import ShellSema.Proofs.FunctionRuns
import ShellSema.Proofs.ParameterLists
import ShellSema.Proofs.Recalling
import ShellSema.Proofs.Unlinked

/-!
# Defaults of declarations

The defaults that a function or a struct is registered with are those in its analysed declaration. All
of them are constants if and only if no default holds a shell fragment as written: such a fragment has
the form of a literal, and becomes a call.
-/
namespace ShellSema

/-- The parameters of a function, or the fields of a struct. -/
def Expr.declaredParameters? (e : Expr) : Option (List Parameter) :=
  match e.kind with
  | .functionDecl _ _ parameters _ _ _ _ => some parameters
  | .structDecl _ _ parameters _ => some parameters
  | _ => none

/-- The parameters of the symbol that a tree has for a declaration: of the function with its number, or
of the struct that its module has under its name. -/
def ScopeTree.registeredParameters? (tree : ScopeTree) (e : Expr) : Option (List Parameter) :=
  match e.kind with
  | .functionDecl _ _ _ _ _ _ id => (tree.function id).toOption.map (·.parameters)
  | .structDecl _ name _ module =>
    (tree.structNamed? module name.text).bind fun id => (tree.struct id).toOption.map (·.parameters)
  | _ => none

namespace ScopeTree

variable {tree after : ScopeTree} {struct : ScriptStruct} {id : StructId}

/-- A struct that takes the place of another stands in the tree as it was given. -/
private theorem struct_of_changeStruct {u : Unit}
    (run : runFrom (Edit.changeStruct id fun _ => struct) tree = (.ok u, after)) :
    after.structNamed? = tree.structNamed? ∧ after.struct id = .ok struct := by
  rw [Edit.runFrom_changeStruct] at run
  split at run
  next has =>
    cases run
    obtain ⟨old, found⟩ := hasStruct_iff.mp has
    exact ⟨rfl, struct_eq_ok.mpr (getElem?_modify_self (struct_eq_ok.mp found) _)⟩
  next => cases run

/-- A struct that is added to its module stands in the tree as it was given. -/
private theorem struct_of_declareStruct
    (run : runFrom (Edit.declareStruct struct) tree = (.ok id, after)) :
    after.structNamed? struct.module struct.name = some id ∧ after.struct id = .ok struct := by
  rw [Edit.runFrom_declareStruct, Edit.runFrom_changeModule] at run
  split at run
  next room =>
    split at run
    next ended =>
      split at ended
      next known =>
        cases run
        cases ended
        have listed : (tree.modules[struct.module.index]?).isSome = true := by
          simpa [hasModule] using known
        refine ⟨?_, struct_eq_ok.mpr ?_⟩
        · have named := structNamed?_withStruct listed struct.module struct.name
          rwa [if_pos ⟨rfl, rfl⟩] at named
        · simp [StructId.index, UInt32.toNat_ofNat_of_lt' room]
      next => cases ended
    next => cases run
  next => cases run

/-- A struct that is registered stands in the tree as it was given. -/
theorem struct_of_registerStruct
    (run : runFrom (Edit.registerStruct struct) tree = (.ok id, after)) :
    after.structNamed? struct.module struct.name = some id ∧ after.struct id = .ok struct := by
  cases named : tree.structNamed? struct.module struct.name with
  | some known =>
    rw [Edit.registerStruct_of_named named] at run
    obtain ⟨u, changed, replaced, last⟩ := gives_bind.mp run
    obtain ⟨rfl, rfl⟩ := gives_pure.mp last
    obtain ⟨same, stands⟩ := struct_of_changeStruct replaced
    exact ⟨by rw [same, named], stands⟩
  | none =>
    unfold Edit.registerStruct at run
    rw [runFrom_bind, Edit.runFrom_ask] at run
    cases found : tree.module struct.module with
    | error fault => simp [found] at run
    | ok m =>
      rw [structNamed?, module_eq_ok.mp found, Option.bind_some] at named
      simp only [found, named] at run
      exact struct_of_declareStruct run

end ScopeTree

/-- All defaults in a parameter list are constants. -/
def ConstantDefaults (parameters : List Parameter) : Prop :=
  ∀ p ∈ parameters, ∀ value, p.default? = some value → value.IsConstant

/-- No default in a parameter list holds a shell fragment. -/
def FragmentFree (parameters : List Parameter) : Prop :=
  ∀ p ∈ parameters, ∀ value, p.default? = some value → ¬ value.HoldsFragment

variable {parameters results : List Parameter}

theorem Parameter.Becomes.constant_iff {p r : Parameter} (becomes : p.Becomes r) :
    (∀ value, r.default? = some value → value.IsConstant) ↔
      ∀ value, p.default? = some value → ¬ value.HoldsFragment := by
  obtain ⟨-, -, default⟩ := becomes
  generalize p.default? = written at default
  generalize r.default? = analysed at default
  cases default with
  | none => simp
  | some constant => simpa using constant

/-- The defaults of a list come out as constants if none of them holds a shell fragment. -/
theorem constantDefaults_iff (become : List.Forall₂ Parameter.Becomes parameters results) :
    ConstantDefaults results ↔ FragmentFree parameters := by
  induction become with
  | nil => exact iff_of_true nofun nofun
  | cons becomes _ ih =>
    rw [ConstantDefaults, FragmentFree, List.forall_mem_cons, List.forall_mem_cons]
    exact and_congr becomes.constant_iff ih

namespace Visit

variable {v : Visit} {r : Expr} {t : AnalysisState}

/-- The fields of a struct are gone over, and the struct is registered with what comes out. -/
theorem registered_of_struct {access : Access} {name : Token} {module : ModuleId}
    (source : v.source.kind = .structDecl access name parameters module) (given : v.Gives r t) :
    ∃ results, List.Forall₂ Parameter.Becomes parameters results ∧
      r.declaredParameters? = some results ∧
      t.tree.registeredParameters? v.source = some results := by
  obtain ⟨-, made, carried, rfl⟩ := gives_iff.mp given
  simp only [plan, source, Plan.node, Plan.run_bind, Plan.run_lift, Plan.run_parameterList,
    Plan.run_pure, gives_bind, gives_pure] at carried
  obtain ⟨_, _, -, results, _, listed, _, _, -, id, _, registered, rfl, rfl⟩ := carried
  obtain ⟨tree, run, rfl⟩ := gives_edit.mp registered
  obtain ⟨named, stands⟩ := ScopeTree.struct_of_registerStruct run
  refine ⟨results, (becomes_of_gives listed).2, rfl, ?_⟩
  simp only [ScopeTree.registeredParameters?, source]
  rw [named, Option.bind_some, stands]
  rfl

/-- The parameters of a function are gone over, and the function is registered with what comes out. -/
theorem registered_of_function {access : Access} {name : Token} {body : Expr} {module : ModuleId}
    {takesClosure : Bool} {id : FunctionId}
    (source : v.source.kind = .functionDecl access name parameters body module takesClosure id)
    (met : ¬ v.Skips) (given : v.Gives r t) :
    ∃ results, List.Forall₂ Parameter.Becomes parameters results ∧
      r.declaredParameters? = some results ∧
      t.tree.registeredParameters? v.source = some results := by
  obtain ⟨_, body', results, _, -, -, ⟨_, _, listed⟩, kind, registered⟩ :=
    registers_of_gives source given met
  obtain ⟨-, stands⟩ := function_of_registerFunction registered
  refine ⟨results, (becomes_of_gives listed).2, ?_, ?_⟩
  · simp only [Expr.declaredParameters?, kind]
  · simp only [ScopeTree.registeredParameters?, source]
    rw [stands]
    rfl

/-- The parameters that come out of a declaration are those of its symbol. All their defaults are
constants if and only if none of the defaults as they are written holds a shell fragment. -/
theorem constant_of_gives (declares : v.source.declaredParameters? = some parameters)
    (met : ¬ v.Skips) (given : v.Gives r t) :
    ∃ results, r.declaredParameters? = some results ∧
      t.tree.registeredParameters? v.source = some results ∧
      (ConstantDefaults results ↔ FragmentFree parameters) := by
  suffices registered : ∃ results, List.Forall₂ Parameter.Becomes parameters results ∧
      r.declaredParameters? = some results ∧
      t.tree.registeredParameters? v.source = some results by
    obtain ⟨results, become, declared, symbol⟩ := registered
    exact ⟨results, declared, symbol, constantDefaults_iff become⟩
  unfold Expr.declaredParameters? at declares
  split at declares
  next source =>
    cases declares
    exact registered_of_function source met given
  next source =>
    cases declares
    exact registered_of_struct source given
  next => cases declares

/-- A function that has not been met. -/
def declaringScopes : ScopeTree :=
  .declare "main" [.addScope ⟨0⟩, .addFunction "f" .restricted ⟨0⟩ [] false]

/-- The visit to a function of two parameters, of which the second one has this default. -/
def declaring (default : Expr) : Visit where
  context := ⟨.empty, ⟨0⟩, none⟩
  slot := { isRoot := true }
  source := Build.function
    { name := "f", module := ⟨0⟩
      parameters := [Build.parameter "a", Build.defaultParameter "b" default] }
    ⟨0⟩ (Build.block ⟨1⟩ [])
  before := { tree := declaringScopes }

theorem declaring_not_skips (default : Expr) : ¬ (declaring default).Skips := by
  rintro ⟨_, _, _, _, _, _, _, f, source, found, before⟩
  cases source
  have pending : (declaringScopes.function ⟨0⟩).toOption.map (·.status) = some .pending := by
    decide +kernel
  have found : declaringScopes.function ⟨0⟩ = .ok f := found
  rw [found] at pending
  exact before (Option.some.inj pending)

/-- The default is an interpolated text. -/
def declaringText : Visit := declaring (Build.interpolation [Build.string "x"])

/-- Such a default is a constant. -/
theorem constant_of_gives_text :
    ∃ r t results, declaringText.Gives r t ∧ r.declaredParameters? = some results ∧
      t.tree.registeredParameters? declaringText.source = some results ∧
      ConstantDefaults results := by
  have ends : endsWith (Walk.expr declaringText.context declaringText.slot declaringText.source)
      declaringText.before (fun _ _ => true) = true := by
    decide +kernel
  obtain ⟨r, t, given, -⟩ := gives_of_endsWith ends
  obtain ⟨results, declared, registered, constant⟩ :=
    constant_of_gives rfl (declaring_not_skips _) given
  refine ⟨r, t, results, given, declared, registered, constant.mpr fun p member value default => ?_⟩
  have form : (Build.interpolation [Build.string "x"]).DefaultForm _ := .interpolation rfl rfl
  simp only [List.mem_cons, List.not_mem_nil, or_false] at member
  rcases member with rfl | rfl
  · cases default
  · cases default
    rw [form.holdsFragment_iff]
    decide

/-- The default is a shell fragment. -/
def declaringFragment : Visit := declaring (Build.literal .shellFragment "$:date")

/-- Where the defaults of a list are calls. -/
def defaultCalls (parameters : List Parameter) : List (Option Bool) :=
  parameters.map fun p => p.default?.map Expr.isCall

theorem not_constant_of_call (calls : some true ∈ defaultCalls parameters) :
    ¬ ConstantDefaults parameters := by
  intro constant
  obtain ⟨p, member, called⟩ := List.mem_map.mp calls
  obtain ⟨value, default, call⟩ := Option.map_eq_some_iff.mp called
  obtain ⟨made, found⟩ := Option.isSome_iff_exists.mp call
  have kind := Expr.kind_of_call? found
  rcases constant p member value default with other | other | other | other <;> simp [kind] at other

/-- A shell fragment is accepted as a default, and becomes a call. -/
theorem fragment_called :
    ¬ declaringFragment.Skips ∧ ∃ r t written registered, declaringFragment.Gives r t ∧
      r.declaredParameters? = some written ∧
      t.tree.registeredParameters? declaringFragment.source = some registered ∧
      ¬ ConstantDefaults written ∧ ¬ ConstantDefaults registered := by
  have ends : endsWith
      (Walk.expr declaringFragment.context declaringFragment.slot declaringFragment.source)
      declaringFragment.before (fun r t =>
        r.declaredParameters?.map defaultCalls = some [none, some true] ∧
          (t.tree.registeredParameters? declaringFragment.source).map defaultCalls =
            some [none, some true]) = true := by
    decide +kernel
  obtain ⟨r, t, given, read⟩ := gives_of_endsWith ends
  obtain ⟨calls, calls'⟩ := of_decide_eq_true read
  refine ⟨declaring_not_skips _, r, t, ?_⟩
  obtain ⟨written, declared, calls⟩ := Option.map_eq_some_iff.mp calls
  obtain ⟨registered, stands, calls'⟩ := Option.map_eq_some_iff.mp calls'
  refine ⟨written, registered, given, declared, stands, not_constant_of_call ?_,
    not_constant_of_call ?_⟩
  · simp [calls]
  · simp [calls']

end Visit
end ShellSema
