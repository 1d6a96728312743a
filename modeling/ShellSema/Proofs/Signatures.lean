import ShellSema.Proofs.Plan

/-!
# Signatures

Those who call a function see its name, its module and access, and of its parameters what they are
called, and which have a default or take any number of arguments. Registering what was analysed
replaces the defaults of parameters by analysed ones, so the signature stays.
-/
namespace ShellSema

/-- What a call can tell about a parameter. -/
structure ParameterShape where
  name : String
  hasDefault : Bool
  isVariadic : Bool
deriving DecidableEq

def Parameter.shape (p : Parameter) : ParameterShape :=
  ⟨p.name.text, p.default?.isSome, p.isVariadic⟩

def shapesOf (parameters : List Parameter) : List ParameterShape := parameters.map Parameter.shape

structure FunctionSignature where
  name : String
  access : Access
  module : ModuleId
  takesClosure : Bool
  parameters : List ParameterShape
deriving DecidableEq

def ScriptFunction.signature (f : ScriptFunction) : FunctionSignature :=
  ⟨f.name, f.access, f.module, f.takesClosure, shapesOf f.parameters⟩

def ScopeTree.functionSignature? (tree : ScopeTree) (id : FunctionId) : Option FunctionSignature :=
  (tree.functions[id.index]?).map ScriptFunction.signature

def ScopeTree.moduleOfFunction? (tree : ScopeTree) (id : FunctionId) : Option ModuleId :=
  (tree.functions[id.index]?).map ScriptFunction.module

theorem ScopeTree.moduleOfFunction?_of_signature {tree : ScopeTree} {id : FunctionId}
    {signature : FunctionSignature} (known : tree.functionSignature? id = some signature) :
    tree.moduleOfFunction? id = some signature.module := by
  obtain ⟨f, found, rfl⟩ := Option.map_eq_some_iff.mp known
  exact congrArg (Option.map ScriptFunction.module) found

variable {parameters others : List Parameter}

theorem names_of_shapes (same : shapesOf parameters = shapesOf others) :
    parameters.map (·.name.text) = others.map (·.name.text) := by
  have names := congrArg (List.map ParameterShape.name) same
  simpa [shapesOf, Parameter.shape, Function.comp_def] using names

/-- Shapes tell how many arguments are taken. -/
theorem arity_of_shapes (same : shapesOf parameters = shapesOf others) :
    Arity.ofParameters parameters = Arity.ofParameters others := by
  have required (ps : List Parameter) : minArguments ps =
      (shapesOf ps).countP fun shape => !shape.hasDefault && !shape.isVariadic := by
    rw [minArguments, shapesOf, List.countP_map]
    congr 1
    funext p
    cases found : p.default? <;> simp [Parameter.isRequired, Parameter.shape, found]
  have variadic (ps : List Parameter) : endsVariadic ps =
      ((shapesOf ps).getLast?.map ParameterShape.isVariadic).getD false := by
    rw [endsVariadic, shapesOf, List.getLast?_map]
    cases ps.getLast? <;> rfl
  have length (ps : List Parameter) : ps.length = (shapesOf ps).length := by simp [shapesOf]
  simp only [Arity.ofParameters, maxArguments?, required, variadic, length, same]

/-! ### Analysed parameters -/

/-- A parameter keeps its shape when its default is analysed. -/
theorem shapes_of_parameterList {context : Context} {seenDefault : Bool} {s t : AnalysisState}
    (given : Gives (Plan.parameterList context seenDefault parameters).run s others t) :
    shapesOf others = shapesOf parameters := by
  induction parameters generalizing seenDefault others s t with
  | nil =>
    obtain ⟨rfl, -⟩ := gives_pure.mp given
    rfl
  | cons parameter rest ih =>
    obtain ⟨name, default?, isVariadic⟩ := parameter
    simp only [Plan.parameterList, Plan.run_bind, Plan.run_lift, gives_bind] at given
    obtain ⟨_, _, -, _, _, -, given⟩ := given
    cases default? with
    | none =>
      simp only [Plan.run_bind, gives_bind, Plan.run_pure, gives_pure] at given
      obtain ⟨_, _, -, analysed, _, rest, rfl, -⟩ := given
      exact congrArg (_ :: ·) (ih rest)
    | some value =>
      simp only [Plan.run_bind, gives_bind, Plan.run_pure, gives_pure] at given
      obtain ⟨_, _, -, _, _, -, analysed, _, rest, rfl, -⟩ := given
      exact congrArg (_ :: ·) (ih rest)

end ShellSema
