import ShellSema.Proofs.Aftermath
import ShellSema.Proofs.Moments
import ShellSema.Syntax.Build

/-!
# Names of the environment

A reference to a name of the environment is not looked up in any scope, and a binding of one declares
nothing. But the names of loops, clauses and parameters are declared whatever they are. So a variable
with such a name comes to be declared exactly where one of these takes it.

That nothing else declares it is shown for all names: a variable comes to be declared only in the
course of a visit of a node that may declare it.
-/
namespace ShellSema

/-! ### What a node does not declare -/

/-- The variable is declared later only if it has been declared already. -/
def DeclaredBefore (id : ScopeId) (name : String) (s t : AnalysisState) : Prop :=
  t.tree.Declares id name → s.tree.Declares id name

section Undeclared

variable {id : ScopeId} {name : String}

theorem DeclaredBefore.refl (s : AnalysisState) : DeclaredBefore id name s s := fun declares => declares

theorem DeclaredBefore.trans (r s t : AnalysisState) (first : DeclaredBefore id name r s)
    (rest : DeclaredBefore id name s t) : DeclaredBefore id name r t :=
  first ∘ rest

/-- Where no variables are declared, none comes to be declared. -/
theorem declaredBefore_preserved :
    Preserved (DeclaredBefore id name) (Permit.onScopes fun _ => False) :=
  (grows_preserved fun _ => False).weaken (fun _ _ grown => grown.tree.still id name not_false)
    DeclaredBefore.trans

theorem declaredBefore_addVariable {scope : ScopeId} {key : String}
    (other : ¬ (scope = id ∧ key = name)) :
    Keeps (DeclaredBefore id name) (Walk.edit (ScopeTree.Edit.addVariable scope key)) := by
  intro s declares
  rw [runFrom_edit_state, ScopeTree.Edit.addVariable, ScopeTree.Edit.state_changeScope,
    ScopeTree.Declares, ScopeTree.ownVariable?_modify] at declares
  split at declares
  next same =>
    subst same
    unfold ScopeTree.Declares ScopeTree.ownVariable?
    cases there : s.tree.scopes[scope.index]? with
    | none => simp [there] at declares
    | some entry =>
      have apart : ¬ (name = key ∧ entry.locals.get? key = none) := fun new =>
        other ⟨rfl, new.1.symm⟩
      rwa [there, Option.bind_some, Table.get?_insertNew, if_neg apart] at declares
  next => exact declares

/-- The actions of a node declare only what the node may declare. -/
theorem Plan.within_undeclared {context : Context} {slot : Slot} {e : Expr}
    (absent : ¬ e.kind.MayDeclare context.scope id name) :
    (Plan.node context slot e.span e.kind).Within (DeclaredBefore id name) fun _ _ _ => True := by
  have kept : Preserved (DeclaredBefore id name) _ := declaredBefore_preserved
  have others {scope : ScopeId} {key : String} (declared : e.kind.MayDeclare context.scope scope key) :
      Keeps (DeclaredBefore id name) (Walk.edit (ScopeTree.Edit.addVariable scope key)) := by
    apply declaredBefore_addVariable
    rintro ⟨rfl, rfl⟩
    exact absent declared
  -- Only a closure is analysed within a frame of its own, so it is treated apart.
  by_cases closure : e.kindName = "closure"
  · obtain ⟨attached, parameters, body, captured, old, kind⟩ := Expr.closure_of_kindName closure
    rw [kind] at others ⊢
    refine (Plan.within_opened kept.refl (fun scope block => ?_)
      (fun inner => kept.keeps_propagateCaptures inner _) fun _ _ scope _ block => ?_).mono
      fun _ _ _ _ => trivial
    · exact kept.keeps_enterClosure (fun _ _ declared => declared) context
        (fun _ member => others (.taken (.passed member block))) captured
    · exact kept.keeps_expandReference (fun _ _ _ declared => declared) _ _
        (fun _ => others (.madeUp block)) _ _
  · have registers : e.isBlock = true ∨ e.kind.Permitted (Permit.onScopes fun _ => False) := by
      obtain ⟨kind, span, isRoot, enclosing⟩ := e
      cases kind
      case block => exact .inl rfl
      all_goals exact .inr trivial
    refine (Plan.within_declaring kept.toCalm registers (fun _ _ => others) ?_ ?_ closure).mono
      fun _ _ _ _ => trivial
    · exact fun used _ _ _ => kept.keeps_variableUse context used
    · exact fun _ _ => kept.keeps_callee kept.carriers context _ _

end Undeclared

/-! ### Visits that declare nothing -/

namespace Visit

variable {v : Visit} {id : ScopeId} {name : String} {r : Expr} {t : AnalysisState}

/-- The visit goes over a node that may declare a variable of the name in the scope. -/
def MayDeclare (v : Visit) (id : ScopeId) (name : String) : Prop :=
  v.slot.admits v.source.kind = true ∧ ¬ v.Skips ∧
    v.source.kind.MayDeclare v.context.scope id name

/-- A function that has been met before is not gone over again. -/
theorem after_of_skips (skips : v.Skips) (admitted : v.slot.admits v.source.kind = true) :
    v.after = v.before := by
  obtain ⟨access, called, parameters, body, module, takesClosure, id, f, source, found, met⟩ := skips
  have asked : ShellSema.Gives (Walk.ask (·.function id)) v.before f v.before :=
    gives_ask.mpr ⟨found, rfl⟩
  rw [after_of_admitted admitted, plan, source, Plan.node, Plan.run_bind, Plan.run_lift, runFrom_bind,
    show runFrom _ v.before = _ from asked]
  simp [met]

/-- A variable comes to be declared in the course of a visit only if a part of it may declare it. -/
theorem declaredBefore_of_absent (absent : ∀ u, v.Reaches u → ¬ u.MayDeclare id name) :
    DeclaredBefore id name v.before v.after := by
  obtain ⟨e, source⟩ : ∃ e, v.source = e := ⟨_, rfl⟩
  induction e using Expr.induction generalizing v with
  | inherited e ih =>
    by_cases admitted : v.slot.admits v.source.kind = true
    · by_cases skips : v.Skips
      · rw [after_of_skips skips admitted]
        exact DeclaredBefore.refl _
      · rw [after_of_admitted admitted]
        have within : v.plan.Within (DeclaredBefore id name) fun _ _ _ => True :=
          Plan.within_undeclared fun declared => absent v .refl ⟨admitted, skips, declared⟩
        -- The node itself may declare nothing, and what a visit below it reaches is reached from here.
        refine within.keeps_from DeclaredBefore.refl DeclaredBefore.trans fun w entered _ => ?_
        have entered : v.Enters w := ⟨admitted, entered⟩
        exact ih w.source (source ▸ mem_children_of_enters entered)
          (fun u reached => absent u (.head entered reached)) rfl
    · rw [after_of_refused admitted]
      exact DeclaredBefore.refl _

/-! ### Visits that take a name -/

/-- The visit goes over a node that takes the name for a variable of the scope. -/
def TakesName (v : Visit) (id : ScopeId) (name : String) : Prop :=
  v.slot.admits v.source.kind = true ∧ ¬ v.Skips ∧
    ∃ token, v.source.kind.Takes id token ∧ token.text = name

/-- A name of the environment may be declared only by a node that takes it: it is bound nowhere, and no
name that is made up looks like one. -/
theorem MayDeclare.takesName {name : Token} (environment : name.isEnvironmentName = true)
    (declared : v.MayDeclare id name.text) : v.TakesName id name.text := by
  obtain ⟨admitted, met, declared⟩ := declared
  have dollar : name.text.toList.head? = some '$' := by
    simpa [Token.isEnvironmentName] using environment
  generalize named : name.text = text at declared dollar ⊢
  generalize kind : v.source.kind = node at declared
  refine ⟨admitted, met, ?_⟩
  rw [kind]
  cases declared with
  | taken takes => exact ⟨_, takes, rfl⟩
  | bound _ script => simp [Token.isEnvironmentName, dollar] at script
  | carrier => simp [closureCarrier] at dollar
  | madeUp => simp at dollar

/-- The names of a loop are declared before its body is gone over. -/
theorem declares_of_item {names : List Token} {value body : Expr} {token : Token}
    (source : v.source.kind = .forEach names value body) (member : token ∈ names)
    (block : body.blockScope? = some id) (given : v.Gives r t) : t.tree.Declares id token.text := by
  obtain ⟨-, made, carried, rfl⟩ := gives_iff.mp given
  simp only [plan, source, Plan.node, Plan.run_bind, Plan.run_lift, Plan.run_enter, Plan.run_pure,
    gives_bind, gives_blockScope, gives_pure] at carried
  obtain ⟨_, _, -, scope, _, ⟨found, rfl⟩, _, s, declared, _, _, walked, rfl, rfl⟩ := carried
  obtain rfl : scope = id := Option.some.inj (found.symm.trans block)
  have inside : Grows (fun _ => True) s t :=
    grows_of_gives (v := ⟨v.context, { isRoot := true }, body, s⟩) walked
  exact inside.tree.declared _ _ (declares_of_declareAll declared token member)

theorem declares_of_caught {context : Context} {isRoot : Bool} {catches results : List Catch}
    {clause : Catch} {token : Token} {s : AnalysisState} (member : clause ∈ catches)
    (named : clause.identifier = some token) (block : clause.body.blockScope? = some id)
    (given : ShellSema.Gives (Plan.catchList context isRoot catches).run s results t) :
    t.tree.Declares id token.text := by
  have kept : Preserved (Grows fun _ => True) _ := grows_preserved _
  induction catches generalizing s results t with
  | nil => simp at member
  | cons first rest ih =>
    obtain ⟨identifier, typeRef, body⟩ := first
    simp only [Plan.catchList, Plan.run_bind, Plan.run_lift, Plan.run_enter, Plan.run_pure, gives_bind,
      gives_blockScope, gives_pure] at given
    obtain ⟨_, _, -, scope, _, ⟨found, rfl⟩, _, s₁, declared, _, s₂, walked, others, _, later, -, rfl⟩ :=
      given
    rcases List.mem_cons.mp member with rfl | member
    · -- The clause is the first one, and what follows only adds variables.
      dsimp only at named block
      obtain rfl : scope = id := Option.some.inj (found.symm.trans block)
      obtain rfl := named
      obtain ⟨_, s', added, noted⟩ := gives_bind.mp declared
      have between : Grows (fun _ => True) s' s₁ := (kept.keeps_note _ _).of_gives noted
      have inside : Grows (fun _ => True) s₁ s₂ :=
        grows_of_gives (v := ⟨context, { isRoot }, body, s₁⟩) walked
      have after : Grows (fun _ => True) s₂ t := by
        have within : (Plan.catchList context isRoot rest).Within (Grows fun _ => True)
            fun _ _ _ => True :=
          Plan.within_catchList (fun _ _ => trivial) kept.toCalm _ _
            fun _ _ _ _ _ _ => kept.declare _ _ trivial
        exact within.of_gives kept.refl kept.trans (fun w _ _ _ left => grows_of_gives left) later
      exact (Grows.trans _ _ _ between (Grows.trans _ _ _ inside after)).tree.declared _ _
        (declares_of_addVariable added)
    · exact ih member later

theorem declares_of_declareParameters {parameters : List Parameter} {takesClosure : Bool}
    {p : Parameter} {s : AnalysisState} {u : Unit} (member : p ∈ parameters)
    (given : ShellSema.Gives (Walk.declareParameters id parameters takesClosure) s u t) :
    t.tree.Declares id p.name.text := by
  have kept : Preserved (Grows fun _ => True) _ := grows_preserved _
  obtain ⟨_, s', declared, rest⟩ := gives_bind.mp given
  have after : Grows (fun _ => True) s' t := by
    split at rest
    · exact (kept.declare _ _ trivial).of_gives rest
    · exact (keeps_pure kept.refl _).of_gives rest
  have names : ShellSema.Gives ((parameters.map Parameter.name).forM fun name =>
      Walk.edit (ScopeTree.Edit.addVariable id name.text)) s ⟨⟩ s' := by
    simpa only [List.forM_eq_forM, List.forM_map] using declared
  exact after.tree.declared _ _ (declares_of_forM (fun _ => kept.declare _ _ trivial)
    (fun _ _ _ _ added => declares_of_addVariable added) names _ (List.mem_map_of_mem member))

/-- The parameters of a function are declared before its body is gone over. -/
theorem declares_of_parameter {access : Access} {called : Token} {parameters : List Parameter}
    {body : Expr} {home : ModuleId} {takesClosure : Bool} {function : FunctionId} {p : Parameter}
    (source : v.source.kind = .functionDecl access called parameters body home takesClosure function)
    (member : p ∈ parameters) (block : body.blockScope? = some id) (met : ¬ v.Skips)
    (given : v.Gives r t) : t.tree.Declares id p.name.text := by
  have kept : Preserved (Grows fun _ => True) _ := grows_preserved _
  obtain ⟨-, made, carried, rfl⟩ := gives_iff.mp given
  simp only [plan, source, Plan.node, Plan.run_bind, Plan.run_lift, gives_bind, gives_ask] at carried
  obtain ⟨f, _, ⟨found, rfl⟩, carried⟩ := carried
  have pending : ¬ f.status ≠ .pending := fun before =>
    met ⟨access, called, parameters, body, home, takesClosure, function, f, source, found, before⟩
  rw [if_neg pending] at carried
  simp only [Plan.functionDecl, Plan.run_bind, Plan.run_lift, Plan.run_guard, Plan.run_enter,
    Plan.run_pure, gives_bind, gives_pure, gives_blockScope, Plan.gives_orFailFunction] at carried
  obtain ⟨_, _, -, _, _, -, made, s₃, ⟨listed, _, gone, scope, _, ⟨found', rfl⟩, _, _, declared,
    inner, s₂, located, body', _, walked, rfl, rfl⟩, _, _, registered, rfl, rfl⟩ := carried
  obtain rfl : scope = id := Option.some.inj (found'.symm.trans block)
  obtain rfl := unchanging_functionContext.of_gives located
  -- The parameter is declared under the name that it has after its default has been analysed.
  have names : listed.map (fun p => p.name.text) = parameters.map (fun p => p.name.text) :=
    names_of_shapes (shapes_of_parameterList gone)
  obtain ⟨p', member', same⟩ : ∃ p' ∈ listed, p'.name.text = p.name.text :=
    List.mem_map.mp (names ▸ List.mem_map_of_mem member)
  have inside : Grows (fun _ => True) s₂ s₃ := grows_of_gives (v := ⟨inner, body.slot, body, s₂⟩) walked
  have after : Grows (fun _ => True) s₃ t :=
    (kept.registerFunction _ _ _ _ _ _ trivial).of_gives registered
  rw [← same]
  exact (Grows.trans _ _ _ inside after).tree.declared _ _
    (declares_of_declareParameters member' declared)

/-- The parameters of a closure are declared before its body is gone over. -/
theorem declares_of_passed {attached body : Expr} {parameters : List Token} {captured : NameSet}
    {old : Option ClosureId} {token : Token}
    (source : v.source.kind = .closure attached parameters body captured old)
    (member : token ∈ parameters) (block : body.blockScope? = some id) (given : v.Gives r t) :
    t.tree.Declares id token.text := by
  have kept : Preserved (Grows fun _ => True) _ := grows_preserved _
  obtain ⟨scope, closure, opened, _, walked, handed, _, _, _, _, _, ⟨_, _, -, found, entered⟩, visited,
    passed, expanded, -, -⟩ := closure_of_gives source given
  obtain rfl : scope = id := Option.some.inj (found.symm.trans block)
  obtain ⟨-, -, declares⟩ := gives_enterClosure entered
  have inside : Grows (fun _ => True) opened walked := grows_of_gives visited
  have between : Grows (fun _ => True) walked handed :=
    (kept.keeps_propagateCaptures _ _).of_gives passed
  have after : Grows (fun _ => True) handed t := (kept.expand _ _ _ _ _ trivial).of_gives expanded
  exact (Grows.trans _ _ _ inside (Grows.trans _ _ _ between after)).tree.declared _ _
    (declares token member)

/-- A visit that ends has declared the names that its node takes. -/
theorem declares_of_takes {token : Token} (takes : v.source.kind.Takes id token) (met : ¬ v.Skips)
    (given : v.Gives r t) : t.tree.Declares id token.text := by
  generalize source : v.source.kind = kind at takes
  cases takes with
  | item member block => exact declares_of_item source member block given
  | caught member named block =>
    obtain ⟨-, made, carried, rfl⟩ := gives_iff.mp given
    simp only [plan, source, Plan.node, Plan.run_bind, Plan.run_lift, Plan.run_enter, Plan.run_pure,
      gives_bind, gives_blockScope, gives_pure] at carried
    obtain ⟨_, _, ⟨-, rfl⟩, _, _, -, _, _, walked, -, rfl⟩ := carried
    exact declares_of_caught member named block walked
  | parameter member named block => exact named ▸ declares_of_parameter source member block met given
  | passed member block => exact declares_of_passed source member block given

end Visit

/-! ### Whole analyses -/

namespace Analysis

variable {registry : Registry} {mode : AnalysisMode} {module : ModuleId} {ast : Ast}
  {s : AnalysisState} {id : ScopeId} {name : String}

theorem declaredBefore_changeModule (module : ModuleId) (change : ScriptModule → ScriptModule) :
    Keeps (DeclaredBefore id name) (Walk.edit (ScopeTree.Edit.changeModule module change)) := by
  intro s
  have grown : Grows (fun _ => False) s _ := grows_changeModule module change s
  exact grown.tree.still id name not_false

/-- However an analysis ends, what has been declared stays declared. -/
theorem grows_moduleWalk : Keeps (Grows fun _ => True) (moduleWalk registry mode module ast) := by
  have kept : Preserved (Grows fun _ => True) _ := grows_preserved _
  have changes (change : ScriptModule → ScriptModule) : Keeps (Grows fun _ => True)
      (Walk.edit (ScopeTree.Edit.changeModule module change)) := grows_changeModule module change
  exact keeps_moduleWalk kept.refl kept.trans (fun _ => changes _) (fun _ _ => changes _)
    (keeps_resolveImports kept.refl kept.trans fun change _ => changes change)
    fun _ => kept.keeps_exprs trivial _ fun e _ => e.permitted_everywhere

/-- However an analysis ends, a variable that has come to be declared is one of a node that the walk
has come to. -/
theorem mayDeclare_of_declares
    (declares : (runFrom (moduleWalk registry mode module ast) s).2.tree.Declares id name) :
    s.tree.Declares id name ∨ ∃ v, Visited registry module ast s v ∧ v.MayDeclare id name := by
  by_contra absent
  obtain ⟨before, absent⟩ := not_or.mp absent
  have changes (change : ScriptModule → ScriptModule) : Keeps (DeclaredBefore id name)
      (Walk.edit (ScopeTree.Edit.changeModule module change)) := declaredBefore_changeModule module change
  refine before (related_of_moduleWalk DeclaredBefore.refl DeclaredBefore.trans (fun _ => changes _)
    (fun _ _ => changes _)
    (keeps_resolveImports DeclaredBefore.refl DeclaredBefore.trans fun change _ => changes change) ?_
    declares)
  intro context start begins
  have everywhere : (Plan.each context Expr.slot ast.expressions).Within (DeclaredBefore id name)
      fun _ _ _ => True := Plan.within_each (fun _ _ => trivial) _ _
  rw [← Plan.run_each]
  refine everywhere.keeps_from DeclaredBefore.refl DeclaredBefore.trans fun top first _ => ?_
  exact Visit.declaredBefore_of_absent fun u reached declared =>
    absent ⟨u, ⟨context, start, top, begins, first, reached⟩, declared⟩

/-- A name of the environment comes to be declared only where a loop, a clause, a function or a closure
takes it, however the analysis ends. If it succeeds, all names are declared that are taken. -/
theorem environmentName_declared {name : Token} (environment : name.isEnvironmentName = true)
    (registry : Registry) (mode : AnalysisMode) (module : ModuleId) (ast : Ast) (s : AnalysisState)
    (id : ScopeId) :
    ((runFrom (moduleWalk registry mode module ast) s).2.tree.Declares id name.text →
      s.tree.Declares id name.text ∨
        ∃ v, Visited registry module ast s v ∧ v.TakesName id name.text) ∧
    ∀ analysed t, Gives (moduleWalk registry mode module ast) s analysed t →
      (t.tree.Declares id name.text ↔ s.tree.Declares id name.text ∨
        ∃ v, Visited registry module ast s v ∧ v.TakesName id name.text) := by
  have only (declares : (runFrom (moduleWalk registry mode module ast) s).2.tree.Declares id name.text) :
      s.tree.Declares id name.text ∨
        ∃ v, Visited registry module ast s v ∧ v.TakesName id name.text := by
    rcases mayDeclare_of_declares declares with before | ⟨v, visited, declared⟩
    · exact .inl before
    · exact .inr ⟨v, visited, declared.takesName environment⟩
  refine ⟨only, fun analysed t given => ⟨fun declares => ?_, ?_⟩⟩
  · have ended : (runFrom (moduleWalk registry mode module ast) s).2 = t := congrArg Prod.snd given
    exact only (ended ▸ declares)
  -- A visit of an analysis that has succeeded has a result, and what it takes is declared from then
  -- on.
  · rintro (before | ⟨v, visited, -, met, token, takes, text⟩)
    · exact (grows_moduleWalk.of_gives given).tree.declared _ _ before
    · obtain ⟨-, -, r, t', left, after⟩ := visited.course given
      exact after.tree.declared _ _ (text ▸ Visit.declares_of_takes takes met left)

/-- A loop over nothing, whose variable has a name of the environment. -/
def environmentLoop : Ast := ⟨[Build.forEach ["$x"] (Build.list []) (Build.block ⟨1⟩ [])]⟩

def environmentLoopScopes : ScopeTree :=
  { ScopeTree.ofRoot "main" with scopes := #[⟨none, ⟨0⟩, {}⟩, ⟨some ⟨0⟩, ⟨0⟩, {}⟩] }

/-- The analysis succeeds, and the body of the loop has come to declare the variable. -/
theorem declares_environmentLoop :
    ∃ analysed t, Gives (moduleWalk .empty .overwrite ⟨0⟩ environmentLoop)
        { tree := environmentLoopScopes } analysed t ∧
      ¬ environmentLoopScopes.Declares ⟨1⟩ "$x" ∧ t.tree.Declares ⟨1⟩ "$x" := by
  have ends : endsWith (moduleWalk .empty .overwrite ⟨0⟩ environmentLoop)
      { tree := environmentLoopScopes } (fun _ t => (t.tree.ownVariable? ⟨1⟩ "$x").isSome) = true := by
    decide +kernel
  obtain ⟨analysed, t, given, declares⟩ := gives_of_endsWith ends
  have before : (environmentLoopScopes.ownVariable? ⟨1⟩ "$x").isSome = false := by decide +kernel
  exact ⟨analysed, t, given, by simp [ScopeTree.Declares, before], declares⟩

/-- A name of the environment may come to be declared. -/
theorem environmentName_of_loop :
    ∃ analysed t, (Build.name "$x").isEnvironmentName = true ∧
      Gives (moduleWalk .empty .overwrite ⟨0⟩ environmentLoop) { tree := environmentLoopScopes }
        analysed t ∧
      ¬ environmentLoopScopes.Declares ⟨1⟩ "$x" ∧ t.tree.Declares ⟨1⟩ "$x" := by
  obtain ⟨analysed, t, given, declares⟩ := declares_environmentLoop
  exact ⟨analysed, t, by decide +kernel, given, declares⟩

/-- It does because the loop takes the name. -/
theorem environmentName_declared_taken :
    (Build.name "$x").isEnvironmentName = true ∧ ∃ v,
      Visited .empty ⟨0⟩ environmentLoop { tree := environmentLoopScopes } v ∧ v.TakesName ⟨1⟩ "$x" := by
  obtain ⟨analysed, t, given, before, declares⟩ := declares_environmentLoop
  have environment : (Build.name "$x").isEnvironmentName = true := by decide +kernel
  have found := environmentName_declared environment .empty .overwrite ⟨0⟩ environmentLoop
    { tree := environmentLoopScopes } ⟨1⟩
  exact ⟨environment, ((found.2 analysed t given).mp declares).resolve_left before⟩

end Analysis
end ShellSema
