import ShellSema.Analysis.Run
import ShellSema.Proofs.Results

/-!
# The visits of an analysis

The analysis of a module resolves its imports and then visits the expressions of its tree, one after
the other. What it gives is put together from these visits and those that they lead to.
-/
namespace ShellSema.Analysis

/-- Where the walk over the expressions of a module stands, and the state from which it starts. -/
def Begins (registry : Registry) (module : ModuleId) (s : AnalysisState) (context : Context)
    (start : AnalysisState) : Prop :=
  ∃ m, s.tree.module module = .ok m ∧ context = ⟨registry, m.scope, none⟩ ∧
    Gives (do setStatus module .analysed; Walk.resolveImports module) s () start

/-- A visit in the course of the analysis of a module. -/
def Visited (registry : Registry) (module : ModuleId) (ast : Ast) (s : AnalysisState) (v : Visit) :
    Prop :=
  ∃ context start top, Begins registry module s context start ∧
    (Plan.each context Expr.slot ast.expressions).Enters start top ∧ top.Reaches v

/-- The visits of the expressions of a module. -/
def visits (registry : Registry) (module : ModuleId) (ast : Ast) (s : AnalysisState) : List Visit :=
  match s.tree.module module with
  | .ok m =>
    Plan.visitsAfter (do setStatus module .analysed; Walk.resolveImports module) s fun _ start =>
      (Plan.each ⟨registry, m.scope, none⟩ Expr.slot ast.expressions).visits start
  | .error _ => []

variable {registry : Registry} {mode : AnalysisMode} {module : ModuleId} {ast analysed : Ast}
  {s t : AnalysisState}

theorem visited_of_mem_visits {v : Visit} (member : v ∈ visits registry module ast s) :
    Visited registry module ast s v := by
  unfold visits at member
  split at member
  next m found =>
    obtain ⟨_, start, begun, listed⟩ := Plan.mem_visitsAfter.mp member
    exact ⟨_, start, v, ⟨m, found, rfl, begun⟩, Plan.mem_visits.mp listed, .refl⟩
  next => exact absurd member List.not_mem_nil

/-- A successful analysis has walked over all expressions. -/
theorem begins_of_gives (given : Gives (moduleWalk registry mode module ast) s analysed t) :
    ∃ context start u, Begins registry module s context start ∧
      Gives (Plan.each context Expr.slot ast.expressions).run start analysed.expressions u ∧
      Gives (if mode = .oncePerModule then store module analysed else pure ()) u () t := by
  simp only [moduleWalk, gives_bind, gives_ask] at given
  obtain ⟨m, _, ⟨found, rfl⟩, _, r, marked, ast', u, walked, rest⟩ := given
  -- The handler only marks the module as failed and lets the halt through.
  rw [gives_tryCatch (by intro halt; cases halt <;> simp)] at walked
  simp only [walkModule, gives_bind, gives_pure] at walked
  obtain ⟨_, start, resolved, es, _, walked, rfl, rfl⟩ := walked
  refine ⟨_, start, u, ⟨m, found, rfl, ?_⟩, ?_, ?_⟩
  · exact gives_bind.mpr ⟨_, r, marked, resolved⟩
  · split at rest
    · simp only [gives_bind, gives_pure] at rest
      obtain ⟨_, _, _, rfl, -⟩ := rest
      rwa [Plan.run_each]
    · obtain ⟨rfl, -⟩ := gives_pure.mp rest
      rwa [Plan.run_each]
  · split at rest
    next once =>
      simp only [gives_bind, gives_pure] at rest
      obtain ⟨_, _, stored, rfl, rfl⟩ := rest
      simpa [once] using stored
    next other =>
      obtain ⟨rfl, rfl⟩ := gives_pure.mp rest
      simp [other]

/-- An analysis that does not look for a stored tree is the walk over the module. -/
theorem analyze_overwrite (registry : Registry) (tree : ScopeTree) (module : ModuleId) (ast : Ast) :
    analyze registry .overwrite tree module ast =
      ⟨(runFrom (moduleWalk registry .overwrite module ast) { tree }).1,
        (runFrom (moduleWalk registry .overwrite module ast) { tree }).2.tree⟩ :=
  rfl

theorem analyze_eq_ok {tree later : ScopeTree} :
    analyze registry .overwrite tree module ast = ⟨.ok analysed, later⟩ ↔
      ∃ t, Gives (moduleWalk registry .overwrite module ast) { tree } analysed t ∧ t.tree = later := by
  rw [analyze_overwrite]
  unfold Gives
  rcases runFrom (moduleWalk registry .overwrite module ast) { tree } with ⟨result, t⟩
  constructor
  · rintro ⟨⟩
    exact ⟨t, rfl, rfl⟩
  · rintro ⟨_, ⟨⟩, rfl⟩
    rfl

theorem Visited.reaches {v w : Visit} (visited : Visited registry module ast s v)
    (reached : v.Reaches w) : Visited registry module ast s w := by
  obtain ⟨context, start, top, begins, first, path⟩ := visited
  exact ⟨context, start, top, begins, first, path.trans reached⟩

theorem Visited.enters {v w : Visit} (visited : Visited registry module ast s v)
    (entered : v.Enters w) : Visited registry module ast s w :=
  visited.reaches (.single entered)

/-- What holds of the nodes that visits make holds of all nodes of an analysed tree. -/
theorem all_of_composes {ends : Expr → Prop} {wanted : ScopeId → Expr → Prop}
    (composes : Composes (Visited registry module ast s) ends wanted)
    (given : Gives (moduleWalk registry mode module ast) s analysed t) :
    ∃ m, s.tree.module module = .ok m ∧
      ∀ e ∈ analysed.expressions, e.AllAbove ends wanted m.scope := by
  obtain ⟨context, start, u, ⟨m, found, rfl, begun⟩, walked, -⟩ := begins_of_gives given
  refine ⟨m, found, ?_⟩
  have all : (Plan.each ⟨registry, m.scope, none⟩ Expr.slot ast.expressions).Yields
      (fun context slot _ r => slot.attachment = none → r.AllAbove ends wanted context.scope) start
      fun results => ∀ r ∈ results, r.AllAbove ends wanted m.scope := by
    refine (Plan.yields_each _ Expr.slot ast.expressions fun _ => rfl).mono fun results parts => ?_
    exact forall_of_forall₂ parts fun _ _ ⟨_, plain, all⟩ => all plain
  refine all.of_gives ?_ walked
  intro v r t' entered given plain
  have visited : Visited registry module ast s v :=
    ⟨_, start, v, ⟨m, found, rfl, begun⟩, entered, .refl⟩
  exact composes.all_of_gives (fun _ _ => Visited.enters) visited (by simp [Slot.piped, plain]) given

theorem all_of_gives {ends : Expr → Prop} {wanted : ScopeId → Expr → Prop}
    (spreads : Spreads (Visited registry module ast s) ends wanted)
    (given : Gives (moduleWalk registry mode module ast) s analysed t) :
    ∃ m, s.tree.module module = .ok m ∧
      ∀ e ∈ analysed.expressions, e.AllAbove ends wanted m.scope :=
  all_of_composes spreads.composes given

end ShellSema.Analysis
