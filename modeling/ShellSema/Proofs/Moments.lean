import ShellSema.Proofs.Bodies
import ShellSema.Proofs.ModuleRuns

/-!
# The moments of an analysis

An analysis goes from state to state, and each of its visits starts and ends in one of them. From
one moment to a later one the tree of scopes and the closures grow, so what is declared or captured
at a visit is so at the end.
-/
namespace ShellSema.Analysis

variable {registry : Registry} {mode : AnalysisMode} {module : ModuleId} {ast analysed : Ast}
  {s t : AnalysisState} {u : Visit}

theorem Begins.unique {context context' : Context} {start start' : AnalysisState}
    (begins : Begins registry module s context start)
    (begins' : Begins registry module s context' start') : context = context' ∧ start = start' := by
  obtain ⟨m, found, rfl, first⟩ := begins
  obtain ⟨m', found', rfl, first'⟩ := begins'
  rw [found] at found'
  cases found'
  exact ⟨rfl, (first.unique first').2⟩

theorem grows_changeModule {scopes : ScopeId → Prop} (module : ModuleId)
    (change : ScriptModule → ScriptModule) :
    Keeps (Grows scopes) (Walk.edit (ScopeTree.Edit.changeModule module change)) :=
  grows_edit_of_leavesScopes (ScopeTree.Edit.leavesScopes_changeModule module change)

theorem Begins.grows {context : Context} {start : AnalysisState}
    (begins : Begins registry module s context start) : Grows (fun _ => True) s start :=
  begins.keeps Grows.trans (grows_changeModule module _)
    (keeps_resolveImports grows_refl Grows.trans fun change _ => grows_changeModule module change)

/-- A visit in a successful analysis ends, and what walks keep is kept from there to the end. -/
theorem Visited.leaves {R : AnalysisState → AnalysisState → Prop} {may : Permit}
    (kept : Preserved R may) (anywhere : ∀ scope, may.scope scope)
    (permitted : ∀ e ∈ ast.expressions, e.Permitted may)
    (storing : ∀ analysed, Keeps R (store module analysed))
    (visited : Visited registry module ast s u)
    (given : Gives (moduleWalk registry mode module ast) s analysed t) :
    ∃ r t', u.Gives r t' ∧ R t' t := by
  obtain ⟨context, start, top, begins, first, reached⟩ := visited
  induction reached with
  | refl =>
    -- The first visits are those of the expressions of the script.
    obtain ⟨context', start', ended, begins', walked, last⟩ := begins_of_gives given
    obtain ⟨rfl, rfl⟩ := begins.unique begins'
    have everywhere : (Plan.each context Expr.slot ast.expressions).Within R fun _ _ _ => True :=
      Plan.within_each (fun _ _ => trivial) _ _
    obtain ⟨r, t', left⟩ := Visit.gives_of_planEnters first walked
    have after : R t' ended := by
      refine (everywhere.follow (Plan.follows_each ..)).leaves kept.refl kept.trans ?_ first left walked
      exact fun v r t wanted given =>
        (kept.keeps_expr (permitted v.source wanted.2) (.inl (anywhere _))).of_gives given
    have stored : R ended t := by
      split at last
      · exact (storing analysed).of_gives last
      · exact (keeps_pure kept.refl _).of_gives last
    exact ⟨r, t', left, kept.trans _ _ _ after stored⟩
  | tail path entered ih =>
    -- A later visit is within one of a node, so it ends before that one does.
    obtain ⟨r, t', left, after⟩ := ih
    obtain ⟨r', t'', left'⟩ := Visit.gives_of_enters entered left
    have allowed := (Visited.since kept anywhere permitted ⟨context, start, top, begins, first, path⟩).1
    exact ⟨r', t'', left', kept.trans _ _ _ (allowed.leaves kept entered left' left) after⟩

/-- A visit in a successful analysis is one of a node of the tree; it ends, and the tree of scopes
and the closures grow before it and after it. -/
theorem Visited.course (visited : Visited registry module ast s u)
    (given : Gives (moduleWalk registry mode module ast) s analysed t) :
    u.source ∈ ast.nodes ∧ Grows (fun _ => True) s u.before ∧
      ∃ r t', u.Gives r t' ∧ Grows (fun _ => True) t' t := by
  have kept : Preserved (Grows fun _ => True) (Permit.onScopes fun _ => True) := grows_preserved _
  have permitted : ∀ e ∈ ast.expressions, e.Permitted (Permit.onScopes fun _ => True) :=
    fun e _ => e.permitted_everywhere
  obtain ⟨-, context, start, begins, before⟩ := visited.since kept (fun _ => trivial) permitted
  exact ⟨visited.mem_nodes, Grows.trans _ _ _ begins.grows before,
    visited.leaves kept (fun _ => trivial) permitted (fun _ => grows_changeModule module _) given⟩

/-- The tree of scopes grows from the end of a visit to the end of the analysis. -/
theorem Visited.grows (visited : Visited registry module ast s u)
    (given : Gives (moduleWalk registry mode module ast) s analysed t) {r : Expr}
    {t' : AnalysisState} (left : u.Gives r t') : Grows (fun _ => True) t' t := by
  obtain ⟨-, -, r', t'', left', later⟩ := visited.course given
  obtain ⟨rfl, rfl⟩ := Gives.unique left left'
  exact later

/-- From the end of the visit that declares a function to the end of the analysis, a relation is kept
that only this function matters to, however they end. -/
theorem Visited.apart_after {R : AnalysisState → AnalysisState → Prop} {id : FunctionId}
    (kept : Preserved R (Permit.onFunctions (· ≠ id)))
    (changes : ∀ change, Keeps R (Walk.edit (ScopeTree.Edit.changeModule module change)))
    (once : ast.functionIds.Nodup) (visited : Visited registry module ast s u)
    (declared : id ∈ u.source.functionIds) :
    R u.after (runFrom (moduleWalk registry mode module ast) s).2 := by
  obtain ⟨context, start, top, begins, first, reached⟩ := visited
  induction reached with
  | refl =>
    have everywhere : (Plan.each context Expr.slot ast.expressions).Within R fun _ _ _ => True :=
      Plan.within_each (fun _ _ => trivial) _ _
    have after := everywhere.keeps_after (Plan.follows_each ..) kept.refl kept.trans ?_ first
    · rw [Plan.run_each] at after
      exact kept.trans _ _ _ after
        (begins.settles kept.refl kept.trans (changes _) fun _ _ => changes _)
    · -- The expressions after this one declare other functions.
      intro earlier later split w _ member
      rw [Ast.functionIds_eq, split] at once
      have other := functionIds_apart once (List.mem_append_right earlier member) declared
      exact Visit.apart_after kept other
  | @tail v w path entered ih =>
    have child := Visit.mem_children_of_enters entered
    have around : id ∈ v.source.functionIds := ((Expr.nodes_sublist child).filterMap _).subset declared
    have visited : Visited registry module ast s v := ⟨context, start, top, begins, first, path⟩
    have single := visited.functionIds_sublist.nodup once
    exact kept.trans _ _ _ (Visit.apart_of_leaves kept single entered declared) (ih around)

end ShellSema.Analysis
