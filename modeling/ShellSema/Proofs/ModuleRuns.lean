import ShellSema.Proofs.ModuleVisits
import ShellSema.Proofs.Pending

/-!
# What an analysis of a module keeps

An analysis changes the module itself, its status and import tables, and walks over its tree. A
relation between states is kept by the whole if it is kept by these. Each visit then starts from a
state that is related to the first one, and if no function is declared twice, it meets no function for
the second time.
-/
namespace ShellSema

/-- What there is of a module without its imports and its progress. -/
def ScriptModule.core (m : ScriptModule) : ScriptModule :=
  { m with
    importedModules := {}
    importedFunctions := {}
    importedStructs := {}
    importQueue := []
    status := .pending
    stored := none }

theorem ScriptModule.core_importTarget (m : ScriptModule) (name : String) (target : ImportTarget) :
    (m.importTarget name target).core = m.core := by
  cases target <;> rfl

namespace Analysis

variable {registry : Registry} {mode : AnalysisMode} {module : ModuleId} {ast analysed : Ast}

/-! ### Relations that an analysis keeps -/

section Keeping

variable {R : AnalysisState → AnalysisState → Prop}

/-- The tree that comes out is stored at the end, if at all. -/
theorem moduleWalk_eq (registry : Registry) (mode : AnalysisMode) (module : ModuleId) (ast : Ast) :
    moduleWalk registry mode module ast = (do
      let analysed ← moduleWalk registry .overwrite module ast
      if mode = .oncePerModule then store module analysed
      return analysed) := by
  simp [moduleWalk]

/-- A name is imported by a change of the module alone, and only if its target is exported. -/
theorem keeps_resolveImport (refl : ∀ s, R s s)
    (enters : ∀ s name target, s.tree.accessOf target = .ok .exported →
      R s (runFrom (Walk.edit (ScopeTree.Edit.changeModule module (·.importTarget name target))) s).2)
    (queued : QueuedImport) : Keeps R (Walk.resolveImport module queued) := by
  intro s
  simp only [Walk.resolveImport, runFrom_bind, runFrom_ask]
  cases s.tree.declared queued.origin queued.token.text with
  | error fault => exact refl s
  | ok target =>
    cases target with
    | none => exact refl s
    | some target =>
      simp only [Except.mapError, runFrom_bind, runFrom_ask]
      cases access : s.tree.accessOf target with
      | error fault => exact refl s
      | ok found =>
        dsimp only
        split
        · exact refl s
        next exported =>
          -- Only what is exported enters the imports.
          obtain rfl : found = .exported := not_not.mp exported
          exact enters s _ target access

/-- The imports of a module are resolved by emptying its queue and importing the names in it. -/
theorem keeps_importing (refl : ∀ s, R s s) (trans : ∀ r s t, R r s → R s t → R r t)
    (empties : Keeps R (Walk.edit (ScopeTree.Edit.changeModule module fun m =>
      { m with importQueue := [] })))
    (enters : ∀ s name target, s.tree.accessOf target = .ok .exported →
      R s (runFrom (Walk.edit (ScopeTree.Edit.changeModule module (·.importTarget name target))) s).2) :
    Keeps R (Walk.resolveImports module) := by
  refine keeps_bind trans ?_ fun queue => ?_
  · unfold ScopeTree.Edit.takeImports
    rw [edit_bind, edit_ask]
    refine keeps_bind trans (unchanging_ask.keeps refl) fun m => ?_
    rw [edit_bind]
    refine keeps_bind trans empties fun _ => ?_
    rw [edit_pure]
    exact keeps_pure refl _
  exact keeps_forM refl trans queue fun queued _ => keeps_resolveImport refl enters queued

/-- These are changes of the module alone, which leave its core. -/
theorem keeps_resolveImports (refl : ∀ s, R s s) (trans : ∀ r s t, R r s → R s t → R r t)
    (changes : ∀ change : ScriptModule → ScriptModule, (∀ m, (change m).core = m.core) →
      Keeps R (Walk.edit (ScopeTree.Edit.changeModule module change))) :
    Keeps R (Walk.resolveImports module) :=
  keeps_importing refl trans (changes _ fun _ => rfl) fun s name target _ =>
    changes _ (fun m => m.core_importTarget name target) s

/-- How the walk over a module is brought to an end: an error of the script is noted in the module, and
a result is stored if later requests may ask for it. -/
def settle (mode : AnalysisMode) (module : ModuleId) (walked : Walk Ast) : Walk Ast := do
  let analysed ← tryCatch walked fun
    | .failed error => do
      setStatus module .failed
      throw (.failed error)
    | .crashed crash => throw (.crashed crash)
  if mode = .oncePerModule then store module analysed
  return analysed

theorem moduleWalk_eq_settle (registry : Registry) (mode : AnalysisMode) (module : ModuleId)
    (ast : Ast) :
    moduleWalk registry mode module ast = (do
      let m ← Walk.ask (·.module module)
      setStatus module .analysed
      settle mode module (walkModule ⟨registry, m.scope, none⟩ module ast)) :=
  rfl

/-- From where the walk over a module has come, at most the module is changed. -/
theorem related_settle (refl : ∀ s, R s s) (trans : ∀ r s t, R r s → R s t → R r t)
    (failing : Keeps R (setStatus module .failed))
    (storing : mode = .oncePerModule → ∀ analysed, Keeps R (store module analysed))
    (walked : Walk Ast) (s : AnalysisState) :
    R (runFrom walked s).2 (runFrom (settle mode module walked) s).2 := by
  unfold settle
  refine related_bind trans (related_tryCatch refl (fun halt => ?_) walked s) fun analysed => ?_
  · cases halt with
    | failed error => exact keeps_bind trans failing fun _ => keeps_throw refl _
    | crashed crash => exact keeps_throw refl _
  · split
    next once => exact keeps_bind trans (storing once analysed) fun _ => keeps_pure refl _
    next => exact keeps_pure refl _

/-- From the end of the walk over the expressions of a module, at most the module is changed. -/
theorem Begins.settles {context : Context} {s start : AnalysisState} (refl : ∀ s, R s s)
    (trans : ∀ r s t, R r s → R s t → R r t) (failing : Keeps R (setStatus module .failed))
    (storing : mode = .oncePerModule → ∀ analysed, Keeps R (store module analysed))
    (begins : Begins registry module s context start) :
    R (runFrom (Walk.exprs context ast.expressions) start).2
      (runFrom (moduleWalk registry mode module ast) s).2 := by
  obtain ⟨m, found, rfl, given⟩ := begins
  obtain ⟨_, r, marked, resolved⟩ := gives_bind.mp given
  have asked : runFrom (Walk.ask (·.module module)) s = (.ok m, s) := gives_ask.mpr ⟨found, rfl⟩
  have marked : runFrom (setStatus module .analysed) s = (.ok (), r) := marked
  have resolved : runFrom (Walk.resolveImports module) r = (.ok (), start) := resolved
  -- The walk over the expressions has the end from which the analysis is settled.
  have same : (runFrom (walkModule ⟨registry, m.scope, none⟩ module ast) r).2 =
      (runFrom (Walk.exprs ⟨registry, m.scope, none⟩ ast.expressions) start).2 := by
    unfold walkModule
    rw [runFrom_bind, resolved]
    dsimp only
    rw [runFrom_bind]
    rcases runFrom (Walk.exprs ⟨registry, m.scope, none⟩ ast.expressions) start with ⟨_ | _, _⟩ <;> rfl
  rw [moduleWalk_eq_settle, runFrom_bind, asked]
  dsimp only
  rw [runFrom_bind, marked, ← same]
  exact related_settle refl trans failing storing _ r

/-- A relation is kept by an analysis if it is kept by the walk from where it starts, if it comes to
that. -/
theorem related_of_moduleWalk {s : AnalysisState} (refl : ∀ s, R s s)
    (trans : ∀ r s t, R r s → R s t → R r t) (status : ∀ status, Keeps R (setStatus module status))
    (storing : mode = .oncePerModule → ∀ analysed, Keeps R (store module analysed))
    (imports : Keeps R (Walk.resolveImports module))
    (walked : ∀ context start, Begins registry module s context start →
      R start (runFrom (Walk.exprs context ast.expressions) start).2) :
    R s (runFrom (moduleWalk registry mode module ast) s).2 := by
  rw [moduleWalk_eq_settle, runFrom_bind]
  have unchanged : s = (runFrom (Walk.ask (·.module module)) s).2 := unchanging_ask s
  rcases asked : runFrom (Walk.ask (·.module module)) s with ⟨_ | m, t⟩ <;> rw [asked] at unchanged
  · exact unchanged ▸ refl s
  obtain ⟨found, rfl⟩ := gives_ask.mp asked
  dsimp only
  rw [runFrom_bind]
  -- The run is taken apart at each place where it may halt.
  have first := status .analysed t
  rcases marked : runFrom (setStatus module .analysed) t with ⟨_ | _, r⟩ <;> rw [marked] at first
  · exact first
  refine trans _ _ _ first (trans _ _ _ ?_ (related_settle refl trans (status .failed) storing _ r))
  unfold walkModule
  rw [runFrom_bind]
  have second := imports r
  rcases resolved : runFrom (Walk.resolveImports module) r with ⟨_ | _, start⟩ <;>
    rw [resolved] at second
  · exact second
  have begins : Begins registry module t ⟨registry, m.scope, none⟩ start :=
    ⟨m, found, rfl, gives_bind.mpr ⟨_, r, marked, resolved⟩⟩
  exact trans _ _ _ second
    (related_bind trans (walked _ start begins) fun _ => keeps_pure refl _)

theorem keeps_moduleWalk (refl : ∀ s, R s s) (trans : ∀ r s t, R r s → R s t → R r t)
    (status : ∀ status, Keeps R (setStatus module status))
    (storing : mode = .oncePerModule → ∀ analysed, Keeps R (store module analysed))
    (imports : Keeps R (Walk.resolveImports module))
    (walked : ∀ scope, Keeps R (Walk.exprs ⟨registry, scope, none⟩ ast.expressions)) :
    Keeps R (moduleWalk registry mode module ast) :=
  fun _ => related_of_moduleWalk refl trans status storing imports fun _ start ⟨m, _, place, _⟩ =>
    place ▸ walked m.scope start

theorem Begins.keeps {context : Context} {s start : AnalysisState}
    (trans : ∀ r s t, R r s → R s t → R r t) (status : Keeps R (setStatus module .analysed))
    (imports : Keeps R (Walk.resolveImports module))
    (begins : Begins registry module s context start) : R s start := by
  obtain ⟨m, -, -, given⟩ := begins
  obtain ⟨_, _, marked, resolved⟩ := gives_bind.mp given
  exact trans _ _ _ (status.of_gives marked) (imports.of_gives resolved)

/-- Each visit starts from a state that is related to the one in which the walk begins. -/
theorem Visited.since {may : Permit} {s : AnalysisState} {v : Visit} (kept : Preserved R may)
    (anywhere : ∀ scope, may.scope scope) (permitted : ∀ e ∈ ast.expressions, e.Permitted may)
    (visited : Visited registry module ast s v) :
    v.Allowed may ∧ ∃ context start, Begins registry module s context start ∧ R start v.before := by
  obtain ⟨context, start, top, begins, first, reached⟩ := visited
  induction reached with
  | refl =>
    have everywhere : (Plan.each context Expr.slot ast.expressions).Within R fun _ _ _ => True :=
      Plan.within_each (fun _ _ => trivial) _ _
    obtain ⟨⟨-, member⟩, before⟩ := (everywhere.follow (Plan.follows_each ..)).enters kept.refl
      kept.trans (fun u r t wanted given =>
        (kept.keeps_expr (permitted u.source wanted.2) (.inl (anywhere _))).of_gives given) first
    exact ⟨⟨permitted top.source member, .inl (anywhere _)⟩, context, start, begins, before⟩
  | tail _ entered ih =>
    -- From one visit to one within it, the relation is kept step by step.
    obtain ⟨allowed, _, _, begins', before⟩ := ih
    obtain ⟨allowed', -, -, between⟩ := allowed.enters kept entered
    exact ⟨allowed', _, _, begins', kept.trans _ _ _ before between⟩

/-- Each visit starts from a state that is related to the first one. -/
theorem Visited.allowed {may : Permit} {s : AnalysisState} {v : Visit} (kept : Preserved R may)
    (status : Keeps R (setStatus module .analysed))
    (imports : Keeps R (Walk.resolveImports module)) (anywhere : ∀ scope, may.scope scope)
    (permitted : ∀ e ∈ ast.expressions, e.Permitted may)
    (visited : Visited registry module ast s v) : v.Allowed may ∧ R s v.before := by
  obtain ⟨allowed, _, _, begins, before⟩ := visited.since kept anywhere permitted
  exact ⟨allowed, kept.trans _ _ _ (begins.keeps kept.trans status imports) before⟩

end Keeping

/-! ### Pending functions -/

section Statuses

variable {touched : FunctionId → Prop} {s : AnalysisState} {v : Visit}

theorem keepsStatus_setStatus (status : Status) :
    Keeps (KeepsStatus touched) (setStatus module status) :=
  keepsStatus_changeModule _ _

theorem keepsStatus_resolveImports (module : ModuleId) :
    Keeps (KeepsStatus touched) (Walk.resolveImports module) :=
  keeps_resolveImports keepsStatus_refl KeepsStatus.trans fun change _ =>
    keepsStatus_changeModule module change

theorem Ast.permitted_functions (ast : Ast) :
    ∀ e ∈ ast.expressions, e.Permitted (Permit.onFunctions (· ∈ ast.functionIds)) := by
  intro e member n inside
  have declared := e.permitted_functions n inside
  rw [Ast.functionIds_eq]
  cases kind : n.kind
  case functionDecl =>
    rw [kind] at declared
    exact List.mem_flatMap.mpr ⟨e, member, declared⟩
  all_goals trivial

/-- An analysis leaves the status of all functions as it is that are declared elsewhere. -/
theorem keepsStatus_moduleWalk (registry : Registry) (mode : AnalysisMode) (module : ModuleId)
    (ast : Ast) : Keeps (KeepsStatus (· ∈ ast.functionIds)) (moduleWalk registry mode module ast) := by
  apply keeps_moduleWalk keepsStatus_refl KeepsStatus.trans keepsStatus_setStatus
  · exact fun _ _ => keepsStatus_changeModule _ _
  · exact keepsStatus_resolveImports module
  · exact fun _ => (keepsStatus_preserved _).keeps_exprs trivial _ (Ast.permitted_functions ast)

/-- Each visit is one of a node of the tree. -/
theorem Visited.mem_nodes (visited : Visited registry module ast s v) : v.source ∈ ast.nodes := by
  obtain ⟨context, start, top, begins, first, reached⟩ := visited
  induction reached with
  | refl =>
    have member := (Plan.follows_each ..).mem_of_enters first
    exact Ast.mem_nodes.mpr ⟨_, member, Expr.mem_nodes_self _⟩
  | tail _ entered ih =>
    have child := Visit.mem_children_of_enters entered
    exact (Ast.nodes_sublist ih).subset (Expr.mem_nodes_of_child child (Expr.mem_nodes_self _))

/-- A visit declares no function that the tree does not declare. -/
theorem Visited.functionIds_sublist (visited : Visited registry module ast s v) :
    v.source.functionIds.Sublist ast.functionIds :=
  (Ast.nodes_sublist visited.mem_nodes).filterMap _

/-- Until the visit that declares a function, a relation is kept that only this function matters to. -/
theorem Visited.apart_before {R : AnalysisState → AnalysisState → Prop} {id : FunctionId}
    (kept : Preserved R (Permit.onFunctions (· ≠ id)))
    (changes : ∀ change, Keeps R (Walk.edit (ScopeTree.Edit.changeModule module change)))
    (once : ast.functionIds.Nodup) (visited : Visited registry module ast s v)
    (declared : id ∈ v.source.functionIds) : R s v.before := by
  obtain ⟨context, start, top, begins, first, reached⟩ := visited
  induction reached with
  | refl =>
    have beginning : R s start := begins.keeps kept.trans (changes _)
      (keeps_resolveImports kept.refl kept.trans fun change _ => changes change)
    have everywhere : (Plan.each context Expr.slot ast.expressions).Within R fun _ _ _ => True :=
      Plan.within_each (fun _ _ => trivial) _ _
    refine kept.trans _ _ _ beginning ?_
    refine everywhere.enters_before (Plan.follows_each ..) kept.refl kept.trans ?_ first
    -- Before the walk comes to this expression, it has been in others, which declare other functions.
    intro earlier later split u r t _ member given
    rw [Ast.functionIds_eq, split] at once
    have other := functionIds_apart once (List.mem_append_left later member) declared
    exact Visit.apart_of_gives kept other given
  | @tail v w path entered ih =>
    have child := Visit.mem_children_of_enters entered
    have around : id ∈ v.source.functionIds := ((Expr.nodes_sublist child).filterMap _).subset declared
    have visited : Visited registry module ast s v := ⟨context, start, top, begins, first, path⟩
    have single := visited.functionIds_sublist.nodup once
    exact kept.trans _ _ _ (ih around) (Visit.apart_of_enters kept single entered declared)

/-- No visit meets a function for the second time. -/
theorem Visited.fresh (once : ast.functionIds.Nodup) (awaits : s.tree.Awaits ast.functionIds)
    (visited : Visited registry module ast s v) : v.Fresh := by
  have fewer := visited.functionIds_sublist
  refine ⟨fewer.nodup once, fun id declared status found => ?_⟩
  have kept := visited.apart_before (keepsStatus_preserved (· ≠ id))
    (fun change => keepsStatus_changeModule module change) once declared
  rw [kept id (not_not.mpr rfl)] at found
  exact awaits id (fewer.subset declared) status found

end Statuses

end Analysis
end ShellSema
