import ShellSema.Proofs.Recording
import ShellSema.Proofs.Retracing
import ShellSema.Proofs.SessionSafety
import ShellSema.Proofs.Territory

/-!
# A request made a second time

A module that has been analysed may be analysed again, in the tree of scopes that the first analysis
has left. Nothing is queued for import then, and every name that the first walk has declared is there
from the start. Functions have been met, so the second walk leaves them as they are; in all other
places it finds what the first one has found, and notes what that one has noted.
-/
namespace ShellSema

/-! ### Where a walk begins -/

namespace ScopeTree

variable {tree later : ScopeTree} {module : ModuleId} {scope : ScopeId}

/-- The module counts as analysed, none of its imports waits, and the scope is its own. -/
def Underway (tree : ScopeTree) (module : ModuleId) (scope : ScopeId) : Prop :=
  ∃ m, tree.module module = .ok m ∧ m.status = .analysed ∧ m.importQueue = [] ∧ m.scope = scope

theorem module_changeModule {m : ScriptModule} (found : tree.module module = .ok m)
    (change : ScriptModule → ScriptModule) :
    (runFrom (Edit.changeModule module change) tree).2.module module = .ok (change m) := by
  rw [Edit.state_changeModule, module_eq_ok]
  exact getElem?_modify_self (module_eq_ok.mp found) change

/-- A change that leaves the module as it is leaves the tree. -/
theorem Edit.runFrom_changeModule_same {m : ScriptModule} {change : ScriptModule → ScriptModule}
    (found : tree.module module = .ok m) (same : change m = m) :
    runFrom (changeModule module change) tree = (.ok (), tree) := by
  have entries : tree.modules.modify module.index change = tree.modules := by
    refine modify_eq_self fun m' there => ?_
    cases (module_eq_ok.mp found).symm.trans there
    exact same
  rw [runFrom_changeModule, if_pos (hasModule_iff.mpr ⟨m, found⟩), entries]

theorem Underway.importTarget (underway : tree.Underway module scope) (name : String)
    (target : ImportTarget) :
    (runFrom (Edit.changeModule module (·.importTarget name target)) tree).2.Underway module scope := by
  obtain ⟨m, found, status, queue, inside⟩ := underway
  refine ⟨_, module_changeModule found _, ?_⟩
  cases target <;> exact ⟨status, queue, inside⟩

theorem Recalls.underway (recalls : tree.Recalls later) (underway : tree.Underway module scope) :
    later.Underway module scope := by
  obtain ⟨m, found, status, queue, inside⟩ := underway
  rcases recalls.module_cases module with ⟨missing, -⟩ | ⟨_, m', found', there, same⟩
  · rw [missing] at found
    cases found
  rw [found'] at found
  cases found
  obtain ⟨status', queue', inside'⟩ : m'.status = m.status ∧ m'.importQueue = m.importQueue ∧
      m'.scope = m.scope := by
    injection same
    exact ⟨‹_›, ‹_›, ‹_›⟩
  exact ⟨m', there, status'.trans status, queue'.trans queue, inside'.trans inside⟩

end ScopeTree

/-- A function declaration of the tree has something at a place. -/
def Ast.InFunction (ast : Ast) (span : Span) : Prop :=
  ∃ n ∈ ast.nodes, n.kindName = "function" ∧ span ∈ n.tokens.map Token.span

/-- The first of two walks over the tree of a module. It alone notes what stands in functions. -/
def Rerun.ofWalk (ast : Ast) (start last : AnalysisState) : Rerun where
  base := start.tree
  last
  skipped token := ast.InFunction token.span

/-! ### No new structs -/

/-- The structs that a walk may declare. -/
def Permit.onStructs (declared : ModuleId → String → Prop) : Permit where
  scope _ := True
  function _ _ _ _ _ := True
  struct _ name module := declared module name.text

/-- If all these structs are there, they stay, and no struct is added. -/
def KeepsCount (declared : ModuleId → String → Prop) (s t : AnalysisState) : Prop :=
  (∀ module name, declared module name → (s.tree.structNamed? module name).isSome = true) →
    (∀ module name, declared module name → (t.tree.structNamed? module name).isSome = true) ∧
      t.tree.structs.size = s.tree.structs.size

section KeepsCount

variable {declared : ModuleId → String → Prop}

theorem keepsCount_of_structs (s t : AnalysisState)
    (named : t.tree.structNamed? = s.tree.structNamed?) (same : t.tree.structs = s.tree.structs) :
    KeepsCount declared s t := by
  intro there
  rw [named, same]
  exact ⟨there, rfl⟩

theorem keepsCount_refl (s : AnalysisState) : KeepsCount declared s s :=
  keepsCount_of_structs s s rfl rfl

theorem KeepsCount.trans (r s t : AnalysisState) (first : KeepsCount declared r s)
    (rest : KeepsCount declared s t) : KeepsCount declared r t := by
  intro there
  obtain ⟨there', structs⟩ := first there
  obtain ⟨there'', structs'⟩ := rest there'
  exact ⟨there'', structs'.trans structs⟩

/-- A walk replaces the structs that are there, and declares no others. -/
theorem keepsCount_preserved : Preserved (KeepsCount declared) (Permit.onStructs declared) := by
  apply preserved_of_structs keepsCount_of_structs KeepsCount.trans
  · rintro s t struct id - - same there
    rw [same]
    exact ⟨there, Array.size_modify⟩
  · rintro s t struct ⟨name, allowed, text⟩ absent - - - there
    have known := there struct.module name.text allowed
    rw [← text, absent] at known
    cases known

end KeepsCount

namespace Analysis

variable {registry : Registry} {module : ModuleId} {ast analysed : Ast} {context : Context}
  {s start t : AnalysisState}

/-- Functions and structs are the same, and modules have the same of them under each name. -/
def KeepsDeclared (s t : AnalysisState) : Prop :=
  t.tree.functions = s.tree.functions ∧ t.tree.structs = s.tree.structs ∧
    ∀ id : ModuleId, (t.tree.modules[id.index]?).map ScriptModule.core =
      (s.tree.modules[id.index]?).map ScriptModule.core

theorem keepsDeclared_refl (s : AnalysisState) : KeepsDeclared s s := ⟨rfl, rfl, fun _ => rfl⟩

theorem KeepsDeclared.trans (r s t : AnalysisState) (first : KeepsDeclared r s)
    (rest : KeepsDeclared s t) : KeepsDeclared r t :=
  ⟨rest.1.trans first.1, rest.2.1.trans first.2.1, fun id => (rest.2.2 id).trans (first.2.2 id)⟩

theorem keepsDeclared_changeModule {change : ScriptModule → ScriptModule}
    (core : ∀ m, (change m).core = m.core) :
    Keeps KeepsDeclared (Walk.edit (ScopeTree.Edit.changeModule module change)) := by
  intro s
  rw [runFrom_edit_state, ScopeTree.Edit.state_changeModule]
  refine ⟨rfl, rfl, fun id => ?_⟩
  dsimp only
  rw [getElem?_modify_handle ModuleId.index_injective]
  split
  · rw [Option.map_map]
    exact congrArg (Option.map · _) (funext core)
  · rfl

/-- Before its walk, an analysis marks its module, empties its queue, and resolves what stood in it. -/
theorem Begins.resolves (begins : Begins registry module s context start) :
    ∃ m u, s.tree.module module = .ok m ∧ context = ⟨registry, m.scope, none⟩ ∧
      u.tree.module module = .ok { m with status := .analysed, importQueue := [] } ∧
      KeepsDeclared s u ∧ Gives (m.importQueue.forM (Walk.resolveImport module)) u () start := by
  obtain ⟨m, found, rfl, given⟩ := begins
  obtain ⟨_, r, marked, resolved⟩ := gives_bind.mp given
  -- First the module is marked, then its queue is emptied, then what was in it is bound.
  have marked' : r.tree.module module = .ok { m with status := .analysed } := by
    rw [tree_of_edit marked]
    exact ScopeTree.module_changeModule found _
  have marks : Keeps KeepsDeclared (setStatus module .analysed) :=
    keepsDeclared_changeModule fun _ => rfl
  obtain ⟨queue, u, taken, imported⟩ := gives_bind.mp resolved
  simp only [ScopeTree.Edit.takeImports, edit_bind, edit_ask, edit_pure, gives_bind, gives_ask,
    gives_pure] at taken
  obtain ⟨m', r, ⟨found', rfl⟩, _, u, changed, rfl, rfl⟩ := taken
  have same : m' = { m with status := .analysed } := Except.ok.inj (found'.symm.trans marked')
  have emptied : u.tree.module module = .ok { m with status := .analysed, importQueue := [] } := by
    rw [tree_of_edit changed]
    exact ScopeTree.module_changeModule marked' _
  have takes : Keeps KeepsDeclared (Walk.edit (ScopeTree.Edit.changeModule module fun m =>
      { m with importQueue := [] })) := keepsDeclared_changeModule fun _ => rfl
  have kept := (marks.of_gives marked).trans _ _ _ (takes.of_gives changed)
  refine ⟨m, u, found, rfl, emptied, kept, ?_⟩
  rw [same] at imported
  exact imported

/-- An analysis marks its module and empties its queue before the walk. -/
theorem Begins.underway (begins : Begins registry module s context start) :
    context = ⟨registry, context.scope, none⟩ ∧ start.tree.Underway module context.scope := by
  obtain ⟨m, u, -, rfl, found, -, imported⟩ := begins.resolves
  refine ⟨rfl, ?_⟩
  have emptied : u.tree.Underway module m.scope := ⟨_, found, rfl, rfl, rfl⟩
  -- Imports enter the tables of the module and nothing else.
  let Stays (s t : AnalysisState) : Prop :=
    s.tree.Underway module m.scope → t.tree.Underway module m.scope
  have stays : Keeps Stays (m.importQueue.forM (Walk.resolveImport module)) := by
    have refl (s : AnalysisState) : Stays s s := id
    have trans (r s t : AnalysisState) (first : Stays r s) (rest : Stays s t) : Stays r t :=
      rest ∘ first
    apply keeps_forM refl trans
    intro queued _
    apply keeps_resolveImport refl
    intro s name target _ underway
    rw [runFrom_edit_state]
    exact underway.importTarget name target
  exact stays.of_gives imported emptied

section Underway

variable {scope : ScopeId} (underway : s.tree.Underway module scope)

include underway

theorem gives_setStatus : Gives (setStatus module .analysed) s () s := by
  obtain ⟨m, found, status, -, -⟩ := underway
  apply gives_edit.mpr
  refine ⟨s.tree, ScopeTree.Edit.runFrom_changeModule_same found ?_, rfl⟩
  rw [← status]

theorem gives_resolveImports : Gives (Walk.resolveImports module) s () s := by
  obtain ⟨m, found, -, queue, -⟩ := underway
  have emptied : Gives (Walk.edit (ScopeTree.Edit.changeModule module fun m =>
      { m with importQueue := [] })) s () s := by
    apply gives_edit.mpr
    refine ⟨s.tree, ScopeTree.Edit.runFrom_changeModule_same found ?_, rfl⟩
    rw [← queue]
  simp only [Walk.resolveImports, ScopeTree.Edit.takeImports, edit_bind, edit_ask, edit_pure,
    gives_bind, gives_ask, gives_pure]
  exact ⟨[], s, ⟨m, s, ⟨found, rfl⟩, (), s, emptied, queue.symm, rfl⟩, rfl⟩

/-- If the module is underway, its analysis is the walk over its tree. -/
theorem arrives_moduleWalk {wanted : Ast → AnalysisState → Prop}
    (arrives : Arrives (Walk.exprs ⟨registry, scope, none⟩ ast.expressions) s fun es t => wanted ⟨es⟩ t) :
    Arrives (moduleWalk registry .overwrite module ast) s wanted := by
  obtain ⟨m, found, -, -, rfl⟩ := id underway
  have known : Arrives (Walk.ask (·.module module)) s fun m' t => m' = m ∧ t = s :=
    arrives_ask found ⟨rfl, rfl⟩
  have marked : Arrives (setStatus module .analysed) s fun _ t => t = s :=
    arrives_of_gives (gives_setStatus underway) rfl
  have resolved : Arrives (Walk.resolveImports module) s fun _ t => t = s :=
    arrives_of_gives (gives_resolveImports underway) rfl
  have walked : Arrives (walkModule ⟨registry, m.scope, none⟩ module ast) s wanted := by
    apply resolved.bind
    rintro _ _ - rfl
    exact arrives.bind fun es t _ holds => arrives_pure holds
  apply known.bind
  rintro _ _ - ⟨rfl, rfl⟩
  apply marked.bind
  rintro _ _ - rfl
  refine Arrives.bind (arrives_tryCatch ?passes walked) ?rest
  case passes => exact fun _ => rfl
  case rest => exact fun again t _ holds => arrives_pure holds

end Underway

/-! ### Until the walk begins -/

theorem Begins.keepsDeclared (begins : Begins registry module s context start) :
    KeepsDeclared s start :=
  begins.related keepsDeclared_refl KeepsDeclared.trans fun _ => keepsDeclared_changeModule

/-- What is declared in the first tree is declared where the walk begins. -/
theorem Begins.repeatable {final : ScopeTree} {kind : ExprKind}
    (begins : Begins registry module s context start) (repeatable : kind.Repeatable s.tree final) :
    kind.Repeatable start.tree final := by
  obtain ⟨functions, structs, modules⟩ := begins.keepsDeclared
  have functionNamed : start.tree.functionNamed? = s.tree.functionNamed? := by
    funext id name
    have same := congrArg (Option.bind · fun m => m.functions.get? name) (modules id)
    rwa [Option.bind_map, Option.bind_map] at same
  have structNamed : start.tree.structNamed? = s.tree.structNamed? := by
    funext id name
    have same := congrArg (Option.bind · fun m => m.structs.get? name) (modules id)
    rwa [Option.bind_map, Option.bind_map] at same
  cases kind
  case functionDecl =>
    obtain ⟨named, signature⟩ := repeatable
    constructor
    · rw [functionNamed]
      exact named
    · unfold ScopeTree.functionSignature? at signature ⊢
      rw [functions]
      exact signature
  case structDecl =>
    obtain ⟨lasting, unchanged, unhiding⟩ := repeatable
    constructor
    · exact lasting
    · unfold ScopeTree.structSignature? at unchanged ⊢
      rw [structs, structNamed]
      exact unchanged
    · rw [structNamed]
      exact unhiding
  -- Nothing is asked of the other kinds.
  all_goals trivial

/-! ### The second walk -/

/-- From where it begins a walk goes onward, and its end recalls where it began. -/
theorem Begins.recalls (begins : Begins registry module s context start)
    (walked : Gives (Walk.exprs context ast.expressions) start analysed.expressions t)
    (repeatable : ∀ n ∈ ast.nodes, n.kind.Repeatable s.tree t.tree) :
    Onward start t ∧ start.tree.Recalls t.tree := by
  have onward : Onward start t := (onward_preserved.keeps_exprs trivial _ fun e _ =>
    e.permitted_everywhere).of_gives walked
  have imports (module : ModuleId) (name : String) :
      start.tree.structImported? module name = t.tree.structImported? module name :=
    (congrFun (congrFun onward.names.imported module) name).symm
  have declared (e : Expr) (member : e ∈ ast.expressions) (n : Expr) (inside : n ∈ e.nodes) :
      n.kind.Repeatable start.tree t.tree :=
    begins.repeatable (repeatable n (Ast.mem_nodes.mpr ⟨e, member, inside⟩))
  obtain ⟨registered, -⟩ :=
    (registers_registering imports).of_exprs declared walked (.refl start.tree)
  exact ⟨onward, registered.toRecalls⟩

/-- Where the first walk has begun, the second one is at the place from which that one goes on. -/
theorem Begins.repeating (begins : Begins registry module s context start)
    (walked : Gives (Walk.exprs context ast.expressions) start analysed.expressions t)
    (repeatable : ∀ n ∈ ast.nodes, n.kind.Repeatable s.tree t.tree) (noted : s.tokens = some #[]) :
    Repeating (Rerun.ofWalk ast start t) {} start { tree := t.tree, tokens := some #[] } := by
  obtain ⟨onward, recalls⟩ := begins.recalls walked repeatable
  have quiet : start.tokens = s.tokens :=
    begins.keeps (fun _ _ _ one two => two.trans one) (silent_edit _) (silent_resolveImports module)
  exact
    { passes := ⟨onward, .refl start.tree, recalls⟩
      resembles := .refl t.tree
      linked := .outermost
      fewer := Nat.zero_le _
      noted := ⟨#[], #[], [], quiet.trans noted, rfl, .refl _, .refl _, nofun⟩ }

/-- After a walk, another one over the same tree makes the same of it. -/
theorem Begins.arrives (begins : Begins registry module s context start)
    (walked : Gives (Walk.exprs context ast.expressions) start analysed.expressions t)
    (room : t.closures.size ≤ 2 ^ 32)
    (repeatable : ∀ n ∈ ast.nodes, n.kind.Repeatable s.tree t.tree) (noted : s.tokens = some #[]) :
    Arrives (Walk.exprs context ast.expressions) { tree := t.tree, tokens := some #[] } fun es t' =>
      outlineAll t.tree none es = outlineAll t.tree none analysed.expressions ∧
        (Rerun.ofWalk ast start t).NotesMore t t' := by
  have repeating := begins.repeating walked repeatable noted
  obtain ⟨onward, -⟩ := begins.recalls walked repeatable
  obtain ⟨outermost, -⟩ := begins.underway
  -- Every expression at the top is retraced, and what is noted in functions may be skipped.
  have below (e : Expr) (member : e ∈ ast.expressions) : (Rerun.ofWalk ast start t).Retraces e := by
    have inside (n : Expr) (within : n ∈ e.nodes) : n ∈ ast.nodes :=
      Ast.mem_nodes.mpr ⟨e, member, within⟩
    apply Rerun.retraces room
    · exact fun n within => begins.repeatable (repeatable n (inside n within))
    · exact fun n within function token stands => ⟨n, inside n within, function, stands⟩
  rw [outermost] at walked ⊢
  rw [← Plan.run_each] at walked ⊢
  have follows : Follows (Rerun.ofWalk ast start t) {}
      (Plan.each ⟨registry, context.scope, none⟩ Expr.slot ast.expressions).run
      (Plan.each ⟨registry, context.scope, none⟩ Expr.slot ast.expressions).run fun es es' =>
        outlineAll t.tree none es' = outlineAll t.tree none es :=
    follows_each rfl Expr.slot below
  apply (follows.arrives _ _ _ _ repeating walked (onward_calm.refl t)).mono
  exact fun _ _ _ arrived => ⟨arrived.1, arrived.2.noted⟩

/-- After an analysis, another one makes the same of the tree that is given. -/
theorem arrives_again {tree : ScopeTree}
    (given : Gives (moduleWalk registry .overwrite module ast) { tree, tokens := some #[] } analysed t)
    (room : t.closures.size ≤ 2 ^ 32) (repeatable : ∀ n ∈ ast.nodes, n.kind.Repeatable tree t.tree) :
    ∃ start, Arrives (moduleWalk registry .overwrite module ast) { tree := t.tree, tokens := some #[] }
      fun again t' => again.outline t.tree = analysed.outline t.tree ∧
        (Rerun.ofWalk ast start t).NotesMore t t' := by
  obtain ⟨context, start, u, begins, walked, last⟩ := begins_of_gives given
  obtain ⟨-, rfl⟩ := gives_pure.mp last
  rw [Plan.run_each] at walked
  obtain ⟨outermost, underway⟩ := begins.underway
  obtain ⟨-, recalls⟩ := begins.recalls walked repeatable
  have arrives := begins.arrives walked room repeatable rfl
  rw [outermost] at arrives
  use start
  apply arrives_moduleWalk (s := { tree := t.tree, tokens := some #[] }) (recalls.underway underway)
  apply arrives.mono
  rintro es t' - ⟨same, noted⟩
  exact ⟨congrArg Ast.mk same, noted⟩

/-- An analysis of a tree whose structs are all there does not add any, however it ends. -/
theorem keepsCount_moduleWalk {declared : ModuleId → String → Prop}
    (permitted : ∀ n ∈ ast.nodes, n.kind.Permitted (Permit.onStructs declared)) :
    Keeps (KeepsCount declared) (moduleWalk registry .overwrite module ast) := by
  have changed (change : ScriptModule → ScriptModule) (core : ∀ m, (change m).core = m.core) :
      Keeps (KeepsCount declared) (Walk.edit (ScopeTree.Edit.changeModule module change)) :=
    keeps_changeModule_of_core keepsCount_of_structs module core
  apply keeps_moduleWalk keepsCount_refl KeepsCount.trans fun _ => changed _ fun _ => rfl
  · exact fun once => nomatch once
  · exact keeps_resolveImports keepsCount_refl KeepsCount.trans changed
  · intro scope
    apply keepsCount_preserved.keeps_exprs trivial
    exact fun e member n inside => permitted n (Ast.mem_nodes.mpr ⟨e, member, inside⟩)

/-- Structs that a first analysis has declared are there for the second one, so it does not run out of
room for them, and nothing else makes it crash. -/
theorem safe_again {tree : ScopeTree} {tokens tokens' : Option (Array SemanticToken)}
    (closed : tree.Closed) (acyclic : tree.ScopesAcyclic) (fine : ModuleTree.Fine tree ⟨module, ast⟩)
    (given : Gives (moduleWalk registry .overwrite module ast) { tree, tokens } analysed t)
    (room : t.tree.structs.size < 2 ^ 32) (repeatable : ∀ n ∈ ast.nodes, n.kind.Repeatable tree t.tree)
    (crash : Crash) : (runFrom (moduleWalk registry .overwrite module ast)
      { tree := t.tree, tokens := tokens' }).1 ≠ .error (.crashed crash) := by
  have first : Safely tree (moduleWalk registry .overwrite module ast) { tree, tokens } _ :=
    safely_moduleWalk (sound_start (closed.fits acyclic) tokens) fine registry .overwrite
  unfold Safely at first
  rw [show runFrom _ _ = (.ok analysed, t) from given] at first
  have second : Safely tree (moduleWalk registry .overwrite module ast)
      { tree := t.tree, tokens := tokens' } _ :=
    safely_moduleWalk (sound_start first.1.sound.fits tokens') fine registry .overwrite
  let declared (module : ModuleId) (name : String) : Prop := (t.tree.structNamed? module name).isSome
  -- Every struct of the tree is there already after the first run, so the second one adds none and
  -- the store cannot fill up.
  have permitted (n : Expr) (inside : n ∈ ast.nodes) :
      n.kind.Permitted (Permit.onStructs declared) := by
    have again := repeatable n inside
    cases kind : n.kind
    case structDecl =>
      rw [kind] at again
      obtain ⟨id, named, -⟩ := again.lasting
      exact Option.isSome_of_mem named
    all_goals trivial
  obtain ⟨-, count⟩ := keepsCount_moduleWalk permitted { tree := t.tree, tokens := tokens' }
    fun _ _ => id
  intro crashed
  unfold Safely at second
  rcases ended : runFrom (moduleWalk registry .overwrite module ast)
    { tree := t.tree, tokens := tokens' } with ⟨result, u⟩
  rw [ended] at crashed second count
  dsimp only at crashed
  subst crashed
  have full : 2 ^ 32 ≤ u.tree.structs.size := second
  rw [count] at full
  exact absurd room (Nat.not_lt.mpr full)

/-- How many closures an analysis enters. -/
def closuresEntered (registry : Registry) (tree : ScopeTree) (module : ModuleId) (ast : Ast) : Nat :=
  (runFrom (moduleWalk registry .overwrite module ast) { tree }).2.closures.size

/-- An analysis ends as it does when tokens are noted. -/
theorem runs_noting (registry : Registry) (tree : ScopeTree) (module : ModuleId) (ast : Ast) :
    runFrom (moduleWalk registry .overwrite module ast) { tree } =
      ((runFrom (moduleWalk registry .overwrite module ast) { tree, tokens := some #[] }).1,
        (runFrom (moduleWalk registry .overwrite module ast) { tree, tokens := some #[] }).2.unrecorded) :=
  oblivious_moduleWalk registry .overwrite module ast { tree, tokens := some #[] }

theorem analyze_eq (registry : Registry) (tree : ScopeTree) (module : ModuleId) (ast : Ast) :
    analyze registry .overwrite tree module ast =
      ⟨(runFrom (moduleWalk registry .overwrite module ast) { tree, tokens := some #[] }).1,
        (runFrom (moduleWalk registry .overwrite module ast) { tree, tokens := some #[] }).2.tree⟩ := by
  rw [analyze_overwrite, runs_noting]
  rfl

theorem gives_noting {tree later : ScopeTree}
    (given : analyze registry .overwrite tree module ast = ⟨.ok analysed, later⟩) :
    ∃ t, Gives (moduleWalk registry .overwrite module ast) { tree, tokens := some #[] } analysed t ∧
      t.tree = later ∧ closuresEntered registry tree module ast = t.closures.size := by
  unfold closuresEntered
  rw [analyze_eq] at given
  rw [runs_noting]
  rcases ended : runFrom (moduleWalk registry .overwrite module ast) { tree, tokens := some #[] } with
    ⟨result, t⟩
  rw [ended] at given
  injection given with result tree
  subst result
  exact ⟨t, ended, tree, rfl⟩

theorem analyze_of_noting {tree : ScopeTree}
    (given : Gives (moduleWalk registry .overwrite module ast) { tree, tokens := some #[] } analysed t) :
    analyze registry .overwrite tree module ast = ⟨.ok analysed, t.tree⟩ := by
  rw [analyze_eq, show runFrom _ _ = (.ok analysed, t) from given]

theorem tree_of_noting {tree : ScopeTree}
    (given : Gives (moduleWalk registry .overwrite module ast) { tree, tokens := some #[] } analysed t) :
    (semanticTokens registry tree module ast).tree = t.tree := by
  unfold semanticTokens
  rw [show (moduleWalk _ _ _ _).run _ = (.ok analysed, t) from given]

/-- What the second of two analyses has noted is what the first one has, apart from what stands in
functions. -/
theorem tokens_again {start t' : AnalysisState}
    (notes : (Rerun.ofWalk ast start t).NotesMore t t') :
    ∃ inside, (SemanticToken.sorted (t.tokens.getD #[]).toList).Perm
        (SemanticToken.sorted (t'.tokens.getD #[]).toList ++ inside) ∧
      (inside = [] → SemanticToken.sorted (t'.tokens.getD #[]).toList =
        SemanticToken.sorted (t.tokens.getD #[]).toList) ∧
      ∀ token ∈ inside, ast.InFunction token.span := by
  obtain ⟨noted, noted', inside, found, found', ordered, perm, stand⟩ := notes
  rw [found, found', Option.getD_some, Option.getD_some]
  refine ⟨inside, ?_, ?_, stand⟩
  · have sorted (tokens : List SemanticToken) : (SemanticToken.sorted tokens).Perm tokens :=
      List.mergeSort_perm _ _
    exact (sorted _).trans (perm.trans ((sorted _).symm.append_right inside))
  · -- Without a token that is left out, the second sequence is as long as the first one.
    rintro rfl
    rw [List.append_nil] at perm
    rw [ordered.eq_of_length perm.length_eq.symm]

/-- A module is analysed in a valid tree of scopes. Its functions are declared there already, as they
are in the given tree; its structs are declared with the same fields, or they are new and do not come to
hide an import. Then a second analysis in the tree of scopes that comes out succeeds. Outside of
functions it finds the same about all calls, literals, variables and types, and it notes the same
tokens. -/
theorem analyze_again {tree later : ScopeTree} (closed : tree.Closed) (acyclic : tree.ScopesAcyclic)
    (fine : ModuleTree.Fine tree ⟨module, ast⟩)
    (given : analyze registry .overwrite tree module ast = ⟨.ok analysed, later⟩)
    (structs : later.structs.size < 2 ^ 32) (closures : closuresEntered registry tree module ast ≤ 2 ^ 32)
    (repeatable : ∀ n ∈ ast.nodes, n.kind.Repeatable tree later) :
    (∃ again, (analyze registry .overwrite later module ast).result = .ok again ∧
      again.outline later = analysed.outline later) ∧
    ∃ tokens tokens' inside,
      (semanticTokens registry tree module ast).result = .ok tokens ∧
      (semanticTokens registry (semanticTokens registry tree module ast).tree module ast).result =
        .ok tokens' ∧
      tokens.Perm (tokens' ++ inside) ∧ (inside = [] → tokens' = tokens) ∧
      ∀ token ∈ inside, ast.InFunction token.span := by
  obtain ⟨t, walked, rfl, count⟩ := gives_noting given
  rw [count] at closures
  obtain ⟨start, arrives⟩ := arrives_again walked closures repeatable
  -- The second walk meets no error of the script and does not crash, so it has a result.
  obtain ⟨again, t', walked', same, notes⟩ :=
    arrives.gives (safe_again closed acyclic fine walked structs repeatable)
  obtain ⟨inside, perm, all, stand⟩ := tokens_again notes
  have result : (analyze registry .overwrite t.tree module ast).result = .ok again :=
    congrArg Outcome.result (analyze_of_noting walked')
  refine ⟨⟨again, result, same⟩, _, _, inside, semanticTokens_result walked, ?_, perm, all, stand⟩
  rw [tree_of_noting walked]
  exact semanticTokens_result walked'

/-- A script with a struct, a function that has a call in its body, and a closure that uses a variable
from outside and calls the function. -/
def repeated : Ast :=
  ⟨[Build.struct { name := "P", access := .restricted, module := ⟨0⟩, parameters := [Build.parameter "a"] },
    Build.function { name := "f", access := .restricted, module := ⟨0⟩
                     parameters := [Build.parameter "p"] } ⟨0⟩
      (Build.blockOf .function ⟨1⟩ [Build.call "len" [Build.variableRef "p"]]),
    Build.letIn ["x"] (Build.construct [] "P" [Build.integer "1"]),
    Build.closure (Build.call "reduce" [Build.list []]) [] (Build.block ⟨2⟩
      [Build.call "f" [Build.variableRef "x"]])]⟩

def repeatedScopes : ScopeTree :=
  { ScopeTree.ofRoot "main" with
    scopes := #[⟨none, ⟨0⟩, {}⟩, ⟨some ⟨0⟩, ⟨0⟩, {}⟩, ⟨some ⟨0⟩, ⟨0⟩, {}⟩]
    modules := #[{ name := "main", scope := ⟨0⟩, functions := Table.insert {} "f" ⟨0⟩ }]
    functions := #[{ name := "f", access := .restricted, module := ⟨0⟩
                     parameters := [Build.parameter "p"] }] }

/-- The second analysis of that script succeeds, and finds the same outside of the function. -/
theorem analyze_again_repeated :
    ∃ analysed later, analyze globalsOnly .overwrite repeatedScopes ⟨0⟩ repeated =
        ⟨.ok analysed, later⟩ ∧ later.structs.size = 1 ∧
      (∃ again, (analyze globalsOnly .overwrite later ⟨0⟩ repeated).result = .ok again ∧
        again.outline later = analysed.outline later) ∧
      ∃ tokens tokens' inside,
        (semanticTokens globalsOnly repeatedScopes ⟨0⟩ repeated).result = .ok tokens ∧
        (semanticTokens globalsOnly (semanticTokens globalsOnly repeatedScopes ⟨0⟩ repeated).tree ⟨0⟩
          repeated).result = .ok tokens' ∧
        tokens.Perm (tokens' ++ inside) ∧ (inside = [] → tokens' = tokens) ∧
        ∀ token ∈ inside, repeated.InFunction token.span := by
  have ends : endsWith (moduleWalk globalsOnly .overwrite ⟨0⟩ repeated) { tree := repeatedScopes }
      (fun _ t => decide (t.closures.size = 1 ∧ t.tree.structs.size = 1 ∧
        ∀ n ∈ repeated.nodes, n.kind.Repeatable repeatedScopes t.tree)) = true := by
    decide +kernel
  obtain ⟨analysed, t, given, checked⟩ := gives_of_endsWith ends
  obtain ⟨closures, structs, repeatable⟩ := of_decide_eq_true checked
  have ended : analyze globalsOnly .overwrite repeatedScopes ⟨0⟩ repeated = ⟨.ok analysed, t.tree⟩ :=
    analyze_eq_ok.mpr ⟨t, given, rfl⟩
  refine ⟨analysed, t.tree, ended, structs, ?_⟩
  -- What the theorem asks of the first tree is checked by running the checks on it.
  refine analyze_again ?closed ?acyclic ?fine ended ?structs ?closures repeatable
  case closed => exact ScopeTree.closed_of_problem? (by decide +kernel)
  case acyclic => exact ScopeTree.scopesAcyclic_of_stored (by decide +kernel)
  case fine => exact fine_of_listedProblem? (by decide +kernel)
  case structs => omega
  case closures =>
    have entered : closuresEntered globalsOnly repeatedScopes ⟨0⟩ repeated = t.closures.size := by
      unfold closuresEntered
      rw [show runFrom _ _ = (.ok analysed, t) from given]
    omega

/-- What is found about the calls of a tree. -/
def callTypes (ast : Ast) : List (Option CallType) :=
  ast.nodes.filterMap fun n => n.call?.map fun made => made.findings.callType

/-- Of the call in the function the second analysis finds nothing, and it notes none of the four tokens
of the function. -/
theorem unlike_again :
    ∃ analysed again later tokens tokens',
      analyze globalsOnly .overwrite repeatedScopes ⟨0⟩ repeated = ⟨.ok analysed, later⟩ ∧
      (analyze globalsOnly .overwrite later ⟨0⟩ repeated).result = .ok again ∧
      callTypes analysed = [some .standard, some .standard, some .function] ∧
      callTypes again = [none, some .standard, some .function] ∧
      (semanticTokens globalsOnly repeatedScopes ⟨0⟩ repeated).result = .ok tokens ∧
      (semanticTokens globalsOnly (semanticTokens globalsOnly repeatedScopes ⟨0⟩ repeated).tree ⟨0⟩
        repeated).result = .ok tokens' ∧
      tokens.length = 12 ∧ tokens'.length = 8 := by
  -- Both walks in one run: the second one starts where the first one has ended.
  have ends : endsWith (moduleWalk globalsOnly .overwrite ⟨0⟩ repeated)
      { tree := repeatedScopes, tokens := some #[] } (fun analysed t =>
        callTypes analysed = [some .standard, some .standard, some .function] &&
          (t.tokens.getD #[]).size = 12 &&
          endsWith (moduleWalk globalsOnly .overwrite ⟨0⟩ repeated)
            { tree := t.tree, tokens := some #[] } fun again t' =>
              callTypes again = [none, some .standard, some .function] &&
                (t'.tokens.getD #[]).size = 8) = true := by
    decide +kernel
  obtain ⟨analysed, t, walked, checked⟩ := gives_of_endsWith ends
  simp only [Bool.and_eq_true, decide_eq_true_eq] at checked
  obtain ⟨⟨first, noted⟩, ends'⟩ := checked
  obtain ⟨again, t', walked', checked'⟩ := gives_of_endsWith ends'
  simp only [Bool.and_eq_true, decide_eq_true_eq] at checked'
  obtain ⟨second, noted'⟩ := checked'
  have result : (analyze globalsOnly .overwrite t.tree ⟨0⟩ repeated).result = .ok again :=
    congrArg Outcome.result (analyze_of_noting walked')
  have tokens' := semanticTokens_result walked'
  rw [← tree_of_noting walked] at tokens'
  have length (tokens : List SemanticToken) : (SemanticToken.sorted tokens).length = tokens.length :=
    List.length_mergeSort tokens
  refine ⟨analysed, again, t.tree, _, _, analyze_of_noting walked, result, first, second,
    semanticTokens_result walked, tokens', ?_, ?_⟩
  · rw [length, Array.length_toList, noted]
  · rw [length, Array.length_toList, noted']

end Analysis
end ShellSema
