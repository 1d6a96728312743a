import ShellSema.Analysis.Session
import ShellSema.Proofs.OwnModule
import ShellSema.Proofs.Parallel
import ShellSema.Proofs.Unlinked
import ShellSema.Syntax.Build

/-!
# Two modules in either order

Sessions order modules by their imports, and by nothing else. Where two modules are analysed one after
the other and each keeps to a territory of its own, the order shows at one point only: the names that
a module imports are in its tables once it is analysed, so a path that leads to such a name finds it
or does not. If no path does, both orders give the same trees.
-/
namespace ShellSema

/-! ### The start of an analysis -/

/-- Two analyses are about to begin, or resolve the imports of their module. -/
structure Beginning (foreign : Territory) (stranger : ModuleId) (s t : AnalysisState) : Prop where
  changed : s.tree.ChangedWithin foreign stranger t.tree
  closures : s.closures = #[] ∧ t.closures = #[]
  support : t.closureSupport = s.closureSupport
  carriers : t.carrierCaptured = s.carrierCaptured

section Beginning

variable {foreign : Territory} {stranger module : ModuleId}

theorem ScopeTree.AgreesOutside.changeBoth {tree other : ScopeTree} (apart : module ≠ stranger)
    (agrees : tree.AgreesOutside foreign stranger other) (change : ScriptModule → ScriptModule) :
    AgreesOutside foreign stranger { tree with modules := tree.modules.modify module.index change }
      { other with modules := other.modules.modify module.index change } := by
  refine { agrees with modules := fun id different => ?_, core := ?_ }
  · dsimp only
    rw [getElem?_modify_handle ModuleId.index_injective,
      getElem?_modify_handle ModuleId.index_injective, agrees.modules id different]
  · dsimp only
    rw [getElem?_modify_handle ModuleId.index_injective,
      getElem?_modify_handle ModuleId.index_injective, if_neg apart, if_neg apart]
    exact agrees.core

theorem alike_changeModule (apart : module ≠ stranger) (change : ScriptModule → ScriptModule) :
    Alike (Beginning foreign stranger) (Walk.edit (ScopeTree.Edit.changeModule module change)) := by
  refine alike_edit fun s t begins => ?_
  rw [ScopeTree.Edit.state_changeModule, ScopeTree.Edit.state_changeModule]
  exact { begins with changed := { begins.changed with
    toAgreesOutside := begins.changed.toAgreesOutside.changeBoth apart change } }

theorem alike_askModule (apart : module ≠ stranger) :
    Alike (Beginning foreign stranger) (Walk.ask (·.module module)) := by
  refine alike_ask fun s t begins => ?_
  unfold ScopeTree.module
  rw [begins.changed.modules module apart]

theorem alike_resolveImports (apart : module ≠ stranger) :
    Alike (Beginning foreign stranger) (Walk.resolveImports module) := by
  refine alike_bind ?_ fun queue _ _ _ _ _ => alike_forM queue fun queued _ => ?_
  · unfold ScopeTree.Edit.takeImports
    rw [edit_bind, edit_ask]
    refine alike_bind (alike_askModule apart) fun m _ _ _ _ _ => ?_
    rw [edit_bind]
    refine alike_bind (alike_changeModule apart _) fun _ _ _ _ _ _ => ?_
    rw [edit_pure]
    exact alike_pure _
  · refine alike_bind (alike_ask fun s t begins => begins.changed.declared_eq) fun found _ _ _ _ _ => ?_
    cases found with
    | none => exact alike_of_halts fun _ _ _ => by simp
    | some target =>
      -- The access of the target decides whether it is entered, not what is entered.
      refine alike_of_gives (fun s a t given => ?_)
        (alike_changeModule apart (·.importTarget queued.token.text target))
      obtain ⟨access, _, asked, rest⟩ := gives_bind.mp given
      obtain rfl := unchanging_ask.of_gives asked
      dsimp only at rest
      split at rest
      · simp at rest
      · exact rest

end Beginning

/-! ### One analysis in two trees -/

namespace ScopeTree

variable {tree other : ScopeTree} {own foreign : Territory} {module : ModuleId}

/-- A territory is closed in a tree that has been changed elsewhere, or in the territory itself. -/
theorem ChangedWithin.closed (changed : tree.ChangedWithin foreign module other)
    (closed : own.Closed tree) : own.Closed other where
  outward id parent inside step := closed.outward id parent inside (by rwa [changed.parents] at step)
  belongs id module inside found := closed.belongs id module inside (by rwa [changed.belongs] at found)
  roots id m inside found := by
    have same : (other.modules[id.index]?).bind (fun m => some m.scope) =
        (tree.modules[id.index]?).bind fun m => some m.scope := changed.read id fun _ => rfl
    rw [found, Option.bind_some] at same
    obtain ⟨m', found', scope⟩ := Option.bind_eq_some_iff.mp same.symm
    rw [← Option.some.inj scope]
    exact closed.roots id m' inside found'

theorem AgreesOutside.declared (agrees : tree.AgreesOutside foreign module other) {kind : ExprKind}
    (declared : kind.Declared tree own) : kind.Declared other own := by
  cases kind
  case functionDecl =>
    obtain ⟨inside, named, signature⟩ := declared
    exact ⟨inside, (agrees.functionNamed? ..).trans named, by rwa [agrees.signatures]⟩
  case structDecl access name parameters home =>
    exact (congrArg Option.isSome (agrees.structNamed? home name.text)).trans declared
  all_goals exact declared

end ScopeTree

/-- The tables in which a module looks functions and structs up. -/
def ScriptModule.tables (m : ScriptModule) :
    (Table FunctionId × Table FunctionId) × Table StructId × Table StructId :=
  ((m.functions, m.importedFunctions), m.structs, m.importedStructs)

def ScopeTree.tables? (tree : ScopeTree) (id : ModuleId) :
    Option ((Table FunctionId × Table FunctionId) × Table StructId × Table StructId) :=
  (tree.modules[id.index]?).map ScriptModule.tables

/-- What a module sees under a name depends on its tables. -/
theorem ExprKind.FindsSame.of_tables {here there there' : ScopeTree} {home : Territory}
    {stranger : ModuleId} {kind : ExprKind} (finds : kind.FindsSame here there home stranger)
    (same : there'.tables? stranger = there.tables? stranger) :
    kind.FindsSame here there' home stranger := by
  have functions (name : String) :
      -- What a module sees under a name is looked up in its tables.
      there'.functionSeen? stranger name = there.functionSeen? stranger name := by
    have answers := congrArg
      (Option.bind · fun tables => lookupDeclared tables.1.1 tables.1.2 name true) same
    dsimp only [ScopeTree.tables?] at answers
    rwa [Option.bind_map, Option.bind_map] at answers
  have structs (name : String) :
      there'.structSeen? stranger name = there.structSeen? stranger name := by
    have answers := congrArg
      (Option.bind · fun tables => lookupDeclared tables.2.1 tables.2.2 name true) same
    dsimp only [ScopeTree.tables?] at answers
    rwa [Option.bind_map, Option.bind_map] at answers
  cases kind
  case call => exact fun current own reached => (functions _).trans (finds current own reached)
  case construct => exact fun current own reached => (structs _).trans (finds current own reached)
  all_goals trivial

theorem ExprKind.FindsSame.of_same {here there : ScopeTree} {home : Territory}
    {stranger : ModuleId} (kind : ExprKind) (same : there.tables? stranger = here.tables? stranger) :
    kind.FindsSame here there home stranger := by
  have finds : kind.FindsSame here here home stranger := by cases kind <;> simp [FindsSame]
  exact finds.of_tables same

namespace Analysis

variable {registry : Registry} {mode : AnalysisMode} {tree other : ScopeTree}
  {module stranger : ModuleId} {entry : ModuleTree} {ast x y : Ast} {own foreign : Territory}

/-- The tree of scopes from which the walk over the tree of a module starts. -/
def opening (tree : ScopeTree) (module : ModuleId) : ScopeTree :=
  (runFrom (do setStatus module .analysed; Walk.resolveImports module) { tree }).2.tree

theorem Begins.opening {context : Context} {start : AnalysisState}
    (begins : Begins registry module { tree } context start) : opening tree module = start.tree := by
  obtain ⟨-, -, -, opened⟩ := begins
  unfold Analysis.opening
  rw [show runFrom _ _ = (.ok (), start) from opened]

/-- Two analyses that begin in trees which differ elsewhere start their walks in step. -/
theorem Begins.inStep {context context' : Context} {start start' : AnalysisState}
    (apart : module ≠ stranger) (changed : tree.ChangedWithin foreign stranger other)
    (one : Begins registry module { tree } context start)
    (two : Begins registry module { tree := other } context' start') :
    context = context' ∧ InStep start.tree start'.tree own foreign stranger start start' := by
  obtain ⟨m, found, rfl, opened⟩ := one
  obtain ⟨m', found', rfl, opened'⟩ := two
  have same : m' = m := by
    have entries := changed.modules module apart
    rw [ScopeTree.module_eq_ok.mp found, ScopeTree.module_eq_ok.mp found'] at entries
    exact Option.some.inj entries
  have begun : Beginning foreign stranger start start' := by
    have alike : Alike (Beginning foreign stranger)
        (do setStatus module .analysed; Walk.resolveImports module) :=
      alike_bind (alike_changeModule apart _) fun _ _ _ _ _ _ => alike_resolveImports apart
    have first : Beginning foreign stranger { tree } { tree := other } :=
      ⟨changed, ⟨rfl, rfl⟩, rfl, rfl⟩
    exact (alike _ _ _ _ _ _ first opened opened').2
  -- No closure is open, so nothing has to be known of the scopes of their bodies.
  have noFrames (index : Nat) : start.closures[index]? = none := by simp [begun.closures.1]
  refine ⟨by rw [same], ?_⟩
  exact {
    changed := begun.changed
    modules := rfl
    modules' := rfl
    owners := rfl
    parents := rfl
    belongs := rfl
    closures := begun.closures.2.trans begun.closures.1.symm
    support := begun.support
    carriers := begun.carriers
    bodies := fun index frame impossible => by simp [noFrames index] at impossible }

/-- The tree of a module stays in a territory: what it declares belongs there and has been declared,
and what it names by a path in the stranger is there before the stranger resolves its imports, or is
not there afterwards either. -/
structure KeepsTo (tree : ScopeTree) (entry : ModuleTree) (own : Territory) (stranger : ModuleId) :
    Prop where
  inside : own.modules entry.module
  closed : own.Closed tree
  declared : ∀ n ∈ entry.ast.nodes, n.kind.Declared tree own
  finds : ∀ n ∈ entry.ast.nodes,
    n.kind.FindsSame (opening tree entry.module) (opening tree stranger) own stranger

/-! ### What the analysis of the stranger leaves -/

/-- A module imports before its walk, and declares nothing new. -/
theorem tables_of_gives {t : AnalysisState}
    (given : Gives (moduleWalk registry mode module ast) { tree } x t)
    (agrees : tree.AgreesOutside own module t.tree) :
    t.tree.tables? module = (opening tree module).tables? module := by
  obtain ⟨context, start, u, begins, walked, last⟩ := begins_of_gives given
  have before : tree.AgreesOutside own module start.tree := begins.changedWithin.toAgreesOutside
  have core := agrees.core.trans before.core.symm
  rw [begins.opening]
  let imports (m : ScriptModule) := (m.importedFunctions, m.importedStructs)
  -- Nothing is imported in the walk, and the tree that is stored in the end is not in a table.
  have walk : (u.tree.modules[module.index]?).map imports =
      (start.tree.modules[module.index]?).map imports := by
    rw [Plan.run_each] at walked
    have kept : KeepsBare (fun _ => True) start u := (keepsBare_exprs _ _).of_gives walked
    exact kept.read trivial fun _ => rfl
  have stored : (t.tree.modules[module.index]?).map imports =
      (u.tree.modules[module.index]?).map imports := by
    split at last
    · rw [tree_of_edit last, ScopeTree.Edit.state_changeModule]
      dsimp only
      rw [Array.getElem?_modify, if_pos rfl, Option.map_map]
      rfl
    · obtain ⟨-, rfl⟩ := gives_pure.mp last
      rfl
  have imported := stored.trans walk
  unfold ScopeTree.tables?
  cases here : start.tree.modules[module.index]? with
  | none =>
    rw [here] at core
    rw [Option.map_eq_none_iff.mp core]
  | some m =>
    rw [here] at core imported
    obtain ⟨m', there, same⟩ := Option.map_eq_some_iff.mp core
    rw [there] at imported ⊢
    have functions : m'.functions = m.functions := congrArg (·.functions) same
    have structs : m'.structs = m.structs := congrArg (·.structs) same
    obtain ⟨importedFunctions, importedStructs⟩ := Prod.mk.inj (Option.some.inj imported)
    simp only [Option.map_some, ScriptModule.tables, functions, structs, importedFunctions,
      importedStructs]

/-- A successful analysis stays in the territory of its tree, and what its module sees afterwards it
sees before, or when it has resolved its imports. -/
theorem changedWithin_analyze (inside : own.modules entry.module) (closed : own.Closed tree)
    (declared : ∀ n ∈ entry.ast.nodes, n.kind.Declared tree own)
    (result : (analyze registry mode tree entry.module entry.ast).result = .ok x)
    (after : (analyze registry mode tree entry.module entry.ast).tree = other) :
    tree.ChangedWithin own entry.module other ∧
      (other.tables? entry.module = tree.tables? entry.module ∨
        other.tables? entry.module = (opening tree entry.module).tables? entry.module) := by
  have refl : tree.ChangedWithin own entry.module tree :=
    { toAgreesOutside := .refl tree
      parents := rfl
      belongs := rfl
      count := rfl
      declares := fun _ _ _ => .rfl }
  -- The first two ways of an analysis leave the tree alone. The third goes over the module.
  unfold analyze at result after
  split at after
  next => subst after; exact ⟨refl, .inl rfl⟩
  next => subst after; exact ⟨refl, .inl rfl⟩
  next found =>
    rw [found] at result
    subst after
    have given : Gives (moduleWalk registry mode entry.module entry.ast) { tree } x _ :=
      Prod.ext result rfl
    have declared' : ∀ e ∈ entry.ast.expressions, e.Declared tree own :=
      fun e member n within => declared n (Ast.mem_nodes.mpr ⟨_, member, within⟩)
    have changed := changedWithin_of_gives closed inside declared' given
    exact ⟨changed, .inr (tables_of_gives given changed.toAgreesOutside)⟩

/-! ### One analysis in two trees -/

section Elsewhere

variable (keeps : KeepsTo tree entry own stranger) (apart : own.Apart foreign)
  (strange : foreign.modules stranger) (changed : tree.ChangedWithin foreign stranger other)

include keeps apart strange

theorem KeepsTo.ne : entry.module ≠ stranger :=
  fun same => apart.modules entry.module keeps.inside (same ▸ strange)

include changed

theorem moduleWalk_elsewhere (tables : other.tables? stranger = tree.tables? stranger ∨
      other.tables? stranger = (opening tree stranger).tables? stranger) {s t : AnalysisState}
    (one : Gives (moduleWalk registry mode entry.module entry.ast) { tree } x s)
    (two : Gives (moduleWalk registry mode entry.module entry.ast) { tree := other } y t) :
    y = x := by
  have different : entry.module ≠ stranger := keeps.ne apart strange
  obtain ⟨context, start, u, begins, walked, -⟩ := begins_of_gives one
  obtain ⟨context', start', u', begins', walked', -⟩ := begins_of_gives two
  obtain ⟨rfl, step⟩ := begins.inStep different changed begins'
  have within : tree.ChangedWithin own entry.module start.tree := begins.changedWithin
  have within' : other.ChangedWithin own entry.module start'.tree := begins'.changedWithin
  have before : start.tree.tables? stranger = tree.tables? stranger :=
    congrArg (Option.map ScriptModule.tables) (within.modules stranger different.symm)
  have after : start'.tree.tables? stranger = other.tables? stranger :=
    congrArg (Option.map ScriptModule.tables) (within'.modules stranger different.symm)
  have finds : ∀ n ∈ entry.ast.nodes, n.kind.FindsSame start.tree start'.tree own stranger := by
    intro n inside
    rcases tables with same | same
    · exact .of_same n.kind (after.trans (same.trans before.symm))
    -- The stranger has resolved its imports in the other tree only: what differs is not asked for.
    · have opened := keeps.finds n inside
      rw [begins.opening] at opened
      exact opened.of_tables (after.trans same)
  have alike : Alike (InStep start.tree start'.tree own foreign stranger)
      (Walk.exprs context entry.ast.expressions) := by
    refine alike_exprs (within.closed keeps.closed) apart strange ?_ (fun e member n inside => ?_)
      fun e member n inside => ?_
    · obtain ⟨m, found, rfl, -⟩ := begins
      exact keeps.closed.roots entry.module m keeps.inside (ScopeTree.module_eq_ok.mp found)
    · exact within.declared (keeps.declared n (Ast.mem_nodes.mpr ⟨_, member, inside⟩))
    · exact finds n (Ast.mem_nodes.mpr ⟨_, member, inside⟩)
  rw [Plan.run_each] at walked walked'
  have expressions := (alike _ _ _ _ _ _ step walked walked').1
  cases x
  cases y
  exact congrArg Ast.mk expressions

theorem stored?_elsewhere (mode : AnalysisMode) :
    stored? other mode entry.module = stored? tree mode entry.module := by
  unfold stored? ScopeTree.module
  rw [changed.modules entry.module (keeps.ne apart strange)]

/-- What an analysis gives does not depend on what has been analysed elsewhere. -/
theorem analyze_elsewhere (tables : other.tables? stranger = tree.tables? stranger ∨
      other.tables? stranger = (opening tree stranger).tables? stranger)
    (one : (analyze registry mode tree entry.module entry.ast).result = .ok x)
    (two : (analyze registry mode other entry.module entry.ast).result = .ok y) : y = x := by
  have stored := stored?_elsewhere keeps apart strange changed mode
  unfold analyze at one two
  rw [stored] at two
  split at one
  next => cases one
  next found =>
    rw [found] at two
    -- With a stored tree there is no walk, and the module has the same tree stored.
    exact (Except.ok.inj two).symm.trans (Except.ok.inj one)
  next found =>
    rw [found] at two
    exact moduleWalk_elsewhere keeps apart strange changed tables (Prod.ext one rfl)
      (Prod.ext two rfl)

end Elsewhere

/-! ### Territories in lists -/

end Analysis

/-- The territory of some modules and scopes. -/
def Territory.listed (modules : List ModuleId) (scopes : List ScopeId) : Territory :=
  ⟨(· ∈ modules), (· ∈ scopes)⟩

section Listed

variable {tree : ScopeTree} {modules : List ModuleId} {scopes : List ScopeId}

theorem Territory.closed_listed
    (outward : ∀ id ∈ scopes, ∀ parent ∈ tree.parentScope? id, parent ∈ scopes)
    (belongs : ∀ id ∈ scopes, ∀ module ∈ tree.moduleOf? id, module ∈ modules)
    (roots : ∀ id ∈ modules, ∀ m ∈ tree.modules[id.index]?, m.scope ∈ scopes) :
    (listed modules scopes).Closed tree where
  outward id parent inside step := outward id inside parent step
  belongs id module inside found := belongs id inside module found
  roots id m inside found := roots id inside m found

theorem Territory.apart_listed {modules' : List ModuleId} {scopes' : List ScopeId}
    (apart : ∀ id ∈ modules, id ∉ modules') (apart' : ∀ id ∈ scopes, id ∉ scopes') :
    (listed modules scopes).Apart (listed modules' scopes') :=
  ⟨apart, apart'⟩

instance (id : ModuleId) : Decidable ((Territory.listed modules scopes).modules id) :=
  inferInstanceAs (Decidable (id ∈ modules))

instance (id : ScopeId) : Decidable ((Territory.listed modules scopes).scopes id) :=
  inferInstanceAs (Decidable (id ∈ scopes))

instance (kind : ExprKind) : Decidable (kind.Declared tree (.listed modules scopes)) := by
  induction kind using ExprKind.casesOn <;> dsimp only [ExprKind.Declared] <;> infer_instance

instance (here there : ScopeTree) (stranger : ModuleId) (kind : ExprKind) :
    Decidable (kind.FindsSame here there (.listed modules scopes) stranger) := by
  induction kind using ExprKind.casesOn <;>
    dsimp only [ExprKind.FindsSame, Territory.listed] <;> infer_instance

end Listed

namespace Analysis

/-! ### Either order -/

/-- Analyse two modules, one after the other. -/
def inTurn (registry : Registry) (mode : AnalysisMode) (tree : ScopeTree)
    (first second : ModuleTree) : Except Halt (Ast × Ast) := do
  let before := analyze registry mode tree first.module first.ast
  let earlier ← before.result
  let later ← (analyze registry mode before.tree second.module second.ast).result
  return (earlier, later)

theorem inTurn_eq_ok {first second : ModuleTree}
    (done : inTurn registry mode tree first second = .ok (x, y)) :
    (analyze registry mode tree first.module first.ast).result = .ok x ∧
      (analyze registry mode (analyze registry mode tree first.module first.ast).tree second.module
        second.ast).result = .ok y := by
  unfold inTurn at done
  dsimp only at done
  cases earlier : (analyze registry mode tree first.module first.ast).result with
  | error halt => rw [earlier] at done; cases done
  | ok a =>
    rw [earlier, ok_bind] at done
    cases later : (analyze registry mode (analyze registry mode tree first.module first.ast).tree
        second.module second.ast).result with
    | error halt => rw [later] at done; cases done
    | ok b =>
      rw [later] at done
      cases done
      exact ⟨rfl, rfl⟩

/-- Of two modules that keep to territories apart from each other, each gets the same tree in either
order. -/
theorem inTurn_comm {one other : ModuleTree} {own others : Territory} (apart : own.Apart others)
    (keeps : KeepsTo tree one own other.module) (keeps' : KeepsTo tree other others one.module)
    {x y x' y' : Ast} (forth : inTurn registry mode tree one other = .ok (x, y))
    (back : inTurn registry mode tree other one = .ok (y', x')) : x' = x ∧ y' = y := by
  obtain ⟨first, second⟩ := inTurn_eq_ok forth
  obtain ⟨first', second'⟩ := inTurn_eq_ok back
  -- The analysis that comes first stays in its territory, so the other one does not notice it.
  obtain ⟨changed, tables⟩ :=
    changedWithin_analyze keeps.inside keeps.closed keeps.declared first rfl
  obtain ⟨changed', tables'⟩ :=
    changedWithin_analyze keeps'.inside keeps'.closed keeps'.declared first' rfl
  constructor
  · exact analyze_elsewhere keeps apart keeps'.inside changed' tables' first second'
  · exact (analyze_elsewhere keeps' apart.symm keeps.inside changed tables first' second).symm

/-- Module `a` declares `f` and imports `g` from `c`. -/
def pathToDeclared : ScopeTree :=
  .declare "main" [
    .addModule ⟨0⟩ "a" .exported,
    .addScope ⟨1⟩,
    .addFunction "f" .exported ⟨1⟩ [Build.parameter "x"] false,
    .addModule ⟨0⟩ "c" .exported,
    .addFunction "g" .exported ⟨2⟩ [] false,
    .addImport ⟨1⟩ ⟨⟨2⟩, Build.name "g"⟩]

/-- Module `a`, with the body of `f` and a call of the imported `g`. -/
def declaringTree : ModuleTree :=
  ⟨⟨1⟩, ⟨[
    Build.function { name := "f", access := .exported, module := ⟨1⟩,
                     parameters := [Build.parameter "x"] } ⟨0⟩
      (Build.block ⟨2⟩ [Build.variableRef "x"]),
    Build.call "g" []]⟩⟩

/-- The root module, with a call of `a::f`. -/
def callingTree : ModuleTree :=
  ⟨⟨0⟩, ⟨[Build.letIn ["y"] (Build.integer "1"), Build.pathCall ["a"] "f" [Build.variableRef "y"]]⟩⟩

theorem inTurn_comm_path : ∃ x y x' y',
    inTurn .empty .overwrite pathToDeclared declaringTree callingTree = .ok (x, y) ∧
    inTurn .empty .overwrite pathToDeclared callingTree declaringTree = .ok (y', x') ∧
    x' = x ∧ y' = y := by
  -- That both orders succeed is evaluated; that they agree is not.
  have succeeds {first second : ModuleTree}
      (runs : (inTurn .empty .overwrite pathToDeclared first second).isOk = true) :
      ∃ trees, inTurn .empty .overwrite pathToDeclared first second = .ok trees := by
    cases result : inTurn .empty .overwrite pathToDeclared first second with
    | error => rw [result] at runs; cases runs
    | ok trees => exact ⟨trees, rfl⟩
  obtain ⟨⟨x, y⟩, forth⟩ := @succeeds declaringTree callingTree (by decide +kernel)
  obtain ⟨⟨y', x'⟩, back⟩ := @succeeds callingTree declaringTree (by decide +kernel)
  have keeps : KeepsTo pathToDeclared declaringTree (.listed [⟨1⟩] [⟨1⟩, ⟨2⟩]) ⟨0⟩ :=
    { inside := by decide
      closed := Territory.closed_listed (by decide +kernel) (by decide +kernel) (by decide +kernel)
      declared := by decide +kernel
      finds := by decide +kernel }
  have keeps' : KeepsTo pathToDeclared callingTree (.listed [⟨0⟩] [⟨0⟩]) ⟨1⟩ :=
    { inside := by decide
      closed := Territory.closed_listed (by decide +kernel) (by decide +kernel) (by decide +kernel)
      declared := by decide +kernel
      finds := by decide +kernel }
  have apart : (Territory.listed [⟨1⟩] [⟨1⟩, ⟨2⟩]).Apart (.listed [⟨0⟩] [⟨0⟩]) :=
    Territory.apart_listed (by decide) (by decide)
  exact ⟨x, y, x', y', forth, back, inTurn_comm apart keeps keeps' forth back⟩

/-! ### Where the order shows -/

end Analysis

/-- What the node declares has been declared before, with the same signature. -/
def ExprKind.Prepared (tree : ScopeTree) : ExprKind → Prop
  | .functionDecl access name parameters _ module takesClosure id =>
    tree.functionSignature? id =
      some ⟨name.text, access, module, takesClosure, shapesOf parameters⟩
  | .structDecl access name parameters module => ∃ struct ∈ tree.structs.toList,
    struct.name = name.text ∧ struct.access = access ∧ struct.module = module ∧
      shapesOf struct.parameters = shapesOf parameters
  | _ => True

instance (tree : ScopeTree) (kind : ExprKind) : Decidable (kind.Prepared tree) := by
  induction kind using ExprKind.casesOn <;> dsimp only [ExprKind.Prepared] <;> infer_instance

/-- The modules from which a module queues imports. -/
def ScopeTree.originsOf (tree : ScopeTree) (id : ModuleId) : List ModuleId :=
  (tree.modules[id.index]?).elim [] fun m => m.importQueue.map QueuedImport.origin

namespace Analysis

/-- Two modules do not import from each other, and what they declare has been declared before. -/
def Unrelated (tree : ScopeTree) (one other : ModuleTree) : Prop :=
  one.module ≠ other.module ∧ (∀ n ∈ one.ast.nodes ++ other.ast.nodes, n.kind.Prepared tree) ∧
    other.module ∉ tree.originsOf one.module ∧ one.module ∉ tree.originsOf other.module

/-- Either order succeeds, and they give different trees to the second module. -/
def OrderShows (tree : ScopeTree) (one other : ModuleTree) : Prop :=
  ∃ x y x' y', inTurn .empty .overwrite tree one other = .ok (x, y) ∧
    inTurn .empty .overwrite tree other one = .ok (y', x') ∧ y' ≠ y

instance (tree : ScopeTree) (one other : ModuleTree) : Decidable (Unrelated tree one other) := by
  unfold Unrelated
  infer_instance

/-- It is enough that something shows which can be read off the trees. -/
theorem orderShows_of_read {α : Type} [DecidableEq α] (read : Ast → α) {tree : ScopeTree}
    {one other : ModuleTree}
    (differ : (match inTurn .empty .overwrite tree one other,
        inTurn .empty .overwrite tree other one with
      | .ok (_, y), .ok (y', _) => decide (read y' ≠ read y)
      | _, _ => false) = true) : OrderShows tree one other := by
  split at differ
  next x y y' x' forth back =>
    exact ⟨x, y, x', y', forth, back, fun same => of_decide_eq_true differ (congrArg read same)⟩
  next => cases differ

/-- What the calls in a tree have been found to call. -/
def callees (ast : Ast) : List (Option CallType × Option FunctionId) :=
  ast.nodes.filterMap fun n => n.call?.map fun made =>
    (made.findings.callType, made.findings.function)

/-- Which uses of variables in a tree have been captured. -/
def captures (ast : Ast) : List Bool :=
  ast.nodes.filterMap fun n =>
    match n.kind with
    | .variableRef _ _ isCaptured => some isCaptured
    | _ => none

/-- Module `a` imports `f` from `c`, and the root module calls `a::f`. -/
def importedName : ScopeTree :=
  .declare "main" [
    .addModule ⟨0⟩ "a" .exported,
    .addModule ⟨0⟩ "c" .exported,
    .addFunction "f" .exported ⟨2⟩ [] false,
    .addImport ⟨1⟩ ⟨⟨2⟩, Build.name "f"⟩]

/-- Module `a` declares two functions of one name, in one order before and in the other in its tree. -/
def twoFunctions : ScopeTree :=
  .declare "main" [
    .addModule ⟨0⟩ "a" .exported,
    .addScope ⟨1⟩,
    .addScope ⟨1⟩,
    .addFunction "f" .exported ⟨1⟩ [] false,
    .addFunction "f" .exported ⟨1⟩ [] false]

/-- The trees of two modules have blocks in one scope. -/
def sharedScope : ScopeTree :=
  .declare "main" [
    .addModule ⟨0⟩ "a" .exported,
    .addScope ⟨0⟩,
    .addFunction "f" .exported ⟨0⟩ [] true]

/-- The order shows if a path leads to an imported name, if a name is not that of the function which a
tree declares under it, and if trees share scopes. -/
theorem orderShows :
    (∃ one other, Unrelated importedName one other ∧ OrderShows importedName one other) ∧
    (∃ one other, Unrelated twoFunctions one other ∧ OrderShows twoFunctions one other) ∧
    ∃ one other, Unrelated sharedScope one other ∧ OrderShows sharedScope one other := by
  refine ⟨⟨⟨⟨1⟩, ⟨[]⟩⟩, ⟨⟨0⟩, ⟨[Build.pathCall ["a"] "f" []]⟩⟩, ?_, ?_⟩,
    ⟨⟨⟨1⟩, ⟨[
      Build.function { name := "f", access := .exported, module := ⟨1⟩ } ⟨1⟩ (Build.block ⟨2⟩ []),
      Build.function { name := "f", access := .exported, module := ⟨1⟩ } ⟨0⟩ (Build.block ⟨3⟩ [])]⟩⟩,
      ⟨⟨0⟩, ⟨[Build.pathCall ["a"] "f" []]⟩⟩, ?_, ?_⟩,
    ⟨⟨⟨1⟩, ⟨[Build.block ⟨2⟩ [Build.letIn ["x"] (Build.integer "1")]]⟩⟩,
      ⟨⟨0⟩, ⟨[Build.letIn ["x"] (Build.integer "1"),
        Build.closure (Build.call "f" []) [] (Build.block ⟨2⟩ [Build.variableRef "x"])]⟩⟩, ?_, ?_⟩⟩
  · decide +kernel
  · exact orderShows_of_read callees (by decide +kernel)
  · decide +kernel
  · exact orderShows_of_read callees (by decide +kernel)
  · decide +kernel
  · exact orderShows_of_read captures (by decide +kernel)

end Analysis
end ShellSema
