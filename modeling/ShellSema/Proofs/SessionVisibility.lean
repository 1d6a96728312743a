import Mathlib.Data.List.Flatten
import ShellSema.Proofs.ModuleVisibility
import ShellSema.Proofs.SessionSafety
import ShellSema.Proofs.Unlinked
import ShellSema.Syntax.Build

/-!
# What the modules of a session may name

A session starts from a tree in which nothing has been imported or analysed. The modules that it takes
up declare different functions, so each analysis finds its own functions pending, and what it finds
in the import tables has been put there by checks of earlier imports.
-/
namespace ShellSema

/-- The nodes of a module's tree name what may be used where they stand. -/
def ModuleTree.Visible (tree : ScopeTree) (entry : ModuleTree) : Prop :=
  ∃ m, tree.modules[entry.module.index]? = some m ∧ entry.ast.Visible tree m.scope

/-- The functions that are declared in some modules. -/
def functionIdsOf (entries : List ModuleTree) : List FunctionId :=
  entries.flatMap fun entry => entry.ast.functionIds

/-! ### One module -/

namespace Analysis

variable {base tree : ScopeTree} {mode : AnalysisMode} {module : ModuleId} {ast : Ast}

theorem visible_of_module (linked : ScopeTree.Linked base tree) {m : ScriptModule}
    (found : tree.module module = .ok m) (visible : ast.Visible base m.scope) :
    ModuleTree.Visible base ⟨module, ast⟩ := by
  obtain ⟨old, known, -, scope⟩ :=
    (linked.modules module m (ScopeTree.module_eq_ok.mp found)).origin
  exact ⟨old, known, scope ▸ visible⟩

/-- The tree that an earlier analysis has left names what may be used. -/
theorem visible_of_stored? (linked : ScopeTree.Linked base tree) {stored : Ast}
    (found : stored? tree mode module = .ok (some stored)) :
    ModuleTree.Visible base ⟨module, stored⟩ := by
  unfold stored? at found
  split at found
  · cases found
  cases known : tree.module module with
  | error fault => rw [known] at found; cases found
  | ok m =>
    rw [known, ok_bind] at found
    split at found
    · have kept : m.stored = some stored := Except.ok.inj found
      have tables := linked.modules module m (ScopeTree.module_eq_ok.mp known)
      exact visible_of_module linked known (tables.stored stored kept)
    · cases found

/-- An analysis in a linked tree leaves it linked, touches the status of its own functions only, and
binds each name to what may be used there. -/
theorem linked_analyze (registry : Registry) (linked : ScopeTree.Linked base tree)
    (permitted : ∀ e ∈ ast.expressions, e.Permitted (Permit.declaredIn base))
    (once : ast.functionIds.Nodup) (awaits : tree.Awaits ast.functionIds) {outcome : Outcome Ast}
    (ended : analyze registry mode tree module ast = outcome) :
    ScopeTree.Linked base outcome.tree ∧
      (∀ id ∉ ast.functionIds, outcome.tree.statusOf? id = tree.statusOf? id) ∧
      ∀ analysed, outcome.result = .ok analysed → ModuleTree.Visible base ⟨module, analysed⟩ := by
  subst ended
  unfold analyze
  split
  next => exact ⟨linked, fun _ _ => rfl, by simp⟩
  next stored found =>
    -- A tree that is served from the module was visible when it was stored.
    refine ⟨linked, fun _ _ => rfl, ?_⟩
    rintro _ ⟨⟩
    exact visible_of_stored? linked found
  next =>
    refine ⟨?_, ?_, ?_⟩
    · exact linked_moduleWalk (s := { tree }) registry mode module linked permitted once awaits
    · intro id outside
      exact keepsStatus_moduleWalk registry mode module ast { tree } id outside
    · intro analysed result
      have given : Gives (moduleWalk registry mode module ast) { tree } analysed
          (runFrom (moduleWalk registry mode module ast) { tree }).2 :=
        Prod.ext result rfl
      obtain ⟨m, found, visible⟩ := visible_of_moduleWalk linked permitted once awaits given
      exact visible_of_module linked found visible

end Analysis

/-! ### Sessions -/

namespace Session

/-- The tree is linked, and what is left to analyse declares each function once, and none that has
been met. Some entries are held by modules that wait for their imports. -/
structure Linked (base : ScopeTree) (held : List ModuleTree) (session : Session) : Prop where
  linked : ScopeTree.Linked base session.tree
  permitted : ∀ entry ∈ held ++ session.pending, ∀ e ∈ entry.ast.expressions,
    e.Permitted (Permit.declaredIn base)
  once : (functionIdsOf (held ++ session.pending)).Nodup
  awaits : session.tree.Awaits (functionIdsOf (held ++ session.pending))
  analysed : ∀ entry ∈ session.analysed, entry.Visible base

variable {base : ScopeTree} {held : List ModuleTree} {session : Session} {entry : ModuleTree}

/-- Fewer entries, in another order. -/
theorem Linked.fewer {held' pending : List ModuleTree} (linked : session.Linked base held)
    (some : (held' ++ pending).Subperm (held ++ session.pending)) :
    Session.Linked base held' { session with pending } := by
  have declared : (functionIdsOf (held' ++ pending)).Subperm
      (functionIdsOf (held ++ session.pending)) := by
    obtain ⟨others, perm, sublist⟩ := some
    exact ⟨_, perm.flatMap_right _, sublist.flatMap _⟩
  refine ⟨linked.linked, ?_, ?_, ?_, linked.analysed⟩
  · intro entry member
    exact linked.permitted entry (some.subset member)
  · obtain ⟨others, perm, sublist⟩ := declared
    exact perm.nodup_iff.mp (sublist.nodup linked.once)
  · intro id member
    exact linked.awaits id (declared.subset member)

theorem Linked.drop (linked : session.Linked base (entry :: held)) : session.Linked base held :=
  linked.fewer (List.sublist_cons_self entry _).subperm

/-- An entry that is taken off the pending ones is held. -/
theorem Linked.take (linked : session.Linked base held) (member : entry ∈ session.pending) :
    Session.Linked base (entry :: held)
      { session with pending := session.pending.filter (·.module ≠ entry.module) } := by
  obtain ⟨first, rest, split⟩ := List.append_of_mem member
  apply linked.fewer
  have perm : (held ++ session.pending).Perm (entry :: (held ++ (first ++ rest))) := by
    rw [split, ← List.append_assoc, ← List.append_assoc]
    exact List.perm_middle
  have fewer : (session.pending.filter (·.module ≠ entry.module)).Sublist (first ++ rest) := by
    rw [split]
    simp only [List.filter_append, List.filter_cons, ne_eq, not_true_eq_false, decide_false]
    exact List.filter_sublist.append List.filter_sublist
  exact (((List.Sublist.refl held).append fewer).cons_cons entry).subperm.trans perm.symm.subperm

/-! ### Steps of a session -/

/-- If a session was linked, it still is. -/
def StaysLinked (base : ScopeTree) (held : List ModuleTree) (before after : Session) : Prop :=
  before.Linked base held → after.Linked base held

theorem staysLinked_refl (session : Session) : StaysLinked base held session session := id

theorem StaysLinked.trans (first second third : Session) (one : StaysLinked base held first second)
    (other : StaysLinked base held second third) : StaysLinked base held first third :=
  other ∘ one

theorem staysLinked_originsOf (module : ModuleId) :
    Keeps (StaysLinked base held) (originsOf module) := by
  refine keeps_bind StaysLinked.trans (keeps_get staysLinked_refl) fun session => ?_
  split
  · exact keeps_pure staysLinked_refl _
  · exact keeps_throw staysLinked_refl _

/-- When a held entry has been analysed, it is held no longer. -/
theorem linked_analyzeEntry (registry : Registry) (mode : AnalysisMode)
    (linked : session.Linked base (entry :: held)) :
    (runFrom (analyzeEntry registry mode entry) session).2.Linked base held := by
  obtain ⟨tree, permitted, once, awaits, analysed⟩ := linked
  rw [List.cons_append, functionIdsOf, List.flatMap_cons] at once awaits
  -- No function of this tree is declared in another one, so the others still await theirs
  -- afterwards.
  obtain ⟨own, others, apart⟩ := List.nodup_append'.mp once
  generalize ended : Analysis.analyze registry mode session.tree entry.module entry.ast = outcome
  obtain ⟨kept, statuses, visible⟩ := Analysis.linked_analyze registry tree
    (permitted entry List.mem_cons_self) own
    (fun id member => awaits id (List.mem_append_left _ member)) ended
  have after : Session.Linked base held { session with tree := outcome.tree } := by
    refine ⟨kept, ?_, others, ?_, analysed⟩
    · intro other member
      exact permitted other (List.mem_cons_of_mem _ member)
    · intro id member status found
      rw [statuses id fun own => apart own member] at found
      exact awaits id (List.mem_append_right _ member) status found
  simp only [analyzeEntry, runFrom_bind, runFrom_get, runFrom_set, ended]
  cases result : outcome.result with
  | error halt => exact after
  | ok ast =>
    refine ⟨after.linked, after.permitted, after.once, after.awaits, ?_⟩
    intro other member
    rcases mem_place member with rfl | before
    · exact visible ast result
    · exact analysed other before

/-- A module is analysed after those that it imports from. The induction is on the budget. -/
theorem staysLinked_analyzeModule (registry : Registry) (mode : AnalysisMode) (budget : Nat)
    (module : ModuleId) : Keeps (StaysLinked base held) (analyzeModule registry mode budget module) := by
  induction budget generalizing module held with
  | zero => exact keeps_pure staysLinked_refl _
  | succ budget ih =>
    intro session linked
    rw [analyzeModule, runFrom_bind, runFrom_take?]
    cases found : session.pending.find? (·.module = module) with
    | none => exact linked
    | some entry =>
      obtain rfl : entry.module = module := by simpa using List.find?_some found
      have taken := linked.take (List.mem_of_find?_eq_some found)
      -- While its imports are analysed, the tree that was taken off the list is among those held.
      have imports : Keeps (StaysLinked base (entry :: held)) (do
          (← originsOf entry.module).forM (analyzeModule registry mode budget)) :=
        keeps_bind StaysLinked.trans (staysLinked_originsOf _) fun origins =>
          keeps_forM staysLinked_refl StaysLinked.trans origins fun origin _ => ih origin
      have before := imports _ taken
      dsimp only
      rw [← bind_assoc, runFrom_bind]
      rcases ended : runFrom _ _ with ⟨halt | _, later⟩
      · rw [ended] at before
        exact before.drop
      · rw [ended] at before
        exact linked_analyzeEntry registry mode before

theorem staysLinked_analyzeAll (registry : Registry) (mode : AnalysisMode) (budget : Nat) :
    Keeps (StaysLinked base held) (analyzeAll registry mode budget) := by
  induction budget with
  | zero => exact keeps_pure staysLinked_refl _
  | succ budget ih =>
    refine keeps_bind StaysLinked.trans (keeps_get staysLinked_refl) fun session => ?_
    split
    · exact keeps_pure staysLinked_refl _
    · exact keeps_bind StaysLinked.trans (staysLinked_analyzeModule registry mode _ _) fun _ => ih

theorem Linked.start (unlinked : session.tree.Unlinked) (fresh : session.analysed = [])
    (declared : ∀ entry ∈ session.pending, ∀ n ∈ entry.ast.nodes,
      n.kind.Permitted (Permit.declaredIn session.tree))
    (once : (functionIdsOf session.pending).Nodup) : session.Linked session.tree [] := by
  refine ⟨unlinked.linked, ?_, once, ?_, by simp [fresh]⟩
  · intro entry member e listed n inside
    exact declared entry member n (Ast.mem_nodes.mpr ⟨e, listed, inside⟩)
  · intro id _ status found
    obtain ⟨f, there, rfl⟩ := Option.map_eq_some_iff.mp found
    exact unlinked.pending f (Array.mem_of_getElem? there)

/-- What may be used according to the base tree may be used according to the tree of the session. -/
theorem Linked.visible (linked : session.Linked base held) (visible : entry.Visible base) :
    entry.Visible session.tree := by
  obtain ⟨m, known, visible⟩ := visible
  have inside : entry.module.index < session.tree.modules.size := by
    rw [linked.linked.count]
    exact (Array.getElem?_eq_some_iff.mp known).1
  have found := Array.getElem?_eq_getElem inside
  obtain ⟨old, known', -, scope⟩ := (linked.linked.modules entry.module _ found).origin
  rw [known] at known'
  cases known'
  exact ⟨_, found, scope ▸ linked.linked.visible visible⟩

theorem analysed_of_run {registry : Registry} {mode : AnalysisMode} {entries : List ModuleTree}
    (result : (session.run registry mode).result = .ok entries) :
    (runFrom (analyzeAll registry mode session.pending.length) session).2.analysed = entries := by
  have mapped : (runFrom (analyzeAll registry mode session.pending.length) session).1.map (fun _ =>
      (runFrom (analyzeAll registry mode session.pending.length) session).2.analysed) =
        .ok entries := result
  cases ended : (runFrom (analyzeAll registry mode session.pending.length) session).1 with
  | error halt => rw [ended] at mapped; cases mapped
  | ok _ =>
    rw [ended] at mapped
    exact Except.ok.inj mapped

/-- Functions and structs that are named in analysed modules belong to the module that names them, or
they are exported. -/
theorem visible_of_run (unlinked : session.tree.Unlinked) (fresh : session.analysed = [])
    (declared : ∀ entry ∈ session.pending, ∀ n ∈ entry.ast.nodes,
      n.kind.Permitted (Permit.declaredIn session.tree))
    (once : (functionIdsOf session.pending).Nodup) (registry : Registry) (mode : AnalysisMode)
    {outcome : Outcome (List ModuleTree)} (ended : session.run registry mode = outcome) :
    (∀ entries, outcome.result = .ok entries → ∀ entry ∈ entries, entry.Visible outcome.tree) ∧
      ∀ (id : ModuleId) m ast, outcome.tree.modules[id.index]? = some m → m.stored = some ast →
        ast.Visible outcome.tree m.scope := by
  have linked := staysLinked_analyzeAll registry mode session.pending.length session
    (Linked.start unlinked fresh declared once)
  subst ended
  constructor
  · intro entries result entry member
    obtain rfl := analysed_of_run result
    exact linked.visible (linked.analysed entry member)
  · intro id m ast found stored
    exact linked.linked.visible ((linked.linked.modules id m found).stored ast stored)

/-- The functions and structs that are named at the top of a tree. -/
def bindings (ast : Ast) : List (Option FunctionId × Option StructId) :=
  ast.expressions.map fun e =>
    match e.kind with
    | .call made => (made.findings.function, none)
    | .construct _ _ _ (some (.user id)) => (none, some id)
    | _ => (none, none)

/-- The root module uses a struct under the name that it has imported, and a function by a path. -/
def importing : Session where
  tree := .declare "main" [
    .addModule ⟨0⟩ "m" .exported,
    .addScope ⟨1⟩,
    .addFunction "f" .exported ⟨1⟩ [] false,
    .addStruct { name := "S", access := .exported, module := ⟨1⟩ },
    .addImport ⟨0⟩ ⟨⟨1⟩, Build.name "S"⟩]
  pending := [⟨⟨0⟩, ⟨[
    Build.module .exported "m" (Build.blockOf .module ⟨1⟩ [
      Build.struct { name := "S", access := .exported, module := ⟨1⟩ },
      Build.function { name := "f", access := .exported, module := ⟨1⟩ } ⟨0⟩
        (Build.blockOf .function ⟨2⟩ [])]),
    Build.construct [] "S" [],
    Build.pathCall ["m"] "f" []]⟩⟩]

theorem visible_of_run_importing :
    ∃ entries, (importing.run .empty .overwrite).result = .ok entries ∧
      entries.map (bindings ·.ast) = [[(none, none), (none, some ⟨0⟩), (some ⟨0⟩, none)]] ∧
      ∀ entry ∈ entries, entry.Visible (importing.run .empty .overwrite).tree := by
  have read : (match (importing.run .empty .overwrite).result with
      | .ok entries => decide (entries.map (bindings ·.ast) =
        [[(none, none), (none, some ⟨0⟩), (some ⟨0⟩, none)]])
      | .error _ => false) = true := by decide +kernel
  split at read
  next entries result =>
    refine ⟨entries, result, by simpa using read, ?_⟩
    exact (visible_of_run (ScopeTree.unlinked_declare _ _) rfl (by decide +kernel)
      (by decide +kernel) .empty .overwrite rfl).1 entries result
  next => cases read

/-! ### Structs of one name -/

/-- The declarations that carry the name, the module and the access of some symbol. -/
def carriedIn (tree : ScopeTree) : Permit where
  scope _ := True
  function access name module _ id :=
    (tree.functions[id.index]?).map (fun f => (f.name, f.module, f.access)) =
      some (name.text, module, access)
  struct access name module :=
    (name.text, module, access) ∈ tree.structs.toList.map fun s => (s.name, s.module, s.access)

instance (tree : ScopeTree) (scope : ScopeId) : Decidable ((carriedIn tree).scope scope) :=
  inferInstanceAs (Decidable True)

instance (tree : ScopeTree) (access : Access) (name : Token) (module : ModuleId)
    (takesClosure : Bool) (id : FunctionId) :
    Decidable ((carriedIn tree).function access name module takesClosure id) :=
  inferInstanceAs (Decidable (_ = _))

instance (tree : ScopeTree) (access : Access) (name : Token) (module : ModuleId) :
    Decidable ((carriedIn tree).struct access name module) :=
  inferInstanceAs (Decidable (_ ∈ _))

/-- A module declares two structs of one name, first a restricted one and then an exported one. The
tree declares the restricted one last. -/
def twoStructs : Session where
  tree := .declare "main" [
    .addModule ⟨0⟩ "m" .exported,
    .addStruct { name := "S", access := .restricted, module := ⟨1⟩ },
    .addStruct { name := "S", access := .exported, module := ⟨1⟩ },
    .addImport ⟨0⟩ ⟨⟨1⟩, Build.name "S"⟩]
  pending := [⟨⟨0⟩, ⟨[
    Build.module .exported "m" (Build.blockOf .module ⟨1⟩ [
      Build.struct { name := "S", access := .exported, module := ⟨1⟩ },
      Build.struct { name := "S", access := .restricted, module := ⟨1⟩ }]),
    Build.construct [] "S" []]⟩⟩]

/-- The second declaration takes the place of the exported struct, which is imported by then. -/
theorem hidden_of_run :
    twoStructs.tree.Unlinked ∧ twoStructs.analysed = [] ∧
      (∀ entry ∈ twoStructs.pending, ∀ n ∈ entry.ast.nodes,
        n.kind.Permitted (carriedIn twoStructs.tree)) ∧
      (functionIdsOf twoStructs.pending).Nodup ∧
      ∃ entries, (twoStructs.run .empty .overwrite).result = .ok entries ∧
        ∃ entry ∈ entries, ¬ entry.Visible (twoStructs.run .empty .overwrite).tree := by
  refine ⟨ScopeTree.unlinked_declare _ _, rfl, by decide +kernel, by decide +kernel, ?_⟩
  have read : (match (twoStructs.run .empty .overwrite).result with
      | .ok entries => entries.any fun entry => entry.module = ⟨0⟩ &&
        entry.ast.expressions.any fun e =>
          match e.kind with
          | .construct _ _ _ target => target = some (.user ⟨1⟩)
          | _ => false
      | .error _ => false) = true := by decide +kernel
  have root : ((twoStructs.run .empty .overwrite).tree.modules[0]?).map (·.scope) = some ⟨0⟩ := by
    decide +kernel
  have place : (twoStructs.run .empty .overwrite).tree.moduleOf? ⟨0⟩ = some ⟨0⟩ := by decide +kernel
  -- The struct that is built belongs to the other module and is not exported.
  have label : (twoStructs.run .empty .overwrite).tree.structLabel? ⟨1⟩ =
      some ⟨⟨1⟩, .restricted⟩ := by decide +kernel
  split at read
  next entries result =>
    simp only [List.any_eq_true, Bool.and_eq_true, decide_eq_true_eq] at read
    obtain ⟨⟨module, ast⟩, member, rfl, e, listed, made⟩ := read
    refine ⟨entries, result, _, member, ?_⟩
    rintro ⟨m, found, visible⟩
    split at made
    next kind =>
      rw [decide_eq_true_eq] at made
      subst made
      have scope : m.scope = ⟨0⟩ := by
        rw [show (⟨0⟩ : ModuleId).index = 0 from rfl] at found
        simpa [found] using root
      have uses := visible e listed m.scope e .self ⟨0⟩ (scope ▸ place)
      simp only [Expr.Visible, kind] at uses
      obtain ⟨_, known, allowed⟩ := uses ⟨1⟩ rfl
      rw [label] at known
      cases known
      rcases allowed with own | exported
      · cases own
      · cases exported
    next => cases made
  next => cases read

end Session
end ShellSema
