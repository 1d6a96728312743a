import ShellSema.Proofs.Carriers

/-!
# Threading the closure of a function

A function gets its closure in a variable of its body. Where a closure in that body calls it, the
variable has to be threaded through: the function is registered as one whose closure is used in
another one, the variable is marked, and all closures up to the call capture it. The function is found
along the frames of the closures, the variable by its name along the scopes. If a scope on the way
declares another variable of that name, it is that one which is marked and captured.
-/
namespace ShellSema

/-- The blocks of a module are properly nested within functions as well: no function declares a
module. -/
structure Ast.FullyNested (ast : Ast) (tree : ScopeTree) (module : ModuleId) : Prop
    extends ast.ProperlyNested tree module where
  functions : ∀ e ∈ ast.nodes, e.kindName = "function" → e.DeclaresNoModule

/-- The visit is in the body of a closure that is held by the other one, and in no function within. -/
def Visit.HoldsNested (b u : Visit) : Prop := ∃ c d, b.Holds c ∧ c.EntersBody d ∧ d.Holds u

namespace Analysis

variable {registry : Registry} {mode : AnalysisMode} {module : ModuleId} {ast analysed : Ast}
  {s t : AnalysisState} {f b u : Visit} {id : FunctionId}

/-- The first visits of an analysis are in no function. -/
theorem outermost_of_begins {context : Context} {start : AnalysisState} {top : Visit}
    (begins : Begins registry module s context start)
    (first : (Plan.each context Expr.slot ast.expressions).Enters start top) :
    top.OwnedBy none := by
  have within : (Plan.each context Expr.slot ast.expressions).Within (fun _ _ => True)
      fun inner _ _ => inner = context := Plan.within_each (fun _ _ => rfl) _ _
  have place : top.context = context :=
    (within.enters (fun _ => trivial) (fun _ _ _ _ _ => trivial) (fun _ _ _ _ _ => trivial) first).1
  obtain ⟨m, -, rfl, -⟩ := begins
  rw [Visit.OwnedBy, place]
  exact .outermost

theorem Visited.room (given : Gives (moduleWalk registry mode module ast) s analysed t)
    (room : t.closures.size ≤ 2 ^ 32) (visited : Visited registry module ast s u) :
    u.before.closures.size ≤ 2 ^ 32 := by
  obtain ⟨-, -, r, t', left, later⟩ := visited.course given
  have whole : Grows (fun _ => True) u.before t :=
    Grows.trans _ _ _ (Visit.grows_of_gives left) later
  exact Nat.le_trans whole.frames.size_le room

/-- A closure is called in the body of the function whose closure it is. The function takes one. -/
theorem Visited.function_of_calls (once : ast.functionIds.Nodup)
    (given : Gives (moduleWalk registry mode module ast) s analysed t)
    (room : t.closures.size ≤ 2 ^ 32) (visited : Visited registry module ast s u)
    (calls : u.CallsClosureOf id) :
    ∃ f b, Visited registry module ast s f ∧ f.source.takesClosure = true ∧ f.EntersFunction b id ∧
      b.Holds u := by
  have enough := visited.room given room
  obtain ⟨support, owned⟩ := calls.owned
  obtain ⟨context, start, top, begins, first, reached⟩ := visited
  rcases Visit.innermost_of_reaches reached with path | calm | ⟨f, b, other, reached', body, path⟩
  · have nobody := (outermost_of_begins begins first).along path enough
    cases owned none nobody
  · exact absurd calls.kindName (calm _ (Expr.mem_nodes_self _))
  · obtain rfl : other = id := Option.some.inj (owned _ (body.ownedBy.along path enough))
    have visited : Visited registry module ast s f :=
      ⟨context, start, top, begins, first, reached'⟩
    have single := visited.functionIds_sublist.nodup once
    refine ⟨f, b, visited, ?_, body, path⟩
    -- In the body, no visit meets the function again.
    have allowed : b.Allowed (Permit.onFunctions (· ≠ other)) :=
      ⟨Expr.permitted_apart (body.not_mem_functionIds single), .inl trivial⟩
    have kept := allowed.along (keepsSupport_preserved other) (Visit.Holds.reaches path)
    rw [kept, body.support single] at support
    exact Option.some.inj support

/-- A call within a function, of the closure of that function, stands in its body. -/
theorem Visited.entersFunction_of_calls (once : ast.functionIds.Nodup)
    (declared : f.source.declaredFunction? = some id)
    (given : Gives (moduleWalk registry mode module ast) s analysed t)
    (room : t.closures.size ≤ 2 ^ 32) (visited : Visited registry module ast s f)
    (reached : f.Reaches u) (calls : u.CallsClosureOf id) :
    ∃ b, f.EntersFunction b id ∧ b.Holds u := by
  have enough := (visited.reaches reached).room given room
  obtain ⟨-, owned⟩ := calls.owned
  have single := visited.functionIds_sublist.nodup once
  rw [Expr.functionIds_eq, declared] at single
  have below : id ∉ f.source.children.flatMap Expr.functionIds := (List.nodup_cons.mp single).1
  have function : f.source.kindName = "function" := Expr.kindName_of_declared declared
  rcases Visit.innermost_of_reaches reached with path | calm | ⟨g, b, other, reached', body, path⟩
  · rcases Relation.ReflTransGen.cases_head path with rfl | ⟨w, step, -⟩
    · rw [calls.kindName] at function
      exact absurd function (by decide)
    · exact absurd function step.2
  · exact absurd calls.kindName (calm _ (Expr.mem_nodes_self _))
  · obtain rfl : other = id := Option.some.inj (owned _ (body.ownedBy.along path enough))
    rcases Relation.ReflTransGen.cases_head reached' with rfl | ⟨w, entered, further⟩
    · exact ⟨b, body, path⟩
    -- Within the function, the same function is not declared again.
    · have inside := (Expr.nodes_sublist_of_mem (Visit.mem_nodes_of_reaches further)).filterMap
        Expr.declaredFunction?
      exact absurd (List.mem_flatMap.mpr ⟨w.source, Visit.mem_children_of_enters entered,
        inside.subset body.mem_functionIds⟩) below

/-! ### What is registered -/

/-- When a function is met, its closure has not been called yet. -/
theorem Visited.not_noted (once : ast.functionIds.Nodup) (support : s.closureSupport = [])
    (carriers : s.carrierCaptured = []) (visited : Visited registry module ast s f)
    (declared : id ∈ f.source.functionIds) : id ∉ f.before.carrierCaptured := by
  have met : CarriersMet s f.before := by
    refine (visited.allowed carriersMet_preserved ?_ ?_ (fun _ => trivial) ?_).2
    · exact keeps_edit_of_notes carriersMet_of_same _
    · exact keeps_resolveImports carriersMet_preserved.refl carriersMet_preserved.trans
        fun _ _ => keeps_edit_of_notes carriersMet_of_same _
    · exact fun e _ => e.permitted_everywhere
  have unmet : KeepsSupport id s f.before :=
    visited.apart_before (keepsSupport_preserved id)
      (fun _ s => by rw [runFrom_edit_state]; exact keepsSupport_refl s) once declared
  intro noted
  have known := met (by simp [carriers]) id noted
  rw [unmet, support] at known
  cases known

/-- At the end of a function, it is noted just if its closure has been called within a closure in its
body. -/
theorem Visited.noted_iff (once : ast.functionIds.Nodup) (support : s.closureSupport = [])
    (carriers : s.carrierCaptured = [])
    (given : Gives (moduleWalk registry mode module ast) s analysed t)
    (room : t.closures.size ≤ 2 ^ 32) (visited : Visited registry module ast s f)
    (declared : f.source.declaredFunction? = some id) {r : Expr} {t' : AnalysisState}
    (left : f.Gives r t') :
    id ∈ t'.carrierCaptured ↔
      ∃ b u, f.EntersFunction b id ∧ b.HoldsNested u ∧ u.CallsClosureOf id := by
  have single := visited.functionIds_sublist.nodup once
  have own : f.source.functionIds = id :: f.source.children.flatMap Expr.functionIds := by
    rw [Expr.functionIds_eq, declared]
    rfl
  constructor
  -- Noted on the way, and so by a call of `closure` in the function: none is noted before the
  -- function is met, since it is declared only once.
  · intro noted
    have before := visited.not_noted once support carriers (own ▸ List.mem_cons_self)
    obtain ⟨u, reached, calls, nearest, inside⟩ := Visit.exists_calling left before noted
    obtain ⟨b, body, path⟩ :=
      visited.entersFunction_of_calls once declared given room reached calls
    have outside (nearest : ClosureId) : b.context.enclosing ≠ some (.closure nearest) := by
      rw [body.enclosing]
      simp
    exact ⟨b, u, body, Visit.holds_closure path outside inside, calls⟩
  · rintro ⟨b, u, body, ⟨c, d, around, closure, path⟩, calls⟩
    obtain ⟨nearest, inside⟩ := Visit.closure_of_holds closure path
    obtain ⟨written, r', t'', found, source, left', -⟩ := calls.finds
    have reached : f.Reaches u := by
      have first : f.Reaches b := .single body.1
      have second : b.Reaches d := (Visit.Holds.reaches around).tail closure.1
      exact (first.trans second).trans (Visit.Holds.reaches path)
    have growing := f.allowed_everywhere.to_end carriersGrow_preserved reached left' left
    exact growing _ (calls.noted inside left')

/-- In the end, a function is registered with what was noted of its closure by its own end. -/
theorem Visited.registered (once : ast.functionIds.Nodup) (awaits : s.tree.Awaits ast.functionIds)
    (given : Gives (moduleWalk registry mode module ast) s analysed t)
    (visited : Visited registry module ast s f) (declared : f.source.declaredFunction? = some id) :
    ∃ g r t', f.Gives r t' ∧ t.tree.function id = .ok g ∧
      (g.carrierCaptured = true ↔ id ∈ t'.carrierCaptured) := by
  obtain ⟨-, -, r, t', left, -⟩ := visited.course given
  obtain ⟨access, name, parameters, body, home, takesClosure, source⟩ :=
    Expr.kind_of_declared declared
  obtain ⟨b, body', parameters', walked, -, -, -, -, registers⟩ :=
    Visit.registers_of_gives source left (visited.fresh once awaits).not_skips
  obtain ⟨same, found⟩ := function_of_registerFunction registers
  -- Nothing that comes later declares the function, so what is registered stays.
  have kept : KeepsRecord id t' t := by
    have declared : id ∈ f.source.functionIds := by
      rw [Expr.functionIds_of_kind source]
      exact List.mem_cons_self
    have later : KeepsRecord id f.after (runFrom (moduleWalk registry mode module ast) s).2 :=
      visited.apart_after (keepsRecord_preserved id)
        (fun change => keepsRecord_changeModule module change) once declared
    rwa [Visit.after_of_gives left, given] at later
  refine ⟨_, r, t', left, Eq.trans kept found, ?_⟩
  rw [same]
  exact List.contains_iff_mem

/-! ### The whole -/

/-- In the body of a function, the closures around a call capture the variable that the body declares
for the closure of the function, as long as the call sees this variable. -/
theorem Visited.captures_carrier (nested : ast.FullyNested s.tree module)
    (given : Gives (moduleWalk registry mode module ast) s analysed t)
    (room : t.closures.size ≤ 2 ^ 32) (visited : Visited registry module ast s f)
    (body : f.EntersFunction b id) (calls : u.CallsClosureOf id) {scope : ScopeId}
    (block : b.source.blockScope? = some scope)
    (innermost : u.before.tree.declaringScope u.context.scope closureCarrier = .ok (some scope))
    {c d : Visit} (around : b.Holds c) (closure : c.EntersBody d) (path : d.Holds u) :
    t.tree.Marks scope closureCarrier ∧
      (d.Undeclared u closureCarrier → c.Captures closureCarrier) := by
  have inner : Visited registry module ast s c :=
    (visited.enters body.1).reaches (Visit.Holds.reaches around)
  obtain ⟨nearest, place, r, t', inBody, found, left, after⟩ :=
    inner.inBody nested.toProperlyNested given room closure
  -- The body of the closure stands within the body of the function.
  have below : s.tree.Around place scope := by
    have entered := visited.enters body.1
    have modules := body.declaresNoModule (nested.functions _ visited.mem_nodes)
    have own : b.source.blockScopes.Nodup :=
      ((Ast.nodes_sublist entered.mem_nodes).filterMap _).nodup nested.own
    obtain ⟨outer, stands⟩ := entered.nested nested.toProperlyNested
    obtain ⟨expressions, role, kind⟩ := Expr.kind_of_blockScope? block
    have stands : c.Stands s.tree scope :=
      Visit.Stands.along nested.acyclic (.body kind (stands.of_block kind).2) own modules around
    refine stands.around (fun n inside => modules n ?_) closure found
    have within := Visit.mem_nodes_of_reaches (Visit.Holds.reaches around)
    exact (Expr.nodes_sublist_of_mem within).subset inside
  have room' : t'.closures.size ≤ 2 ^ 32 := Nat.le_trans after.frames.size_le room
  obtain ⟨-, marks, captured⟩ := Visit.captures_of_catches nested.acyclic path
    (calls.catches innermost) innermost inBody below left room'
  refine ⟨after.tree.marked _ _ marks, fun undeclared => ?_⟩
  obtain ⟨-, -, r', t'', whole, -⟩ := inner.course given
  exact Visit.captures_of_frame closure inBody.enclosing left whole (captured undeclared)

/-- A closure is called within the function whose closure it is, and this function takes one. Where
the call stands in closures in the body of the function, the variable of that body is marked and the
closures capture it, as long as the call sees the variable and no closure on the way comes to declare
its name. The function ends up registered with a captured closure just if there is such a call. -/
theorem carrier_of_analysed {tree : ScopeTree} {tokens : Option (Array SemanticToken)}
    (nested : ast.FullyNested tree module) (once : ast.functionIds.Nodup)
    (awaits : tree.Awaits ast.functionIds)
    (given : Gives (moduleWalk registry mode module ast) { tree, tokens } analysed t)
    (room : t.closures.size ≤ 2 ^ 32) :
    (∀ u id, Visited registry module ast { tree, tokens } u → u.CallsClosureOf id →
      ∃ f b, Visited registry module ast { tree, tokens } f ∧ f.source.takesClosure = true ∧
        f.EntersFunction b id ∧ b.Holds u) ∧
    (∀ f b c d u id scope, Visited registry module ast { tree, tokens } f → f.EntersFunction b id →
      b.source.blockScope? = some scope → b.Holds c → c.EntersBody d → d.Holds u →
      u.CallsClosureOf id →
      u.before.tree.declaringScope u.context.scope closureCarrier = .ok (some scope) →
        t.tree.Marks scope closureCarrier ∧
          (d.Undeclared u closureCarrier → c.Captures closureCarrier)) ∧
    (∀ f id, Visited registry module ast { tree, tokens } f → f.source.declaredFunction? = some id →
      ∃ g, t.tree.function id = .ok g ∧
        (g.carrierCaptured = true ↔
          ∃ b u, f.EntersFunction b id ∧ b.HoldsNested u ∧ u.CallsClosureOf id)) := by
  refine ⟨?_, ?_, ?_⟩
  · intro u id visited calls
    exact visited.function_of_calls once given room calls
  · intro f b c d u id scope visited body block around closure path calls innermost
    exact visited.captures_carrier nested given room body calls block innermost around closure path
  · intro f id visited declared
    obtain ⟨g, r, t', left, found, registered⟩ := visited.registered once awaits given declared
    refine ⟨g, found, registered.trans ?_⟩
    exact visited.noted_iff once rfl rfl given room declared left

/-- A function that takes a closure, with a closure in its body. -/
def wrapping (statements : List Expr) : Ast :=
  ⟨[Build.function { name := "wrapper", module := ⟨0⟩, takesClosure := true } ⟨0⟩
    (Build.block ⟨1⟩ [Build.closure (Build.call "reduce" [Build.list []]) []
      (Build.block ⟨2⟩ statements)])]⟩

def wrappingScopes : ScopeTree :=
  { redeclaredScopes with
    modules := redeclaredScopes.modules.map fun m =>
      { m with functions := m.functions.insert "wrapper" ⟨0⟩ }
    functions := #[{ name := "wrapper", module := ⟨0⟩, takesClosure := true }] }

theorem fullyNested_wrapping {statements : List Expr}
    (inside : ∀ c ∈ statements, c.Nested wrappingScopes ⟨2⟩)
    (own : ((wrapping statements).nodes.filterMap Expr.blockScope?).Nodup)
    (modules : ∀ e ∈ (wrapping statements).nodes, e.kindName ≠ "module") :
    (wrapping statements).FullyNested wrappingScopes ⟨0⟩ := by
  have free (e : Expr) (listed : e ∈ (wrapping statements).nodes) : e.DeclaresNoModule :=
    fun n within => modules n ((Ast.nodes_sublist listed).subset within)
  refine ⟨⟨?_, ?_, own, fun e listed _ => free e listed⟩, fun e listed _ => free e listed⟩
  · apply ScopeTree.scopesAcyclic_of_descending
    intro id parent step
    have := redeclaredScopes_parent step
    omega
  · intro m _ e member
    obtain rfl := List.mem_singleton.mp member
    refine .declaration (.inl rfl) (fun _ => ⟨0⟩) fun c child => ?_
    obtain rfl := List.mem_singleton.mp child
    refine .block rfl rfl fun c child => ?_
    obtain rfl := List.mem_singleton.mp child
    exact nested_reduce _ _ (.block rfl rfl inside)

/-- Whether the closure calls that of the function at a place which finds the name in the scope. -/
def threads (statements : List Expr) (declaring : ScopeId) : Bool :=
  (visits globalsOnly ⟨0⟩ (wrapping statements) { tree := wrappingScopes }).any fun f =>
    f.source.declaredFunction? = some ⟨0⟩ && f.visits.any fun b =>
      b.source.blockScope? = some ⟨1⟩ && b.visits.any fun c =>
        c.source.kindName = "closure" && c.visits.any fun d =>
          d.slot.attachment.isNone && d.source.blockScope? = some ⟨2⟩ && d.visits.any fun u =>
            u.source.kindName = "call" &&
            endsWith (Walk.expr u.context u.slot u.source) u.before
              (fun r _ => r.closureProvider? = some ⟨0⟩) &&
            (u.before.tree.declaringScope u.context.scope closureCarrier).toOption =
              some (some declaring)

theorem visits_of_threads {statements : List Expr} {declaring : ScopeId}
    (found : threads statements declaring = true) :
    ∃ f b c d u, Visited globalsOnly ⟨0⟩ (wrapping statements) { tree := wrappingScopes } f ∧
      f.source.declaredFunction? = some ⟨0⟩ ∧ f.EntersFunction b ⟨0⟩ ∧
      b.source.blockScope? = some ⟨1⟩ ∧ b.Holds c ∧ c.EntersBody d ∧ d.Holds u ∧
      u.CallsClosureOf ⟨0⟩ ∧
      u.before.tree.declaringScope u.context.scope closureCarrier = .ok (some declaring) := by
  simp only [threads, List.any_eq_true, Bool.and_eq_true, decide_eq_true_eq] at found
  -- The function, its body, the closure there, the body of that one, and the call in it.
  obtain ⟨f, first, declared, b, entered, block, c, entered', closure, d, entered'', ⟨slot, block'⟩, u,
    entered₃, ⟨call, ends⟩, declaring'⟩ := found
  obtain ⟨r, t, given, provides⟩ := gives_of_endsWith ends
  have outer := Expr.kindName_of_blockScope? block
  have inner := Expr.kindName_of_blockScope? block'
  have entersBody : c.EntersBody d :=
    Visit.entersBody_of_slot (Visit.enters_of_mem_visits entered'') closure
      (Option.isNone_iff_eq_none.mp slot)
  have calls : u.CallsClosureOf ⟨0⟩ :=
    Visit.callsClosure_of_result call given (of_decide_eq_true provides)
  refine ⟨f, b, c, d, u, visited_of_mem_visits first, declared, ?_, block, ?_, entersBody, ?_,
    calls, ?_⟩
  · exact Visit.entersFunction_of_block (Visit.enters_of_mem_visits entered) declared
      (Expr.isBlock_of_blockScope? block)
  · exact .single ⟨Visit.enters_of_mem_visits entered', by simp [outer]⟩
  · exact .single ⟨Visit.enters_of_mem_visits entered₃, by simp [inner]⟩
  · exact ok_of_toOption declaring'

/-- The variable of the function is marked for a call in a closure, which captures it. -/
theorem carrier_of_analysed_call :
    ∃ analysed t f b c d u, Gives
        (moduleWalk globalsOnly .overwrite ⟨0⟩ (wrapping [Build.call "closure" []]))
        { tree := wrappingScopes } analysed t ∧
      Visited globalsOnly ⟨0⟩ (wrapping [Build.call "closure" []]) { tree := wrappingScopes } f ∧
      f.EntersFunction b ⟨0⟩ ∧ b.Holds c ∧ c.EntersBody d ∧ d.Holds u ∧ u.CallsClosureOf ⟨0⟩ ∧
      t.tree.Marks ⟨1⟩ closureCarrier ∧
      (d.Undeclared u closureCarrier → c.Captures closureCarrier) ∧
      ∃ g, t.tree.function ⟨0⟩ = .ok g ∧ g.carrierCaptured = true := by
  have ends : endsWith (moduleWalk globalsOnly .overwrite ⟨0⟩ (wrapping [Build.call "closure" []]))
      { tree := wrappingScopes } (fun _ t => t.closures.size == 1) = true := by decide +kernel
  obtain ⟨analysed, t, given, one⟩ := gives_of_endsWith ends
  have size : t.closures.size = 1 := eq_of_beq one
  have nested : (wrapping [Build.call "closure" []]).FullyNested wrappingScopes ⟨0⟩ := by
    refine fullyNested_wrapping (fun c listed => ?_) (by decide) (by decide)
    obtain rfl := List.mem_singleton.mp listed
    exact .leaf rfl rfl
  obtain ⟨-, captures, registered⟩ :=
    carrier_of_analysed nested (by decide) (by decide) given (by omega)
  -- The visits of the run, down to the call of `closure`.
  have found : threads [Build.call "closure" []] ⟨1⟩ = true := by decide +kernel
  obtain ⟨f, b, c, d, u, visited, declared, body, block, around, closure, path, calls, declaring⟩ :=
    visits_of_threads found
  obtain ⟨marks, captured⟩ :=
    captures f b c d u ⟨0⟩ ⟨1⟩ visited body block around closure path calls declaring
  obtain ⟨g, stored, noted⟩ := registered f ⟨0⟩ visited declared
  refine ⟨analysed, t, f, b, c, d, u, given, visited, body, around, closure, path, calls, marks,
    captured, g, stored, noted.mpr ?_⟩
  exact ⟨b, u, body, ⟨c, d, around, closure, path⟩, calls⟩

/-- A closure that declares a variable with the name by which the closure of the function goes. -/
def shadowing : List Expr :=
  [Build.letIn ["closure"] (Build.integer "1"), Build.call "closure" []]

/-- It is the variable in the closure that is marked then, and not that of the function. -/
theorem carrier_not_marked :
    ∃ analysed t f b c d u, (wrapping shadowing).FullyNested wrappingScopes ⟨0⟩ ∧
      (wrapping shadowing).functionIds.Nodup ∧
      wrappingScopes.Awaits (wrapping shadowing).functionIds ∧
      Gives (moduleWalk globalsOnly .overwrite ⟨0⟩ (wrapping shadowing)) { tree := wrappingScopes }
        analysed t ∧ t.closures.size ≤ 2 ^ 32 ∧
      Visited globalsOnly ⟨0⟩ (wrapping shadowing) { tree := wrappingScopes } f ∧
      f.EntersFunction b ⟨0⟩ ∧ b.source.blockScope? = some ⟨1⟩ ∧ b.Holds c ∧ c.EntersBody d ∧
      d.Holds u ∧ u.CallsClosureOf ⟨0⟩ ∧ ¬ t.tree.Marks ⟨1⟩ closureCarrier := by
  -- The name is declared again in the body of the closure, so the declaration further out stays
  -- unmarked.
  have ends : endsWith (moduleWalk globalsOnly .overwrite ⟨0⟩ (wrapping shadowing))
      { tree := wrappingScopes } (fun _ t => t.closures.size == 1 &&
        (t.tree.ownVariable? ⟨1⟩ closureCarrier).all fun v => !v.isCaptured) = true := by
    decide +kernel
  obtain ⟨analysed, t, given, ended⟩ := gives_of_endsWith ends
  obtain ⟨one, unmarked⟩ := Bool.and_eq_true_iff.mp ended
  have size : t.closures.size = 1 := eq_of_beq one
  have nested : (wrapping shadowing).FullyNested wrappingScopes ⟨0⟩ := by
    refine fullyNested_wrapping (fun c listed => ?_) (by decide) (by decide)
    rcases List.mem_pair.mp listed with rfl | rfl
    · refine .other rfl fun c child => ?_
      obtain rfl := List.mem_singleton.mp child
      exact .leaf rfl rfl
    · exact .leaf rfl rfl
  have found : threads shadowing ⟨2⟩ = true := by decide +kernel
  obtain ⟨f, b, c, d, u, visited, -, body, block, around, closure, path, calls, -⟩ :=
    visits_of_threads found
  refine ⟨analysed, t, f, b, c, d, u, nested, by decide, by decide, given, by omega, visited, body,
    block, around, closure, path, calls, ?_⟩
  rintro ⟨v, stored, captured⟩
  simp [stored, captured] at unmarked

end Analysis
end ShellSema
