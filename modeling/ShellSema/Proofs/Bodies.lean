import ShellSema.Proofs.ClosureRuns

/-!
# The bodies of closures

The scopes of blocks that stand in each other lie in each other, as the parser builds them. Then a
visit in the body of a closure stands in a scope within that of the body, and a closure in there has
a body right within the scope of the visit. `Visit.InBody` says so, and holds on the way into the
body and from one body to the next.
-/
namespace ShellSema

/-! ### Blocks within blocks -/

/-- Blocks stand in each other as their scopes do. The bodies of functions and modules may have any
place among the scopes. -/
inductive Expr.Nested (tree : ScopeTree) : ScopeId → Expr → Prop where
  | block {outer scope : ScopeId} {e : Expr} {expressions : List Expr} {role : BlockRole}
      (kind : e.kind = .block expressions role scope)
      (parent : tree.parentScope? scope = some outer)
      (inside : ∀ c ∈ expressions, Nested tree scope c) : Nested tree outer e
  | declaration {outer : ScopeId} {e : Expr}
      (named : e.kindName = "function" ∨ e.kindName = "module") (place : Expr → ScopeId)
      (inside : ∀ c ∈ e.children, Nested tree (place c) c) : Nested tree outer e
  | other {outer : ScopeId} {e : Expr} (block : e.isBlock = false)
      (inside : ∀ c ∈ e.children, Nested tree outer c) : Nested tree outer e

/-- The scopes of the blocks of a tree. -/
def Expr.blockScopes (e : Expr) : List ScopeId := e.nodes.filterMap Expr.blockScope?

/-- No module is declared in the tree. -/
def Expr.DeclaresNoModule (e : Expr) : Prop := ∀ n ∈ e.nodes, n.kindName ≠ "module"

/-- The blocks of a module are properly nested: no scope lies around itself, blocks stand in each
other as their scopes do, no two blocks share a scope, and no closure declares a module. -/
structure Ast.ProperlyNested (ast : Ast) (tree : ScopeTree) (module : ModuleId) : Prop where
  acyclic : tree.ScopesAcyclic
  nested : ∀ m, tree.module module = .ok m → ∀ e ∈ ast.expressions, e.Nested tree m.scope
  own : (ast.nodes.filterMap Expr.blockScope?).Nodup
  closures : ∀ e ∈ ast.nodes, e.kindName = "closure" → e.DeclaresNoModule

section Nesting

variable {tree : ScopeTree} {outer : ScopeId} {e : Expr}

theorem Expr.Nested.child (nested : e.Nested tree outer) (block : e.isBlock = false)
    (function : e.kindName ≠ "function") (module : e.kindName ≠ "module") :
    ∀ c ∈ e.children, c.Nested tree outer := by
  cases nested with
  | block kind => simp [Expr.isBlock, Expr.blockScope?, kind] at block
  | declaration named =>
    rcases named with named | named
    · exact absurd named function
    · exact absurd named module
  | other _ inside => exact inside

theorem Expr.Nested.of_block (nested : e.Nested tree outer) {expressions : List Expr}
    {role : BlockRole} {scope : ScopeId} (kind : e.kind = .block expressions role scope) :
    tree.parentScope? scope = some outer ∧ ∀ c ∈ expressions, c.Nested tree scope := by
  cases nested with
  | block kind' parent inside =>
    rw [kind] at kind'
    cases kind'
    exact ⟨parent, inside⟩
  | declaration named => simp [Expr.kindName, ExprKind.name, kind] at named
  | other block _ => simp [Expr.isBlock, Expr.blockScope?, kind] at block

theorem Expr.Nested.leaf (block : e.isBlock = false) (children : e.children = []) :
    e.Nested tree outer :=
  .other block fun c child => by simp [children] at child

/-- Every node of a nested tree is nested in some scope. -/
theorem Expr.Nested.of_mem_nodes (nested : e.Nested tree outer) {n : Expr} (inside : n ∈ e.nodes) :
    ∃ scope, n.Nested tree scope := by
  induction nested with
  | @block outer scope e expressions role kind parent below ih =>
    rcases Expr.mem_nodes.mp inside with rfl | ⟨c, child, deeper⟩
    · exact ⟨_, .block kind parent below⟩
    · simp only [Expr.children, kind, ExprKind.children] at child
      exact ih c child deeper
  | @declaration outer e named place below ih =>
    rcases Expr.mem_nodes.mp inside with rfl | ⟨c, child, deeper⟩
    · exact ⟨outer, .declaration named place below⟩
    · exact ih c child deeper
  | @other outer e block below ih =>
    rcases Expr.mem_nodes.mp inside with rfl | ⟨c, child, deeper⟩
    · exact ⟨_, .other block below⟩
    · exact ih c child deeper

theorem Expr.DeclaresNoModule.child {c : Expr} (free : e.DeclaresNoModule) (child : c ∈ e.children) :
    c.DeclaresNoModule :=
  fun n inside => free n (Expr.mem_nodes_of_child child inside)

theorem Expr.blockScopes_sublist {c : Expr} (child : c ∈ e.children) :
    c.blockScopes.Sublist e.blockScopes :=
  (Expr.nodes_sublist child).filterMap _

/-- The scope of a block is none of the scopes of the blocks within it. -/
theorem Expr.not_mem_blockScopes {expressions : List Expr} {role : BlockRole} {scope : ScopeId}
    (kind : e.kind = .block expressions role scope) (own : e.blockScopes.Nodup) {c : Expr}
    (child : c ∈ e.children) : scope ∉ c.blockScopes := by
  have found : e.blockScope? = some scope := by simp [Expr.blockScope?, kind]
  rw [Expr.blockScopes, Expr.nodes_eq, List.filterMap_cons_some found, List.nodup_cons] at own
  intro member
  apply own.1
  obtain ⟨n, inside, block⟩ := List.mem_filterMap.mp member
  exact List.mem_filterMap.mpr ⟨n, List.mem_flatMap.mpr ⟨c, child, inside⟩, block⟩

end Nesting

/-! ### Growth between visits -/

theorem FramesGrow.size_le {frames later : Array ClosureFrame} (grow : FramesGrow frames later) :
    frames.size ≤ later.size := by
  by_contra fewer
  obtain ⟨frame, found, -⟩ := grow later.size _ (Array.getElem?_eq_getElem (by omega))
  simp at found

namespace Visit

variable {v w u : Visit}

theorem allowed_everywhere (v : Visit) : v.Allowed (Permit.onScopes fun _ => True) :=
  ⟨v.source.permitted_everywhere, .inl trivial⟩

theorem grows_of_enters (entered : v.Enters w) :
    w.source ∈ v.source.children ∧ v.source.kind.Places v.context w.context ∧
      Grows (fun _ => True) v.before w.before :=
  (v.allowed_everywhere.enters (grows_preserved _) entered).2

theorem grows_of_gives {r : Expr} {t : AnalysisState} (given : v.Gives r t) :
    Grows (fun _ => True) v.before t :=
  ((grows_preserved _).keeps_expr v.source.permitted_everywhere (.inl trivial)).of_gives given

theorem grows_of_leaves (entered : v.Enters w) {r r' : Expr} {t t' : AnalysisState}
    (left : w.Gives r t) (whole : v.Gives r' t') : Grows (fun _ => True) t t' :=
  v.allowed_everywhere.leaves (grows_preserved _) entered left whole

/-- The walk over a block declares variables in its blocks only. -/
theorem grows_of_block {r : Expr} {t : AnalysisState} (block : v.source.isBlock = true)
    (given : v.Gives r t) : Grows (· ∈ v.source.blockScopes) v.before t := by
  have permitted : v.source.Permitted (Permit.onScopes (· ∈ v.source.blockScopes)) := by
    intro n inside
    cases kind : n.kind
    case block expressions role scope =>
      exact List.mem_filterMap.mpr ⟨n, inside, by simp [Expr.blockScope?, kind]⟩
    all_goals trivial
  exact ((grows_preserved _).keeps_expr permitted (.inr block)).of_gives given

theorem firm_of_enters (entered : v.Enters w) : Firm v.before w.before := by
  by_cases other : v.source.kindName ≠ "closure"
  · have within : v.plan.Within Firm
        (Standing (Permit.onScopes fun _ => True) v.source.kind v.context) :=
      Plan.within_other firm_settled (fun _ _ _ => firm_of_same rfl)
        v.source.permitted_everywhere.here (.inl trivial) other
    exact (within.enters firm_refl Firm.trans (fun _ _ _ _ given => firm_of_gives given)
      entered.2).2
  · obtain ⟨attached, parameters, body, captured, old, source⟩ :=
      Expr.closure_of_kindName (not_not.mp other)
    rcases closure_enters source entered with rfl | ⟨scope, id, opened, opens, rfl⟩
    · exact firm_refl _
    · obtain ⟨call, s, first, -, entered⟩ := opens
      obtain ⟨-, closures, -⟩ := gives_enterClosure entered
      have before : Firm v.before s := firm_of_gives (v := v.attachedVisit attached) first
      exact Firm.trans _ _ _ before (firm_push closures)

/-! ### Visits within closures -/

/-- The second visit is that of the body of the closure that the first one visits. -/
def EntersBody (v w : Visit) : Prop :=
  v.Enters w ∧ ∃ attached parameters body captured old id opened,
    v.source.kind = .closure attached parameters body captured old ∧
      w = v.bodyVisit body id opened

/-- The second visit is part of the first, and not within a function that is declared there. -/
def Holds : Visit → Visit → Prop :=
  Relation.ReflTransGen fun v w => v.Enters w ∧ v.source.kindName ≠ "function"

/-- Where a visit in the body of a closure stands: at the body itself, or within its block. None of
the scopes from there up to the body belongs to a block that is yet to come. -/
inductive Stands (base : ScopeTree) (v : Visit) (body : ScopeId) : Prop where
  | body {expressions : List Expr} {role : BlockRole}
      (kind : v.source.kind = .block expressions role body)
      (nested : ∀ c ∈ expressions, c.Nested base body)
  | within (inside : base.Inside v.context.scope body)
      (nested : v.source.Nested base v.context.scope)
      (apart : ∀ scope, base.Inside v.context.scope scope → base.Inside scope body →
        scope ∉ v.source.blockScopes)

/-- A visit in the body of a closure, in a tree whose scopes stand as they do in a base tree. -/
structure InBody (base : ScopeTree) (v : Visit) (id : ClosureId) (body : ScopeId) : Prop where
  links : v.before.tree.parentScope? = base.parentScope?
  enclosing : v.context.enclosing = some (.closure id)
  frame : ∃ frame, v.before.closures[id.index]? = some frame ∧ frame.bodyScope = body ∧
    ∀ name ∈ frame.parameters, v.before.tree.Declares body name
  own : v.source.blockScopes.Nodup
  modules : v.source.DeclaresNoModule
  stands : v.Stands base body

variable {base : ScopeTree} {id : ClosureId} {body d : ScopeId}

theorem Stands.enters (acyclic : base.ScopesAcyclic) (stands : v.Stands base body)
    (own : v.source.blockScopes.Nodup) (entered : v.Enters w)
    (function : v.source.kindName ≠ "function") (module : v.source.kindName ≠ "module") :
    w.Stands base body := by
  obtain ⟨child, places, -⟩ := grows_of_enters entered
  cases stands with
  | body kind nested =>
    -- The block is entered, and nothing stands between it and the body: it is the body.
    have context : w.context = { v.context with scope := body } := by
      simpa only [ExprKind.Places, kind] using places
    have listed := child
    simp only [Expr.children, kind, ExprKind.children] at listed
    have here : w.context.scope = body := by rw [context]
    refine .within (here ▸ .refl) (here ▸ nested _ listed) ?_
    intro scope above below
    rw [here] at above
    rcases above.eq_or_around with rfl | around
    · exact Expr.not_mem_blockScopes kind own child
    · exact absurd (Relation.TransGen.trans_left around below) (acyclic _)
  | within inside nested apart =>
    have fewer : w.source.blockScopes.Sublist v.source.blockScopes :=
      Expr.blockScopes_sublist child
    by_cases block : v.source.isBlock = false
    · have context : w.context.scope = v.context.scope := by
        cases kind : v.source.kind with
        | block expressions role scope => simp [Expr.isBlock, Expr.blockScope?, kind] at block
        | functionDecl => simp [Expr.kindName, ExprKind.name, kind] at function
        | closure =>
          rw [kind] at places
          rcases places with same | ⟨id, same⟩
          · rw [same]
          · rw [same]
        | _ => rw [kind] at places; rw [places]
      rw [context.symm] at inside apart
      refine .within inside ?_ ?_
      · rw [context]
        exact nested.child block function module _ child
      · exact fun scope above below member => apart scope above below (fewer.subset member)
    · obtain ⟨scope, found⟩ := Option.isSome_iff_exists.mp (Bool.not_eq_false _ ▸ block)
      obtain ⟨expressions, role, kind⟩ := Expr.kind_of_blockScope? found
      have context : w.context = { v.context with scope } := by
        simpa only [ExprKind.Places, kind] using places
      obtain ⟨parent, within⟩ := nested.of_block kind
      have listed := child
      simp only [Expr.children, kind, ExprKind.children] at listed
      have here : w.context.scope = scope := by rw [context]
      refine .within (here ▸ .head parent inside) (here ▸ within _ listed) ?_
      intro other above below
      rw [here] at above
      rcases above.cases_head with rfl | ⟨parent', step, further⟩
      · exact Expr.not_mem_blockScopes kind own child
      · rw [parent] at step
        cases step
        exact fun member => apart other further below (fewer.subset member)

/-- All that is held by a visit stands in the same body, if no module is declared there. -/
theorem Stands.along (acyclic : base.ScopesAcyclic) (stands : v.Stands base body)
    (own : v.source.blockScopes.Nodup) (modules : v.source.DeclaresNoModule) (path : v.Holds w) :
    w.Stands base body := by
  have all : w.Stands base body ∧ w.source.blockScopes.Nodup ∧ w.source.DeclaresNoModule := by
    induction path with
    | refl => exact ⟨stands, own, modules⟩
    | tail _ step ih =>
      obtain ⟨entered, function⟩ := step
      obtain ⟨stands, own, modules⟩ := ih
      have child := (grows_of_enters entered).1
      refine ⟨?_, (Expr.blockScopes_sublist child).nodup own, modules.child child⟩
      exact stands.enters acyclic own entered function (modules _ (Expr.mem_nodes_self _))
  exact all.1

/-- The body of a closure that is held there lies within that body. -/
theorem Stands.around (stands : w.Stands base body) (modules : w.source.DeclaresNoModule) {d : Visit}
    (closure : w.EntersBody d) {scope : ScopeId} (found : d.source.blockScope? = some scope) :
    base.Around scope body := by
  obtain ⟨entered, attached, parameters, block, captured, old, id, opened, source, rfl⟩ := closure
  cases stands with
  | body kind _ => rw [source] at kind; cases kind
  | within inside nested _ =>
    have child : block.Nested base w.context.scope := by
      apply nested.child
      · simp [Expr.isBlock, Expr.blockScope?, source]
      · simp [Expr.kindName, ExprKind.name, source]
      · exact modules _ (Expr.mem_nodes_self _)
      · simp [Expr.children, ExprKind.children, source]
    obtain ⟨expressions, role, kind⟩ := Expr.kind_of_blockScope? found
    exact Relation.TransGen.head' (child.of_block kind).1 inside

/-- A visit that is entered within the same closure is in its body as well. -/
theorem InBody.enters (acyclic : base.ScopesAcyclic) (inBody : v.InBody base id body)
    (entered : v.Enters w) (function : v.source.kindName ≠ "function")
    (same : w.context.enclosing = v.context.enclosing) (room : w.before.closures.size ≤ 2 ^ 32) :
    w.InBody base id body := by
  obtain ⟨child, -, grown⟩ := grows_of_enters entered
  obtain ⟨frame, found, scope, declared⟩ := inBody.frame
  obtain ⟨frame', found', scope', -⟩ := grown.frames _ _ found
  obtain ⟨frame'', found'', parameters⟩ := (firm_of_enters entered).2 room _ _ found
  rw [found'] at found''
  cases found''
  refine ⟨grown.tree.parents.trans inBody.links, same.trans inBody.enclosing,
    ⟨frame', found', scope'.trans scope, ?_⟩, ?_, inBody.modules.child child, ?_⟩
  · intro name member
    rw [parameters] at member
    exact grown.tree.declared _ _ (declared name member)
  · exact (Expr.blockScopes_sublist child).nodup inBody.own
  · have module := inBody.modules _ v.source.mem_nodes_self
    exact inBody.stands.enters acyclic inBody.own entered function module

/-- A closure that is opened has a body right within the scope in which the closure stands. -/
theorem inBody_of_opens (links : v.before.tree.parentScope? = base.parentScope?)
    {attached block : Expr} {parameters : List Token} {captured : NameSet} {old : Option ClosureId}
    (source : v.source.kind = .closure attached parameters block captured old) {outer : ScopeId}
    (nested : v.source.Nested base outer) (own : v.source.blockScopes.Nodup)
    (modules : v.source.DeclaresNoModule) {scope : ScopeId} {inner : ClosureId}
    {opened : AnalysisState}
    (opens : v.Opens attached block parameters captured scope inner opened)
    (room : opened.closures.size ≤ 2 ^ 32) :
    (v.bodyVisit block inner opened).InBody base inner scope ∧
      base.parentScope? scope = some outer := by
  obtain ⟨call, s, first, found, entered⟩ := opens
  obtain ⟨handle, closures, declared⟩ := gives_enterClosure entered
  have child : block ∈ v.source.children := by
    simp [Expr.children, ExprKind.children, source]
  -- The attached call is gone over before the closure is opened, and leaves the links of the scopes
  -- alone.
  have grown : Grows (fun _ => True) v.before opened := by
    have before := grows_of_gives (v := v.attachedVisit attached) first
    have enters := (grows_preserved fun _ => True).enter v.context scope parameters captured trivial
    exact Grows.trans _ _ _ before (enters.of_gives entered)
  obtain ⟨expressions, role, kind⟩ := Expr.kind_of_blockScope? found
  have within : block.Nested base outer := by
    apply nested.child _ _ _ _ child
    · simp [Expr.isBlock, Expr.blockScope?, source]
    · simp [Expr.kindName, ExprKind.name, source]
    · exact modules _ v.source.mem_nodes_self
  obtain ⟨parent, inside⟩ := within.of_block kind
  refine ⟨⟨grown.tree.parents.trans links, rfl, ?_, ?_, modules.child child,
    .body kind inside⟩, parent⟩
  · refine ⟨_, (index_of_enterClosure entered room).2, rfl, ?_⟩
    · intro name member
      obtain ⟨token, listed, rfl⟩ := List.mem_map.mp member
      exact declared token listed
  · exact (Expr.blockScopes_sublist child).nodup own

/-- A closure that is opened within a body has a body of its own, which stands where it does. -/
theorem InBody.opens (inBody : v.InBody base id body) {attached block : Expr}
    {parameters : List Token} {captured : NameSet} {old : Option ClosureId}
    (source : v.source.kind = .closure attached parameters block captured old) {scope : ScopeId}
    {inner : ClosureId} {opened : AnalysisState}
    (opens : v.Opens attached block parameters captured scope inner opened)
    (room : opened.closures.size ≤ 2 ^ 32) :
    (v.bodyVisit block inner opened).InBody base inner scope ∧
      base.parentScope? scope = some v.context.scope := by
  cases inBody.stands with
  | body kind _ => rw [source] at kind; cases kind
  | within _ nested _ =>
    exact inBody_of_opens inBody.links source nested inBody.own inBody.modules opens room

/-- A visit in the body of a closure is in one such body only. -/
theorem InBody.unique {id' : ClosureId} {body' : ScopeId} (one : v.InBody base id body)
    (other : v.InBody base id' body') : id = id' ∧ body = body' := by
  have same := one.enclosing.symm.trans other.enclosing
  cases same
  obtain ⟨frame, found, rfl, -⟩ := one.frame
  obtain ⟨frame', found', rfl, -⟩ := other.frame
  rw [found] at found'
  cases found'
  exact ⟨rfl, rfl⟩

/-- Visits in the body of a closure enter visits in its body, or in one that lies within. -/
theorem InBody.step (acyclic : base.ScopesAcyclic) (inBody : v.InBody base id body)
    (entered : v.Enters w) (function : v.source.kindName ≠ "function")
    (room : w.before.closures.size ≤ 2 ^ 32) :
    ∃ inner scope, w.InBody base inner scope ∧ base.Inside scope body := by
  by_cases other : v.source.kindName ≠ "closure"
  · obtain ⟨-, places, -⟩ := grows_of_enters entered
    have same : w.context.enclosing = v.context.enclosing := by
      cases kind : v.source.kind with
      | functionDecl => simp [Expr.kindName, ExprKind.name, kind] at function
      | closure => simp [Expr.kindName, ExprKind.name, kind] at other
      | _ => rw [kind] at places; rw [places]
    exact ⟨id, body, inBody.enters acyclic entered function same room, .refl⟩
  · obtain ⟨attached, parameters, block, captured, old, source⟩ :=
      Expr.closure_of_kindName (not_not.mp other)
    rcases closure_enters source entered with rfl | ⟨scope, inner, opened, opens, rfl⟩
    · exact ⟨id, body, inBody.enters acyclic entered function rfl room, .refl⟩
    · obtain ⟨inBody', parent⟩ := inBody.opens source opens room
      refine ⟨inner, scope, inBody', .head parent ?_⟩
      cases inBody.stands with
      | body kind _ => rw [source] at kind; cases kind
      | within inside _ _ => exact inside

theorem Holds.reaches (path : v.Holds w) : v.Reaches w :=
  Relation.ReflTransGen.mono (fun _ _ step => step.1) _ _ path

/-- What a walk keeps is kept along the visits. -/
theorem Allowed.along {R : AnalysisState → AnalysisState → Prop} {may : Permit}
    (kept : Preserved R may) (allowed : v.Allowed may) (reached : v.Reaches w) :
    R v.before w.before := by
  have all : w.Allowed may ∧ R v.before w.before := by
    induction reached with
    | refl => exact ⟨allowed, kept.refl _⟩
    | tail _ entered ih =>
      obtain ⟨inner, -, -, further⟩ := ih.1.enters kept entered
      exact ⟨inner, kept.trans _ _ _ ih.2 further⟩
  exact all.2

/-- From the end of a visit to the end of one of which it is part, it is kept as well. -/
theorem Allowed.to_end {R : AnalysisState → AnalysisState → Prop} {may : Permit}
    (kept : Preserved R may) (allowed : v.Allowed may) (reached : v.Reaches w) {r r' : Expr}
    {t t' : AnalysisState} (left : w.Gives r t) (whole : v.Gives r' t') : R t t' := by
  induction reached using Relation.ReflTransGen.head_induction_on generalizing r' t' with
  | refl =>
    obtain ⟨-, rfl⟩ := Gives.unique left whole
    exact kept.refl t
  | head entered _ ih =>
    obtain ⟨r'', t'', left'⟩ := gives_of_enters entered whole
    have inner := (allowed.enters kept entered).1
    exact kept.trans _ _ _ (ih inner left') (allowed.leaves kept entered left' whole)

theorem mem_nodes_of_reaches (reached : v.Reaches w) : w.source ∈ v.source.nodes := by
  induction reached using Relation.ReflTransGen.head_induction_on with
  | refl => exact Expr.mem_nodes_self _
  | head entered _ ih => exact Expr.mem_nodes_of_child (grows_of_enters entered).1 ih

theorem grows_along (path : v.Holds w) : Grows (fun _ => True) v.before w.before :=
  v.allowed_everywhere.along (grows_preserved _) (Holds.reaches path)

/-- All that the body of a closure holds is in that body, or in one that lies within. -/
theorem InBody.along (acyclic : base.ScopesAcyclic) (inBody : v.InBody base id body)
    (path : v.Holds w) (room : w.before.closures.size ≤ 2 ^ 32) :
    ∃ inner scope, w.InBody base inner scope ∧ base.Inside scope body := by
  induction path with
  | refl => exact ⟨id, body, inBody, .refl⟩
  | tail _ step ih =>
    obtain ⟨entered, function⟩ := step
    have growing := (grows_of_enters entered).2.2
    obtain ⟨inner, scope, inBody', inside⟩ :=
      ih (Nat.le_trans growing.frames.size_le room)
    obtain ⟨inner', scope', inBody'', inside'⟩ := inBody'.step acyclic entered function room
    exact ⟨inner', scope', inBody'', inside'.trans inside⟩

end Visit
end ShellSema
