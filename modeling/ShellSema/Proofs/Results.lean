import ShellSema.Proofs.Courses

/-!
# Where the nodes of a result come from

The tree that a walk gives is put together from what its visits give, from the left side of a pipe
that is handed over, and from a few nodes that are made up on the way. A statement about all nodes
of an analysed tree is proved for these, and `Composes.all_of_gives` spreads it over the tree. It may
leave out what stands below some nodes, such as the functions that the walk does not go into. Where it
says nothing about blocks, `Spreads` is enough.
-/
namespace ShellSema

/-- The expression, which stands in the first scope, contains the node, which stands in the second
one. -/
inductive Expr.Contains : ScopeId → Expr → ScopeId → Expr → Prop where
  | self {outer : ScopeId} {e : Expr} : Contains outer e outer e
  | inner {outer place : ScopeId} {e c n : Expr} (child : c ∈ e.children)
      (inside : Contains (e.scopeWithin outer) c place n) : Contains outer e place n

/-- Every node of the tree is as wanted in the scope in which it stands. -/
def Expr.AllIn (wanted : ScopeId → Expr → Prop) (outer : ScopeId) (e : Expr) : Prop :=
  ∀ place n, Contains outer e place n → wanted place n

theorem Expr.Contains.mem_nodes {outer place : ScopeId} {e n : Expr}
    (contains : Contains outer e place n) : n ∈ e.nodes := by
  induction contains with
  | self => exact Expr.mem_nodes_self _
  | inner child _ ih => exact Expr.mem_nodes_of_child child ih

/-- Every node of a tree stands somewhere in it. -/
theorem Expr.contains_of_mem_nodes {e n : Expr} (inside : n ∈ e.nodes) (outer : ScopeId) :
    ∃ place, Contains outer e place n := by
  induction e using Expr.induction generalizing outer with
  | inherited e ih =>
    rcases Expr.mem_nodes.mp inside with rfl | ⟨c, child, deeper⟩
    · exact ⟨outer, .self⟩
    · obtain ⟨place, found⟩ := ih c child deeper (e.scopeWithin outer)
      exact ⟨place, .inner child found⟩

/-! ### Trees that end early -/

/-- The expression contains the node, and the way to it leads below no node at which the tree is
said to end. -/
inductive Expr.ContainsAbove (ends : Expr → Prop) : ScopeId → Expr → ScopeId → Expr → Prop where
  | self {outer : ScopeId} {e : Expr} : ContainsAbove ends outer e outer e
  | inner {outer place : ScopeId} {e c n : Expr} (goes : ¬ ends e) (child : c ∈ e.children)
      (inside : ContainsAbove ends (e.scopeWithin outer) c place n) : ContainsAbove ends outer e place n

/-- Every node of the tree is as wanted in the scope in which it stands, but for those below the
nodes at which the tree is said to end. -/
def Expr.AllAbove (ends : Expr → Prop) (wanted : ScopeId → Expr → Prop) (outer : ScopeId)
    (e : Expr) : Prop :=
  ∀ place n, ContainsAbove ends outer e place n → wanted place n

theorem Expr.allAbove_iff {ends : Expr → Prop} {wanted : ScopeId → Expr → Prop} {outer : ScopeId}
    {e : Expr} :
    AllAbove ends wanted outer e ↔ wanted outer e ∧
      (¬ ends e → ∀ c ∈ e.children, AllAbove ends wanted (e.scopeWithin outer) c) := by
  constructor
  · intro all
    refine ⟨all outer e .self, ?_⟩
    intro goes c child place n inside
    exact all place n (.inner goes child inside)
  · rintro ⟨self, below⟩ place n inside
    cases inside with
    | self => exact self
    | inner goes child deeper => exact below goes _ child place n deeper

theorem Expr.ContainsAbove.trans {ends : Expr → Prop} {outer middle place : ScopeId} {e c n : Expr}
    (first : ContainsAbove ends outer e middle c) (rest : ContainsAbove ends middle c place n) :
    ContainsAbove ends outer e place n := by
  induction first with
  | self => exact rest
  | inner goes child _ ih => exact .inner goes child (ih rest)

/-- What is known of a tree is known of every tree in it. -/
theorem Expr.AllAbove.within {ends : Expr → Prop} {wanted : ScopeId → Expr → Prop}
    {outer place : ScopeId} {e n : Expr} (all : AllAbove ends wanted outer e)
    (inside : ContainsAbove ends outer e place n) : AllAbove ends wanted place n :=
  fun _ _ deeper => all _ _ (inside.trans deeper)

/-- A node without parts is as wanted if it is so itself. -/
theorem Expr.allAbove_leaf {ends : Expr → Prop} {wanted : ScopeId → Expr → Prop} {outer : ScopeId}
    {e : Expr} (self : wanted outer e) (leaf : e.children = []) : AllAbove ends wanted outer e :=
  Expr.allAbove_iff.mpr ⟨self, by simp [leaf]⟩

/-- A tree that does not end early is the whole tree. -/
theorem Expr.allAbove_none {wanted : ScopeId → Expr → Prop} {outer : ScopeId} {e : Expr} :
    AllAbove (fun _ => False) wanted outer e ↔ AllIn wanted outer e := by
  have contains {outer place : ScopeId} {e n : Expr} :
      ContainsAbove (fun _ => False) outer e place n ↔ Contains outer e place n := by
    constructor
    · intro inside
      induction inside with
      | self => exact .self
      | inner _ child _ ih => exact .inner child ih
    · intro inside
      induction inside with
      | self => exact .self
      | inner child _ ih => exact .inner not_false child ih
  simp only [AllAbove, AllIn, contains]

/-! ### Nodes that change after their visit -/

/-- The change of a call is one of how it is run; a reference stays one. -/
def Call.OnlyMode (change : Call → Call) : Prop :=
  ∀ made, ∃ mode : CallMode, change made = { made with mode } ∧
    mode.isReference = made.mode.isReference

theorem Expr.children_mapCall {change : Call → Call} (only : Call.OnlyMode change) (e : Expr) :
    (e.mapCall change).children = e.children := by
  unfold Expr.mapCall
  split
  next made same =>
    obtain ⟨mode, changed, -⟩ := only made
    simp [Expr.children, ExprKind.children, Call.children, same, changed]
  next => rfl

theorem Expr.scopeWithin_mapCall {change : Call → Call} (outer : ScopeId) (e : Expr) :
    (e.mapCall change).scopeWithin outer = e.scopeWithin outer := by
  unfold Expr.mapCall
  split
  next made same => simp [scopeWithin, blockScope?, same]
  next => rfl

theorem Expr.kindName_mapCall (change : Call → Call) (e : Expr) :
    (e.mapCall change).kindName = e.kindName := by
  unfold mapCall
  split
  next made kind => simp [kindName, ExprKind.name, kind]
  next => rfl

theorem Expr.mapCall_of_name {change : Call → Call} {e : Expr} (other : e.kindName ≠ "call") :
    e.mapCall change = e := by
  unfold Expr.mapCall
  split
  next made kind => simp [kindName, ExprKind.name, kind] at other
  next => rfl

theorem Call.onlyMode_id : Call.OnlyMode id := fun made => ⟨made.mode, by cases made; rfl, rfl⟩

theorem Expr.mapCall_id (e : Expr) : e.mapCall id = e := by
  obtain ⟨kind, span, isRoot, enclosing⟩ := e
  cases kind <;> rfl

/-- The left side of a pipe is told by whom it is read. -/
theorem Walk.tellReader_eq (callee : Callee) (left : Expr) :
    ∃ change, Call.OnlyMode change ∧ Walk.tellReader callee left = left.mapCall change := by
  refine ⟨_, fun made => ?_, rfl⟩
  dsimp only
  split
  · exact ⟨_, rfl, rfl⟩
  · exact ⟨made.mode, by cases made; rfl, rfl⟩

/-- The left side of a pipe is told what of it is read. -/
theorem Walk.redirect_eq {op : BinaryOp} {redirection : Redirection} {left told : Expr}
    {s t : AnalysisState} (given : Gives (Walk.redirect op redirection left) s told t) :
    ∃ change, Call.OnlyMode change ∧ told = left.mapCall change := by
  unfold Walk.redirect at given
  split at given
  · obtain ⟨rfl, -⟩ := gives_pure.mp given
    refine ⟨_, ?_, rfl⟩
    exact fun made => ⟨_, rfl, rfl⟩
  split at given
  · obtain ⟨rfl, -⟩ := gives_pure.mp given
    exact ⟨id, Call.onlyMode_id, (Expr.mapCall_id _).symm⟩
  · exact (gives_fail.mp given).elim

/-- Some callees start the processes among their arguments. -/
theorem Walk.holdProcesses_eq (callee : Callee) (es : List Expr) :
    ∃ change, Call.OnlyMode change ∧ Walk.holdProcesses callee es = es.map (Expr.mapCall change) := by
  unfold Walk.holdProcesses
  split
  · refine ⟨_, ?_, rfl⟩
    exact fun made => ⟨_, rfl, rfl⟩
  · have same : Expr.mapCall id = id := funext Expr.mapCall_id
    exact ⟨id, Call.onlyMode_id, by rw [same, List.map_id]⟩

theorem Expr.kind_of_call? {e : Expr} {made : Call} (called : e.call? = some made) :
    e.kind = .call made := by
  unfold call? at called
  split at called
  next kind =>
    cases called
    exact kind
  next => cases called

theorem Call.OnlyMode.comp {first second : Call → Call} (only : Call.OnlyMode first)
    (only' : Call.OnlyMode second) : Call.OnlyMode (second ∘ first) := by
  intro made
  obtain ⟨mode, changed, same⟩ := only made
  obtain ⟨mode', changed', same'⟩ := only' (first made)
  refine ⟨mode', ?_, by rw [same', changed]; exact same⟩
  rw [Function.comp_apply, changed', changed]

theorem Expr.mapCall_mapCall (first second : Call → Call) (e : Expr) :
    (e.mapCall first).mapCall second = e.mapCall (second ∘ first) := by
  obtain ⟨kind, span, isRoot, enclosing⟩ := e
  cases kind <;> rfl

/-- What is piped into a call and what it is called with, as the call holds it in the end: each was
given to it, and may have been told since how it is run. -/
theorem Walk.placed_of_mem {callee : Callee} {piped : Option Expr} {arguments : List Expr} {e : Expr}
    (member : e ∈ (Walk.placePiped callee piped arguments).2.toList ++
      Walk.holdProcesses callee (Walk.placePiped callee piped arguments).1) :
    ∃ old change, (piped = some old ∨ old ∈ arguments) ∧ Call.OnlyMode change ∧
      e = old.mapCall change := by
  obtain ⟨hold, held, same⟩ := Walk.holdProcesses_eq callee (Walk.placePiped callee piped arguments).1
  rw [same] at member
  cases piped with
  | none =>
    obtain ⟨old, inside, rfl⟩ : ∃ old ∈ arguments, old.mapCall hold = e := by
      simpa [Walk.placePiped] using member
    exact ⟨old, hold, .inr inside, held, rfl⟩
  | some left =>
    -- The piped expression stands in front of the arguments or apart from them. Its mode may be
    -- changed on the way, and so may theirs.
    obtain ⟨tell, told, same'⟩ := Walk.tellReader_eq callee left
    simp only [Walk.placePiped, same'] at member
    split at member
    · simp only [Option.toList_some, List.cons_append, List.nil_append, List.mem_cons,
        List.mem_map] at member
      rcases member with rfl | ⟨old, inside, rfl⟩
      · exact ⟨left, tell, .inl rfl, told, rfl⟩
      · exact ⟨old, hold, .inr inside, held, rfl⟩
    · simp only [Option.toList_none, List.nil_append, List.map_cons, List.mem_cons,
        List.mem_map] at member
      rcases member with rfl | ⟨old, inside, rfl⟩
      · exact ⟨left, hold ∘ tell, .inl rfl, told.comp held, Expr.mapCall_mapCall _ _ _⟩
      · exact ⟨old, hold, .inr inside, held, rfl⟩

/-- The body of a closure stays as it is, unless it is a block of one bare reference. Then the
reference becomes a call with made-up arguments before its own. -/
inductive Walk.Expands (id : ClosureId) (scope : ScopeId) (attached : Call) (s : AnalysisState)
    (parameters : List Token) (body : Expr) : List Token × Expr → Prop where
  | plain (none : Walk.reference? body = none) :
    Expands id scope attached s parameters body (parameters, body)
  | bare {e : Expr} {reference : Call} {names : List String} {r : AnalysisState}
      (found : Walk.reference? body = some (e, reference))
      (named : Gives (Walk.impliedNames attached) s names r) :
      Expands id scope attached s parameters body (names.map (Walk.impliedParameter reference.name),
        Walk.replaceOnly body { e with kind := .call (Walk.expandedCall id scope
          (names.map (Walk.impliedParameter reference.name)) reference) })

theorem Walk.expands_of_gives {id : ClosureId} {scope : ScopeId} {attached : Call}
    {parameters : List Token} {body : Expr} {result : List Token × Expr} {s t : AnalysisState}
    (given : Gives (Walk.expandReference id attached scope parameters body) s result t) :
    Walk.Expands id scope attached s parameters body result := by
  unfold Walk.expandReference at given
  split at given
  next none =>
    obtain ⟨rfl, -⟩ := gives_pure.mp given
    exact .plain none
  next e reference found =>
    simp only [gives_bind, gives_pure] at given
    obtain ⟨names, r, named, -, -, -, -, -, -, rfl, -⟩ := given
    exact .bare found named

/-- The expansion of a bare reference leaves the body the block it is. -/
theorem Walk.Expands.blockScope {id : ClosureId} {scope : ScopeId} {attached : Call}
    {s : AnalysisState} {parameters : List Token} {body : Expr} {result : List Token × Expr}
    (expands : Walk.Expands id scope attached s parameters body result) :
    result.2.blockScope? = body.blockScope? := by
  cases expands with
  | plain none => rfl
  | bare found named =>
    obtain ⟨⟨role, blockScope, block⟩, -⟩ := reference?_eq_some found
    simp [Walk.replaceOnly, Expr.blockScope?, block]

/-- What has to be shown of single nodes other than blocks, where they stand, to know it of all nodes of
a result, down to where it is said to end. -/
structure OffBlocks (visited : Visit → Prop) (ends : Expr → Prop) (wanted : ScopeId → Expr → Prop) :
    Prop where
  /-- A result ends at functions only. -/
  ending : ∀ e, ends e → e.kindName = "function"
  /-- What a visit makes itself. A pipe gives what the visit of its right side made. -/
  made : ∀ v r t, visited v → v.Gives r t → v.source.isPipe = false → wanted v.context.scope r
  mode : ∀ place (e : Expr) change, Call.OnlyMode change → wanted place e →
    wanted place (e.mapCall change)
  fragment : ∀ place context token span text,
    wanted place (fragmentArgument context token span text)
  /-- An argument made up for a reference, when the visit of its closure ends. -/
  implied : ∀ v r t attached id scope parameters body e reference s result, visited v →
    v.Gives r t → Gives (Walk.expandReference id attached scope parameters body) s result t →
      Walk.reference? body = some (e, reference) → ∀ parameter ∈ result.1, ∀ place,
        wanted place (Walk.impliedArgument id scope parameter)
  /-- The call of the body of a closure, when it was a bare reference. -/
  expanded : ∀ outer place (call e : Expr) (attached reference : Call) (names : List String) id scope
    s t, wanted outer call → call.call? = some attached → Gives (Walk.impliedNames attached) s names t →
      wanted place e → e.kind = .call reference → reference.mode.isReference = true →
        wanted place { e with kind := .call (Walk.expandedCall id scope
          (names.map (Walk.impliedParameter reference.name)) reference) }
  /-- What was analysed before, unless the result ends there. -/
  skipped : ∀ v r t, visited v → v.Skips → v.Gives r t → ¬ ends r →
    ∀ c ∈ v.source.children, c.AllAbove ends wanted v.context.scope

/-- What has to be shown of single nodes to know it of all nodes of a result. -/
structure Composes (visited : Visit → Prop) (ends : Expr → Prop) (wanted : ScopeId → Expr → Prop) :
    Prop extends OffBlocks visited ends wanted where
  /-- A block has a scope of its own, so it may stand in any other. -/
  moved : ∀ place other (e : Expr), e.isBlock = true → wanted place e → wanted other e
  /-- The body of a closure, when its only expression is expanded. -/
  replaced : ∀ place (body e : Expr) reference made role scope, body.kind = .block [e] role scope →
    e.kind = .call reference → wanted place body →
      wanted place (Walk.replaceOnly body { e with kind := .call made })

namespace Composes

variable {visited : Visit → Prop} {ends : Expr → Prop} {wanted : ScopeId → Expr → Prop}
  (composes : Composes visited ends wanted) {place : ScopeId}

include composes

theorem goes {e : Expr} (other : e.kindName ≠ "function") : ¬ ends e :=
  fun ended => other (composes.ending e ended)

theorem all_mapCall {e : Expr} {change : Call → Call} (only : Call.OnlyMode change)
    (all : e.AllAbove ends wanted place) : (e.mapCall change).AllAbove ends wanted place := by
  by_cases call : e.kindName = "call"
  · obtain ⟨self, below⟩ := Expr.allAbove_iff.mp all
    have goes : ¬ ends e := composes.goes (by rw [call]; decide)
    refine Expr.allAbove_iff.mpr ⟨composes.mode place e change only self, fun _ => ?_⟩
    rw [Expr.children_mapCall only, Expr.scopeWithin_mapCall]
    exact below goes
  · rwa [Expr.mapCall_of_name call]

theorem all_redirect {op : BinaryOp} {redirection : Redirection} {left told : Expr}
    {s t : AnalysisState} (given : Gives (Walk.redirect op redirection left) s told t)
    (all : left.AllAbove ends wanted place) : told.AllAbove ends wanted place := by
  obtain ⟨change, only, rfl⟩ := Walk.redirect_eq given
  exact composes.all_mapCall only all

theorem all_placePiped {callee : Callee} {piped : Option Expr} {arguments : List Expr}
    (attached : ∀ left, piped = some left → left.AllAbove ends wanted place)
    (all : ∀ e ∈ arguments, e.AllAbove ends wanted place) :
    ∀ e ∈ (Walk.placePiped callee piped arguments).2.toList ++
      Walk.holdProcesses callee (Walk.placePiped callee piped arguments).1,
        e.AllAbove ends wanted place := by
  intro e member
  obtain ⟨old, change, placed, only, rfl⟩ := Walk.placed_of_mem member
  rcases placed with piped | inside
  · exact composes.all_mapCall only (attached old piped)
  · exact composes.all_mapCall only (all old inside)

/-- A block has its own scope, so it does not matter where it stands. -/
theorem all_block {e : Expr} (block : e.isBlock = true) (all : e.AllAbove ends wanted place)
    (other : ScopeId) : e.AllAbove ends wanted other := by
  obtain ⟨scope, found⟩ := Option.isSome_iff_exists.mp block
  rw [Expr.allAbove_iff] at all ⊢
  refine ⟨composes.moved place other e block all.1, ?_⟩
  rw [Expr.scopeWithin, found, Option.getD_some] at all ⊢
  exact all.2

/-- The body of a closure, after a bare reference in it is expanded. -/
theorem all_expandReference {v : Visit} (reached : visited v) {r call body : Expr} {attached : Call}
    {id : ClosureId} {outer scope : ScopeId} {parameters : List Token} {result : List Token × Expr}
    {s t : AnalysisState} (visits : v.Gives r t) (called : wanted outer call)
    (isCall : call.call? = some attached) (all : body.AllAbove ends wanted place)
    (given : Gives (Walk.expandReference id attached scope parameters body) s result t) :
    result.2.AllAbove ends wanted place := by
  cases Walk.expands_of_gives given with
  | plain none => exact all
  | @bare e reference names r found named =>
    have implied := composes.implied v _ t attached id scope parameters body e reference s _ reached
      visits given found
    obtain ⟨⟨role, blockScope, block⟩, kind, bare⟩ := reference?_eq_some found
    -- The reference is the only expression in the body, so it stands in the scope of the body.
    have inside : e.AllAbove ends wanted blockScope := by
      have goes : ¬ ends body := composes.goes (by simp [Expr.kindName, ExprKind.name, block])
      have below := (Expr.allAbove_iff.mp all).2 goes e
      simp only [Expr.scopeWithin, Expr.blockScope?, Expr.children, block, ExprKind.children,
        Option.getD_some] at below
      exact below List.mem_cons_self
    obtain ⟨self, below⟩ := Expr.allAbove_iff.mp inside
    have below := below (composes.goes (by simp [Expr.kindName, ExprKind.name, kind]))
    simp only [Expr.children, Expr.scopeWithin, Expr.blockScope?, kind, ExprKind.children,
      Call.children, List.forall_mem_append, Option.getD_none] at below
    -- The made-up arguments join those parts of the reference that were there before.
    have whole : Expr.AllAbove ends wanted blockScope { e with kind := .call (Walk.expandedCall id scope
        (names.map (Walk.impliedParameter reference.name)) reference) } := by
      refine Expr.allAbove_iff.mpr ⟨composes.expanded outer blockScope call e attached reference names
        id scope s _ called isCall named self kind bare, fun _ => ?_⟩
      simp only [Expr.children, Expr.scopeWithin, Expr.blockScope?, ExprKind.children, Call.children,
        Walk.expandedCall, List.forall_mem_append, Option.getD_none]
      refine ⟨⟨below.1.1, ?_, below.1.2⟩, below.2⟩
      intro argument member
      obtain ⟨parameter, made, rfl⟩ := List.mem_map.mp member
      exact Expr.allAbove_leaf (implied parameter made blockScope) rfl
    have body := (Expr.allAbove_iff.mp all).1
    refine Expr.allAbove_iff.mpr
      ⟨composes.replaced place _ e reference _ role blockScope block kind body, fun _ => ?_⟩
    · simpa [Walk.replaceOnly, block, Expr.children, ExprKind.children, Expr.scopeWithin,
        Expr.blockScope?] using whole

/-- What holds of the nodes that visits make holds of all nodes of what the visits give. -/
theorem all_of_gives (inner : ∀ v w, visited v → v.Enters w → visited w) {v : Visit}
    (reached : visited v)
    (attached : ∀ left, v.slot.piped = some left → left.AllAbove ends wanted v.context.scope)
    {r : Expr} {t : AnalysisState} (given : v.Gives r t) :
    r.AllAbove ends wanted v.context.scope := by
  induction same : v.source using Expr.induction generalizing v r t with
  | inherited e ih =>
    subst same
    have passes {context : Context} {slot : Slot} {e r : Expr} (passes : v.Passes context slot e r)
        (attached : ∀ left, slot.piped = some left → left.AllAbove ends wanted context.scope) :
        r.AllAbove ends wanted context.scope := by
      obtain ⟨before, after, entered, given⟩ := passes
      exact ih e (Visit.mem_children_of_enters entered) (inner v _ reached entered) attached given rfl
    have part {context : Context} {e r : Expr} (part : v.Part context e r) :
        r.AllAbove ends wanted context.scope := by
      obtain ⟨slot, plain, passed⟩ := part
      exact passes passed (by simp [Slot.piped, plain])
    have list {es rs : List Expr} (parts : List.Forall₂ (v.Part v.context) es rs) :
        ∀ r ∈ rs, r.AllAbove ends wanted v.context.scope :=
      forall_of_forall₂ parts fun _ _ => part
    -- All but the result of a pipe is made by the visit itself, and what is left are its parts.
    have whole (pipe : v.source.isPipe = false) (below : ¬ ends r →
        ∀ c ∈ r.children, c.AllAbove ends wanted (r.scopeWithin v.context.scope)) :
        r.AllAbove ends wanted v.context.scope :=
      Expr.allAbove_iff.mpr ⟨composes.made v r t reached given pipe, below⟩
    cases Visit.course_of_gives given with
    | pipe source redirects first redirected rest =>
      -- The left side is handed to the right side, which makes the result.
      have told := composes.all_redirect redirected (part first)
      exact passes rest (by rintro _ ⟨⟩; exact told)
    | call source argumentParts valueParts kind =>
      refine whole (by simp [Expr.isPipe, source]) fun _ => ?_
      simp only [Expr.children, Expr.scopeWithin, Expr.blockScope?, kind, ExprKind.children,
        Call.children, Option.getD_none]
      exact List.forall_mem_append.mpr
        ⟨composes.all_placePiped attached (list argumentParts), list valueParts⟩
    | constant source means kind =>
      exact whole (by simp [Expr.isPipe, source]) (by simp [Expr.children, ExprKind.children, kind])
    | @fragment token code old source means kind =>
      refine whole (by simp [Expr.isPipe, source]) fun _ => ?_
      have arguments (text : String) : Expr.AllAbove ends wanted v.context.scope
          (fragmentArgument v.context token v.source.span text) :=
        Expr.allAbove_leaf (composes.fragment v.context.scope v.context token v.source.span text) rfl
      simp [Expr.children, ExprKind.children, kind, fragmentCall, Call.children, Call.plain, arguments,
        Expr.scopeWithin, Expr.blockScope?]
    | closure source called isCall block walked expanded kind =>
      -- What is attached goes to the call of the closure.
      have called := passes called attached
      have body := composes.all_expandReference reached given (Expr.allAbove_iff.mp called).1 isCall
        (part walked) expanded
      refine whole (by simp [Expr.isPipe, source]) fun _ => ?_
      simp only [Expr.children, Expr.scopeWithin, Expr.blockScope?, kind, ExprKind.children,
        Option.getD_none]
      exact List.forall_mem_cons.mpr ⟨called, List.forall_mem_singleton.mpr body⟩
    | skipped skips kind =>
      obtain ⟨access, name, parameters, body, module, takesClosure, id, f, source, -⟩ := id skips
      refine whole (by simp [Expr.isPipe, source]) fun goes => ?_
      have scope : r.scopeWithin v.context.scope = v.context.scope := by
        simp [Expr.scopeWithin, Expr.blockScope?, kind, source]
      rw [scope, Expr.children, kind]
      exact composes.skipped v r t reached skips given goes
    | parts named pipe call literal closure met inner =>
      refine whole pipe fun _ => forall_of_forall₂ inner ?_
      rintro e r' ⟨context, scope | block, inner⟩
      · rw [← scope]
        exact part inner
      · -- The body of a function is a block, so its scope is its own.
        exact composes.all_block (inner.isBlock block) (part inner) _

end Composes

/-- What has to be shown of single nodes if nothing is said about blocks. -/
structure Spreads (visited : Visit → Prop) (ends : Expr → Prop) (wanted : ScopeId → Expr → Prop) :
    Prop extends OffBlocks visited ends wanted where
  block : ∀ place (e : Expr), e.isBlock = true → wanted place e

/-- A block is as wanted wherever it stands and whatever stands in it. -/
theorem Spreads.composes {visited : Visit → Prop} {ends : Expr → Prop}
    {wanted : ScopeId → Expr → Prop} (spreads : Spreads visited ends wanted) :
    Composes visited ends wanted :=
  { spreads with
    moved := fun _ other e block _ => spreads.block other e block
    replaced := fun place body e _ made role scope kind _ _ =>
      spreads.block place _ (by simp [Walk.replaceOnly, kind, Expr.isBlock, Expr.blockScope?]) }

end ShellSema
