import ShellSema.Proofs.ClosureNumbers
import ShellSema.Proofs.Counts
import ShellSema.Proofs.Surroundings

/-!
# What encloses a node

A node of an analysed tree is linked to the function or closure in whose body it stands, to the
innermost one if it stands in several. The defaults of a function do not stand in its body, and the
call to which a closure is attached does not stand in the closure. Each visit marks its own result;
what is put into a tree besides the results of visits is made up where it comes to stand.
-/
namespace ShellSema

/-- The parts of a node, each with the function or closure whose body is the innermost one around it. -/
def Expr.partsWithin (around : Option Enclosing) (e : Expr) : List (Option Enclosing × Expr) :=
  match e.kind with
  | .functionDecl _ _ parameters body _ _ id =>
    (parameters.flatMap Parameter.children).map (around, ·) ++ [(some (.function id), body)]
  | .closure attached _ body _ id => [(around, attached), (id.map .closure, body)]
  | _ => e.children.map (around, ·)

/-- The expression, which stands in the first body, contains the node, which stands in the second. -/
inductive Expr.LiesWithin : Option Enclosing → Expr → Option Enclosing → Expr → Prop where
  | self {around : Option Enclosing} {e : Expr} : LiesWithin around e around e
  | inner {around within innermost : Option Enclosing} {e c n : Expr}
      (part : (within, c) ∈ e.partsWithin around) (deeper : LiesWithin within c innermost n) :
      LiesWithin around e innermost n

/-- Wherever a node occurs in the tree, it is linked to the innermost body around it. -/
def Expr.Linked (around : Option Enclosing) (e : Expr) : Prop :=
  ∀ innermost n, LiesWithin around e innermost n → n.enclosing = innermost

section Linking

variable {around : Option Enclosing} {e : Expr}

theorem Expr.partsWithin_other (closure : e.kindName ≠ "closure") (function : e.kindName ≠ "function") :
    e.partsWithin around = e.children.map (around, ·) := by
  unfold partsWithin
  split
  next kind => simp [kindName, ExprKind.name, kind] at function
  next kind => simp [kindName, ExprKind.name, kind] at closure
  next => rfl

/-- The parts of a node are its children. -/
theorem Expr.partsWithin_snd : (e.partsWithin around).map Prod.snd = e.children := by
  unfold partsWithin children
  split
  next kind => simp [kind, ExprKind.children, Function.comp_def]
  next kind => simp [kind, ExprKind.children]
  next => simp [Function.comp_def]

/-- Each node of a tree stands somewhere in it. -/
theorem Expr.exists_liesWithin {n : Expr} (inside : n ∈ e.nodes) (around : Option Enclosing) :
    ∃ innermost, LiesWithin around e innermost n := by
  induction e using Expr.induction generalizing around with
  | inherited e ih =>
    rcases Expr.mem_nodes.mp inside with rfl | ⟨c, child, deeper⟩
    · exact ⟨around, .self⟩
    · rw [← @Expr.partsWithin_snd around e] at child
      obtain ⟨⟨within, c⟩, part, rfl⟩ := List.mem_map.mp child
      have child : c ∈ e.children := Expr.partsWithin_snd ▸ List.mem_map_of_mem part
      obtain ⟨innermost, found⟩ := ih c child deeper within
      exact ⟨innermost, .inner part found⟩

/-- A node of a linked tree stands in the body to which it is linked, and in no other. -/
theorem Expr.Linked.liesWithin_iff (linked : e.Linked around) {n : Expr} (inside : n ∈ e.nodes)
    (innermost : Option Enclosing) : LiesWithin around e innermost n ↔ n.enclosing = innermost := by
  constructor
  · exact linked innermost n
  · rintro rfl
    obtain ⟨innermost, found⟩ := Expr.exists_liesWithin inside around
    rwa [linked innermost n found]

theorem Expr.linked_iff :
    e.Linked around ↔ e.enclosing = around ∧
      ∀ within c, (within, c) ∈ e.partsWithin around → c.Linked within := by
  constructor
  · intro linked
    refine ⟨linked around e .self, fun within c part innermost n deeper => ?_⟩
    exact linked innermost n (.inner part deeper)
  · rintro ⟨self, below⟩ innermost n inside
    cases inside with
    | self => exact self
    | inner part deeper => exact below _ _ part innermost n deeper

theorem Expr.linked_leaf (self : e.enclosing = around) (leaf : e.children = []) : e.Linked around := by
  refine Expr.linked_iff.mpr ⟨self, fun within c part => ?_⟩
  have child : c ∈ e.children := Expr.partsWithin_snd ▸ List.mem_map_of_mem part
  rw [leaf] at child
  exact absurd child List.not_mem_nil

theorem Expr.linked_other (closure : e.kindName ≠ "closure") (function : e.kindName ≠ "function") :
    e.Linked around ↔ e.enclosing = around ∧ ∀ c ∈ e.children, c.Linked around := by
  rw [Expr.linked_iff]
  simp only [Expr.partsWithin_other closure function, List.mem_map, Prod.mk.injEq]
  refine and_congr_right fun _ => ⟨fun all c child => all _ c ⟨c, child, rfl, rfl⟩, ?_⟩
  rintro all within c ⟨_, child, rfl, rfl⟩
  exact all _ child

/-! ### Nodes that change after their visit -/

theorem Expr.enclosing_mapCall (change : Call → Call) (e : Expr) :
    (e.mapCall change).enclosing = e.enclosing := by
  unfold Expr.mapCall
  split <;> rfl

theorem Expr.Linked.mapCall {change : Call → Call} (only : Call.OnlyMode change)
    (linked : e.Linked around) : (e.mapCall change).Linked around := by
  by_cases call : e.kindName = "call"
  · have named : (e.mapCall change).kindName = "call" := by rw [Expr.kindName_mapCall, call]
    rw [Expr.linked_other (by simp [call]) (by simp [call])] at linked
    rw [Expr.linked_other (by simp [named]) (by simp [named]), Expr.children_mapCall only,
      Expr.enclosing_mapCall]
    exact linked
  · rwa [Expr.mapCall_of_name call]

/-- The body of a closure, after a bare reference in it is expanded: the made-up arguments are linked
to the closure. -/
theorem Expr.Linked.expanded {id : ClosureId} {scope : ScopeId} {attached : Call} {s : AnalysisState}
    {parameters : List Token} {body : Expr} {result : List Token × Expr}
    (linked : body.Linked (some (.closure id)))
    (expands : Walk.Expands id scope attached s parameters body result) :
    result.2.Linked (some (.closure id)) := by
  cases expands with
  | plain none => exact linked
  | @bare e reference names r found named =>
    obtain ⟨⟨role, blockScope, block⟩, kind, -⟩ := reference?_eq_some found
    rw [Expr.linked_other (by simp [Expr.kindName, ExprKind.name, block])
      (by simp [Expr.kindName, ExprKind.name, block])] at linked
    have inside := linked.2 e (by simp [Expr.children, ExprKind.children, block])
    rw [Expr.linked_other (by simp [Expr.kindName, ExprKind.name, kind])
      (by simp [Expr.kindName, ExprKind.name, kind])] at inside
    -- The reference and its own parts stay where they are; only leaves are put in.
    have call (parameters : List Token) : Expr.Linked (some (.closure id))
        { e with kind := .call (Walk.expandedCall id scope parameters reference) } := by
      rw [Expr.linked_other (by simp [Expr.kindName, ExprKind.name])
        (by simp [Expr.kindName, ExprKind.name])]
      refine ⟨inside.1, ?_⟩
      have below := inside.2
      simp only [Expr.children, kind, ExprKind.children, Call.children, Walk.expandedCall,
        List.forall_mem_append] at below ⊢
      refine ⟨⟨below.1.1, ?_, below.1.2⟩, below.2⟩
      intro argument member
      obtain ⟨parameter, -, rfl⟩ := List.mem_map.mp member
      exact Expr.linked_leaf rfl rfl
    have replaced (e : Expr) : (Walk.replaceOnly body e).kind = .block [e] role blockScope ∧
        (Walk.replaceOnly body e).enclosing = body.enclosing := by
      simp [Walk.replaceOnly, block]
    obtain ⟨kind, same⟩ := replaced { e with kind := .call (Walk.expandedCall id scope
      (names.map (Walk.impliedParameter reference.name)) reference) }
    rw [Expr.linked_other (by simp [Expr.kindName, ExprKind.name, kind])
      (by simp [Expr.kindName, ExprKind.name, kind]), same]
    refine ⟨linked.1, ?_⟩
    simpa [Expr.children, ExprKind.children, kind] using call _

end Linking

/-! ### Along a walk -/

namespace Visit

variable {v : Visit} {r : Expr} {t : AnalysisState}

/-- What a visit gives is linked as it should be where the visit stands, if what is piped into it is. -/
theorem linked_of_gives (fresh : v.Fresh) (given : v.Gives r t)
    (piped : ∀ left, v.slot.piped = some left → left.Linked v.context.enclosing) :
    r.Linked v.context.enclosing := by
  induction source : v.source using Expr.induction generalizing v r t with
  | inherited e ih =>
    subst source
    have marked : r.enclosing = v.context.enclosing := enclosing_of_gives given
    have enters {w : Visit} {r : Expr} {t : AnalysisState} (entered : v.Enters w) (left : w.Gives r t)
        (piped : ∀ left, w.slot.piped = some left → left.Linked w.context.enclosing) :
        r.Linked w.context.enclosing :=
      ih w.source (mem_children_of_enters entered) (fresh.enters entered) left piped rfl
    have part {context : Context} {e r : Expr} (part : v.Part context e r) :
        r.Linked context.enclosing := by
      obtain ⟨slot, plain, before, after, entered, left⟩ := part
      exact enters entered left (by simp [Slot.piped, plain])
    have list {es rs : List Expr} (parts : List.Forall₂ (v.Part v.context) es rs) :
        ∀ r ∈ rs, r.Linked v.context.enclosing :=
      forall_of_forall₂ parts fun _ _ => part
    cases course_of_gives given with
    | pipe _ _ first redirected rest =>
      -- A pipe leaves no node of its own. Its left side stands in what the right side gives.
      obtain ⟨change, only, rfl⟩ := Walk.redirect_eq redirected
      obtain ⟨before, after, entered, left⟩ := rest
      have told := (part first).mapCall only
      have second := enters entered left fun _ same => Option.some.inj same ▸ told
      exact second
    | call _ arguments values kind =>
      rw [Expr.linked_other (by simp [Expr.kindName, ExprKind.name, kind])
        (by simp [Expr.kindName, ExprKind.name, kind])]
      refine ⟨marked, ?_⟩
      simp only [Expr.children, kind, ExprKind.children, Call.children]
      refine List.forall_mem_append.mpr ⟨fun e member => ?_, list values⟩
      obtain ⟨old, change, placed, only, rfl⟩ := Walk.placed_of_mem member
      rcases placed with left | inside
      · exact (piped old left).mapCall only
      · exact (list arguments old inside).mapCall only
    | constant _ _ kind =>
      exact Expr.linked_leaf marked (by simp [Expr.children, ExprKind.children, kind])
    | @fragment token _ _ _ _ kind =>
      rw [Expr.linked_other (by simp [Expr.kindName, ExprKind.name, kind])
        (by simp [Expr.kindName, ExprKind.name, kind])]
      refine ⟨marked, ?_⟩
      have arguments (text : String) :
          (fragmentArgument v.context token v.source.span text).Linked v.context.enclosing :=
        Expr.linked_leaf rfl rfl
      simp [Expr.children, ExprKind.children, kind, fragmentCall, Call.children, Call.plain, arguments]
    | closure _ called _ _ walked expanded kind =>
      obtain ⟨before, after, entered, left⟩ := called
      -- What is attached to the closure goes to its call.
      have call := enters entered left piped
      have body := (part walked).expanded (Walk.expands_of_gives expanded)
      refine Expr.linked_iff.mpr ⟨marked, fun within c member => ?_⟩
      simp only [Expr.partsWithin, kind, List.mem_cons, Prod.mk.injEq, List.not_mem_nil, or_false]
        at member
      rcases member with ⟨rfl, rfl⟩ | ⟨rfl, rfl⟩
      · exact call
      · exact body
    | skipped skips => exact absurd skips fresh.not_skips
    | parts named _ call literal closure met inner =>
      by_cases function : v.source.kindName = "function"
      · obtain ⟨access, name, parameters, body, module, takesClosure, id, source⟩ :=
          Expr.function_of_kindName function
        obtain ⟨parameters', body', context, kind, defaults, within, walked, -⟩ :=
          function_of_gives source given met
        refine Expr.linked_iff.mpr ⟨marked, fun around c member => ?_⟩
        simp only [Expr.partsWithin, kind, List.mem_append, List.mem_map, List.mem_singleton,
          Prod.mk.injEq] at member
        rcases member with ⟨_, default, rfl, rfl⟩ | ⟨rfl, rfl⟩
        · exact list defaults _ default
        · exact within ▸ part walked
      · rw [Expr.linked_other (named ▸ closure) (named ▸ function)]
        refine ⟨marked, forall_of_forall₂ inner fun _ _ inside => ?_⟩
        obtain ⟨context, -, walked⟩ := inside
        have linked := part walked
        obtain ⟨_, _, _, _, entered, -⟩ := walked
        rwa [enclosing_of_enters entered closure function] at linked

end Visit

namespace Analysis

variable {registry : Registry} {mode : AnalysisMode} {module : ModuleId} {ast analysed : Ast}
  {s t : AnalysisState}

theorem linked_of_analysed (once : ast.functionIds.Nodup) (awaits : s.tree.Awaits ast.functionIds)
    (given : Gives (moduleWalk registry mode module ast) s analysed t) :
    ∀ e ∈ analysed.expressions, e.Linked none := by
  obtain ⟨context, start, u, begins, walked, -⟩ := begins_of_gives given
  have outermost : context.enclosing = none := by
    obtain ⟨m, -, rfl, -⟩ := begins
    rfl
  have yields : (Plan.each context Expr.slot ast.expressions).Yields
      (fun context slot _ r => slot.attachment = none → r.Linked context.enclosing) start
      fun results => ∀ r ∈ results, r.Linked none := by
    refine (Plan.yields_each _ Expr.slot ast.expressions fun _ => rfl).mono fun results parts => ?_
    refine forall_of_forall₂ parts fun _ _ part => ?_
    obtain ⟨_, plain, linked⟩ := part
    exact outermost ▸ linked plain
  refine yields.of_gives (fun v r t' entered left plain => ?_) walked
  have visited : Visited registry module ast s v := ⟨context, start, v, begins, entered, .refl⟩
  exact Visit.linked_of_gives (visited.fresh once awaits) left (by simp [Slot.piped, plain])

/-- The closures of an analysed tree are numbered from 0 on, each has a number of its own as long as
there are handles for all of them, and a node is linked to a function or a closure just where that is
the innermost one in whose body it stands. No function is declared twice or has been met before. -/
theorem enclosed_of_analysed {tree : ScopeTree} {tokens : Option (Array SemanticToken)}
    (once : ast.functionIds.Nodup) (awaits : tree.Awaits ast.functionIds)
    (given : Gives (moduleWalk registry mode module ast) { tree, tokens } analysed t) :
    analysed.closureIds.Perm
        ((List.range analysed.closureIds.length).map fun number => some ⟨UInt32.ofNat number⟩) ∧
      (analysed.closureIds.length ≤ 2 ^ 32 → analysed.closureIds.Nodup) ∧
      ∀ e ∈ analysed.expressions, ∀ n ∈ e.nodes, ∀ innermost,
        e.LiesWithin none innermost n ↔ n.enclosing = innermost := by
  have numbered := Multiset.coe_eq_coe.mp (closureIds_of_analysed once awaits given)
  have count : analysed.closureIds.length = t.closures.size := by
    rw [numbered.length_eq]
    simp
  have permuted : analysed.closureIds.Perm
      ((List.range analysed.closureIds.length).map fun number => some ⟨UInt32.ofNat number⟩) := by
    rw [count, List.range_eq_range']
    exact numbered
  refine ⟨permuted, fun room => permuted.nodup_iff.mpr ?_, fun e member n inside innermost => ?_⟩
  · refine List.Nodup.map_on ?_ List.nodup_range
    -- Handles are numbers of 32 bits, so places below that bound have different handles.
    intro one first other second same
    rw [List.mem_range] at first second
    have same : UInt32.ofNat one = UInt32.ofNat other := by simpa using same
    have value := congrArg UInt32.toNat same
    rw [UInt32.toNat_ofNat', UInt32.toNat_ofNat'] at value
    omega
  · exact (linked_of_analysed once awaits given e member).liesWithin_iff inside innermost

/-- A function with a default pipes a shell fragment into a call. A closure on a bare reference stands
in an argument of the call of another closure, and a third one in the body of that. -/
def nestedBodies : Ast :=
  ⟨[Build.function { name := "f", access := .restricted, module := ⟨0⟩
                     parameters := [Build.defaultParameter "x" (Build.string "d")] } ⟨0⟩
      (Build.blockOf .function ⟨1⟩
        [Build.pipe (Build.literal .shellFragment "$:ls") (Build.call "lines" [])]),
    Build.closure
      (Build.call "reduce" [Build.closure (Build.call "map" [Build.list []]) [] (Build.block ⟨2⟩
        [Build.reference [] "len"])]) ["a", "b"]
      (Build.block ⟨3⟩ [Build.closure (Build.call "map" [Build.variableRef "a"]) ["c"]
        (Build.block ⟨4⟩ [Build.variableRef "c"])])]⟩

def nestedBodiesScopes : ScopeTree :=
  { ScopeTree.ofRoot "main" with
    scopes := #[⟨none, ⟨0⟩, {}⟩, ⟨some ⟨0⟩, ⟨0⟩, {}⟩, ⟨some ⟨0⟩, ⟨0⟩, {}⟩, ⟨some ⟨0⟩, ⟨0⟩, {}⟩,
      ⟨some ⟨3⟩, ⟨0⟩, {}⟩]
    functions := #[{ name := "f", access := .restricted, module := ⟨0⟩
                     parameters := [Build.defaultParameter "x" (Build.string "d")] }] }

/-- What the nodes of that script are linked to, each node before what is below it. -/
def nestedLinks : List (Option Enclosing) :=
  [none, none] ++ List.replicate 5 (some (.function ⟨0⟩)) ++ List.replicate 5 none ++
    List.replicate 3 (some (.closure ⟨0⟩)) ++ List.replicate 4 (some (.closure ⟨1⟩)) ++
      List.replicate 2 (some (.closure ⟨2⟩))

/-- The closure in the argument has a smaller number than the one on the call. -/
theorem enclosed_of_analysed_nested :
    ∃ analysed t, Gives (moduleWalk globalsOnly .overwrite ⟨0⟩ nestedBodies)
        { tree := nestedBodiesScopes } analysed t ∧
      analysed.closureIds = [some ⟨1⟩, some ⟨0⟩, some ⟨2⟩] ∧
      analysed.nodes.map Expr.enclosing = nestedLinks ∧
      analysed.closureIds.Perm
        ((List.range analysed.closureIds.length).map fun number => some ⟨UInt32.ofNat number⟩) ∧
      (analysed.closureIds.length ≤ 2 ^ 32 → analysed.closureIds.Nodup) ∧
      ∀ e ∈ analysed.expressions, ∀ n ∈ e.nodes, ∀ innermost,
        e.LiesWithin none innermost n ↔ n.enclosing = innermost := by
  have ends : endsWith (moduleWalk globalsOnly .overwrite ⟨0⟩ nestedBodies)
      { tree := nestedBodiesScopes } (fun analysed _ =>
        decide (analysed.closureIds = [some ⟨1⟩, some ⟨0⟩, some ⟨2⟩] ∧
          analysed.nodes.map Expr.enclosing = nestedLinks)) = true := by
    decide +kernel
  have declared : nestedBodies.functionIds = [⟨0⟩] := by decide +kernel
  have awaits : nestedBodiesScopes.Awaits nestedBodies.functionIds := by decide +kernel
  obtain ⟨analysed, t, ended, reached⟩ := gives_of_endsWith ends
  obtain ⟨numbers, links⟩ := of_decide_eq_true reached
  exact ⟨analysed, t, ended, numbers, links,
    enclosed_of_analysed (by simp [declared]) awaits ended⟩

end Analysis
end ShellSema
