import ShellSema.Proofs.ModuleVisits
import ShellSema.Proofs.Results
import ShellSema.Proofs.Surroundings

/-!
# What nodes inherit

Whether a node is the call of a closure, and which closure is the innermost one around it, cannot be
seen from the node alone: it depends on the nodes above. An inheritance says what each node hands
down to its parts. It goes on unchanged through the nodes that are put into a tree besides the
results of visits, so what each visit makes of a single node can be put together:
`Visit.Inherits.of_gives` says so for all inheritances at once.
-/
namespace ShellSema

/-- What a node hands down to its parts, from what it has inherited itself. A closure treats its
call and its body apart, a function its body. -/
structure Inheritance (α : Type) where
  part : α → α
  attached : α → α
  /-- For the body of a closure that captures these names. -/
  closureBody : NameSet → α
  functionBody : α

/-- The parts of a node, each with what it inherits. -/
def Inheritance.parts {α : Type} (handing : Inheritance α) (own : α) (e : Expr) : List (α × Expr) :=
  match e.kind with
  | .closure attached _ body captured _ =>
    [(handing.attached own, attached), (handing.closureBody captured, body)]
  | .functionDecl _ _ parameters body _ _ _ =>
    (parameters.flatMap Parameter.children).map (handing.part own, ·) ++ [(handing.functionBody, body)]
  | _ => e.children.map (handing.part own, ·)

/-- The expression, with what it has inherited, contains the node, with what that one inherits. The
way to it leads below no node at which the tree is said to end. -/
inductive Expr.HandsDown {α : Type} (handing : Inheritance α) (ends : Expr → Prop) :
    α → Expr → α → Expr → Prop where
  | self {own : α} {e : Expr} : HandsDown handing ends own e own e
  | inner {own gets has : α} {e c n : Expr} (goes : ¬ ends e) (part : (gets, c) ∈ handing.parts own e)
      (deeper : HandsDown handing ends gets c has n) : HandsDown handing ends own e has n

/-- Every node of the tree is as wanted with what it inherits, but for those below the nodes at which
the tree is said to end. -/
def Expr.AllInherit {α : Type} (handing : Inheritance α) (ends : Expr → Prop)
    (wanted : α → Expr → Prop) (own : α) (e : Expr) : Prop :=
  ∀ has n, HandsDown handing ends own e has n → wanted has n

section Inheriting

variable {α : Type} {handing : Inheritance α} {ends : Expr → Prop} {wanted : α → Expr → Prop} {own : α}
  {e : Expr}

theorem Inheritance.parts_other (closure : e.kindName ≠ "closure")
    (function : e.kindName ≠ "function") :
    handing.parts own e = e.children.map (handing.part own, ·) := by
  unfold Inheritance.parts
  split
  next kind => simp [Expr.kindName, ExprKind.name, kind] at closure
  next kind => simp [Expr.kindName, ExprKind.name, kind] at function
  next => rfl

/-- Nothing but the children of a node inherits from it, and each of them does. -/
theorem Inheritance.parts_snd (handing : Inheritance α) (own : α) :
    (handing.parts own e).map Prod.snd = e.children := by
  unfold Inheritance.parts Expr.children
  split
  next kind => simp [kind, ExprKind.children]
  next kind => simp [kind, ExprKind.children, Function.comp_def]
  next => simp [Function.comp_def]

theorem Expr.allInherit_iff :
    e.AllInherit handing ends wanted own ↔ wanted own e ∧
      (¬ ends e → ∀ gets c, (gets, c) ∈ handing.parts own e →
        c.AllInherit handing ends wanted gets) := by
  constructor
  · intro all
    refine ⟨all own e .self, fun goes gets c part has n deeper => ?_⟩
    exact all has n (.inner goes part deeper)
  · rintro ⟨self, below⟩ has n inside
    cases inside with
    | self => exact self
    | inner goes part deeper => exact below goes _ _ part has n deeper

theorem Expr.allInherit_leaf (self : wanted own e) (leaf : e.children = []) :
    e.AllInherit handing ends wanted own := by
  refine Expr.allInherit_iff.mpr ⟨self, fun _ gets c part => ?_⟩
  have child : c ∈ e.children :=
    handing.parts_snd own ▸ List.mem_map_of_mem part
  rw [leaf] at child
  exact absurd child List.not_mem_nil

/-- All parts of a node that is neither a closure nor a function inherit the same. -/
theorem Expr.allInherit_other (closure : e.kindName ≠ "closure") (function : e.kindName ≠ "function") :
    e.AllInherit handing ends wanted own ↔ wanted own e ∧
      (¬ ends e → ∀ c ∈ e.children, c.AllInherit handing ends wanted (handing.part own)) := by
  rw [Expr.allInherit_iff]
  simp only [Inheritance.parts_other closure function, List.mem_map, Prod.mk.injEq]
  refine and_congr_right fun _ => imp_congr_right fun _ => ⟨fun all c child => ?_, ?_⟩
  · exact all _ c ⟨c, child, rfl, rfl⟩
  · rintro all gets c ⟨_, child, rfl, rfl⟩
    exact all _ child

end Inheriting

/-! ### Nodes besides the results of visits -/

/-- The tree ends at functions only. Nothing is said about blocks and made-up arguments, and what is
said about a call holds as well when it is run in another way, or expanded. -/
structure Lasting {α : Type} (ends : Expr → Prop) (wanted : α → Expr → Prop) : Prop where
  ending : ∀ e, ends e → e.kindName = "function"
  mode : ∀ own e change, Call.OnlyMode change → wanted own e → wanted own (e.mapCall change)
  block : ∀ own e, e.isBlock = true → wanted own e
  implied : ∀ own id scope parameter, wanted own (Walk.impliedArgument id scope parameter)
  expanded : ∀ own (e : Expr) reference id scope parameters, e.kind = .call reference →
    wanted own e → wanted own { e with kind := .call (Walk.expandedCall id scope parameters reference) }

namespace Lasting

variable {α : Type} {handing : Inheritance α} {ends : Expr → Prop} {wanted : α → Expr → Prop}
  (lasting : Lasting ends wanted) {own : α}

include lasting

theorem all_mapCall {e : Expr} {change : Call → Call} (only : Call.OnlyMode change)
    (all : e.AllInherit handing ends wanted own) :
    (e.mapCall change).AllInherit handing ends wanted own := by
  by_cases call : e.kindName = "call"
  · have goes : ¬ ends e := fun ended => by
      rw [lasting.ending e ended] at call
      exact absurd call (by decide)
    have named : (e.mapCall change).kindName = "call" := by rw [Expr.kindName_mapCall, call]
    rw [Expr.allInherit_other (by simp [call]) (by simp [call])] at all
    rw [Expr.allInherit_other (by simp [named]) (by simp [named]), Expr.children_mapCall only]
    exact ⟨lasting.mode own e change only all.1, fun _ => all.2 goes⟩
  · rwa [Expr.mapCall_of_name call]

/-- What is piped into a call and what it is called with. -/
theorem all_placed {callee : Callee} {piped : Option Expr} {arguments : List Expr}
    (attached : ∀ left, piped = some left → left.AllInherit handing ends wanted own)
    (all : ∀ e ∈ arguments, e.AllInherit handing ends wanted own) :
    ∀ e ∈ (Walk.placePiped callee piped arguments).2.toList ++
      Walk.holdProcesses callee (Walk.placePiped callee piped arguments).1,
        e.AllInherit handing ends wanted own := by
  intro e member
  obtain ⟨old, change, placed, only, rfl⟩ := Walk.placed_of_mem member
  rcases placed with piped | inside
  · exact lasting.all_mapCall only (attached old piped)
  · exact lasting.all_mapCall only (all old inside)

/-- The body of a closure, after a bare reference in it is expanded. -/
theorem all_expanded {id : ClosureId} {scope : ScopeId} {attached : Call} {s : AnalysisState}
    {parameters : List Token} {body : Expr} {result : List Token × Expr}
    (expands : Walk.Expands id scope attached s parameters body result)
    (all : body.AllInherit handing ends wanted own) :
    result.2.AllInherit handing ends wanted own := by
  cases expands with
  | plain none => exact all
  | @bare e reference names r found named =>
    obtain ⟨⟨role, blockScope, block⟩, kind, -⟩ := reference?_eq_some found
    have goes {e : Expr} (other : e.kindName ≠ "function") : ¬ ends e := fun ended =>
      other (lasting.ending e ended)
    rw [Expr.allInherit_other (by simp [Expr.kindName, ExprKind.name, block])
      (by simp [Expr.kindName, ExprKind.name, block])] at all
    have inside := all.2 (goes (by simp [Expr.kindName, ExprKind.name, block])) e
      (by simp [Expr.children, ExprKind.children, block])
    rw [Expr.allInherit_other (by simp [Expr.kindName, ExprKind.name, kind])
      (by simp [Expr.kindName, ExprKind.name, kind])] at inside
    have below := inside.2 (goes (by simp [Expr.kindName, ExprKind.name, kind]))
    simp only [Expr.children, kind, ExprKind.children, Call.children, List.forall_mem_append]
      at below
    -- The made-up arguments join those parts of the reference that were there before.
    have whole : Expr.AllInherit handing ends wanted (handing.part own)
        { e with kind := .call (Walk.expandedCall id scope
          (names.map (Walk.impliedParameter reference.name)) reference) } := by
      rw [Expr.allInherit_other (by simp [Expr.kindName, ExprKind.name])
        (by simp [Expr.kindName, ExprKind.name])]
      refine ⟨lasting.expanded _ e reference _ _ _ kind inside.1, fun _ => ?_⟩
      simp only [Expr.children, ExprKind.children, Call.children, Walk.expandedCall,
        List.forall_mem_append]
      refine ⟨⟨below.1.1, ?_, below.1.2⟩, below.2⟩
      intro argument member
      obtain ⟨parameter, -, rfl⟩ := List.mem_map.mp member
      exact Expr.allInherit_leaf (lasting.implied _ id scope parameter) rfl
    have replaced : (Walk.replaceOnly body { e with kind := .call (Walk.expandedCall id scope
        (names.map (Walk.impliedParameter reference.name)) reference) }).kind = .block
          [{ e with kind := .call (Walk.expandedCall id scope
            (names.map (Walk.impliedParameter reference.name)) reference) }] role blockScope := by
      simp [Walk.replaceOnly, block]
    rw [Expr.allInherit_other (by simp [Expr.kindName, ExprKind.name, replaced])
      (by simp [Expr.kindName, ExprKind.name, replaced])]
    refine ⟨lasting.block own _ (by simp [Expr.isBlock, Expr.blockScope?, replaced]), fun _ => ?_⟩
    simpa [Expr.children, ExprKind.children, replaced] using whole

end Lasting

/-! ### Along a walk -/

/-- What it takes for all nodes of a result to be as wanted, with what they inherit. It is said of the
visits what the expressions inherit that they are gone over for: each visit in the course of another
one inherits what the place of its expression hands down, and the node that a visit makes is as
wanted. -/
structure Visit.Inherits {α : Type} (handing : Inheritance α) (ends : Expr → Prop)
    (wanted : α → Expr → Prop) (inherits : Visit → AnalysisState → α → Prop) : Prop where
  lasting : Lasting ends wanted
  fragment : ∀ own context token span text, wanted own (fragmentArgument context token span text)
  node : ∀ v r t own, inherits v t own → v.Gives r t → v.source.isPipe = false → wanted own r
  skipped : ∀ v r t own, inherits v t own → v.Gives r t → v.Skips → ends r
  part : ∀ v w r r' t t' own, inherits v t own → v.Gives r t → v.Enters w → w.Gives r' t' →
    w.slot.attachment = none → w.context.enclosing = v.context.enclosing →
    inherits w t' (handing.part own)
  /-- The right side of a pipe takes the place of the pipe. -/
  right : ∀ v w r t own, inherits v t own → v.Gives r t → v.source.isPipe = true → v.Enters w →
    w.Gives r t → w.slot.hasClosure = false → w.context = v.context → inherits w t own
  attached : ∀ v attached r r' t t' own, inherits v t own → v.Gives r t →
    v.Enters (v.attachedVisit attached) → (v.attachedVisit attached).Gives r' t' →
    inherits (v.attachedVisit attached) t' (handing.attached own)
  /-- What goes to the call of a closure along with the closure is part of the call. -/
  attached_part : ∀ own, handing.part (handing.attached own) = handing.part own
  body : ∀ v body id opened call parameters body' captured r r' t t' own, inherits v t own →
    v.Gives r t → v.source.kindName = "closure" →
    r.kind = .closure call parameters body' captured (some id) →
    v.Enters (v.bodyVisit body id opened) → (v.bodyVisit body id opened).Gives r' t' →
    inherits (v.bodyVisit body id opened) t' (handing.closureBody captured)
  function : ∀ v w id r r' t t' own, inherits v t own → v.Gives r t → v.Enters w → w.Gives r' t' →
    w.slot.attachment = none → w.context.enclosing = some (.function id) →
    inherits w t' handing.functionBody

/-- What a visit gives is as wanted at all its nodes, if what is piped into it is. -/
theorem Visit.Inherits.of_gives {α : Type} {handing : Inheritance α} {ends : Expr → Prop}
    {wanted : α → Expr → Prop} {inherits : Visit → AnalysisState → α → Prop}
    (all : Visit.Inherits handing ends wanted inherits) {v : Visit} {r : Expr} {t : AnalysisState}
    {own : α} (has : inherits v t own)
    (piped : ∀ left, v.slot.piped = some left →
      left.AllInherit handing ends wanted (handing.part own))
    (given : v.Gives r t) : r.AllInherit handing ends wanted own := by
  induction e : v.source using Expr.induction generalizing v r t own with
  | inherited e ih =>
    subst e
    have lasting := all.lasting
    have enters {w : Visit} {r' : Expr} {t' : AnalysisState} {gets : α} (entered : v.Enters w)
        (left : w.Gives r' t') (has : inherits w t' gets)
        (piped : ∀ left, w.slot.piped = some left →
          left.AllInherit handing ends wanted (handing.part gets)) :
        r'.AllInherit handing ends wanted gets :=
      ih w.source (mem_children_of_enters entered) has piped left rfl
    have part {context : Context} {e r' : Expr} (part : v.Part context e r')
        (same : context.enclosing = v.context.enclosing) :
        r'.AllInherit handing ends wanted (handing.part own) := by
      obtain ⟨slot, plain, before, after, entered, left⟩ := part
      exact enters entered left (all.part v _ r r' t after own has given entered left plain same)
        (by simp [Slot.piped, plain])
    have list {es rs : List Expr} (parts : List.Forall₂ (v.Part v.context) es rs) :
        ∀ r' ∈ rs, r'.AllInherit handing ends wanted (handing.part own) :=
      forall_of_forall₂ parts fun _ _ inside => part inside rfl
    by_cases pipe : v.source.isPipe = true
    · -- A pipe leaves no node of its own. Its left side stands in what the right side gives.
      obtain ⟨left, op, right, redirection, source, redirects⟩ := Expr.kind_of_isPipe pipe
      obtain ⟨left', s, told, u, first, redirected, rest, visits⟩ :=
        pipe_of_gives source redirects given
      obtain ⟨change, only, rfl⟩ := Walk.redirect_eq redirected
      have handed := lasting.all_mapCall only
        (part ⟨left.slot, rfl, _, s, (visits _).mpr (.inl rfl), first⟩ rfl)
      have entered := (visits _).mpr (.inr rfl)
      refine enters entered rest (all.right v _ r t own has given pipe entered rest rfl rfl) ?_
      rintro _ ⟨⟩
      exact handed
    have node : wanted own r := all.node v r t own has given (by simpa using pipe)
    cases course_of_gives given with
    | pipe source redirects => exact absurd (by simp [Expr.isPipe, source, redirects]) pipe
    | @call written callee arguments environment source argumentParts valueParts kind =>
      rw [Expr.allInherit_other (by simp [Expr.kindName, ExprKind.name, kind])
        (by simp [Expr.kindName, ExprKind.name, kind])]
      refine ⟨node, fun _ => ?_⟩
      simp only [Expr.children, kind, ExprKind.children, Call.children]
      exact List.forall_mem_append.mpr
        ⟨lasting.all_placed piped (list argumentParts), list valueParts⟩
    | constant source means kind =>
      exact Expr.allInherit_leaf node (by simp [Expr.children, ExprKind.children, kind])
    | @fragment token code old source means kind =>
      rw [Expr.allInherit_other (by simp [Expr.kindName, ExprKind.name, kind])
        (by simp [Expr.kindName, ExprKind.name, kind])]
      refine ⟨node, fun _ => ?_⟩
      have arguments (text : String) :
          (fragmentArgument v.context token v.source.span text).AllInherit handing ends wanted
            (handing.part own) :=
        Expr.allInherit_leaf (all.fragment _ _ _ _ _) rfl
      simp [Expr.children, ExprKind.children, kind, fragmentCall, Call.children, Call.plain, arguments]
    | @closure attached body _ _ _ _ _ initial _ _ _ _ _ _ source =>
      obtain ⟨scope, id, opened, body', walked, handed, made, parameters', body'', frame, call, opens,
        visited, passed, expanded, found, kind⟩ := closure_of_gives source given
      obtain ⟨enteredCall, enteredBody⟩ := enters_of_opens source opens given
      obtain ⟨call', s, first, -⟩ := opens
      -- The call in the result is the one that was gone over, as nothing is done to it afterwards.
      obtain ⟨_, _, _, _, kind'⟩ := attached_of_gives source first given
      obtain rfl : call = call' := by
        rw [kind] at kind'
        cases kind'
        rfl
      have called := enters enteredCall first (all.attached v _ r _ t s own has given enteredCall first)
        (by rw [all.attached_part]; exact piped)
      have gone := enters enteredBody visited
        (all.body v _ _ _ _ _ _ _ r _ t walked own has given
          (by simp [Expr.kindName, ExprKind.name, source]) kind enteredBody visited)
        (by simp [bodyVisit, Expr.slot, Slot.piped])
      refine Expr.allInherit_iff.mpr ⟨node, fun _ gets c member => ?_⟩
      simp only [Inheritance.parts, kind, List.mem_cons, Prod.mk.injEq, List.not_mem_nil, or_false]
        at member
      rcases member with ⟨rfl, rfl⟩ | ⟨rfl, rfl⟩
      · exact called
      · exact lasting.all_expanded (Walk.expands_of_gives expanded) gone
    | skipped skips kind =>
      have left := all.skipped v r t own has given skips
      exact Expr.allInherit_iff.mpr ⟨node, fun goes => absurd left goes⟩
    | parts named _ call literal closure met inner =>
      by_cases function : v.source.kindName = "function"
      · obtain ⟨access, name, parameters, body, module, takesClosure, id, source⟩ :=
          Expr.function_of_kindName function
        obtain ⟨parameters', body', inside, kind, defaults, within, walked, -⟩ :=
          function_of_gives source given met
        obtain ⟨slot, plain, before, after, entered, left⟩ := walked
        refine Expr.allInherit_iff.mpr ⟨node, fun _ gets c member => ?_⟩
        -- The defaults stand where the function does, and only the body is within it.
        simp only [Inheritance.parts, kind, List.mem_append, List.mem_map, List.mem_singleton,
          Prod.mk.injEq] at member
        rcases member with ⟨_, default, rfl, rfl⟩ | ⟨rfl, rfl⟩
        · exact list defaults _ default
        · exact enters entered left
            (all.function v _ id r _ t after own has given entered left plain within)
            (by simp [Slot.piped, plain])
      · rw [Expr.allInherit_other (named ▸ closure) (named ▸ function)]
        refine ⟨node, fun _ => forall_of_forall₂ inner fun _ _ inside => ?_⟩
        obtain ⟨context, -, slot, plain, before, after, entered, left⟩ := inside
        exact part ⟨slot, plain, before, after, entered, left⟩
          (enclosing_of_enters entered closure function)

namespace Analysis

variable {registry : Registry} {mode : AnalysisMode} {module : ModuleId} {ast analysed : Ast}
  {s t : AnalysisState}

/-- In an analysed tree, all nodes are as wanted with what they inherit from the module. -/
theorem inherits_of_analysed {α : Type} {handing : Inheritance α} {ends : Expr → Prop}
    {wanted : α → Expr → Prop} {inherits : Visit → AnalysisState → α → Prop} {own : α}
    (all : Visit.Inherits handing ends wanted inherits)
    (given : Gives (moduleWalk registry mode module ast) s analysed t)
    (first : ∀ v t', Visited registry module ast s v → v.context.enclosing = none →
      v.slot.attachment = none → inherits v t' own) :
    ∀ e ∈ analysed.expressions, e.AllInherit handing ends wanted own := by
  obtain ⟨context, start, u, begins, walked, -⟩ := begins_of_gives given
  have outermost : context.enclosing = none := by
    obtain ⟨m, -, rfl, -⟩ := begins
    rfl
  -- The top of the tree is gone over like the parts of a node, from outside of all functions and
  -- closures.
  have yields : (Plan.each context Expr.slot ast.expressions).Yields
      (fun context slot _ r => context.enclosing = none → slot.attachment = none →
        r.AllInherit handing ends wanted own) start
      fun results => ∀ r ∈ results, r.AllInherit handing ends wanted own := by
    refine (Plan.yields_each _ Expr.slot ast.expressions fun _ => rfl).mono fun results parts => ?_
    refine forall_of_forall₂ parts fun _ _ part => ?_
    obtain ⟨_, plain, wanted⟩ := part
    exact wanted outermost plain
  refine yields.of_gives (fun v r t' entered left outermost plain => ?_) walked
  have visited : Visited registry module ast s v := ⟨context, start, v, begins, entered, .refl⟩
  exact all.of_gives (first v t' visited outermost plain) (by simp [Slot.piped, plain]) left

end Analysis
end ShellSema
