import Mathlib.Algebra.Order.Group.Multiset
import Mathlib.Tactic.Abel
import ShellSema.Proofs.ClosureRuns
import ShellSema.Proofs.Results
import ShellSema.Proofs.Traces

/-!
# What adds up over a tree

A tally counts something about the nodes of a tree, such as the functions that they declare. The tally
of what a visit gives is that of what was piped into it, what its own node counts, and what its visits
add, each as often as it comes: nothing that a visit gives is lost, and nothing comes in twice.
-/
namespace ShellSema

/-- What each node counts by itself. It does not matter how a call is run, and what is made up on the
way counts nothing. -/
structure Tally (κ : Type) where
  own : Expr → Multiset κ
  mode : ∀ e change, Call.OnlyMode change → own (e.mapCall change) = own e
  block : ∀ e, e.isBlock = true → own e = 0
  fragment : ∀ context token span text, own (fragmentArgument context token span text) = 0
  implied : ∀ id scope parameter, own (Walk.impliedArgument id scope parameter) = 0
  expanded : ∀ (e : Expr) reference id scope parameters, e.kind = .call reference →
    own { e with kind := .call (Walk.expandedCall id scope parameters reference) } = own e

/-- What a sum of multisets contains. -/
theorem mem_sum_map {α κ : Type} {f : α → Multiset κ} {xs : List α} {k : κ} :
    k ∈ (xs.map f).sum ↔ ∃ x ∈ xs, k ∈ f x := by
  induction xs with
  | nil => simp
  | cons x xs ih => simp [ih]

namespace Tally

variable {κ : Type} (tally : Tally κ)

/-- The tally of a whole tree. -/
def of (e : Expr) : Multiset κ := (e.nodes.map tally.own).sum

/-- The tally of several trees. -/
def all (es : List Expr) : Multiset κ := (es.map tally.of).sum

@[simp] theorem all_nil : tally.all [] = 0 := rfl

@[simp] theorem all_cons (e : Expr) (es : List Expr) :
    tally.all (e :: es) = tally.of e + tally.all es := by
  simp [all]

@[simp] theorem all_append (es others : List Expr) :
    tally.all (es ++ others) = tally.all es + tally.all others := by
  simp [all]

theorem of_eq (e : Expr) : tally.of e = tally.own e + tally.all e.children := by
  have below (es : List Expr) : ((es.flatMap Expr.nodes).map tally.own).sum = tally.all es := by
    induction es with
    | nil => rfl
    | cons e es ih => simp [of, ih]
  rw [of, Expr.nodes_eq, List.map_cons, List.sum_cons, below]

/-- What a tally counts is counted by a node of the tree. -/
theorem mem_of {k : κ} {e : Expr} : k ∈ tally.of e ↔ ∃ n ∈ e.nodes, k ∈ tally.own n := mem_sum_map

variable {tally}

/-! ### Nodes that change after their visit -/

theorem of_mapCall {change : Call → Call} (only : Call.OnlyMode change) (e : Expr) :
    tally.of (e.mapCall change) = tally.of e := by
  rw [of_eq, of_eq tally e, tally.mode e change only, Expr.children_mapCall only]

theorem all_mapCall {change : Call → Call} (only : Call.OnlyMode change) (es : List Expr) :
    tally.all (es.map (Expr.mapCall change)) = tally.all es := by
  induction es with
  | nil => rfl
  | cons e es ih => simp [of_mapCall only, ih]

/-- What is piped into a call and what it is called with is kept in one place or the other. -/
theorem all_placed (callee : Callee) (piped : Option Expr) (arguments : List Expr) :
    tally.all ((Walk.placePiped callee piped arguments).2.toList ++
        Walk.holdProcesses callee (Walk.placePiped callee piped arguments).1) =
      tally.all piped.toList + tally.all arguments := by
  obtain ⟨hold, held, same⟩ := Walk.holdProcesses_eq callee (Walk.placePiped callee piped arguments).1
  rw [same, all_append, all_mapCall held]
  cases piped with
  | none => rfl
  | some left =>
    obtain ⟨tell, told, same'⟩ := Walk.tellReader_eq callee left
    simp only [Walk.placePiped, same']
    split <;> simp [of_mapCall told]

/-- The expansion of a bare reference counts nothing. -/
theorem of_expands {id : ClosureId} {scope : ScopeId} {attached : Call} {s : AnalysisState}
    {parameters : List Token} {body : Expr} {result : List Token × Expr}
    (expands : Walk.Expands id scope attached s parameters body result) :
    tally.of result.2 = tally.of body := by
  cases expands with
  | plain none => rfl
  | @bare e reference names r found named =>
    obtain ⟨⟨role, blockScope, block⟩, kind, -⟩ := reference?_eq_some found
    have arguments (parameters : List Token) :
        tally.all (parameters.map (Walk.impliedArgument id scope)) = 0 := by
      induction parameters with
      | nil => rfl
      | cons parameter parameters ih =>
        rw [List.map_cons, all_cons, ih, of_eq, tally.implied]
        rfl
    -- The made-up arguments join the parts of the reference, and the block stays one.
    have call (parameters : List Token) :
        tally.of { e with kind := .call (Walk.expandedCall id scope parameters reference) } =
          tally.of e := by
      rw [of_eq, of_eq tally e, tally.expanded e reference id scope parameters kind]
      simp [Expr.children, kind, ExprKind.children, Call.children, Walk.expandedCall, arguments]
    have own (e : Expr) : tally.own (Walk.replaceOnly body e) = 0 :=
      tally.block _ (by simp [Walk.replaceOnly, block, Expr.isBlock, Expr.blockScope?])
    have only : tally.own body = 0 := tally.block _ (by simp [block, Expr.isBlock, Expr.blockScope?])
    rw [of_eq, of_eq tally body, own, only]
    simp [Expr.children, ExprKind.children, Walk.replaceOnly, block, call]

theorem all_fragment (context : Context) (token : Token) (span : Span) (code : String) :
    tally.all (fragmentCall context token span code).children = 0 := by
  have argument (text : String) : tally.of (fragmentArgument context token span text) = 0 := by
    rw [of_eq, tally.fragment]
    rfl
  simp [fragmentCall, Call.children, Call.plain, argument]

end Tally

/-! ### What visits add -/

namespace Visit

variable {κ : Type} {tally : Tally κ} {v w : Visit} {r r' : Expr} {t t' : AnalysisState}
  {added : Multiset κ}

/-- To the tally of what is piped into it, the visit adds so much. -/
def Adds (tally : Tally κ) (v : Visit) (r : Expr) (added : Multiset κ) : Prop :=
  tally.of r = tally.all v.slot.piped.toList + added

theorem adds_plain (plain : v.slot.attachment = none) : v.Adds tally r added ↔ tally.of r = added := by
  simp [Adds, Slot.piped, plain]

/-- What the visits of a trace add is the tally of their results if nothing is attached to them. -/
theorem sum_of_lists {trace : List Passage} {rs : List Expr} {adds : Passage → Multiset κ}
    (lists : Plan.Lists rs trace)
    (each : ∀ passage ∈ trace, passage.visit.Adds tally passage.result (adds passage)) :
    tally.all rs = (trace.map adds).sum := by
  obtain ⟨rfl, plain⟩ := lists
  induction trace with
  | nil => rfl
  | cons passage trace ih =>
    obtain ⟨first, others⟩ := List.forall_mem_cons.mp each
    obtain ⟨bare, plain⟩ := List.forall_mem_cons.mp plain
    rw [List.map_cons, List.map_cons, List.sum_cons, Tally.all_cons, ih others plain,
      (adds_plain bare).mp first]

/-- A pipe adds what its two sides add. -/
theorem adds_of_pipe {left right left' told : Expr} {op : BinaryOp} {redirection : Redirection}
    {s u : AnalysisState} (source : v.source.kind = .binary left op right)
    (redirected : ShellSema.Gives (Walk.redirect op redirection left') s told u)
    (given : v.Gives r t)
    (second : Adds tally ⟨v.context,
      { isRoot := v.slot.isRoot, attachment := some { piped := some told } }, right, u⟩ r added) :
    v.Adds tally r (tally.of left' + added) := by
  obtain ⟨change, only, rfl⟩ := Walk.redirect_eq redirected
  have plain : v.slot.attachment = none :=
    detached_of_gives given (by simp [Expr.kindName, ExprKind.name, source])
      (by simp [Expr.kindName, ExprKind.name, source])
  rw [adds_plain plain]
  simpa [Adds, Slot.piped, Tally.of_mapCall only] using second

/-- A closure adds what it counts by itself, what its call adds and the tally of its body. -/
theorem adds_of_closure {attached call body' body'' : Expr} {parameters parameters' : List Token}
    {captured : NameSet} {made : Call} {id : ClosureId} {number : Option ClosureId} {scope : ScopeId}
    {s u : AnalysisState}
    (expanded : ShellSema.Gives (Walk.expandReference id made scope parameters body') s
      (parameters', body'') u)
    (kind : r.kind = .closure call parameters' body'' captured number)
    (called : (v.attachedVisit attached).Adds tally call added) :
    v.Adds tally r (tally.own r + added + tally.of body') := by
  have same : tally.of body'' = tally.of body' := Tally.of_expands (Walk.expands_of_gives expanded)
  unfold Adds at called ⊢
  rw [Tally.of_eq, Expr.children, kind, ExprKind.children, Tally.all_cons, Tally.all_cons,
    Tally.all_nil, same, called]
  simp only [attachedVisit, Slot.piped, Option.bind_some]
  abel

/-- The two visits of a closure: that of its call, and that of its body, for which the next number is
given out. -/
structure ClosureVisits (v : Visit) (r : Expr) (t : AnalysisState) (called inner : Visit)
    (call body : Expr) (s u : AnalysisState) : Prop where
  enters : ∀ w, v.Enters w ↔ w = called ∨ w = inner
  first : called.Gives call s
  rest : inner.Gives body u
  began : called.before = v.before
  opened : inner.before.closures.size = s.closures.size + 1
  ended : t.closures.size = u.closures.size
  number : ∃ call parameters body captured,
    r.kind = .closure call parameters body captured (some ⟨UInt32.ofNat s.closures.size⟩)
  adds : ∀ {κ : Type} {tally : Tally κ} {early late : Multiset κ},
    called.Adds tally call early → inner.Adds tally body late →
      v.Adds tally r (tally.own r + early + late)

theorem closureVisits_of_gives (closure : v.source.kindName = "closure") (given : v.Gives r t) :
    ∃ called inner call body s u, v.ClosureVisits r t called inner call body s u := by
  obtain ⟨attached, parameters, body, captured, old, source⟩ := Expr.closure_of_kindName closure
  obtain ⟨scope, id, opened, body', walked, handed, made, parameters', body'', frame, call, opens,
    visited, passed, expanded, -, kind⟩ := closure_of_gives source given
  obtain ⟨enteredCall, enteredBody⟩ := enters_of_opens source opens given
  -- The call that the closure is attached to is found again in the result.
  have opening := opens
  obtain ⟨call', s, first, -, entered⟩ := opening
  obtain ⟨_, _, _, _, kind'⟩ := attached_of_gives source first given
  obtain rfl : call = call' := by
    rw [kind] at kind'
    cases kind'
    rfl
  obtain ⟨handle, closures, -⟩ := gives_enterClosure entered
  refine ⟨v.attachedVisit attached, v.bodyVisit body id opened, call, body', s, walked, ?_⟩
  constructor
  case enters =>
    intro w
    constructor
    · intro inside
      rcases closure_enters source inside with same | ⟨_, _, _, opens', same⟩
      · exact .inl same
      · obtain ⟨-, rfl, rfl⟩ := opens.unique opens'
        exact .inr same
    · rintro (rfl | rfl)
      · exact enteredCall
      · exact enteredBody
  case first => exact first
  case rest => exact visited
  case began => rfl
  case opened =>
    rw [show (v.bodyVisit body id opened).before = opened from rfl, closures, Array.size_push]
  case ended =>
    rw [(closures_of_expandReference expanded).1]
    exact (sameCount_settled.keeps_propagateCaptures _ _).of_gives passed
  case number => exact ⟨_, _, _, _, handle ▸ kind⟩
  case adds =>
    intro κ tally early late adds adds'
    obtain rfl : tally.of body' = late := (adds_plain rfl).mp adds'
    exact adds_of_closure expanded kind adds

/-- A node of another kind adds what it counts by itself and what the visits of its trace add. -/
theorem adds_of_trace (given : v.Gives r t) (met : ¬ v.Skips) (pipe : v.source.isPipe = false)
    (closure : v.source.kindName ≠ "closure") :
    ∃ trace made, v.plan.Goes v.before trace made t ∧ ∀ adds : Passage → Multiset κ,
      (∀ passage ∈ trace, passage.visit.Adds tally passage.result (adds passage)) →
        v.Adds tally r (tally.own r + (trace.map adds).sum) := by
  obtain ⟨admitted, made, carried, same⟩ := gives_iff.mp given
  obtain ⟨trace, goes⟩ := Plan.exists_goes carried
  refine ⟨trace, made, goes, fun adds each => ?_⟩
  have kind : r.kind = made.kind := by rw [same]
  cases source : v.source.kind
  case call written =>
    have shown := Plan.shows_call (s := v.before) v.context v.slot v.source.span written
    rw [← source] at shown
    obtain ⟨callee, arguments, environment, lists, called⟩ := shown.of_goes goes
    -- What is piped in counts among the arguments, wherever it is placed.
    have sum := sum_of_lists lists each
    rw [Tally.all_append] at sum
    unfold Adds
    rw [Tally.of_eq, Expr.children, kind, called, ExprKind.children, Call.children, Tally.all_append,
      Tally.all_placed, ← sum]
    abel
  case literal token old =>
    -- A literal visits nothing, and what a shell fragment stands for counts nothing.
    have shown : v.plan.Shows v.before fun _ trace => trace = [] := by
      rw [plan, source]
      exact fun _ _ _ => rfl
    obtain rfl := shown.of_goes goes
    have plain : v.slot.attachment = none :=
      detached_of_gives given (by simp [Expr.kindName, ExprKind.name, source]) closure
    rw [adds_plain plain, Tally.of_eq, Expr.children, List.map_nil, List.sum_nil]
    rcases literal_of_gives source given with ⟨value, -, kind⟩ | ⟨code, -, kind⟩
    · rw [kind]
      rfl
    · rw [kind, ExprKind.children, Tally.all_fragment]
  case closure => exact absurd (by simp [Expr.kindName, ExprKind.name, source]) closure
  case' sequence form items => cases form
  all_goals
    have named : v.source.kindName ≠ "call" ∧ v.source.kindName ≠ "literal" := by
      simp [Expr.kindName, ExprKind.name, Sequence.name, source]
    have shown : v.plan.Shows v.before fun made => Plan.Lists made.children := by
      refine Plan.shows_node ?_ ?_ named.1 named.2 closure
      · exact fun access name parameters body module takesClosure id f kind found before =>
          met ⟨access, name, parameters, body, module, takesClosure, id, f, kind, found, before⟩
      · intro left op right kind
        simpa [Expr.isPipe, kind] using pipe
    have plain : v.slot.attachment = none := detached_of_gives given named.1 closure
    rw [adds_plain plain, Tally.of_eq, Expr.children, kind]
    exact congrArg _ (sum_of_lists (shown.of_goes goes) each)

end Visit
end ShellSema
