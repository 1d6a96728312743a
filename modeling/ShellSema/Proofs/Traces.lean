import ShellSema.Proofs.Courses

/-!
# Traces of visits

A plan that is carried out to its end makes its visits one after the other, each with a result. These
are its trace. Most nodes put the results of the trace, in its order, in the places of their
subexpressions, so what adds up along a trace adds up over the parts of a node.
-/
namespace ShellSema

/-- A visit that has ended: what it has given, and the state that it has left. -/
structure Passage where
  visit : Visit
  result : Expr
  after : AnalysisState

namespace Plan

variable {α β : Type} {s t : AnalysisState} {trace : List Passage}

/-- Carried out from the first state, the plan makes the visits of the trace, gives the value, and
leaves the second state. -/
def Goes : {α : Type} → Plan α → AnalysisState → List Passage → α → AnalysisState → Prop
  | _, .done result, s, trace, a, t => trace = [] ∧ a = result ∧ t = s
  | _, .act action next, s, trace, a, t => ∃ b r, Gives action s b r ∧ (next b).Goes r trace a t
  | _, .visit context slot e next, s, trace, a, t =>
    ∃ r u rest, Visit.Gives ⟨context, slot, e, s⟩ r u ∧ (next r).Goes u rest a t ∧
      trace = ⟨⟨context, slot, e, s⟩, r, u⟩ :: rest
  | _, .guarded _ inner next, s, trace, a, t =>
    ∃ b r first rest, inner.Goes s first b r ∧ (next b).Goes r rest a t ∧ trace = first ++ rest

/-- A plan that gives a value has a trace. -/
theorem exists_goes {p : Plan α} {a : α} (given : Gives p.run s a t) :
    ∃ trace, p.Goes s trace a t := by
  induction p generalizing s t with
  | done result => exact ⟨[], rfl, gives_pure.mp given⟩
  | act action next ih =>
    obtain ⟨b, r, first, rest⟩ := gives_bind.mp given
    obtain ⟨trace, goes⟩ := ih b rest
    exact ⟨trace, b, r, first, goes⟩
  | visit context slot e next ih =>
    obtain ⟨b, r, first, rest⟩ := gives_bind.mp given
    obtain ⟨trace, goes⟩ := ih b rest
    exact ⟨_, b, r, trace, first, goes, rfl⟩
  | guarded id inner next innerIh ih =>
    obtain ⟨b, r, first, rest⟩ := gives_bind.mp given
    obtain ⟨trace, inside⟩ := innerIh (gives_orFailFunction.mp first)
    obtain ⟨trace', goes⟩ := ih b rest
    exact ⟨trace ++ trace', b, r, trace, trace', inside, goes, rfl⟩

theorem Goes.gives {p : Plan α} {a : α} (goes : p.Goes s trace a t) : Gives p.run s a t := by
  induction p generalizing s t trace with
  | done result =>
    obtain ⟨-, rfl, rfl⟩ := goes
    exact gives_pure.mpr ⟨rfl, rfl⟩
  | act action next ih =>
    obtain ⟨b, r, first, rest⟩ := goes
    exact gives_bind.mpr ⟨b, r, first, ih b rest⟩
  | visit context slot e next ih =>
    obtain ⟨b, r, _, first, rest, -⟩ := goes
    exact gives_bind.mpr ⟨b, r, first, ih b rest⟩
  | guarded id inner next innerIh ih =>
    obtain ⟨b, r, _, _, inside, rest, -⟩ := goes
    exact gives_bind.mpr ⟨b, r, gives_orFailFunction.mpr (innerIh inside), ih b rest⟩

/-- The visits of the trace are those that the plan enters, and each has ended with its result. -/
theorem Goes.enters_iff {p : Plan α} {a : α} (goes : p.Goes s trace a t) {v : Visit} :
    p.Enters s v ↔ ∃ passage ∈ trace, passage.visit = v := by
  induction p generalizing s t trace with
  | done result =>
    obtain ⟨rfl, -⟩ := goes
    simp [Enters]
  -- An action gives one result from one state, so what is entered is entered in this very run.
  | act action next ih =>
    obtain ⟨b, r, first, rest⟩ := goes
    rw [← ih b rest]
    constructor
    · rintro ⟨b', r', first', entered⟩
      obtain ⟨rfl, rfl⟩ := first.unique first'
      exact entered
    · exact fun entered => ⟨b, r, first, entered⟩
  | visit context slot e next ih =>
    obtain ⟨b, r, rest, first, goes, rfl⟩ := goes
    rw [List.exists_mem_cons_iff, ← ih b goes]
    constructor
    · rintro (rfl | ⟨b', r', first', entered⟩)
      · exact .inl rfl
      · obtain ⟨rfl, rfl⟩ := Gives.unique first first'
        exact .inr entered
    · rintro (rfl | entered)
      · exact .inl rfl
      · exact .inr ⟨b, r, first, entered⟩
  | guarded id inner next innerIh ih =>
    obtain ⟨b, r, early, late, inside, goes, rfl⟩ := goes
    simp only [List.mem_append, or_and_right, exists_or, ← innerIh inside, ← ih b goes]
    constructor
    · rintro (entered | ⟨b', r', first', entered⟩)
      · exact .inl entered
      · obtain ⟨rfl, rfl⟩ := inside.gives.unique first'
        exact .inr entered
    · rintro (entered | entered)
      · exact .inl entered
      · exact .inr ⟨b, r, inside.gives, entered⟩

theorem Goes.visited {p : Plan α} {a : α} (goes : p.Goes s trace a t) :
    ∀ passage ∈ trace, passage.visit.Gives passage.result passage.after := by
  induction p generalizing s t trace with
  | done result =>
    obtain ⟨rfl, -⟩ := goes
    simp
  | act action next ih =>
    obtain ⟨b, r, -, rest⟩ := goes
    exact ih b rest
  | visit context slot e next ih =>
    obtain ⟨b, r, rest, first, goes, rfl⟩ := goes
    exact List.forall_mem_cons.mpr ⟨first, ih b goes⟩
  | guarded id inner next innerIh ih =>
    obtain ⟨b, r, early, late, inside, goes, rfl⟩ := goes
    exact List.forall_mem_append.mpr ⟨innerIh inside, ih b goes⟩

/-! ### What a trace shows -/

/-- Whatever the visits of the plan give, its value and its trace are as wanted. -/
def Shows : {α : Type} → Plan α → AnalysisState → (α → List Passage → Prop) → Prop
  | _, .done a, _, wanted => wanted a []
  | _, .act action next, s, wanted => ∀ b t, Gives action s b t → (next b).Shows t wanted
  | _, .visit context slot e next, s, wanted =>
    ∀ r t, (next r).Shows t fun a rest => wanted a (⟨⟨context, slot, e, s⟩, r, t⟩ :: rest)
  | _, .guarded _ inner next, s, wanted =>
    inner.Shows s fun b first => ∀ t, (next b).Shows t fun a rest => wanted a (first ++ rest)

variable {P : α → List Passage → Prop} {Q : β → List Passage → Prop}

theorem Shows.of_goes {p : Plan α} (shows : p.Shows s P) {a : α} (goes : p.Goes s trace a t) :
    P a trace := by
  induction p generalizing s t trace with
  | done result =>
    obtain ⟨rfl, rfl, -⟩ := goes
    exact shows
  | act action next ih =>
    obtain ⟨b, r, first, rest⟩ := goes
    exact ih b (shows b r first) rest
  | visit context slot e next ih =>
    obtain ⟨b, r, rest, -, goes, rfl⟩ := goes
    exact ih b (shows b r) goes
  | guarded id inner next innerIh ih =>
    obtain ⟨b, r, early, late, inside, goes, rfl⟩ := goes
    exact ih b (innerIh shows inside r) goes

theorem Shows.mono {p : Plan α} {P' : α → List Passage → Prop} (shows : p.Shows s P)
    (weaker : ∀ a trace, P a trace → P' a trace) : p.Shows s P' := by
  induction p generalizing s with
  | done a => exact weaker a [] shows
  | act action next ih => exact fun b t given => ih b (shows b t given) weaker
  | visit context slot e next ih => exact fun r t => ih r (shows r t) fun a rest => weaker a _
  | guarded id inner next innerIh ih =>
    exact innerIh shows fun b first rest t => ih b (rest t) fun a rest => weaker a _

theorem shows_pure {a : α} (holds : P a []) : (pure a : Plan α).Shows s P := holds

theorem shows_act {action : Walk α} {next : α → Plan β}
    (rest : ∀ a t, Gives action s a t → (next a).Shows t Q) :
    (liftM action >>= next).Shows s Q :=
  rest

theorem shows_bind {p : Plan α} {next : α → Plan β} (first : p.Shows s P)
    (rest : ∀ a t trace, P a trace → (next a).Shows t fun b more => Q b (trace ++ more)) :
    (p >>= next).Shows s Q := by
  change (p.bind next).Shows s Q
  induction p generalizing s Q with
  | done a => exact rest a s [] first
  | act action others ih => exact fun b t given => ih b (first b t given) rest
  | visit context slot e others ih =>
    exact fun r t => ih r (first r t) fun a u trace holds => rest a u _ holds
  | guarded id inner others _ ih =>
    -- The rest of a guarded plan follows what it guards, and the bound plan follows both.
    have inside : inner.Shows s fun b early => ∀ t, (others b).Shows t fun a late =>
        P a (early ++ late) := first
    change inner.Shows s fun b early => ∀ t, ((others b).bind next).Shows t fun b late =>
      Q b (early ++ late)
    refine inside.mono fun b early late t => ih b (late t) fun a u trace holds => ?_
    simpa only [List.append_assoc] using rest a u (early ++ trace) holds

/-- The trace is one visit, of this expression where it stands. -/
def Single (context : Context) (slot : Slot) (e r : Expr) (trace : List Passage) : Prop :=
  ∃ before after, trace = [⟨⟨context, slot, e, before⟩, r, after⟩]

theorem shows_enter {context : Context} {slot : Slot} {e : Expr} :
    (enter context slot e).Shows s (Single context slot e) :=
  fun _ t => ⟨s, t, rfl⟩

theorem shows_guard {id : FunctionId} {inner : Plan α} (shows : inner.Shows s P) :
    (guard id inner).Shows s P := by
  refine shows.mono fun a trace holds t => ?_
  change P a (trace ++ [])
  rwa [List.append_nil]

/-! ### Lists -/

/-- The expressions are the results of the trace in its order. Nothing was attached to any of them. -/
def Lists (rs : List Expr) (trace : List Passage) : Prop :=
  rs = trace.map Passage.result ∧ ∀ passage ∈ trace, passage.visit.slot.attachment = none

theorem lists_nil : Lists [] [] := ⟨rfl, by simp⟩

theorem Lists.append {rs others : List Expr} {more : List Passage} (first : Lists rs trace)
    (rest : Lists others more) : Lists (rs ++ others) (trace ++ more) := by
  refine ⟨?_, List.forall_mem_append.mpr ⟨first.2, rest.2⟩⟩
  rw [first.1, rest.1, List.map_append]

theorem Single.lists {context : Context} {slot : Slot} {e r : Expr}
    (single : Single context slot e r trace) (plain : slot.attachment = none) : Lists [r] trace := by
  obtain ⟨before, after, rfl⟩ := single
  exact ⟨rfl, by simpa using plain⟩

theorem shows_plain {context : Context} {isRoot inChain : Bool} {e : Expr} :
    (enter context { isRoot, inChain } e).Shows s fun r => Lists [r] :=
  shows_enter.mono fun _ _ single => single.lists rfl

theorem shows_each (context : Context) (slot : Expr → Slot) (es : List Expr)
    (plain : ∀ e, (slot e).attachment = none) : (each context slot es).Shows s Lists := by
  induction es generalizing s with
  | nil => exact shows_pure lists_nil
  | cons e es ih =>
    refine shows_bind shows_enter fun r _ first single => ?_
    refine shows_bind ih fun rs _ more others => shows_pure ?_
    simpa using (single.lists (plain e)).append others

theorem shows_option (context : Context) (isRoot : Option Bool) (e : Option Expr) :
    (option context isRoot e).Shows s fun result => Lists result.toList := by
  cases e with
  | none => exact shows_pure lists_nil
  | some e =>
    refine shows_bind shows_plain fun r _ first part => shows_pure ?_
    simpa using part

theorem shows_pairs (context : Context) (entries : List (Expr × Expr)) :
    (pairs context entries).Shows s fun results =>
      Lists (results.flatMap fun entry => [entry.1, entry.2]) := by
  induction entries generalizing s with
  | nil => exact shows_pure lists_nil
  | cons entry entries ih =>
    refine shows_bind shows_plain fun key _ first keys => ?_
    refine shows_bind shows_plain fun value _ second values => ?_
    refine shows_bind ih fun results _ more others => shows_pure ?_
    simpa using keys.append (values.append others)

theorem shows_environmentValues (context : Context) (entries : List (String × Expr)) :
    (environmentValues context entries).Shows s fun results => Lists (results.map Prod.snd) := by
  induction entries generalizing s with
  | nil => exact shows_pure lists_nil
  | cons entry entries ih =>
    refine shows_bind shows_plain fun value _ first values => ?_
    refine shows_bind ih fun results _ more others => shows_pure ?_
    simpa using values.append others

theorem shows_parameterList (context : Context) (seenDefault : Bool) (parameters : List Parameter) :
    (parameterList context seenDefault parameters).Shows s fun results =>
      Lists (results.flatMap Parameter.children) := by
  induction parameters generalizing s seenDefault with
  | nil => exact shows_pure lists_nil
  | cons parameter rest ih =>
    obtain ⟨name, default?, isVariadic⟩ := parameter
    refine shows_act fun _ _ _ => shows_act fun _ _ _ => ?_
    cases default? with
    | none =>
      refine shows_act fun _ _ _ => shows_bind (ih seenDefault) fun others _ more lists => ?_
      exact shows_pure (by simpa [Parameter.children] using lists)
    | some value =>
      refine shows_act fun _ _ _ => shows_bind shows_plain fun value _ first values => ?_
      refine shows_bind (ih true) fun others _ more lists => shows_pure ?_
      simpa [Parameter.children] using values.append lists

theorem shows_catchList (context : Context) (isRoot : Bool) (catches : List Catch) :
    (catchList context isRoot catches).Shows s fun results =>
      Lists (results.flatMap Catch.children) := by
  induction catches generalizing s with
  | nil => exact shows_pure lists_nil
  | cons clause rest ih =>
    obtain ⟨identifier, typeRef, body⟩ := clause
    refine shows_bind (shows_option ..) fun typeRef _ first types => ?_
    refine shows_act fun _ _ _ => shows_act fun _ _ _ => ?_
    refine shows_bind shows_plain fun body _ second bodies => ?_
    refine shows_bind ih fun others _ more lists => shows_pure ?_
    simpa [Catch.children] using types.append (bodies.append lists)

/-! ### Nodes -/

theorem shows_functionDecl (context : Context) (parameters : List Parameter) (body : Expr)
    (module : ModuleId) (takesClosure : Bool) (id : FunctionId) :
    (functionDecl context parameters body module takesClosure id).Shows s fun declared =>
      Lists (declared.1.flatMap Parameter.children ++ [declared.2]) := by
  apply shows_guard
  refine shows_bind (shows_parameterList ..) fun parameters _ first defaults => ?_
  refine shows_act fun _ _ _ => shows_act fun _ _ _ => shows_act fun inner _ _ => ?_
  refine shows_bind shows_plain fun body _ second part => shows_pure ?_
  simpa using defaults.append part

/-- The results of a call's arguments come before those of the values for its environment. -/
theorem shows_call (context : Context) (slot : Slot) (span : Span) (written : Call) :
    (node context slot span (.call written)).Shows s fun made trace =>
      ∃ callee arguments environment, Lists (arguments ++ environment.map Prod.snd) trace ∧
        made.kind = .call { written with
          arguments := Walk.holdProcesses callee (Walk.placePiped callee slot.piped arguments).1
          piped := (Walk.placePiped callee slot.piped arguments).2
          environment
          findings := callee.findings context.scope } := by
  obtain ⟨name, path, arguments, piped, environment, mode, findings⟩ := written
  refine shows_act fun callee _ _ => shows_act fun _ _ _ => ?_
  refine shows_bind (shows_each _ _ _ fun _ => rfl) fun arguments _ first parts => ?_
  refine shows_act fun _ _ _ => shows_act fun _ _ _ => ?_
  refine shows_bind (shows_environmentValues ..) fun environment _ second values => shows_pure ?_
  exact ⟨callee, arguments, environment, by simpa using parts.append values, rfl⟩

/-- Apart from the kinds with a rule of their own, the parts of a node are the results of its trace. -/
theorem shows_node {context : Context} {slot : Slot} {span : Span} {kind : ExprKind}
    (pending : ∀ access name parameters body module takesClosure id f,
      kind = .functionDecl access name parameters body module takesClosure id →
        s.tree.function id = .ok f → ¬ f.status ≠ .pending)
    (pipe : ∀ left op right, kind = .binary left op right → op.redirection? = none)
    (call : kind.name ≠ "call") (literal : kind.name ≠ "literal") (closure : kind.name ≠ "closure") :
    (node context slot span kind).Shows s fun made => Lists made.children := by
  cases kind with
  | moduleDecl access name body =>
    refine shows_act fun _ _ _ => shows_act fun _ _ _ => ?_
    refine shows_bind shows_plain fun body _ first part => shows_pure ?_
    simpa [Expr.children, ExprKind.children] using part
  | structDecl access name parameters module =>
    refine shows_act fun _ _ _ => ?_
    refine shows_bind (shows_parameterList ..) fun parameters _ first parts => ?_
    refine shows_act fun _ _ _ => shows_act fun _ _ _ => shows_pure ?_
    simpa [Expr.children, ExprKind.children] using parts
  | functionDecl access name parameters body module takesClosure id =>
    refine shows_act fun f _ asked => ?_
    obtain ⟨found, rfl⟩ := gives_ask.mp asked
    dsimp only
    -- The parts of a function are visited because it has not been met before.
    rw [if_neg (pending _ _ _ _ _ _ _ f rfl found)]
    refine shows_act fun _ _ _ => shows_act fun _ _ _ => ?_
    refine shows_bind (shows_functionDecl ..) fun declared _ first parts => ?_
    refine shows_act fun _ _ _ => shows_pure ?_
    simpa [Expr.children, ExprKind.children] using parts
  | letIn identifiers value scope =>
    refine shows_act fun _ _ _ => shows_bind shows_plain fun value _ first part => ?_
    refine shows_act fun _ _ _ => shows_pure ?_
    simpa [Expr.children, ExprKind.children] using part
  | construct name path arguments target =>
    refine shows_act fun _ _ _ => shows_act fun _ _ _ => ?_
    refine shows_bind (shows_each _ _ _ fun _ => rfl) fun arguments _ first parts => shows_pure ?_
    simpa [Expr.children, ExprKind.children] using parts
  | ifElse condition thenBranch elseBranch =>
    refine shows_bind shows_plain fun condition _ first tested => ?_
    refine shows_bind shows_plain fun thenBranch _ second chosen => ?_
    refine shows_bind (shows_option ..) fun elseBranch _ third other => shows_pure ?_
    simpa [Expr.children, ExprKind.children] using tested.append (chosen.append other)
  | forEach identifiers value body =>
    refine shows_bind shows_plain fun value _ first source => ?_
    refine shows_act fun _ _ _ => shows_act fun _ _ _ => ?_
    refine shows_bind shows_plain fun body _ second part => shows_pure ?_
    simpa [Expr.children, ExprKind.children] using source.append part
  | whileDo condition body =>
    refine shows_bind shows_plain fun condition _ first tested => shows_act fun _ _ _ => ?_
    refine shows_bind shows_plain fun body _ second part => shows_pure ?_
    simpa [Expr.children, ExprKind.children] using tested.append part
  | sequence form items =>
    refine shows_bind (shows_each _ _ _ fun _ => rfl) fun items _ first parts => shows_pure ?_
    simpa [Expr.children, ExprKind.children] using parts
  | dictionary entries =>
    refine shows_bind (shows_pairs ..) fun entries _ first parts => shows_pure ?_
    simpa [Expr.children, ExprKind.children] using parts
  | block expressions role scope =>
    refine shows_bind (shows_each _ _ _ fun _ => rfl) fun items _ first parts => shows_pure ?_
    simpa [Expr.children, ExprKind.children] using parts
  | keyword token value =>
    refine shows_act fun _ _ _ => shows_bind (shows_option ..) fun value _ first part => ?_
    exact shows_pure (by simpa [Expr.children, ExprKind.children] using part)
  | binary left op right =>
    simp only [node, pipe left op right rfl]
    refine shows_act fun _ _ _ => shows_bind shows_plain fun left _ first one => ?_
    refine shows_bind shows_plain fun right _ second other => shows_pure ?_
    simpa [Expr.children, ExprKind.children] using one.append other
  | unary op value =>
    refine shows_bind shows_plain fun value _ first part => shows_pure ?_
    simpa [Expr.children, ExprKind.children] using part
  | fieldAccess object field fieldValue =>
    refine shows_bind shows_plain fun object _ first part => shows_act fun _ _ _ => shows_pure ?_
    simpa [Expr.children, ExprKind.children] using part
  | range lower upper inclusive =>
    refine shows_bind (shows_option ..) fun lower _ first one => ?_
    refine shows_bind (shows_option ..) fun upper _ second other => shows_pure ?_
    simpa [Expr.children, ExprKind.children] using one.append other
  | indexer value index =>
    refine shows_bind shows_plain fun value _ first one => ?_
    refine shows_bind shows_plain fun index _ second other => shows_pure ?_
    simpa [Expr.children, ExprKind.children] using one.append other
  | typeRef name target =>
    refine shows_act fun kind _ given => shows_pure ?_
    simp only [Walk.typeUse, gives_bind, gives_pure] at given
    obtain ⟨_, _, -, _, _, -, rfl, -⟩ := given
    exact lists_nil
  | variableRef name scope isCaptured =>
    refine shows_act fun kind _ given => shows_pure ?_
    obtain ⟨scope, isCaptured, rfl⟩ := gives_variableUse_kind given
    exact lists_nil
  | tryCatch body catches =>
    refine shows_act fun _ _ _ => shows_bind shows_plain fun body _ first part => ?_
    refine shows_bind (shows_catchList ..) fun catches _ second parts => shows_pure ?_
    simpa [Expr.children, ExprKind.children] using part.append parts
  -- These three have rules of their own.
  | call made => exact absurd rfl call
  | literal token value => exact absurd rfl literal
  | closure => exact absurd rfl closure

end Plan
end ShellSema
