import Mathlib.Data.List.Forall2
import ShellSema.Proofs.Visits

/-!
# The course of a visit

What a visit gives is put together from what its visits of subexpressions give. `Visit.Course` says
how, once for all kinds of expressions: most kinds put the results in the places of their
subexpressions, and the few others are those with a rule of their own, pipes, calls, literals, closures
and functions that have been met before. `Visit.course_of_gives` says that there is no other way.
-/
namespace ShellSema

/-- The scope in which the subexpressions stand of an expression that stands in a scope. -/
def Expr.scopeWithin (outer : ScopeId) (e : Expr) : ScopeId := e.blockScope?.getD outer

/-! ### Results of plans -/

namespace Plan

variable {α β : Type} {good : Context → Slot → Expr → Expr → Prop} {s : AnalysisState}

/-- What the plan gives from a state is as wanted if the results of its visits are good for their
sources where these stand. -/
def Yields (good : Context → Slot → Expr → Expr → Prop) :
    {α : Type} → Plan α → AnalysisState → (α → Prop) → Prop
  | _, .done a, _, wanted => wanted a
  | _, .act action next, s, wanted =>
    ∀ b t, Gives action s b t → (next b).Yields good t wanted
  | _, .visit context slot e next, s, wanted =>
    ∀ r t, good context slot e r → Gives (Walk.expr context slot e) s r t →
      (next r).Yields good t wanted
  | _, .guarded _ inner next, s, wanted =>
    inner.Yields good s fun b => ∀ t, (next b).Yields good t wanted

variable {P : α → Prop} {Q : β → Prop}

theorem Yields.mono {p : Plan α} {P' : α → Prop} (yields : p.Yields good s P)
    (weaker : ∀ a, P a → P' a) : p.Yields good s P' := by
  induction p generalizing s with
  | done a => exact weaker a yields
  | act action next ih => exact fun b t given => ih b (yields b t given) weaker
  | visit context slot e next ih =>
    exact fun r t well given => ih r (yields r t well given) weaker
  | guarded id inner next innerIh ih =>
    exact innerIh yields fun b rest t => ih b (rest t) weaker

theorem yields_pure {a : α} (holds : P a) : (pure a : Plan α).Yields good s P := holds

theorem yields_act {action : Walk α} {next : α → Plan β}
    (rest : ∀ a t, Gives action s a t → (next a).Yields good t Q) :
    (liftM action >>= next).Yields good s Q :=
  rest

theorem yields_bind {p : Plan α} {next : α → Plan β} (first : p.Yields good s P)
    (rest : ∀ a t, P a → (next a).Yields good t Q) : (p >>= next).Yields good s Q := by
  change (p.bind next).Yields good s Q
  induction p generalizing s with
  | done a => exact rest a s first
  | act action others ih => exact fun b t given => ih b (first b t given) rest
  | visit context slot e others ih =>
    exact fun r t well given => ih r (first r t well given) rest
  | guarded id inner others _ ih =>
    have inside : inner.Yields good s fun b => ∀ t, (others b).Yields good t P := first
    change inner.Yields good s fun b => ∀ t, ((others b).bind next).Yields good t Q
    exact inside.mono fun b after t => ih b (after t) rest

theorem yields_enter {context : Context} {slot : Slot} {e : Expr} :
    (enter context slot e).Yields good s (good context slot e) :=
  fun _ _ well _ => well

theorem yields_guard {id : FunctionId} {inner : Plan α} (yields : inner.Yields good s P) :
    (guard id inner).Yields good s P :=
  yields.mono fun _ holds _ => holds

/-- What is given by a plan that yields something is that. -/
theorem Yields.of_gives {p : Plan α} (yields : p.Yields good s P)
    (visits : ∀ v r t, p.Enters s v → v.Gives r t → good v.context v.slot v.source r)
    {a : α} {t : AnalysisState} (given : Gives p.run s a t) : P a := by
  induction p generalizing s t with
  | done result =>
    obtain ⟨rfl, -⟩ := gives_pure.mp given
    exact yields
  | act action next ih =>
    obtain ⟨b, r, first, rest⟩ := gives_bind.mp given
    exact ih b (yields b r first) (fun v r' t' entered => visits v r' t' ⟨b, r, first, entered⟩) rest
  | visit context slot e next ih =>
    obtain ⟨b, r, first, rest⟩ := gives_bind.mp given
    have well : good context slot e b := visits _ b r (.inl rfl) first
    exact ih b (yields b r well first)
      (fun v r' t' entered => visits v r' t' (.inr ⟨b, r, first, entered⟩)) rest
  | guarded id inner next innerIh ih =>
    obtain ⟨b, r, first, rest⟩ := gives_bind.mp given
    -- The guard only marks a function if what is inside halts.
    have first := gives_orFailFunction.mp first
    have after := innerIh yields (fun v r' t' entered => visits v r' t' (.inl entered)) first
    exact ih b (after r) (fun v r' t' entered => visits v r' t' (.inr ⟨b, r, first, entered⟩)) rest

/-- Every plan yields something. -/
theorem yields_any (p : Plan α) : p.Yields good s fun _ => True := by
  induction p generalizing s with
  | done a => trivial
  | act action next ih => exact fun b t _ => ih b
  | visit context slot e next ih => exact fun r t _ _ => ih r
  | guarded id inner next innerIh ih => exact innerIh.mono fun b _ t => ih b

/-- Without a requirement on the visits, only what is done in the end counts. -/
theorem yields_last {p : Plan α} {next : α → Plan β}
    (rest : ∀ a t, (next a).Yields (fun _ _ _ _ => True) t Q) :
    (p >>= next).Yields (fun _ _ _ _ => True) s Q :=
  yields_bind (yields_any p) fun a t _ => rest a t

/-! ### Lists -/

/-- The result is good for an expression that nothing is attached to. -/
def Plain (good : Context → Slot → Expr → Expr → Prop) (context : Context) (e r : Expr) : Prop :=
  ∃ slot, slot.attachment = none ∧ good context slot e r

theorem yields_plain {context : Context} {isRoot inChain : Bool} {e : Expr} :
    (enter context { isRoot, inChain } e).Yields good s (Plain good context e) :=
  yields_enter.mono fun _ well => ⟨_, rfl, well⟩

/-- The results are good for the slots in which the expressions were gone over. -/
theorem yields_slots (context : Context) (slot : Expr → Slot) (es : List Expr) :
    (each context slot es).Yields good s (List.Forall₂ (fun e r => good context (slot e) e r) es) := by
  induction es generalizing s with
  | nil => exact yields_pure .nil
  | cons e es ih =>
    refine yields_bind yields_enter fun r _ well => yields_bind ih fun rs _ others => ?_
    exact yields_pure (.cons well others)

theorem yields_each (context : Context) (slot : Expr → Slot) (es : List Expr)
    (plain : ∀ e, (slot e).attachment = none) :
    (each context slot es).Yields good s (List.Forall₂ (Plain good context) es) :=
  (yields_slots context slot es).mono fun _ goods => goods.imp fun e _ well => ⟨_, plain e, well⟩

theorem yields_optionSlot (context : Context) (isRoot : Option Bool) (e : Option Expr) :
    (option context isRoot e).Yields good s fun result =>
      List.Forall₂ (fun e r => good context { isRoot := isRoot.getD e.isRoot } e r) e.toList
        result.toList := by
  cases e with
  | none => exact yields_pure .nil
  | some e => exact yields_bind yields_enter fun r _ well => yields_pure (.cons well .nil)

theorem yields_option (context : Context) (isRoot : Option Bool) (e : Option Expr) :
    (option context isRoot e).Yields good s fun result =>
      List.Forall₂ (Plain good context) e.toList result.toList :=
  (yields_optionSlot context isRoot e).mono fun _ goods => goods.imp fun _ _ well => ⟨_, rfl, well⟩

theorem yields_pairs (context : Context) (entries : List (Expr × Expr)) :
    (pairs context entries).Yields good s fun results =>
      List.Forall₂ (Plain good context) (entries.flatMap fun entry => [entry.1, entry.2])
        (results.flatMap fun entry => [entry.1, entry.2]) := by
  induction entries generalizing s with
  | nil => exact yields_pure .nil
  | cons entry entries ih =>
    refine yields_bind yields_plain fun key _ wellKey => ?_
    refine yields_bind yields_plain fun value _ wellValue => ?_
    refine yields_bind ih fun others _ wellOthers => yields_pure ?_
    exact .cons wellKey (.cons wellValue wellOthers)

theorem yields_environmentValues (context : Context) (entries : List (String × Expr)) :
    (environmentValues context entries).Yields good s fun results =>
      List.Forall₂ (Plain good context) (entries.map Prod.snd) (results.map Prod.snd) := by
  induction entries generalizing s with
  | nil => exact yields_pure .nil
  | cons entry entries ih =>
    refine yields_bind yields_plain fun value _ well => ?_
    exact yields_bind ih fun others _ wellOthers => yields_pure (.cons well wellOthers)

theorem yields_parameterList (context : Context) (seenDefault : Bool)
    (parameters : List Parameter) :
    (parameterList context seenDefault parameters).Yields good s fun results =>
      List.Forall₂ (Plain good context) (parameters.flatMap Parameter.children)
        (results.flatMap Parameter.children) := by
  induction parameters generalizing s seenDefault with
  | nil => exact yields_pure .nil
  | cons parameter rest ih =>
    obtain ⟨name, default?, isVariadic⟩ := parameter
    refine yields_act fun _ _ _ => yields_act fun _ _ _ => ?_
    cases default? with
    | none =>
      refine yields_act fun _ _ _ => yields_bind (ih seenDefault) fun others _ well => ?_
      exact yields_pure well
    | some value =>
      refine yields_act fun _ _ _ => yields_bind yields_plain fun value _ wellValue => ?_
      exact yields_bind (ih true) fun others _ well => yields_pure (.cons wellValue well)

/-- The clauses stay in their places, each with the results of its type name and its body. -/
theorem yields_catches (context : Context) (isRoot : Bool) (catches : List Catch) :
    (catchList context isRoot catches).Yields good s (List.Forall₂ (fun clause result =>
      List.Forall₂ (Plain good context) clause.typeRef.toList result.typeRef.toList ∧
        good context { isRoot } clause.body result.body) catches) := by
  induction catches generalizing s with
  | nil => exact yields_pure .nil
  | cons clause rest ih =>
    obtain ⟨identifier, typeRef, body⟩ := clause
    refine yields_bind (yields_option ..) fun typeRef _ wellType => ?_
    refine yields_act fun _ _ _ => yields_act fun _ _ _ => ?_
    refine yields_bind yields_enter fun body _ wellBody => ?_
    exact yields_bind ih fun others _ well => yields_pure (.cons ⟨wellType, wellBody⟩ well)

theorem yields_catchList (context : Context) (isRoot : Bool) (catches : List Catch) :
    (catchList context isRoot catches).Yields good s fun results =>
      List.Forall₂ (Plain good context) (catches.flatMap Catch.children)
        (results.flatMap Catch.children) := by
  refine (yields_catches context isRoot catches).mono fun results clauses => ?_
  induction clauses with
  | nil => exact .nil
  | cons parts _ ih =>
    exact List.rel_append (List.rel_append parts.1 (.cons ⟨_, rfl, parts.2⟩ .nil)) ih

/-- The defaults of a function are gone over where it stands. The body, a block, is gone over as its
own. -/
theorem yields_functionDecl (context : Context) (parameters : List Parameter) (body : Expr)
    (module : ModuleId) (takesClosure : Bool) (id : FunctionId) :
    (functionDecl context parameters body module takesClosure id).Yields good s fun declared =>
      List.Forall₂ (Plain good context) (parameters.flatMap Parameter.children)
          (declared.1.flatMap Parameter.children) ∧
        ∃ inner, inner.enclosing = some (.function id) ∧ Plain good inner body declared.2 ∧
          body.isBlock = true := by
  apply yields_guard
  refine yields_bind (yields_parameterList ..) fun parameters _ defaults => ?_
  refine yields_act fun bodyScope _ given => yields_act fun _ _ _ => ?_
  obtain ⟨found, -⟩ := gives_blockScope.mp given
  refine yields_act fun inner _ located => yields_bind yields_plain fun body' _ part => yields_pure ?_
  simp only [Walk.functionContext, gives_bind, gives_pure] at located
  obtain ⟨_, _, -, rfl, -⟩ := located
  exact ⟨defaults, _, rfl, part, Expr.isBlock_of_blockScope? found⟩

/-- A function that is met for the first time is given with the results of its defaults and its body. -/
theorem yields_function {context : Context} {slot : Slot} {span : Span} {access : Access} {name : Token}
    {parameters : List Parameter} {body : Expr} {module : ModuleId} {takesClosure : Bool}
    {id : FunctionId} (pending : ∀ f, s.tree.function id = .ok f → ¬ f.status ≠ .pending) :
    (node context slot span (.functionDecl access name parameters body module takesClosure id)).Yields
      good s fun made => ∃ parameters' body' inner,
        made.kind = .functionDecl access name parameters' body' module takesClosure id ∧
        List.Forall₂ (Plain good context) (parameters.flatMap Parameter.children)
          (parameters'.flatMap Parameter.children) ∧
        inner.enclosing = some (.function id) ∧ Plain good inner body body' ∧
        body.isBlock = true := by
  refine yields_act fun f _ given => ?_
  obtain ⟨asked, -⟩ := gives_ask.mp given
  dsimp only
  rw [if_neg (pending f asked)]
  refine yields_act fun _ _ _ => yields_act fun _ _ _ => ?_
  refine yields_bind (yields_functionDecl ..) fun declared _ parts => ?_
  obtain ⟨defaults, inner, within, part, block⟩ := parts
  exact yields_act fun _ _ _ => yields_pure ⟨_, _, inner, rfl, defaults, within, part, block⟩

/-- A plan that follows a list enters visits of its members only. -/
theorem Follows.mem_of_enters {p : Plan α} {es : List Expr} (follows : p.Follows es) {v : Visit}
    (entered : p.Enters s v) : v.source ∈ es := by
  induction p generalizing s es with
  | done a => exact entered.elim
  | act action next ih =>
    obtain ⟨b, t, -, entered⟩ := entered
    exact ih b (follows b) entered
  | visit context slot e next ih =>
    obtain ⟨rest, suffix, others⟩ := follows
    obtain rfl | ⟨r, t, -, entered⟩ := entered
    · exact suffix.subset List.mem_cons_self
    · exact suffix.subset (List.mem_cons_of_mem _ (ih r (others r) entered))
  | guarded id inner next innerIh ih =>
    obtain ⟨first, rest, rfl, inside, others⟩ := follows
    obtain entered | ⟨b, t, -, entered⟩ := entered
    · exact List.mem_append_left _ (innerIh inside entered)
    · exact List.mem_append_right _ (ih b (others b) entered)

end Plan

theorem Visit.mem_children_of_enters {v w : Visit} (entered : v.Enters w) :
    w.source ∈ v.source.children :=
  (Plan.follows_node ..).mem_of_enters entered.2

/-! ### Single kinds -/

/-- The parts of a body that is a block of one bare reference. -/
theorem reference?_eq_some {body e : Expr} {made : Call}
    (found : Walk.reference? body = some (e, made)) :
    (∃ role scope, body.kind = .block [e] role scope) ∧ e.kind = .call made ∧
      made.mode.isReference = true := by
  unfold Walk.reference? at found
  split at found
  next only role scope same =>
    split at found
    next call kind =>
      split at found
      next reference =>
        simp only [Option.some.injEq, Prod.mk.injEq] at found
        obtain ⟨rfl, rfl⟩ := found
        exact ⟨⟨role, scope, same⟩, kind, reference⟩
      next => cases found
    next => cases found
  next => cases found

theorem gives_variableUse_kind {context : Context} {name : Token} {kind : ExprKind}
    {s t : AnalysisState} (given : Gives (Walk.variableUse context name) s kind t) :
    ∃ scope isCaptured, kind = .variableRef name scope isCaptured := by
  rcases gives_variableUse.mp given with ⟨-, rfl, -⟩ | ⟨-, -, isCaptured, -, rfl, -⟩
  · exact ⟨_, _, rfl⟩
  · exact ⟨_, _, rfl⟩

/-- The operator hands the left side over to the right side. -/
def Expr.isPipe (e : Expr) : Bool :=
  match e.kind with
  | .binary _ op _ => op.redirection?.isSome
  | _ => false

theorem Expr.kind_of_isPipe {e : Expr} (pipe : e.isPipe = true) :
    ∃ left op right redirection, e.kind = .binary left op right ∧
      op.redirection? = some redirection := by
  unfold isPipe at pipe
  split at pipe
  next left op right kind =>
    obtain ⟨redirection, redirects⟩ := Option.isSome_iff_exists.mp pipe
    exact ⟨left, op, right, redirection, kind, redirects⟩
  next => cases pipe

/-- What a visit makes has the root flag that was set for its place. It is of the kind of its source,
but for the calls that shell fragments become. A pipe gives what its right side makes. -/
theorem Visit.made_of_gives {v : Visit} {r : Expr} {t : AnalysisState} (given : v.Gives r t)
    (pipe : v.source.isPipe = false) :
    r.isRoot = v.slot.isRoot ∧ (v.source.kindName ≠ "literal" → r.kindName = v.source.kindName) := by
  obtain ⟨-, made, carried, rfl⟩ := gives_iff.mp given
  change made.isRoot = v.slot.isRoot ∧
    (v.source.kindName ≠ "literal" → made.kindName = v.source.kindName)
  -- What the subexpressions give has no part in the flag and the kind of the node.
  suffices same : v.plan.Yields (fun _ _ _ _ => True) v.before fun made =>
      made.isRoot = v.slot.isRoot ∧ (v.source.kindName ≠ "literal" →
        made.kindName = v.source.kindName) from same.of_gives (fun _ _ _ _ _ => trivial) carried
  obtain ⟨context, slot, ⟨kind, span, isRoot, enclosing⟩, s⟩ := v
  simp only [plan]
  cases kind
  case binary left op right =>
    have plain : op.redirection? = none := by simpa [Expr.isPipe] using pipe
    simp only [Plan.node, plain]
    exact Plan.yields_last fun _ _ => Plan.yields_last fun _ _ => Plan.yields_last fun _ _ =>
      Plan.yields_pure ⟨rfl, fun _ => rfl⟩
  case functionDecl access name parameters body module takesClosure id =>
    refine Plan.yields_last fun f _ => ?_
    dsimp only
    split
    · exact Plan.yields_pure ⟨rfl, fun _ => rfl⟩
    · exact Plan.yields_last fun _ _ => Plan.yields_last fun _ _ => Plan.yields_last fun _ _ =>
        Plan.yields_last fun _ _ => Plan.yields_pure ⟨rfl, fun _ => rfl⟩
  case typeRef name target =>
    refine Plan.yields_act fun kind _ given => Plan.yields_pure ⟨rfl, fun _ => ?_⟩
    simp only [Walk.typeUse, gives_bind, gives_pure] at given
    obtain ⟨_, _, -, _, _, -, rfl, -⟩ := given
    rfl
  case variableRef name scope isCaptured =>
    refine Plan.yields_act fun kind _ given => Plan.yields_pure ⟨rfl, fun _ => ?_⟩
    obtain ⟨scope, isCaptured, rfl⟩ := gives_variableUse_kind given
    rfl
  case call made =>
    obtain ⟨name, path, arguments, piped, environment, mode, findings⟩ := made
    exact Plan.yields_last fun _ _ => Plan.yields_last fun _ _ => Plan.yields_last fun _ _ =>
      Plan.yields_last fun _ _ => Plan.yields_last fun _ _ => Plan.yields_last fun _ _ =>
        Plan.yields_pure ⟨rfl, fun _ => rfl⟩
  case literal token value =>
    exact Plan.yields_last fun _ _ => Plan.yields_pure ⟨rfl, fun literal => absurd rfl literal⟩
  all_goals
    repeat refine Plan.yields_last fun _ _ => ?_
    exact Plan.yields_pure ⟨rfl, fun _ => rfl⟩

theorem Visit.kindName_of_gives {v : Visit} {r : Expr} {t : AnalysisState} (given : v.Gives r t)
    (pipe : v.source.isPipe = false) (literal : v.source.kindName ≠ "literal") :
    r.kindName = v.source.kindName :=
  (made_of_gives given pipe).2 literal

/-- What a visit makes of a block is a block with the same scope. -/
theorem Visit.blockScope_of_gives {v : Visit} {scope : ScopeId} {r : Expr} {t : AnalysisState}
    (found : v.source.blockScope? = some scope) (given : v.Gives r t) :
    r.blockScope? = some scope := by
  obtain ⟨expressions, role, kind⟩ := Expr.kind_of_blockScope? found
  obtain ⟨-, made, carried, rfl⟩ := gives_iff.mp given
  simp only [plan, kind, Plan.node, Plan.run_bind, Plan.run_pure, gives_bind, gives_pure] at carried
  obtain ⟨_, _, -, rfl, -⟩ := carried
  rfl

/-- The function declared here has been met before, so it is left as it is. -/
def Visit.Skips (v : Visit) : Prop :=
  ∃ access name parameters body module takesClosure id f,
    v.source.kind = .functionDecl access name parameters body module takesClosure id ∧
      v.before.tree.function id = .ok f ∧ f.status ≠ .pending

/-- What all results in a list are, if each is the result of something. -/
theorem forall_of_forall₂ {α β : Type} {R : α → β → Prop} {P : β → Prop} {xs : List α} {ys : List β}
    (related : List.Forall₂ R xs ys) (each : ∀ x y, R x y → P y) : ∀ y ∈ ys, P y := by
  induction related with
  | nil => exact fun _ member => absurd member List.not_mem_nil
  | cons first _ ih => exact List.forall_mem_cons.mpr ⟨each _ _ first, ih⟩

namespace Visit

variable {v : Visit} {r : Expr} {t : AnalysisState}

theorem enclosing_of_gives (given : v.Gives r t) : r.enclosing = v.context.enclosing := by
  obtain ⟨-, made, -, rfl⟩ := gives_iff.mp given
  rfl

/-- Something is attached to calls and closures only. -/
theorem detached_of_gives (given : v.Gives r t) (call : v.source.kindName ≠ "call")
    (closure : v.source.kindName ≠ "closure") : v.slot.attachment = none := by
  obtain ⟨admitted, -⟩ := gives_iff.mp given
  unfold Slot.admits at admitted
  split at admitted
  next kind => simp [Expr.kindName, ExprKind.name, kind] at call
  next kind => simp [Expr.kindName, ExprKind.name, kind] at closure
  next => simpa using admitted

/-- A literal is a constant, or the code of a fragment that `bash` runs. -/
theorem literal_of_gives {token : Token} {old : Option Constant}
    (source : v.source.kind = .literal token old) (given : v.Gives r t) :
    (∃ value, token.meaning = .constant value ∧ r.kind = .literal token (some value)) ∨
      ∃ code, token.meaning = .shellFragment code ∧
        r.kind = .call (fragmentCall v.context token v.source.span code) := by
  obtain ⟨-, made, carried, rfl⟩ := gives_iff.mp given
  simp only [plan, source, Plan.node, Plan.run_bind, Plan.run_lift, Plan.run_pure, gives_bind,
    gives_pure] at carried
  obtain ⟨kind, _, literal, rfl, -⟩ := carried
  unfold Walk.literal at literal
  split at literal
  next value means =>
    simp only [gives_bind, gives_pure] at literal
    obtain ⟨_, _, -, rfl, -⟩ := literal
    exact .inl ⟨value, means, rfl⟩
  next code means =>
    simp only [gives_bind, gives_pure] at literal
    obtain ⟨_, _, -, rfl, -⟩ := literal
    exact .inr ⟨code, means, rfl⟩
  next => exact (gives_fail.mp literal).elim

/-- A type name is found where it is used. -/
theorem typeRef_of_gives {name : Token} {old : Option TypeTarget}
    (source : v.source.kind = .typeRef name old) (given : v.Gives r t) :
    ∃ target found, ShellSema.Gives (Walk.typeTarget v.context name.text) v.before target found ∧
      r.kind = .typeRef name (some target) := by
  obtain ⟨-, made, carried, rfl⟩ := gives_iff.mp given
  simp only [plan, source, Plan.node, Plan.run_bind, Plan.run_lift, Plan.run_pure, gives_bind,
    gives_pure, Walk.typeUse] at carried
  obtain ⟨_, _, ⟨target, found, looked, _, _, -, rfl, -⟩, rfl, -⟩ := carried
  exact ⟨target, found, looked, rfl⟩

/-- A variable is used where it stands. -/
theorem variable_of_gives {name : Token} {old : Option ScopeId} {flag : Bool}
    (source : v.source.kind = .variableRef name old flag) (given : v.Gives r t) :
    ShellSema.Gives (Walk.variableUse v.context name) v.before r.kind t := by
  obtain ⟨-, made, carried, rfl⟩ := gives_iff.mp given
  simp only [plan, source, Plan.node, Plan.run_bind, Plan.run_lift, Plan.run_pure, gives_bind,
    gives_pure] at carried
  obtain ⟨kind, _, used, rfl, rfl⟩ := carried
  exact used

/-! ### Parts -/

/-- In its course, the visit goes over an expression in some surroundings, with a result. -/
def Passes (v : Visit) (context : Context) (slot : Slot) (e r : Expr) : Prop :=
  ∃ before after, v.Enters ⟨context, slot, e, before⟩ ∧ Gives ⟨context, slot, e, before⟩ r after

/-- In its course, the visit goes over an expression that nothing is attached to, with a result. -/
def Part (v : Visit) (context : Context) (e r : Expr) : Prop := Plan.Plain v.Passes context e r

theorem Part.isBlock {context : Context} {e r : Expr} (part : v.Part context e r)
    (block : e.isBlock = true) : r.isBlock = true := by
  obtain ⟨slot, -, before, after, -, given⟩ := part
  obtain ⟨scope, found⟩ := Option.isSome_iff_exists.mp block
  exact Expr.isBlock_of_blockScope? (blockScope_of_gives (v := ⟨context, slot, e, before⟩) found given)

/-- In its course, the visit goes over an expression right within its node. The body of a function
stands in the scope of its module, but it is a block. -/
def Inner (v : Visit) (made e r : Expr) : Prop :=
  ∃ context, (context.scope = made.scopeWithin v.context.scope ∨ e.isBlock = true) ∧
    v.Part context e r

/-- What holds of the result of a plan by what its visits give, holds of what the visit makes. -/
theorem yields_of_gives {P : Expr → Prop} (yields : v.plan.Yields v.Passes v.before P)
    {made : Expr} (admitted : v.slot.admits v.source.kind = true)
    (carried : ShellSema.Gives v.plan.run v.before made t) : P made :=
  yields.of_gives (fun w _ after entered given => ⟨w.before, after, ⟨admitted, entered⟩, given⟩) carried

/-- Most visits put what they give for the subexpressions in the places of these. -/
theorem inner_of_gives (given : v.Gives r t) (pipe : v.source.isPipe = false)
    (call : v.source.kindName ≠ "call") (literal : v.source.kindName ≠ "literal")
    (closure : v.source.kindName ≠ "closure") (met : ¬ v.Skips) :
    List.Forall₂ (v.Inner r) v.source.children r.children := by
  obtain ⟨admitted, made, carried, rfl⟩ := gives_iff.mp given
  suffices parts : v.plan.Yields v.Passes v.before fun made =>
      List.Forall₂ (v.Inner made) v.source.children made.children by
    have inner := yields_of_gives parts admitted carried
    exact inner
  -- The scope of a node other than a block is the one around it.
  have list {context : Context} {made : Expr} {es rs : List Expr}
      (scope : context.scope = made.scopeWithin v.context.scope)
      (parts : List.Forall₂ (v.Part context) es rs) : List.Forall₂ (v.Inner made) es rs :=
    parts.imp fun _ _ part => ⟨context, .inl scope, part⟩
  obtain ⟨context, slot, ⟨kind, span, isRoot, enclosing⟩, s⟩ := v
  simp only [plan]
  cases kind
  case moduleDecl access name body =>
    refine Plan.yields_act fun _ _ _ => Plan.yields_act fun _ _ _ => ?_
    refine Plan.yields_bind Plan.yields_plain fun body _ part => Plan.yields_pure ?_
    exact list rfl (.cons part .nil)
  case structDecl access name parameters module =>
    refine Plan.yields_act fun _ _ _ => ?_
    refine Plan.yields_bind (Plan.yields_parameterList ..) fun parameters _ parts => ?_
    refine Plan.yields_act fun _ _ _ => Plan.yields_act fun _ _ _ => Plan.yields_pure ?_
    exact list rfl parts
  case functionDecl access name parameters body module takesClosure id =>
    have pending : ∀ f, s.tree.function id = .ok f → ¬ f.status ≠ .pending := fun f found before =>
      met ⟨access, name, parameters, body, module, takesClosure, id, f, rfl, found, before⟩
    refine (Plan.yields_function pending).mono ?_
    rintro made ⟨parameters', body', inner, kind, defaults, -, part, block⟩
    simp only [Expr.children, kind, ExprKind.children]
    refine List.rel_append (list ?_ defaults) (.cons ⟨inner, .inr block, part⟩ .nil)
    simp [Expr.scopeWithin, Expr.blockScope?, kind]
  case letIn identifiers value scope =>
    refine Plan.yields_act fun _ _ _ => ?_
    refine Plan.yields_bind Plan.yields_plain fun value _ part => ?_
    exact Plan.yields_act fun _ _ _ => Plan.yields_pure (list rfl (.cons part .nil))
  case construct name path arguments target =>
    refine Plan.yields_act fun _ _ _ => Plan.yields_act fun _ _ _ => ?_
    exact Plan.yields_bind (Plan.yields_each _ _ _ fun _ => rfl) fun arguments _ parts =>
      Plan.yields_pure (list rfl parts)
  case ifElse condition thenBranch elseBranch =>
    refine Plan.yields_bind Plan.yields_plain fun condition _ tested => ?_
    refine Plan.yields_bind Plan.yields_plain fun thenBranch _ chosen => ?_
    refine Plan.yields_bind (Plan.yields_option ..) fun elseBranch _ other => Plan.yields_pure ?_
    exact list rfl (.cons tested (.cons chosen other))
  case forEach identifiers value body =>
    refine Plan.yields_bind Plan.yields_plain fun value _ source => ?_
    refine Plan.yields_act fun _ _ _ => Plan.yields_act fun _ _ _ => ?_
    refine Plan.yields_bind Plan.yields_plain fun body _ part => Plan.yields_pure ?_
    exact list rfl (.cons source (.cons part .nil))
  case whileDo condition body =>
    refine Plan.yields_bind Plan.yields_plain fun condition _ tested => ?_
    refine Plan.yields_act fun _ _ _ => ?_
    refine Plan.yields_bind Plan.yields_plain fun body _ part => Plan.yields_pure ?_
    exact list rfl (.cons tested (.cons part .nil))
  case sequence form items =>
    exact Plan.yields_bind (Plan.yields_each _ _ _ fun _ => rfl) fun items _ parts =>
      Plan.yields_pure (list rfl parts)
  case dictionary entries =>
    exact Plan.yields_bind (Plan.yields_pairs ..) fun entries _ parts =>
      Plan.yields_pure (list rfl parts)
  case block expressions role scope =>
    exact Plan.yields_bind (Plan.yields_each _ _ _ fun _ => rfl) fun expressions _ parts =>
      Plan.yields_pure (list rfl parts)
  case keyword token value =>
    refine Plan.yields_act fun _ _ _ => ?_
    exact Plan.yields_bind (Plan.yields_option ..) fun value _ parts =>
      Plan.yields_pure (list rfl parts)
  case binary left op right =>
    have plain : op.redirection? = none := by simpa [Expr.isPipe] using pipe
    simp only [Plan.node, plain]
    refine Plan.yields_act fun _ _ _ => ?_
    refine Plan.yields_bind Plan.yields_plain fun left _ first => ?_
    refine Plan.yields_bind Plan.yields_plain fun right _ second => Plan.yields_pure ?_
    exact list rfl (.cons first (.cons second .nil))
  case unary op value =>
    exact Plan.yields_bind Plan.yields_plain fun value _ part =>
      Plan.yields_pure (list rfl (.cons part .nil))
  case fieldAccess object field fieldValue =>
    refine Plan.yields_bind Plan.yields_plain fun object _ part => ?_
    exact Plan.yields_act fun _ _ _ => Plan.yields_pure (list rfl (.cons part .nil))
  case range lower upper inclusive =>
    refine Plan.yields_bind (Plan.yields_option ..) fun lower _ first => ?_
    refine Plan.yields_bind (Plan.yields_option ..) fun upper _ second => Plan.yields_pure ?_
    exact list rfl (List.rel_append first second)
  case indexer value index =>
    refine Plan.yields_bind Plan.yields_plain fun value _ first => ?_
    refine Plan.yields_bind Plan.yields_plain fun index _ second => Plan.yields_pure ?_
    exact list rfl (.cons first (.cons second .nil))
  case typeRef name target =>
    refine Plan.yields_act fun kind _ given => Plan.yields_pure ?_
    simp only [Walk.typeUse, gives_bind, gives_pure] at given
    obtain ⟨_, _, -, _, _, -, rfl, -⟩ := given
    exact .nil
  case variableRef name scope isCaptured =>
    refine Plan.yields_act fun kind _ given => Plan.yields_pure ?_
    obtain ⟨scope, isCaptured, rfl⟩ := gives_variableUse_kind given
    exact .nil
  case tryCatch body catches =>
    refine Plan.yields_act fun _ _ _ => ?_
    refine Plan.yields_bind Plan.yields_plain fun body _ part => ?_
    refine Plan.yields_bind (Plan.yields_catchList ..) fun catches _ parts => Plan.yields_pure ?_
    exact list rfl (.cons part parts)
  case call => exact absurd rfl call
  case literal => exact absurd rfl literal
  case closure => exact absurd rfl closure

/-- A function that is met for the first time keeps what is written of it, but for its defaults and its
body. -/
theorem function_of_gives {access : Access} {name : Token} {parameters : List Parameter} {body : Expr}
    {module : ModuleId} {takesClosure : Bool} {id : FunctionId}
    (source : v.source.kind = .functionDecl access name parameters body module takesClosure id)
    (given : v.Gives r t) (met : ¬ v.Skips) :
    ∃ parameters' body' inner,
      r.kind = .functionDecl access name parameters' body' module takesClosure id ∧
      List.Forall₂ (v.Part v.context) (parameters.flatMap Parameter.children)
        (parameters'.flatMap Parameter.children) ∧
      inner.enclosing = some (.function id) ∧ v.Part inner body body' ∧ body.isBlock = true := by
  obtain ⟨admitted, made, carried, rfl⟩ := gives_iff.mp given
  have pending : ∀ f, v.before.tree.function id = .ok f → ¬ f.status ≠ .pending :=
    fun f found before =>
      met ⟨access, name, parameters, body, module, takesClosure, id, f, source, found, before⟩
  obtain ⟨context, slot, ⟨kind, span, isRoot, enclosing⟩, s⟩ := v
  cases source
  have parts := yields_of_gives (Plan.yields_function pending) admitted carried
  exact parts

/-! ### The whole walk -/

/-- How the result of a visit is put together, from what its visits give. -/
inductive Course (v : Visit) (r : Expr) (t : AnalysisState) : Prop where
  /-- A pipe gives what the visit of its right side makes, to which the left side is handed over. -/
  | pipe {left right left' told : Expr} {op : BinaryOp} {redirection : Redirection}
      {s u : AnalysisState} (source : v.source.kind = .binary left op right)
      (redirects : op.redirection? = some redirection) (first : v.Part v.context left left')
      (redirected : ShellSema.Gives (Walk.redirect op redirection left') s told u)
      (rest : v.Passes v.context
        { isRoot := v.slot.isRoot, attachment := some { piped := some told } } right r)
  | call {written : Call} {callee : Callee} {arguments : List Expr}
      {environment : List (String × Expr)} (source : v.source.kind = .call written)
      (argumentParts : List.Forall₂ (v.Part v.context) written.arguments arguments)
      (valueParts : List.Forall₂ (v.Part v.context) (written.environment.map Prod.snd)
        (environment.map Prod.snd))
      (kind : r.kind = .call { written with
        arguments := Walk.holdProcesses callee (Walk.placePiped callee v.slot.piped arguments).1
        piped := (Walk.placePiped callee v.slot.piped arguments).2
        environment
        findings := callee.findings v.context.scope })
  | constant {token : Token} {value : Constant} {old : Option Constant}
      (source : v.source.kind = .literal token old) (means : token.meaning = .constant value)
      (kind : r.kind = .literal token (some value))
  | fragment {token : Token} {code : String} {old : Option Constant}
      (source : v.source.kind = .literal token old) (means : token.meaning = .shellFragment code)
      (kind : r.kind = .call (fragmentCall v.context token v.source.span code))
  /-- The call of a closure is one to which the closure is attached, besides what is attached to the
  closure. A body that is a bare reference is expanded in the end. -/
  | closure {attached body call body' body'' : Expr} {parameters parameters' : List Token}
      {captured captured' : NameSet} {old : Option ClosureId} {made : Call} {id : ClosureId}
      {scope : ScopeId} {s : AnalysisState}
      (source : v.source.kind = .closure attached parameters body captured old)
      (called : v.Passes v.context
        { isRoot := attached.isRoot, attachment := some { piped := v.slot.piped, hasClosure := true } }
        attached call)
      (isCall : call.call? = some made) (block : body.blockScope? = some scope)
      (walked : v.Part { v.context with enclosing := some (.closure id) } body body')
      (expanded : ShellSema.Gives (Walk.expandReference id made scope parameters body') s
        (parameters', body'') t)
      (kind : r.kind = .closure call parameters' body'' captured' (some id))
  /-- A function that has been met before stays as it is. -/
  | skipped (skips : v.Skips) (kind : r.kind = v.source.kind)
  /-- All other nodes keep their kind, and each part is replaced by what its visit gives. -/
  | parts (named : r.kindName = v.source.kindName) (pipe : v.source.isPipe = false)
      (call : v.source.kindName ≠ "call") (literal : v.source.kindName ≠ "literal")
      (closure : v.source.kindName ≠ "closure") (met : ¬ v.Skips)
      (inner : List.Forall₂ (v.Inner r) v.source.children r.children)

/-- A pipe visits its left side, and then its right side, to which the left side is handed over. -/
theorem pipe_of_gives {left right : Expr} {op : BinaryOp} {redirection : Redirection}
    (source : v.source.kind = .binary left op right) (redirects : op.redirection? = some redirection)
    (given : v.Gives r t) :
    ∃ left' s told u, Gives ⟨v.context, left.slot, left, v.before⟩ left' s ∧
      ShellSema.Gives (Walk.redirect op redirection left') s told u ∧
      Gives ⟨v.context, { isRoot := v.slot.isRoot, attachment := some { piped := some told } }, right,
        u⟩ r t ∧
      ∀ w, v.Enters w ↔ w = ⟨v.context, left.slot, left, v.before⟩ ∨
        w = ⟨v.context, { isRoot := v.slot.isRoot, attachment := some { piped := some told } }, right,
          u⟩ := by
  obtain ⟨admitted, made, carried, same⟩ := gives_iff.mp given
  simp only [plan, source, Plan.node, redirects, Plan.run_bind, Plan.run_lift, Plan.run_enter,
    gives_bind] at carried
  obtain ⟨left', s, first, told, u, redirected, second⟩ := carried
  -- The visit of the right side has marked its result already.
  have marked : r = made := by
    have handed : Gives ⟨v.context, _, right, u⟩ made t := second
    rw [same, ← enclosing_of_gives handed]
    cases made
    rfl
  subst marked
  refine ⟨left', s, told, u, first, redirected, second, fun w => ?_⟩
  rw [Enters, and_iff_right admitted]
  simp only [plan, source, Plan.node, redirects, Plan.enters_bind, Plan.enters_enter,
    Plan.enters_lift, Plan.run_enter, Plan.run_lift, false_or]
  refine or_congr_right ⟨?_, fun second => ⟨left', s, first, told, u, redirected, second⟩⟩
  rintro ⟨_, _, first', _, _, redirected', rfl⟩
  obtain ⟨rfl, rfl⟩ := ShellSema.Gives.unique first first'
  obtain ⟨rfl, rfl⟩ := redirected.unique redirected'
  rfl

theorem course_of_pipe {left right : Expr} {op : BinaryOp} {redirection : Redirection}
    (source : v.source.kind = .binary left op right) (redirects : op.redirection? = some redirection)
    (given : v.Gives r t) : v.Course r t := by
  obtain ⟨left', s, told, u, first, redirected, second, enters⟩ :=
    pipe_of_gives source redirects given
  exact .pipe source redirects
    ⟨left.slot, rfl, v.before, s, (enters _).mpr (.inl rfl), first⟩ redirected
    ⟨u, t, (enters _).mpr (.inr rfl), second⟩

theorem course_of_call {written : Call} (source : v.source.kind = .call written)
    (given : v.Gives r t) : v.Course r t := by
  obtain ⟨admitted, made, carried, rfl⟩ := gives_iff.mp given
  -- The callee is found first, and decides where the left side of a pipe goes.
  suffices yields : v.plan.Yields v.Passes v.before fun made => ∃ callee arguments environment,
      List.Forall₂ (v.Part v.context) written.arguments arguments ∧
      List.Forall₂ (v.Part v.context) (written.environment.map Prod.snd) (environment.map Prod.snd) ∧
      made.kind = .call { written with
        arguments := Walk.holdProcesses callee (Walk.placePiped callee v.slot.piped arguments).1
        piped := (Walk.placePiped callee v.slot.piped arguments).2
        environment
        findings := callee.findings v.context.scope } by
    obtain ⟨callee, arguments, environment, argumentParts, valueParts, kind⟩ :=
      yields_of_gives yields admitted carried
    exact .call source argumentParts valueParts kind
  obtain ⟨name, path, arguments, piped, environment, mode, findings⟩ := written
  simp only [plan, source]
  refine Plan.yields_act fun callee _ _ => Plan.yields_act fun _ _ _ => ?_
  refine Plan.yields_bind (Plan.yields_each _ _ _ fun _ => rfl) fun arguments _ argumentParts => ?_
  refine Plan.yields_act fun _ _ _ => Plan.yields_act fun _ _ _ => ?_
  refine Plan.yields_bind (Plan.yields_environmentValues ..) fun environment _ valueParts =>
    Plan.yields_pure ?_
  exact ⟨callee, arguments, environment, argumentParts, valueParts, rfl⟩

theorem course_of_literal {token : Token} {old : Option Constant}
    (source : v.source.kind = .literal token old) (given : v.Gives r t) : v.Course r t := by
  rcases literal_of_gives source given with ⟨value, means, kind⟩ | ⟨code, means, kind⟩
  · exact .constant source means kind
  · exact .fragment source means kind

theorem course_of_closure {attached body : Expr} {parameters : List Token} {captured : NameSet}
    {old : Option ClosureId} (source : v.source.kind = .closure attached parameters body captured old)
    (given : v.Gives r t) : v.Course r t := by
  obtain ⟨admitted, made, carried, rfl⟩ := gives_iff.mp given
  have enters (w : Visit) : v.Enters w ↔ v.plan.Enters v.before w := by simp [Enters, admitted]
  simp only [plan, source, Plan.node, Plan.run_bind, Plan.run_lift, Plan.run_enter, Plan.run_pure,
    gives_bind, gives_pure, gives_attachedCall, gives_blockScope, gives_frame] at carried
  obtain ⟨call, s, first, made, _, ⟨isCall, rfl⟩, scope, _, ⟨block, rfl⟩, id, opened, entered, body',
    walked, visited, _, handed, -, ⟨parameters', body''⟩, s', expanded, frame, _,
    ⟨-, rfl⟩, rfl, rfl⟩ := carried
  refine .closure source ⟨v.before, _, ?_, first⟩ isCall block
    ⟨body.slot, rfl, opened, walked, ?_, visited⟩ expanded rfl
  · simp [enters, plan, source, Plan.node]
  · rw [enters]
    simp only [plan, source, Plan.node, Plan.enters_bind, Plan.enters_enter, Plan.enters_lift,
      Plan.run_lift, Plan.run_enter, gives_attachedCall, gives_blockScope, false_or]
    exact .inr ⟨call, _, first, made, _, ⟨isCall, rfl⟩, scope, _, ⟨block, rfl⟩, id, opened, entered,
      .inl rfl⟩

/-- A function that has been met before stays as it is. -/
theorem kind_of_skips (skips : v.Skips) (given : v.Gives r t) : r.kind = v.source.kind := by
  obtain ⟨access, name, parameters, body, module, takesClosure, id, f, source, found, before⟩ := skips
  obtain ⟨-, made, carried, rfl⟩ := gives_iff.mp given
  simp only [plan, source, Plan.node, Plan.run_bind, Plan.run_lift, gives_bind, gives_ask] at carried
  obtain ⟨f', _, ⟨found', rfl⟩, rest⟩ := carried
  rw [found] at found'
  -- The plan asks for the status again, and stops at once.
  cases found'
  rw [if_pos before] at rest
  obtain ⟨rfl, -⟩ := gives_pure.mp rest
  rw [source]

/-- The result of a visit is put together in no other way. -/
theorem course_of_gives (given : v.Gives r t) : v.Course r t := by
  by_cases met : v.Skips
  · exact .skipped met (kind_of_skips met given)
  cases kind : v.source.kind
  case call => exact course_of_call kind given
  case literal => exact course_of_literal kind given
  case closure => exact course_of_closure kind given
  case' binary left op right => cases redirects : op.redirection?
  case binary.some => exact course_of_pipe kind redirects given
  case' sequence form items => cases form
  all_goals
    have named : v.source.kindName ≠ "call" ∧ v.source.kindName ≠ "literal" ∧
        v.source.kindName ≠ "closure" := by
      simp [Expr.kindName, ExprKind.name, Sequence.name, kind]
    have pipe : v.source.isPipe = false := by simp [Expr.isPipe, *]
    refine .parts (kindName_of_gives given pipe named.2.1) pipe named.1 named.2.1 named.2.2 met ?_
    exact inner_of_gives given pipe named.1 named.2.1 named.2.2 met

/-- A visit gives no node of another kind than its source, apart from pipes and from the calls that
shell fragments become. -/
theorem kindName_ne_of_gives (given : v.Gives r t) (pipe : v.source.isPipe = false) {name : String}
    (other : v.source.kindName ≠ name) (call : name ≠ "call") (literal : name ≠ "literal") :
    r.kindName ≠ name := by
  by_cases constant : v.source.kindName = "literal"
  · cases course_of_gives given with
    | constant _ _ kind => simpa [Expr.kindName, ExprKind.name, kind] using literal.symm
    | fragment _ _ kind => simpa [Expr.kindName, ExprKind.name, kind] using call.symm
    | parts _ _ _ otherwise => exact absurd constant otherwise
    | call source => simp [Expr.kindName, ExprKind.name, source] at constant
    | closure source => simp [Expr.kindName, ExprKind.name, source] at constant
    | pipe source => simp [Expr.kindName, ExprKind.name, source] at constant
    | skipped _ kind => rwa [Expr.kindName, kind]
  · rwa [kindName_of_gives given pipe constant]

end Visit
end ShellSema
