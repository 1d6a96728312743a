import ShellSema.Proofs.Edits
import ShellSema.Proofs.Reading

/-!
# What the walk keeps

A relation between states is kept by the walk over a tree if it is kept by the few actions that
change the state: noting a token, opening a closure, capturing a name, declaring a variable, and
registering a declaration. `Preserved` collects these obligations, limited to the scopes and
declarations that a tree may touch, and `Preserved.keeps_expr` derives the walk from them.
-/
namespace ShellSema

/-- The scopes in which a tree may declare variables, and the declarations it may register. -/
structure Permit where
  scope : ScopeId → Prop
  function : Access → Token → ModuleId → Bool → FunctionId → Prop
  struct : Access → Token → ModuleId → Prop

def ExprKind.Permitted (may : Permit) : ExprKind → Prop
  | .block _ _ scope => may.scope scope
  | .functionDecl access name _ _ module takesClosure id =>
    may.function access name module takesClosure id
  | .structDecl access name _ module => may.struct access name module
  | _ => True

instance ExprKind.decidablePermitted {may : Permit} [∀ scope, Decidable (may.scope scope)]
    [∀ access name module takesClosure id,
      Decidable (may.function access name module takesClosure id)]
    [∀ access name module, Decidable (may.struct access name module)] (kind : ExprKind) :
    Decidable (kind.Permitted may) := by
  -- By the eliminator itself, so that the instance carries no equations.
  induction kind using ExprKind.casesOn <;> dsimp only [ExprKind.Permitted] <;> infer_instance

/-- All that a tree declares is permitted. -/
def Expr.Permitted (may : Permit) (e : Expr) : Prop := ∀ n ∈ e.nodes, n.kind.Permitted may

/-- Variables are declared where the expression stands only if that is permitted. A block declares
them in its own scope. -/
def Expr.MayStand (may : Permit) (e : Expr) (scope : ScopeId) : Prop :=
  may.scope scope ∨ e.isBlock = true

theorem Expr.Permitted.child {may : Permit} {c e : Expr} (permitted : e.Permitted may)
    (child : c ∈ e.children) : c.Permitted may :=
  fun n inside => permitted n (mem_nodes_of_child child inside)

theorem Expr.Permitted.self {may : Permit} {e : Expr} (permitted : e.Permitted may) :
    e.kind.Permitted may :=
  permitted e e.mem_nodes_self

theorem Expr.Permitted.blockScope {may : Permit} {e : Expr} {scope : ScopeId}
    (permitted : e.Permitted may) (found : e.blockScope? = some scope) : may.scope scope := by
  have self := permitted.self
  unfold Expr.blockScope? at found
  split at found
  next same => cases found; rw [same] at self; exact self
  next => cases found

/-- What the node itself declares is permitted, and variables in the blocks right below it. -/
structure Expr.PermittedHere (may : Permit) (e : Expr) : Prop where
  self : e.kind.Permitted may
  blocks : ∀ c ∈ e.children, ∀ scope, c.blockScope? = some scope → may.scope scope

theorem Expr.Permitted.here {may : Permit} {e : Expr} (permitted : e.Permitted may) :
    e.PermittedHere may :=
  ⟨permitted.self, fun _ child _ found => (permitted.child child).blockScope found⟩

/-- The actions that change the state keep a relation, apart from those that deal with closures. -/
structure Calm (R : AnalysisState → AnalysisState → Prop) (may : Permit) : Prop where
  refl : ∀ s, R s s
  trans : ∀ r s t, R r s → R s t → R r t
  note : ∀ s span category, R s { s with tokens := s.tokens.map (·.push ⟨span, category⟩) }
  support : ∀ s access name module takesClosure id, may.function access name module takesClosure id →
    R s { s with closureSupport := (id, takesClosure) :: s.closureSupport }
  declare : ∀ scope name, may.scope scope →
    Keeps R (Walk.edit (ScopeTree.Edit.addVariable scope name))
  registerFunction : ∀ access name parameters module takesClosure id,
    may.function access name module takesClosure id →
    Keeps R (Walk.registerFunction access name parameters module takesClosure id)
  registerStruct : ∀ access (name : Token) parameters module, may.struct access name module →
    Keeps R (Walk.edit
      (ScopeTree.Edit.registerStruct { name := name.text, access, module, parameters }))
  failFunction : ∀ access name module takesClosure id,
    may.function access name module takesClosure id →
    Keeps R (Walk.edit (ScopeTree.Edit.changeFunction id fun f => { f with status := .failed }))

/-- The actions that change the state keep a relation, apart from those at the start and the end of
a closure. -/
structure Settled (R : AnalysisState → AnalysisState → Prop) (may : Permit) : Prop
    extends Calm R may where
  /-- Names are added to those that a closure captures. -/
  capture : ∀ s (id : ClosureId) (names : List String), R s { s with
    closures := s.closures.modify id.index fun frame =>
      { frame with captured := frame.captured.union names } }
  mark : ∀ scope name, Keeps R (Walk.edit (ScopeTree.Edit.captureHere scope name))

/-- All actions that change the state keep a relation. -/
structure Preserved (R : AnalysisState → AnalysisState → Prop) (may : Permit) : Prop
    extends Settled R may where
  /-- A function that takes a closure is noted as one whose closure is used in another one. -/
  carriers : ∀ s provider, (s.closureSupport.lookup provider).getD false = true →
    R s { s with carrierCaptured := provider :: s.carrierCaptured }
  enter : ∀ context scope parameters captured, may.scope scope →
    Keeps R (Walk.enterClosure context scope parameters captured)
  expand : ∀ id attached scope parameters body, may.scope scope →
    Keeps R (Walk.expandReference id attached scope parameters body)

namespace Plan

variable {α β : Type} {R : AnalysisState → AnalysisState → Prop} {V : Context → Slot → Expr → Prop}

/-- All actions of the plan itself keep a relation, and all its visits are as wanted. -/
def Within (R : AnalysisState → AnalysisState → Prop) (V : Context → Slot → Expr → Prop) :
    {α : Type} → Plan α → Prop
  | _, .done _ => True
  | _, .act action next => Keeps R action ∧ ∀ b s t, Gives action s b t → (next b).Within R V
  | _, .visit context slot e next => V context slot e ∧ ∀ r, (next r).Within R V
  | _, .guarded id inner next =>
    Keeps R (Walk.edit (ScopeTree.Edit.changeFunction id fun f => { f with status := .failed })) ∧
      inner.Within R V ∧ ∀ b, (next b).Within R V

theorem within_pure (a : α) : (pure a : Plan α).Within R V := trivial

theorem within_enter {context : Context} {slot : Slot} {e : Expr} (wanted : V context slot e) :
    (enter context slot e).Within R V :=
  ⟨wanted, fun _ => trivial⟩

theorem within_bind {p : Plan α} {next : α → Plan β} (first : p.Within R V)
    (rest : ∀ a, (next a).Within R V) : (p >>= next).Within R V := by
  change (p.bind next).Within R V
  induction p with
  | done a => exact rest a
  | act action others ih => exact ⟨first.1, fun b s t given => ih b (first.2 b s t given) rest⟩
  | visit context slot e others ih => exact ⟨first.1, fun r => ih r (first.2 r) rest⟩
  | guarded id inner others _ ih =>
    exact ⟨first.1, first.2.1, fun b => ih b (first.2.2 b) rest⟩

/-- What follows an action may rely on what the action gives. -/
theorem within_act {action : Walk α} {next : α → Plan β} (keeps : Keeps R action)
    (rest : ∀ a s t, Gives action s a t → (next a).Within R V) :
    (liftM action >>= next).Within R V :=
  ⟨keeps, rest⟩

theorem within_visit {context : Context} {slot : Slot} {e : Expr} {next : Expr → Plan β}
    (wanted : V context slot e) (rest : ∀ r, (next r).Within R V) :
    (enter context slot e >>= next).Within R V :=
  ⟨wanted, rest⟩

theorem Within.map {p : Plan α} (within : p.Within R V) (f : α → β) :
    (p >>= fun a => pure (f a)).Within R V :=
  within_bind within fun _ => within_pure _

theorem within_guard {id : FunctionId} {inner : Plan α}
    (failing : Keeps R
      (Walk.edit (ScopeTree.Edit.changeFunction id fun f => { f with status := .failed })))
    (within : inner.Within R V) : (guard id inner).Within R V :=
  ⟨failing, within, fun _ => trivial⟩

/-- From where a guarded action ends, at most the function is marked. -/
theorem related_orFailFunction (trans : ∀ r s t, R r s → R s t → R r t) (refl : ∀ s, R s s)
    {id : FunctionId} (failing : Keeps R
      (Walk.edit (ScopeTree.Edit.changeFunction id fun f => { f with status := .failed })))
    (action : Walk α) (s : AnalysisState) :
    R (runFrom action s).2 (runFrom (Walk.orFailFunction id action) s).2 := by
  refine related_tryCatch refl (fun halt => ?_) action s
  cases halt with
  | failed error => exact keeps_bind trans failing fun _ => keeps_throw refl _
  | crashed crash => exact keeps_throw refl _

/-- However the plan ends, the relation is kept if the visits that it comes to keep it. -/
theorem Within.keeps_from {p : Plan α} (within : p.Within R V) (refl : ∀ s, R s s)
    (trans : ∀ r s t, R r s → R s t → R r t) {s : AnalysisState}
    (visits : ∀ v : Visit, p.Enters s v → V v.context v.slot v.source → R v.before v.after) :
    R s (runFrom p.run s).2 := by
  induction p generalizing s with
  | done a => exact refl s
  | act action next ih =>
    have start := within.1 s
    simp only [run, runFrom_bind]
    rcases given : runFrom action s with ⟨_ | b, t⟩ <;> rw [given] at start
    · exact start
    · exact trans _ _ _ start
        (ih b (within.2 b s t given) fun v entered => visits v ⟨b, t, given, entered⟩)
  | visit context slot e next ih =>
    have start : R s (runFrom (Walk.expr context slot e) s).2 :=
      visits ⟨context, slot, e, s⟩ (.inl rfl) within.1
    simp only [run, runFrom_bind]
    rcases given : runFrom (Walk.expr context slot e) s with ⟨_ | r, t⟩ <;> rw [given] at start
    · exact start
    · exact trans _ _ _ start
        (ih r (within.2 r) fun v entered => visits v (.inr ⟨r, t, given, entered⟩))
  | guarded id inner next innerIh ih =>
    -- What has failed within is marked, which the relation outlasts too.
    have inside := innerIh within.2.1 fun v entered => visits v (.inl entered)
    have start := trans _ _ _ inside (related_orFailFunction trans refl within.1 inner.run s)
    simp only [run, runFrom_bind]
    rcases given : runFrom (Walk.orFailFunction id inner.run) s with ⟨_ | b, t⟩ <;>
      rw [given] at start
    · exact start
    · have given : Gives inner.run s b t := gives_orFailFunction.mp given
      exact trans _ _ _ start
        (ih b (within.2.2 b) fun v entered => visits v (.inr ⟨b, t, given, entered⟩))

/-- A plan keeps a relation that its own actions and its visits keep. -/
theorem Within.keeps_run {p : Plan α} (within : p.Within R V) (refl : ∀ s, R s s)
    (trans : ∀ r s t, R r s → R s t → R r t)
    (visits : ∀ context slot e, V context slot e → Keeps R (Walk.expr context slot e)) :
    Keeps R p.run :=
  fun _ => within.keeps_from refl trans fun v _ wanted => visits _ _ _ wanted v.before

/-- A plan that is carried out leaves a related state if its visits do. -/
theorem Within.of_gives {p : Plan α} (within : p.Within R V) (refl : ∀ s, R s s)
    (trans : ∀ r s t, R r s → R s t → R r t)
    (visits : ∀ v r t, V v.context v.slot v.source → Visit.Gives v r t → R v.before t)
    {s t : AnalysisState} {a : α} (given : Gives p.run s a t) : R s t := by
  induction p generalizing s t with
  | done result =>
    obtain ⟨-, rfl⟩ := gives_pure.mp given
    exact refl _
  | act action next ih =>
    obtain ⟨b, s', first, rest⟩ := gives_bind.mp given
    exact trans _ _ _ (within.1.of_gives first) (ih b (within.2 b s s' first) rest)
  | visit context slot e next ih =>
    obtain ⟨b, s', first, rest⟩ := gives_bind.mp given
    have visited := visits ⟨context, slot, e, s⟩ b s' within.1 first
    exact trans _ _ _ visited (ih b (within.2 b) rest)
  | guarded id inner next innerIh ih =>
    obtain ⟨b, s', first, rest⟩ := gives_bind.mp given
    have inside := innerIh within.2.1 (gives_orFailFunction.mp first)
    exact trans _ _ _ inside (ih b (within.2.2 b) rest)

/-- A visit is entered from a state that is related to the first one. -/
theorem Within.enters {p : Plan α} (within : p.Within R V) (refl : ∀ s, R s s)
    (trans : ∀ r s t, R r s → R s t → R r t)
    (visits : ∀ v r t, V v.context v.slot v.source → Visit.Gives v r t → R v.before t)
    {s : AnalysisState} {v : Visit} (entered : p.Enters s v) :
    V v.context v.slot v.source ∧ R s v.before := by
  induction p generalizing s with
  | done a => exact entered.elim
  | act action next ih =>
    obtain ⟨b, t, given, entered⟩ := entered
    obtain ⟨wanted, related⟩ := ih b (within.2 b s t given) entered
    exact ⟨wanted, trans _ _ _ (within.1.of_gives given) related⟩
  | visit context slot e next ih =>
    obtain rfl | ⟨r, t, given, entered⟩ := entered
    · exact ⟨within.1, refl _⟩
    · obtain ⟨wanted, related⟩ := ih r (within.2 r) entered
      exact ⟨wanted, trans _ _ _ (visits ⟨context, slot, e, s⟩ r t within.1 given) related⟩
  | guarded id inner next innerIh ih =>
    obtain entered | ⟨b, t, given, entered⟩ := entered
    · exact innerIh within.2.1 entered
    · obtain ⟨wanted, related⟩ := ih b (within.2.2 b) entered
      exact ⟨wanted, trans _ _ _ (within.2.1.of_gives refl trans visits given) related⟩

/-- From the end of a visit to the end of the plan, the relation is kept as well. -/
theorem Within.leaves {p : Plan α} (within : p.Within R V) (refl : ∀ s, R s s)
    (trans : ∀ r s t, R r s → R s t → R r t)
    (visits : ∀ v r t, V v.context v.slot v.source → Visit.Gives v r t → R v.before t)
    {s t u : AnalysisState} {v : Visit} {r : Expr} {a : α} (entered : p.Enters s v)
    (left : v.Gives r t) (whole : Gives p.run s a u) : R t u := by
  -- Up to the visit both runs are the same. From there on the rest of the plan is carried out.
  induction p generalizing s u with
  | done a => exact entered.elim
  | act action next ih =>
    obtain ⟨b, s', given, entered⟩ := entered
    obtain ⟨b', s'', given', whole⟩ := gives_bind.mp whole
    obtain ⟨rfl, rfl⟩ := given.unique given'
    exact ih b (within.2 b s _ given) entered whole
  | visit context slot e next ih =>
    obtain ⟨b', s'', given', whole⟩ := gives_bind.mp whole
    obtain rfl | ⟨b, s', given, entered⟩ := entered
    · obtain ⟨rfl, rfl⟩ := Gives.unique left given'
      exact (within.2 _).of_gives refl trans visits whole
    · obtain ⟨rfl, rfl⟩ := given.unique given'
      exact ih b (within.2 b) entered whole
  | guarded id inner next innerIh ih =>
    obtain ⟨b', s'', given', whole⟩ := gives_bind.mp whole
    have given' := gives_orFailFunction.mp given'
    obtain entered | ⟨b, s', given, entered⟩ := entered
    · have inside := innerIh within.2.1 entered given'
      exact trans _ _ _ inside ((within.2.2 _).of_gives refl trans visits whole)
    · obtain ⟨rfl, rfl⟩ := given.unique given'
      exact ih b (within.2.2 b) entered whole

/-- If something comes to be in the course of a plan, but not by its own actions, it comes to be in the
course of one of the visits. -/
theorem Within.exists_causing {P : AnalysisState → Prop} {p : Plan α}
    (within : p.Within (fun s t => P t → P s) V) {s t : AnalysisState} {a : α}
    (given : Gives p.run s a t) (before : ¬ P s) (after : P t) :
    ∃ w r u, p.Enters s w ∧ w.Gives r u ∧ ¬ P w.before ∧ P u := by
  induction p generalizing s t with
  | done result =>
    obtain ⟨-, rfl⟩ := gives_pure.mp given
    exact absurd after before
  | act action next ih =>
    obtain ⟨b, s', first, rest⟩ := gives_bind.mp given
    -- An action between the visits does not bring it about.
    have still : ¬ P s' := fun caused => before (within.1.of_gives first caused)
    obtain ⟨w, r, u, entered, found⟩ := ih b (within.2 b s s' first) rest still after
    exact ⟨w, r, u, ⟨b, s', first, entered⟩, found⟩
  | visit context slot e next ih =>
    obtain ⟨r, s', first, rest⟩ := gives_bind.mp given
    by_cases caused : P s'
    · exact ⟨⟨context, slot, e, s⟩, r, s', .inl rfl, first, before, caused⟩
    · obtain ⟨w, r', u, entered, found⟩ := ih r (within.2 r) rest caused after
      exact ⟨w, r', u, .inr ⟨r, s', first, entered⟩, found⟩
  | guarded function inner next innerIh ih =>
    obtain ⟨b, s', first, rest⟩ := gives_bind.mp given
    have first := gives_orFailFunction.mp first
    by_cases caused : P s'
    · obtain ⟨w, r, u, entered, found⟩ := innerIh within.2.1 first before caused
      exact ⟨w, r, u, .inl entered, found⟩
    · obtain ⟨w, r, u, entered, found⟩ := ih b (within.2.2 b) rest caused after
      exact ⟨w, r, u, .inr ⟨b, s', first, entered⟩, found⟩

theorem Within.mono {p : Plan α} {V' : Context → Slot → Expr → Prop} (within : p.Within R V)
    (weaker : ∀ context slot e, V context slot e → V' context slot e) : p.Within R V' := by
  induction p with
  | done a => trivial
  | act action next ih => exact ⟨within.1, fun b s t given => ih b (within.2 b s t given)⟩
  | visit context slot e next ih => exact ⟨weaker _ _ _ within.1, fun r => ih r (within.2 r)⟩
  | guarded id inner next innerIh ih =>
    exact ⟨within.1, innerIh within.2.1, fun b => ih b (within.2.2 b)⟩

/-- Visits of a plan that follows a list are visits of members of the list. -/
theorem Within.follow {p : Plan α} {es : List Expr} (within : p.Within R V)
    (follows : p.Follows es) : p.Within R fun context slot e => V context slot e ∧ e ∈ es := by
  induction p generalizing es with
  | done a => trivial
  | act action next ih =>
    exact ⟨within.1, fun b s t given => ih b (within.2 b s t given) (follows b)⟩
  | visit context slot e next ih =>
    obtain ⟨rest, suffix, others⟩ := follows
    refine ⟨⟨within.1, suffix.subset (by simp)⟩, fun r => ?_⟩
    exact ih r (within.2 r) ((others r).mono ((List.suffix_cons e rest).trans suffix))
  | guarded id inner next innerIh ih =>
    obtain ⟨first, rest, rfl, inside, others⟩ := follows
    refine ⟨within.1, (innerIh within.2.1 inside).mono fun _ _ e wanted => ?_, fun b => ?_⟩
    · exact ⟨wanted.1, List.mem_append_left rest wanted.2⟩
    · exact ih b (within.2.2 b) ((others b).mono (List.suffix_append _ _))

end Plan

/-! ### Actions that change the state -/

namespace Calm

variable {R : AnalysisState → AnalysisState → Prop} {may : Permit} (kept : Calm R may)

include kept

theorem keeps_unchanging {α : Type} {action : Walk α} (unchanging : Unchanging action) :
    Keeps R action :=
  unchanging.keeps kept.refl

theorem keeps_bind {α β : Type} {action : Walk α} {next : α → Walk β} (first : Keeps R action)
    (rest : ∀ a, Keeps R (next a)) : Keeps R (action >>= next) :=
  ShellSema.keeps_bind kept.trans first rest

theorem keeps_note (span : Span) (category : SemanticCategory) : Keeps R (Walk.note span category) :=
  fun s => kept.note s span category

theorem keeps_noteAll (path : List Token) (category : SemanticCategory) :
    Keeps R (path.forM fun segment => Walk.note segment.span category) :=
  keeps_forM kept.refl kept.trans path fun _ _ => kept.keeps_note _ _

theorem keeps_noteCall (name : Token) (path : List Token) (callee : Callee) :
    Keeps R (Walk.noteCall name path callee) :=
  kept.keeps_bind (kept.keeps_noteAll path .module) fun _ => kept.keeps_note _ _

theorem keeps_noteConstruction (name : Token) (path : List Token) :
    Keeps R (Walk.noteConstruction name path) :=
  kept.keeps_bind (kept.keeps_noteAll path .module) fun _ => kept.keeps_note _ _

theorem keeps_declare {scope : ScopeId} (allowed : may.scope scope) (category : SemanticCategory)
    (name : Token) : Keeps R (Walk.declare scope category name) :=
  kept.keeps_bind (kept.declare scope name.text allowed) fun _ => kept.keeps_note _ _

theorem keeps_declareAll {scope : ScopeId} (category : SemanticCategory) {names : List Token}
    (declares : ∀ name ∈ names, Keeps R (Walk.edit (ScopeTree.Edit.addVariable scope name.text))) :
    Keeps R (names.forM (Walk.declare scope category)) :=
  keeps_forM kept.refl kept.trans names fun name member =>
    kept.keeps_bind (declares name member) fun _ => kept.keeps_note _ _

theorem keeps_declareOption {scope : ScopeId} (category : SemanticCategory) {name? : Option Token}
    (declares : ∀ name ∈ name?, Keeps R (Walk.edit (ScopeTree.Edit.addVariable scope name.text))) :
    Keeps R (name?.forM (Walk.declare scope category)) := by
  cases name? with
  | none => exact keeps_pure kept.refl _
  | some name => exact kept.keeps_bind (declares name rfl) fun _ => kept.keeps_note _ _

theorem keeps_bindAll {context : Context} {names : List Token}
    (declares : ∀ name ∈ names, name.isEnvironmentName = false →
      Keeps R (Walk.edit (ScopeTree.Edit.addVariable context.scope name.text))) :
    Keeps R (names.forM (Walk.bind context)) := by
  refine keeps_forM kept.refl kept.trans names fun name member => ?_
  unfold Walk.bind
  split
  next => exact kept.keeps_note _ _
  next script =>
    exact kept.keeps_bind (declares name member (by simpa using script)) fun _ => kept.keeps_note _ _

theorem keeps_declareParameters {scope : ScopeId} {parameters : List Parameter} {takesClosure : Bool}
    (declares : ∀ p ∈ parameters,
      Keeps R (Walk.edit (ScopeTree.Edit.addVariable scope p.name.text)))
    (carrier : takesClosure = true →
      Keeps R (Walk.edit (ScopeTree.Edit.addVariable scope closureCarrier))) :
    Keeps R (Walk.declareParameters scope parameters takesClosure) := by
  refine kept.keeps_bind ?_ fun _ => ?_
  · exact keeps_forM kept.refl kept.trans parameters declares
  · split
    next takes => exact carrier takes
    next => exact keeps_pure kept.refl _

theorem keeps_typeUse (context : Context) (name : Token) : Keeps R (Walk.typeUse context name) :=
  kept.keeps_bind (kept.keeps_unchanging unchanging_typeTarget) fun _ =>
    kept.keeps_bind (kept.keeps_note _ _) fun _ => keeps_pure kept.refl _

theorem keeps_literal (context : Context) (span : Span) (token : Token) :
    Keeps R (Walk.literal context span token) := by
  unfold Walk.literal
  split
  · exact kept.keeps_bind (kept.keeps_note _ _) fun _ => keeps_pure kept.refl _
  · exact kept.keeps_bind (kept.keeps_note _ _) fun _ => keeps_pure kept.refl _
  · exact kept.keeps_unchanging unchanging_fail

theorem keeps_closureProvider
    (carriers : ∀ s provider, (s.closureSupport.lookup provider).getD false = true →
      R s { s with carrierCaptured := provider :: s.carrierCaptured })
    (carry : ∀ id : ClosureId, Keeps R (Walk.changeFrame id fun frame =>
      { frame with captured := frame.captured.insert closureCarrier }))
    (mark : ∀ scope, Keeps R (Walk.edit (ScopeTree.Edit.capture scope closureCarrier)))
    (context : Context) : Keeps R (Walk.closureProvider context) := by
  refine kept.keeps_bind (keeps_get kept.refl) fun state => ?_
  refine kept.keeps_bind (kept.keeps_unchanging unchanging_ownerWithin) fun owner => ?_
  cases owner with
  | none => exact kept.keeps_unchanging unchanging_fail
  | some provider =>
    intro s
    change R s (runFrom (if (s.closureSupport.lookup provider).getD false then _ else _) s).2
    split
    -- A provider is noted only if it takes closures, and captured only within a closure.
    next supported =>
      split
      next nearest _ =>
        have rest := kept.keeps_bind (carry nearest) fun _ =>
          kept.keeps_bind (mark context.scope) fun _ => keeps_pure kept.refl provider
        exact kept.trans _ _ _ (carriers s provider supported) (rest _)
      next => exact kept.refl s
    next => exact kept.refl s

/-- The callee of a call is found by actions that keep the relation, if this goes for the capture of
the variable that holds a closure. -/
theorem keeps_callee
    (carriers : ∀ s provider, (s.closureSupport.lookup provider).getD false = true →
      R s { s with carrierCaptured := provider :: s.carrierCaptured })
    (carry : ∀ id : ClosureId, Keeps R (Walk.changeFrame id fun frame =>
      { frame with captured := frame.captured.insert closureCarrier }))
    (mark : ∀ scope, Keeps R (Walk.edit (ScopeTree.Edit.capture scope closureCarrier)))
    (context : Context) (name : String) (path : List String) :
    Keeps R (Walk.callee context name path) := by
  unfold Walk.callee
  split
  · exact keeps_pure kept.refl _
  · exact kept.keeps_bind (kept.keeps_closureProvider carriers carry mark context) fun _ =>
      keeps_pure kept.refl _
  · exact keeps_pure kept.refl _
  · exact keeps_pure kept.refl _
  · exact kept.keeps_unchanging unchanging_ordinaryCallee

/-- A bare reference is expanded by actions that keep the relation, if this goes for the parameters
of its closure. -/
theorem keeps_expandReference
    (renames : ∀ s (id : ClosureId) (parameters : List String), R s { s with
      closures := s.closures.modify id.index fun frame => { frame with parameters } })
    (id : ClosureId) (attached : Call) {scope : ScopeId}
    (declares : ∀ name, Keeps R (Walk.edit (ScopeTree.Edit.addVariable scope ("'" ++ name))))
    (parameters : List Token) (body : Expr) :
    Keeps R (Walk.expandReference id attached scope parameters body) := by
  unfold Walk.expandReference
  split
  · exact keeps_pure kept.refl _
  · refine kept.keeps_bind (kept.keeps_unchanging unchanging_impliedNames) fun names => ?_
    refine kept.keeps_bind ?_ fun _ => kept.keeps_bind ?_ fun _ => keeps_pure kept.refl _
    · refine keeps_forM kept.refl kept.trans _ fun parameter member => ?_
      obtain ⟨name, -, rfl⟩ := List.mem_map.mp member
      exact declares name
    · exact fun s => renames s id _

end Calm

namespace Settled

variable {R : AnalysisState → AnalysisState → Prop} {may : Permit} (kept : Settled R may)

include kept

theorem keeps_capture (id : ClosureId) (name : String) :
    Keeps R (Walk.changeFrame id fun frame =>
      { frame with captured := frame.captured.insert name }) :=
  fun s => kept.capture s id [name]

theorem keeps_captureName (context : Context) (name : String) :
    Keeps R (Walk.captureName context name) := by
  unfold Walk.captureName
  split
  next id _ =>
    refine kept.keeps_bind (kept.keeps_unchanging unchanging_frame) fun frame => ?_
    refine kept.keeps_bind (kept.keeps_unchanging unchanging_capturedFrom) fun found => ?_
    cases found with
    | none => exact keeps_pure kept.refl _
    | some declaring =>
      refine kept.keeps_bind (kept.keeps_capture id name) fun _ => ?_
      exact kept.keeps_bind (kept.mark declaring name) fun _ => keeps_pure kept.refl _
  next => exact keeps_pure kept.refl _

theorem keeps_variableUse (context : Context) (name : Token) :
    Keeps R (Walk.variableUse context name) := by
  unfold Walk.variableUse
  split
  · exact kept.keeps_bind (kept.keeps_note _ _) fun _ => keeps_pure kept.refl _
  refine kept.keeps_bind (kept.keeps_unchanging unchanging_ask) fun visible => ?_
  have found : Keeps R (do
      let isCaptured ← Walk.captureName context name.text
      Walk.note name.span .variableName
      return ExprKind.variableRef name (some context.scope) isCaptured) :=
    kept.keeps_bind (kept.keeps_captureName context _) fun _ =>
      kept.keeps_bind (kept.keeps_note _ _) fun _ => keeps_pure kept.refl _
  dsimp only
  split
  · exact kept.keeps_bind (kept.keeps_unchanging unchanging_fail) fun _ => found
  · exact found

/-- To mark the variable that a scope sees is to mark it in the scope that declares it. -/
theorem keeps_markVisible (scope : ScopeId) (name : String) :
    Keeps R (Walk.edit (ScopeTree.Edit.capture scope name)) := by
  intro s
  have marked := fun declaring => kept.mark declaring name s
  have tree := ScopeTree.Edit.runFrom_capture scope name s.tree
  simp only [runFrom_edit_state, tree] at marked ⊢
  split
  · exact marked _
  · exact kept.refl s

theorem keeps_callee
    (carriers : ∀ s provider, (s.closureSupport.lookup provider).getD false = true →
      R s { s with carrierCaptured := provider :: s.carrierCaptured })
    (context : Context) (name : String) (path : List String) :
    Keeps R (Walk.callee context name path) :=
  kept.toCalm.keeps_callee carriers (fun id => kept.keeps_capture id closureCarrier)
    (fun scope => kept.keeps_markVisible scope closureCarrier) context name path

theorem keeps_propagateCaptures (inner : ClosureId) (enclosing : Option Enclosing) :
    Keeps R (Walk.propagateCaptures inner enclosing) := by
  unfold Walk.propagateCaptures
  split
  next outer =>
    refine kept.keeps_bind (kept.keeps_unchanging unchanging_frame) fun innerFrame => ?_
    refine kept.keeps_bind (kept.keeps_unchanging unchanging_frame) fun outerFrame => ?_
    refine kept.keeps_bind (kept.keeps_unchanging unchanging_ask) fun scope => ?_
    split
    · exact keeps_pure kept.refl _
    · refine kept.keeps_bind (kept.keeps_unchanging ?_) fun names => fun s => kept.capture s outer _
      exact unchanging_filterM fun _ => unchanging_reachesOut
  next => exact keeps_pure kept.refl _

/-- A closure is opened by actions that keep the relation, if its frame may be added and its
parameters may be declared. -/
theorem keeps_enterClosure (opens : ∀ frame, Keeps R (Walk.openFrame frame)) (context : Context)
    {scope : ScopeId} {parameters : List Token}
    (declares : ∀ name ∈ parameters,
      Keeps R (Walk.edit (ScopeTree.Edit.addVariable scope name.text))) (captured : NameSet) :
    Keeps R (Walk.enterClosure context scope parameters captured) :=
  kept.keeps_bind (opens _) fun id =>
    kept.keeps_bind (kept.keeps_declareAll _ declares) fun _ => keeps_pure kept.refl id

/-- The actions at the start and the end of a closure keep the relation, if its frame may be added
and its parameters may be replaced. -/
theorem preserved
    (carriers : ∀ s provider, (s.closureSupport.lookup provider).getD false = true →
      R s { s with carrierCaptured := provider :: s.carrierCaptured })
    (opens : ∀ frame, Keeps R (Walk.openFrame frame))
    (renames : ∀ s (id : ClosureId) (parameters : List String), R s { s with
      closures := s.closures.modify id.index fun frame => { frame with parameters } }) :
    Preserved R may := by
  refine { toSettled := kept, carriers, enter := ?_, expand := ?_ }
  · exact fun context scope parameters captured allowed =>
      kept.keeps_enterClosure opens context (fun _ _ => kept.declare _ _ allowed) captured
  · exact fun id attached scope parameters body allowed =>
      kept.keeps_expandReference renames id attached (fun _ => kept.declare _ _ allowed) parameters body

end Settled

/-- Two relations that are kept are kept together. -/
theorem Preserved.and {R R' : AnalysisState → AnalysisState → Prop} {may : Permit}
    (first : Preserved R may) (other : Preserved R' may) :
    Preserved (fun s t => R s t ∧ R' s t) may where
  refl s := ⟨first.refl s, other.refl s⟩
  trans r s t one two := ⟨first.trans r s t one.1 two.1, other.trans r s t one.2 two.2⟩
  note s span category := ⟨first.note s span category, other.note s span category⟩
  support s access name module takesClosure id allowed :=
    ⟨first.support s access name module takesClosure id allowed,
      other.support s access name module takesClosure id allowed⟩
  declare scope name allowed s :=
    ⟨first.declare scope name allowed s, other.declare scope name allowed s⟩
  registerFunction access name parameters module takesClosure id allowed s :=
    ⟨first.registerFunction access name parameters module takesClosure id allowed s,
      other.registerFunction access name parameters module takesClosure id allowed s⟩
  registerStruct access name parameters module allowed s :=
    ⟨first.registerStruct access name parameters module allowed s,
      other.registerStruct access name parameters module allowed s⟩
  failFunction access name module takesClosure id allowed s :=
    ⟨first.failFunction access name module takesClosure id allowed s,
      other.failFunction access name module takesClosure id allowed s⟩
  capture s id names := ⟨first.capture s id names, other.capture s id names⟩
  mark scope name s := ⟨first.mark scope name s, other.mark scope name s⟩
  carriers s provider supported :=
    ⟨first.carriers s provider supported, other.carriers s provider supported⟩
  enter context scope parameters captured allowed s :=
    ⟨first.enter context scope parameters captured allowed s,
      other.enter context scope parameters captured allowed s⟩
  expand id attached scope parameters body allowed s :=
    ⟨first.expand id attached scope parameters body allowed s,
      other.expand id attached scope parameters body allowed s⟩

end ShellSema
