import ShellSema.Proofs.Growth

/-!
# The course of a closure

A closure is gone over in five steps: the call it is attached to, its opening, its body, the handing
over of its captures, and the expansion of a bare reference. Only the last step changes the
parameters in the frame of a closure, and it changes them in the frame of its own closure, so the
closures around it keep theirs.
-/
namespace ShellSema

namespace Visit

/-- The visit of the call to which the closure is attached. -/
def attachedVisit (v : Visit) (attached : Expr) : Visit where
  context := v.context
  slot :=
    { isRoot := attached.isRoot, attachment := some { piped := v.slot.piped, hasClosure := true } }
  source := attached
  before := v.before

/-- The visit of the body of a closure that is opened in a state. -/
def bodyVisit (v : Visit) (body : Expr) (id : ClosureId) (opened : AnalysisState) : Visit where
  context := { v.context with enclosing := some (.closure id) }
  slot := body.slot
  source := body
  before := opened

variable {v : Visit} {attached body : Expr} {parameters : List Token} {captured : NameSet}
  {old : Option ClosureId}

/-- The steps of a closure up to the walk over its body. -/
def Opens (v : Visit) (attached body : Expr) (parameters : List Token) (captured : NameSet)
    (scope : ScopeId) (id : ClosureId) (opened : AnalysisState) : Prop :=
  ∃ call s, (v.attachedVisit attached).Gives call s ∧ body.blockScope? = some scope ∧
    ShellSema.Gives (Walk.enterClosure v.context scope parameters captured) s id opened

theorem closure_of_gives (source : v.source.kind = .closure attached parameters body captured old)
    {r : Expr} {t : AnalysisState} (given : v.Gives r t) :
    ∃ scope id opened body' walked handed made parameters' body'' frame call,
      v.Opens attached body parameters captured scope id opened ∧
      (v.bodyVisit body id opened).Gives body' walked ∧
      ShellSema.Gives (Walk.propagateCaptures id v.context.enclosing) walked () handed ∧
      ShellSema.Gives (Walk.expandReference id made scope parameters body') handed
        (parameters', body'') t ∧
      t.closures[id.index]? = some frame ∧
      r.kind = .closure call parameters' body'' frame.captured (some id) := by
  obtain ⟨-, node, carried, rfl⟩ := gives_iff.mp given
  simp only [plan, source, Plan.node, Plan.run_bind, Plan.run_lift, Plan.run_enter, Plan.run_pure,
    gives_bind, gives_pure, gives_attachedCall, gives_blockScope, gives_frame] at carried
  obtain ⟨call, s, first, made, _, ⟨-, rfl⟩, scope, _, ⟨block, rfl⟩, id, opened, entered, body',
    walked, visited, _, handed, passed, ⟨parameters', body''⟩, s', expanded, frame, _,
    ⟨found, rfl⟩, rfl, rfl⟩ := carried
  exact ⟨scope, id, opened, body', walked, handed, made, parameters', body'', frame, call,
    ⟨call, _, first, block, entered⟩, visited, passed, expanded, found, rfl⟩

/-- What a closure gives holds what the visit of its call gives. -/
theorem attached_of_gives (source : v.source.kind = .closure attached parameters body captured old)
    {call r : Expr} {s t : AnalysisState} (first : (v.attachedVisit attached).Gives call s)
    (given : v.Gives r t) :
    ∃ parameters body captured id, r.kind = .closure call parameters body captured id := by
  obtain ⟨-, node, carried, rfl⟩ := gives_iff.mp given
  simp only [plan, source, Plan.node, Plan.run_bind, Plan.run_lift, Plan.run_enter, Plan.run_pure,
    gives_bind, gives_pure] at carried
  obtain ⟨call', s', first', _, _, -, _, _, -, _, _, -, _, _, -, _, _, -, _, _, -, _, _, -, rfl, -⟩ :=
    carried
  obtain ⟨rfl, -⟩ := ShellSema.Gives.unique first first'
  exact ⟨_, _, _, _, rfl⟩

/-- A closure visits the call it is attached to, and its body. -/
theorem enters_of_opens (source : v.source.kind = .closure attached parameters body captured old)
    {scope : ScopeId} {id : ClosureId} {opened t : AnalysisState} {r : Expr}
    (opens : v.Opens attached body parameters captured scope id opened) (given : v.Gives r t) :
    v.Enters (v.attachedVisit attached) ∧ v.Enters (v.bodyVisit body id opened) := by
  obtain ⟨admitted, node, carried, -⟩ := gives_iff.mp given
  obtain ⟨call, s, first, block, entered⟩ := opens
  simp only [plan, source, Plan.node, Plan.run_bind, Plan.run_lift, Plan.run_enter, gives_bind,
    gives_attachedCall] at carried
  obtain ⟨call', s', first', made, _, ⟨isCall, rfl⟩, -⟩ := carried
  obtain ⟨rfl, rfl⟩ := ShellSema.Gives.unique first first'
  refine ⟨⟨admitted, ?_⟩, admitted, ?_⟩
  · simp [plan, source, Plan.node, attachedVisit]
  · simp only [plan, source, Plan.node, Plan.enters_bind, Plan.enters_enter, Plan.enters_lift,
      Plan.run_lift, Plan.run_enter, gives_attachedCall, gives_blockScope, false_or]
    exact .inr ⟨call, _, first, made, _, ⟨isCall, rfl⟩, scope, _, ⟨block, rfl⟩, id, opened, entered,
      .inl rfl⟩

/-- The visits that a closure enters. -/
theorem closure_enters (source : v.source.kind = .closure attached parameters body captured old)
    {w : Visit} (entered : v.Enters w) :
    w = v.attachedVisit attached ∨ ∃ scope id opened,
      v.Opens attached body parameters captured scope id opened ∧ w = v.bodyVisit body id opened := by
  have enters := entered.2
  simp only [plan, source, Plan.node, Plan.enters_bind, Plan.enters_enter, Plan.enters_lift,
    Plan.enters_pure, Plan.run_lift, Plan.run_enter, gives_attachedCall, gives_blockScope,
    false_or, or_false, and_false, exists_false] at enters
  rcases enters with first | ⟨call, s, first, made, _, ⟨-, rfl⟩, scope, _, ⟨block, rfl⟩, id, opened,
    entered, rest⟩
  · exact .inl first
  · exact .inr ⟨scope, id, opened, ⟨call, _, first, block, entered⟩, rest⟩

/-- A closure is opened in one way. -/
theorem Opens.unique {scope scope' : ScopeId} {id id' : ClosureId} {opened opened' : AnalysisState}
    (one : v.Opens attached body parameters captured scope id opened)
    (other : v.Opens attached body parameters captured scope' id' opened') :
    scope = scope' ∧ id = id' ∧ opened = opened' := by
  obtain ⟨call, s, first, block, entered⟩ := one
  obtain ⟨call', s', first', block', entered'⟩ := other
  obtain ⟨rfl, rfl⟩ := ShellSema.Gives.unique first first'
  rw [block] at block'
  cases block'
  obtain ⟨rfl, rfl⟩ := ShellSema.Gives.unique entered entered'
  exact ⟨rfl, rfl, rfl⟩

end Visit

/-! ### Actions that leave closures alone -/

section Leaving

variable {α β : Type}

/-- The action enters no closure and changes none. -/
def LeavesClosures (action : Walk α) : Prop :=
  Keeps (fun s t : AnalysisState => t.closures = s.closures) action

private theorem sameClosures_refl (s : AnalysisState) : s.closures = s.closures := rfl

private theorem sameClosures_trans (r s t : AnalysisState) (same : s.closures = r.closures)
    (same' : t.closures = s.closures) : t.closures = r.closures :=
  same'.trans same

theorem leavesClosures_bind {action : Walk α} {next : α → Walk β} (first : LeavesClosures action)
    (rest : ∀ a, LeavesClosures (next a)) : LeavesClosures (action >>= next) :=
  keeps_bind sameClosures_trans first rest

theorem leavesClosures_forM {action : α → Walk PUnit} (xs : List α)
    (each : ∀ x ∈ xs, LeavesClosures (action x)) : LeavesClosures (xs.forM action) :=
  keeps_forM sameClosures_refl sameClosures_trans xs each

theorem leavesClosures_edit (change : ScopeTree.Edit α) : LeavesClosures (Walk.edit change) := by
  intro s
  rw [runFrom_edit_state]

/-- A relation that holds whenever the closures are the same is kept by all actions that do not deal
with closures. -/
theorem calm_of_closures {R : AnalysisState → AnalysisState → Prop} (refl : ∀ s, R s s)
    (trans : ∀ r s t, R r s → R s t → R r t)
    (same : ∀ s t : AnalysisState, t.closures = s.closures → R s t) :
    Calm R (Permit.onScopes fun _ => True) where
  refl
  trans
  note _ _ _ := same _ _ rfl
  support _ _ _ _ _ _ _ := same _ _ rfl
  declare _ _ _ s := same _ _ (leavesClosures_edit _ s)
  registerFunction _ _ _ _ _ _ _ :=
    keeps_bind trans (keeps_get refl) fun _ s => same _ _ (leavesClosures_edit _ s)
  registerStruct _ _ _ _ _ s := same _ _ (leavesClosures_edit _ s)
  failFunction _ _ _ _ _ _ s := same _ _ (leavesClosures_edit _ s)

theorem leavesClosures_literal (context : Context) (span : Span) (token : Token) :
    LeavesClosures (Walk.literal context span token) :=
  (calm_of_closures sameClosures_refl sameClosures_trans fun _ _ same => same).keeps_literal context
    span token

theorem leavesClosures_declare (scope : ScopeId) (category : SemanticCategory) (name : Token) :
    LeavesClosures (Walk.declare scope category name) :=
  leavesClosures_bind (leavesClosures_edit _) fun _ _ => rfl

end Leaving

/-! ### Opening a closure -/

theorem declares_of_addVariable {scope : ScopeId} {name : String} {s t : AnalysisState} {u : Unit}
    (given : Gives (Walk.edit (ScopeTree.Edit.addVariable scope name)) s u t) :
    t.tree.Declares scope name := by
  have ended : runFrom (Walk.edit (ScopeTree.Edit.addVariable scope name)) s = (.ok u, t) := given
  rw [runFrom_edit, ScopeTree.Edit.addVariable, ScopeTree.Edit.runFrom_changeScope] at ended
  by_cases known : s.tree.hasScope scope = true
  · rw [if_pos known] at ended
    obtain ⟨-, rfl⟩ := Prod.mk.inj ended
    obtain ⟨entry, found⟩ := ScopeTree.hasScope_iff.mp known
    rw [ScopeTree.scope_eq_ok] at found
    unfold ScopeTree.Declares
    rw [ScopeTree.ownVariable?_modify, if_pos rfl, found, Option.bind_some, Table.get?_insertNew]
    split
    next => rfl
    next declared =>
      rw [Option.isSome_iff_ne_none]
      exact fun absent => declared ⟨rfl, absent⟩
  · rw [if_neg known] at ended
    cases ended

/-- Names that are declared one after the other are all declared in the end. -/
theorem declares_of_forM {scope : ScopeId} {action : Token → Walk PUnit}
    (grows : ∀ name, Keeps (Grows fun _ => True) (action name))
    (declares : ∀ name s t u, Gives (action name) s u t → t.tree.Declares scope name.text)
    {names : List Token} {s t : AnalysisState} {u : PUnit} (given : Gives (names.forM action) s u t) :
    ∀ name ∈ names, t.tree.Declares scope name.text := by
  induction names generalizing s with
  | nil => simp
  | cons name names ih =>
    rw [List.forM_eq_forM, List.forM_cons] at given
    obtain ⟨_, s', first, rest⟩ := gives_bind.mp given
    have others : Keeps (Grows fun _ => True) (names.forM action) :=
      keeps_forM grows_refl Grows.trans names fun name _ => grows name
    have grown := others.of_gives rest
    have declared := grown.tree.declared _ _ (declares name s s' _ first)
    exact List.forall_mem_cons.mpr ⟨declared, ih rest⟩

theorem declares_of_declareAll {scope : ScopeId} {category : SemanticCategory}
    {names : List Token} {s t : AnalysisState} {u : PUnit}
    (given : Gives (names.forM (Walk.declare scope category)) s u t) :
    ∀ name ∈ names, t.tree.Declares scope name.text := by
  have settled := (grows_preserved fun _ => True).toSettled
  refine declares_of_forM (fun name => settled.keeps_declare trivial category name) ?_ given
  intro name s t u given
  obtain ⟨_, s', added, noted⟩ := gives_bind.mp given
  have kept := (settled.keeps_note name.span category).of_gives noted
  exact kept.tree.declared _ _ (declares_of_addVariable added)

/-- A closure that is opened gets the next handle, and its parameters are declared in its body. -/
theorem gives_enterClosure {context : Context} {scope : ScopeId} {parameters : List Token}
    {captured : NameSet} {s t : AnalysisState} {id : ClosureId}
    (given : Gives (Walk.enterClosure context scope parameters captured) s id t) :
    id = ⟨UInt32.ofNat s.closures.size⟩ ∧
      t.closures = s.closures.push
        { bodyScope := scope, parameters := parameters.map Token.text, captured,
          owner := context.enclosing } ∧
      ∀ name ∈ parameters, t.tree.Declares scope name.text := by
  unfold Walk.enterClosure at given
  obtain ⟨id', opened, first, rest⟩ := gives_bind.mp given
  obtain ⟨_, t', declared, last⟩ := gives_bind.mp rest
  obtain ⟨rfl, rfl⟩ := gives_pure.mp last
  have closures : LeavesClosures (parameters.forM (Walk.declare scope .parameter)) :=
    leavesClosures_forM _ fun name _ => leavesClosures_declare scope .parameter name
  have kept := closures.of_gives declared
  simp only [Walk.openFrame, gives_bind, gives_get, gives_set, gives_pure] at first
  obtain ⟨_, _, ⟨rfl, rfl⟩, _, _, rfl, rfl, rfl⟩ := first
  exact ⟨rfl, kept, declares_of_declareAll declared⟩

/-- As long as there are handles for all closures, the handle of a closure that is opened leads to its
frame. -/
theorem index_of_enterClosure {context : Context} {scope : ScopeId} {parameters : List Token}
    {captured : NameSet} {s t : AnalysisState} {id : ClosureId}
    (given : Gives (Walk.enterClosure context scope parameters captured) s id t)
    (room : t.closures.size ≤ 2 ^ 32) :
    id.index = s.closures.size ∧ t.closures[id.index]? = some
      { bodyScope := scope, parameters := parameters.map Token.text, captured,
        owner := context.enclosing } := by
  obtain ⟨handle, closures, -⟩ := gives_enterClosure given
  have number : id.index = s.closures.size := by
    have size : t.closures.size = s.closures.size + 1 := by rw [closures, Array.size_push]
    have whole : UInt32.size = 2 ^ 32 := rfl
    rw [handle]
    exact UInt32.toNat_ofNat_of_lt' (by omega)
  refine ⟨number, ?_⟩
  rw [closures, number, Array.getElem?_push_size]

/-! ### Parameters -/

/-- The closures entered so far keep their parameters, as long as there are handles for all. -/
def Firm (s t : AnalysisState) : Prop :=
  s.closures.size ≤ t.closures.size ∧ (t.closures.size ≤ 2 ^ 32 →
    ∀ (index : Nat) frame, s.closures[index]? = some frame →
      ∃ frame', t.closures[index]? = some frame' ∧ frame'.parameters = frame.parameters)

theorem firm_of_same {s t : AnalysisState} (closures : t.closures = s.closures) : Firm s t := by
  rw [Firm, closures]
  exact ⟨Nat.le_refl _, fun _ index frame found => ⟨frame, found, rfl⟩⟩

theorem firm_refl (s : AnalysisState) : Firm s s := firm_of_same rfl

theorem Firm.trans (r s t : AnalysisState) (first : Firm r s) (rest : Firm s t) : Firm r t := by
  refine ⟨Nat.le_trans first.1 rest.1, fun room index frame found => ?_⟩
  obtain ⟨frame', found', same⟩ := first.2 (Nat.le_trans rest.1 room) index frame found
  obtain ⟨frame'', found'', same'⟩ := rest.2 room index frame' found'
  exact ⟨frame'', found'', same'.trans same⟩

theorem firm_settled : Settled Firm (Permit.onScopes fun _ => True) where
  toCalm := calm_of_closures firm_refl Firm.trans fun _ _ => firm_of_same
  capture s id names := by
    refine ⟨Nat.le_of_eq (Array.size_modify ..).symm, fun _ index frame found => ?_⟩
    simp only [Array.getElem?_modify, found, Option.map_some]
    split
    · exact ⟨_, rfl, rfl⟩
    · exact ⟨frame, rfl, rfl⟩
  mark _ _ s := firm_of_same (leavesClosures_edit _ s)

/-- No closure is entered. -/
def SameCount (s t : AnalysisState) : Prop := t.closures.size = s.closures.size

theorem sameCount_settled : Settled SameCount (Permit.onScopes fun _ => True) where
  toCalm := calm_of_closures (fun _ => rfl) (fun _ _ _ first rest => Eq.trans rest first)
    fun _ _ same => congrArg Array.size same
  capture _ _ _ := Array.size_modify ..
  mark _ _ s := congrArg Array.size (leavesClosures_edit _ s)

theorem firm_push {s t : AnalysisState} {frame : ClosureFrame}
    (closures : t.closures = s.closures.push frame) : Firm s t := by
  rw [Firm, closures, Array.size_push]
  exact ⟨Nat.le_succ _, fun _ index old found => ⟨old, getElem?_push_of_some found frame, rfl⟩⟩

/-- The expansion of a reference changes the frame of its own closure only. -/
theorem closures_of_expandReference {id : ClosureId} {attached : Call} {scope : ScopeId}
    {parameters : List Token} {body : Expr} {result : List Token × Expr} {s t : AnalysisState}
    (given : Gives (Walk.expandReference id attached scope parameters body) s result t) :
    t.closures.size = s.closures.size ∧
      ∀ index, index ≠ id.index → t.closures[index]? = s.closures[index]? := by
  unfold Walk.expandReference at given
  split at given
  · obtain ⟨-, rfl⟩ := gives_pure.mp given
    exact ⟨rfl, fun _ _ => rfl⟩
  next e made found =>
    simp only [gives_bind, gives_pure] at given
    obtain ⟨names, s₁, named, _, s₂, declared, _, s₃, changed, -, rfl⟩ := given
    have same := unchanging_impliedNames.of_gives named
    subst same
    have closures : LeavesClosures ((names.map (Walk.impliedParameter made.name)).forM
        fun parameter => Walk.edit (ScopeTree.Edit.addVariable scope parameter.text)) :=
      leavesClosures_forM _ fun _ _ => leavesClosures_edit _
    -- Declaring the implied parameters leaves the frames alone, so only the frame of the closure
    -- itself is changed.
    have kept := closures.of_gives declared
    simp only [Walk.changeFrame, gives_modify] at changed
    subst changed
    simp only [Array.size_modify, Array.getElem?_modify, kept, true_and]
    intro index other
    rw [if_neg other.symm]

/-- A visit leaves the parameters of the closures around it as they are. -/
theorem Visit.firm_of_gives {v : Visit} {r : Expr} {t : AnalysisState} (given : v.Gives r t) :
    Firm v.before t := by
  induction same : v.source using Expr.induction generalizing v r t with
  | inherited e ih =>
    subst same
    by_cases other : v.source.kindName ≠ "closure"
    · obtain ⟨-, made, carried, -⟩ := gives_iff.mp given
      have within : v.plan.Within Firm fun context slot c =>
          Standing (Permit.onScopes fun _ => True) v.source.kind v.context context slot c ∧
            c ∈ v.source.children :=
        (Plan.within_other firm_settled (fun _ _ _ => firm_of_same rfl)
          v.source.permitted_everywhere.here (.inl trivial) other).follow (Plan.follows_node ..)
      refine within.of_gives firm_refl Firm.trans ?_ carried
      intro w r t wanted given
      exact ih w.source wanted.2 given rfl
    · obtain ⟨attached, parameters, body, captured, old, source⟩ :=
        Expr.closure_of_kindName (not_not.mp other)
      obtain ⟨scope, id, opened, body', walked, handed, made, parameters', body'', frame, call,
        ⟨call', s, first, -, entered⟩, visited, passed, expanded, -, -⟩ := closure_of_gives source given
      have children : attached ∈ v.source.children ∧ body ∈ v.source.children := by
        simp [Expr.children, ExprKind.children, source]
      obtain ⟨same, closures, -⟩ := gives_enterClosure entered
      have before : Firm v.before s := ih attached children.1 (v := v.attachedVisit attached) first rfl
      have inside : Firm opened walked :=
        ih body children.2 (v := v.bodyVisit body id opened) visited rfl
      have after : Firm walked handed :=
        (firm_settled.keeps_propagateCaptures _ _).of_gives passed
      have throughout : Firm s handed :=
        Firm.trans _ _ _ (firm_push closures) (Firm.trans _ _ _ inside after)
      obtain ⟨size, others⟩ := closures_of_expandReference expanded
      have larger : s.closures.size < handed.closures.size := by
        have pushed : opened.closures.size = s.closures.size + 1 := by
          rw [closures, Array.size_push]
        have grown := (Firm.trans _ _ _ inside after).1
        omega
      refine ⟨by rw [size]; exact Nat.le_trans before.1 throughout.1, fun room index frame found => ?_⟩
      rw [size] at room
      obtain ⟨frame₁, found₁, same₁⟩ := before.2 (by omega) index frame found
      obtain ⟨frame₂, found₂, same₂⟩ := throughout.2 room index frame₁ found₁
      -- The closure that ends has a later handle than those around it.
      have apart : index ≠ id.index := by
        have within : index < s.closures.size := (Array.getElem?_eq_some_iff.mp found₁).1
        have number : id.index = s.closures.size := by
          rw [same]
          have room' : s.closures.size < UInt32.size := by
            have whole : UInt32.size = 2 ^ 32 := rfl
            omega
          exact UInt32.toNat_ofNat_of_lt' room'
        omega
      exact ⟨frame₂, by rw [others index apart, found₂], same₂.trans same₁⟩

end ShellSema
