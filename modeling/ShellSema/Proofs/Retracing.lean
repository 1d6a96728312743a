import ShellSema.Proofs.Carriers
import ShellSema.Proofs.Rereading
import ShellSema.Proofs.TokenCoverage

/-!
# The same tree again

The second of two walks goes over the tree that the first one has gone over. Node by node it does what
the first walk has done there, and it makes of each node outside of functions something with the same
outline. In closures the places of the two walks differ in the closure around them only.
-/
namespace ShellSema

section Retracing

variable {run : Rerun} {spot : Spot}

/-! ### Actions of nodes -/

theorem follows_noteCall (name : Token) (path : List Token) (callee : Callee) :
    Follows run spot (Walk.noteCall name path callee) (Walk.noteCall name path callee)
      fun _ _ => True := by
  apply follows_bind (follows_noteAll path .module) fun _ => trivial
  exact fun _ _ _ => follows_note name.span callee.category

theorem follows_noteConstruction (name : Token) (path : List Token) :
    Follows run spot (Walk.noteConstruction name path) (Walk.noteConstruction name path)
      fun _ _ => True := by
  apply follows_bind (follows_noteAll path .module) fun _ => trivial
  exact fun _ _ _ => follows_note name.span .struct

theorem follows_typeUse (context : Context) (name : Token) :
    Follows run spot (Walk.typeUse context name) (Walk.typeUse context name) (· = ·) := by
  have found : Follows run spot (Walk.typeTarget context name.text) _ (· = ·) :=
    (rereads_typeTarget context name.text).follows unchanging_typeTarget
  apply follows_bind found fun _ => rfl
  rintro target _ rfl
  apply follows_bind (follows_note name.span .type) fun _ => trivial
  exact fun _ _ _ => follows_pure rfl

/-- A shell fragment becomes a call with arguments that are marked with what is around. -/
theorem follows_literal (context : Context) (enclosing : Option Enclosing) (span : Span) (token : Token) :
    Follows run spot (Walk.literal context span token)
      (Walk.literal { context with enclosing } span token) fun kind kind' =>
        kind'.outline run.last.tree spot.around = kind.outline run.last.tree spot.around := by
  unfold Walk.literal
  cases token.meaning with
  | constant value =>
    apply follows_bind (follows_note token.span value.category) fun _ => trivial
    exact fun _ _ _ => follows_pure rfl
  | shellFragment code =>
    apply follows_bind (follows_note token.span .program) fun _ => trivial
    exact fun _ _ _ => follows_pure rfl
  | badNumber =>
    apply follows_of_halts (onward_calm.keeps_unchanging unchanging_fail)
    exact fun _ _ _ given => (gives_fail.mp given).elim

/-- Outside of functions no closure of a function is called. -/
theorem Repeating.not_provided {context : Context} {s s' t : AnalysisState} {provider : FunctionId}
    (repeating : Repeating run spot s s') (enclosing : context.enclosing = spot.first) :
    ¬ Gives (Walk.closureProvider context) s provider t := by
  intro given
  obtain ⟨owned, -⟩ := closureProvider_cases given
  rw [enclosing] at owned
  cases repeating.linked.ownedBy.eq_of_gives owned

theorem follows_callee {context : Context} (enclosing : context.enclosing = spot.first) (name : String)
    (path : List String) :
    Follows run spot (Walk.callee context name path)
      (Walk.callee { context with enclosing := spot.second } name path) (· = ·) where
  onward := onward_preserved.toSettled.keeps_callee onward_preserved.carriers context name path
  arrives := by
    have ordinary : Follows run spot (Walk.ordinaryCallee context name path) _ (· = ·) :=
      (rereads_ordinaryCallee context name path).follows unchanging_ordinaryCallee
    intro s s' callee t repeating given onward
    unfold Walk.callee at given ⊢
    split at given
    · exact (follows_pure rfl).arrives _ _ _ _ repeating given onward
    · obtain ⟨provider, _, provided, -⟩ := gives_bind.mp given
      exact (repeating.not_provided enclosing provided).elim
    · exact (follows_pure rfl).arrives _ _ _ _ repeating given onward
    · exact (follows_pure rfl).arrives _ _ _ _ repeating given onward
    · exact ordinary.arrives _ _ _ _ repeating given onward

/-! ### Closures -/

theorem framesStay_push (frames : Array ClosureFrame) (frame : ClosureFrame) :
    FramesStay frames (frames.push frame) := by
  intro index old found
  exact ⟨old, getElem?_push_of_some found frame, rfl, rfl⟩

theorem follows_openFrame (frame frame' : ClosureFrame) :
    Follows run spot (Walk.openFrame frame) (Walk.openFrame frame') fun _ _ => True where
  onward s := onward_of_frames (framesGrow_push _ _) (framesStay_push _ _)
  arrives := by
    intro s s' id t repeating given onward
    simp only [Walk.openFrame, gives_bind, gives_get, gives_set, gives_pure] at given
    obtain ⟨_, s, ⟨rfl, rfl⟩, _, _, rfl, -, rfl⟩ := given
    have opened : Gives (Walk.openFrame frame') s' ⟨UInt32.ofNat s'.closures.size⟩
      { s' with closures := s'.closures.push frame' } := rfl
    apply arrives_of_gives opened
    refine ⟨trivial, ?_⟩
    exact
      { passes := repeating.passes.still (sameSymbols_of_same rfl) onward
        resembles := repeating.resembles
        linked := repeating.linked.kept (framesStay_push _ _) (framesStay_push _ _)
        fewer := by
          rw [Array.size_push, Array.size_push]
          exact Nat.succ_le_succ repeating.fewer
        noted := repeating.noted.of_same rfl rfl }

theorem follows_enterClosure (context context' : Context) (scope : ScopeId) (parameters : List Token)
    (captured : NameSet) :
    Follows run spot (Walk.enterClosure context scope parameters captured)
      (Walk.enterClosure context' scope parameters captured) fun _ _ => True := by
  apply follows_bind (follows_openFrame _ _) fun _ => trivial
  intro id id' _
  apply follows_bind (follows_declareAll scope .parameter parameters) fun _ => trivial
  exact fun _ _ _ => follows_pure trivial

/-- What is done in a closure is done in the closure that the other walk has entered there. -/
theorem follows_within {α β : Type} {alike : α → β → Prop} {context : Context} {scope : ScopeId}
    {parameters : List Token} {captured : NameSet} {next : ClosureId → Walk α}
    {next' : ClosureId → Walk β} (enclosing : context.enclosing = spot.first)
    (room : run.last.closures.size ≤ 2 ^ 32)
    (inside : ∀ id id', Follows run ⟨some scope, some (.closure id), some (.closure id')⟩ (next id)
      (next' id') alike) (goes : ∀ id, Keeps Onward (next' id)) :
    Follows run spot (Walk.enterClosure context scope parameters captured >>= next)
      (Walk.enterClosure { context with enclosing := spot.second } scope parameters captured >>= next')
      alike where
  onward := by
    apply onward_calm.keeps_bind (onward_preserved.enter context scope parameters captured trivial)
    exact fun id => (inside id id).onward
  arrives := by
    intro s s' a u repeating given onward
    obtain ⟨id, t, entered, given⟩ := gives_bind.mp given
    have between : Onward t u := (inside id id).onward.of_gives given
    have reaches : Onward t run.last := onward_calm.trans _ _ _ between onward
    have first : Onward s t :=
      (onward_preserved.enter context scope parameters captured trivial).of_gives entered
    have follows : Follows run spot (Walk.enterClosure context scope parameters captured) _ _ :=
      follows_enterClosure context { context with enclosing := spot.second } scope parameters captured
    apply (follows.arrives s s' id t repeating entered reaches).bind
    rintro id' t' entered' ⟨-, repeating'⟩
    have second : Onward s' t' :=
      (onward_preserved.enter _ scope parameters captured trivial).of_gives entered'
    -- The handles of both closures lead to their frames.
    have whole : t.closures.size ≤ 2 ^ 32 := Nat.le_trans reaches.grows.frames.size_le room
    obtain ⟨-, found⟩ := index_of_enterClosure entered whole
    obtain ⟨-, found'⟩ := index_of_enterClosure entered' (Nat.le_trans repeating'.fewer whole)
    have outside : Linked t.closures t'.closures ⟨spot.around, context.enclosing, spot.second⟩ := by
      rw [enclosing]
      exact repeating'.linked
    have within : Repeating run ⟨some scope, some (.closure id), some (.closure id')⟩ t t' :=
      { repeating' with linked := .closure found found' rfl outside }
    apply ((inside id id').arrives t t' a u within given onward).mono
    rintro b u' given' ⟨same, ended⟩
    refine ⟨same, { ended with linked := ?_ }⟩
    -- Back outside, the closures around are those from before.
    apply repeating.linked.kept (onward_calm.trans _ _ _ first between).framesStay
    exact (onward_calm.trans _ _ _ second ((goes id').of_gives given')).framesStay

theorem quiet_renameParameters (id : ClosureId) (parameters : List String) :
    Keeps Quiet (Walk.changeFrame id fun frame => { frame with parameters }) := by
  intro s
  have grow : FramesGrow s.closures (s.closures.modify id.index fun frame => { frame with parameters }) :=
    framesGrow_modify _ _ (fun _ => rfl) fun _ _ member => member
  have stay :
      FramesStay s.closures (s.closures.modify id.index fun frame => { frame with parameters }) := by
    intro index frame found
    rw [Array.getElem?_modify, found]
    split
    · exact ⟨_, rfl, rfl, rfl⟩
    · exact ⟨_, rfl, rfl, rfl⟩
  exact ⟨onward_of_frames grow stay, sameSymbols_of_same rfl, grows_frames grow, Array.size_modify⟩

theorem follows_renameParameters (id id' : ClosureId) (parameters : List String) :
    Follows run spot (Walk.changeFrame id fun frame => { frame with parameters })
      (Walk.changeFrame id' fun frame => { frame with parameters }) fun _ _ => True :=
  follows_of_quiet (quiet_renameParameters _ _) (quiet_renameParameters _ _) (silent_changeFrame _ _)
    (silent_changeFrame _ _) unfailing_modify

theorem follows_propagateCaptures (id id' : ClosureId) (enclosing enclosing' : Option Enclosing) :
    Follows run spot (Walk.propagateCaptures id enclosing) (Walk.propagateCaptures id' enclosing')
      fun _ _ => True := by
  have quiet (id : ClosureId) (enclosing : Option Enclosing) :
      Keeps Quiet (Walk.propagateCaptures id enclosing) :=
    quiet_of_settled fun _ _ settled => settled.keeps_propagateCaptures id enclosing
  exact follows_of_quiet (quiet _ _) (quiet _ _) (silent_propagateCaptures _ _)
    (silent_propagateCaptures _ _) unfailing_propagateCaptures

theorem follows_frame (id id' : ClosureId) :
    Follows run spot (Walk.frame id) (Walk.frame id') fun _ _ => True := by
  have quiet (id : ClosureId) : Keeps Quiet (Walk.frame id) :=
    quiet_of_settled fun _ _ settled => settled.keeps_unchanging unchanging_frame
  exact follows_of_quiet (quiet _) (quiet _) unchanging_frame.silent unchanging_frame.silent
    unfailing_frame

/-- A bare reference is expanded alike, for calls that have been found to be alike. -/
theorem follows_expandReference {tree : ScopeTree} {outside around : Option ScopeId} {scope : ScopeId}
    (id id' : ClosureId) {attached attached' : Call} {parameters : List Token} {body body' : Expr}
    (calls : outlineCall tree outside attached' = outlineCall tree outside attached)
    (same : body'.outline tree around = body.outline tree around) :
    Follows run spot (Walk.expandReference id attached scope parameters body)
      (Walk.expandReference id' attached' scope parameters body') fun result result' =>
        result'.1 = result.1 ∧ result'.2.outline tree around = result.2.outline tree around := by
  -- Bodies that are outlined alike are references or not alike, to the same name.
  have found := congrArg Walk.reference? same
  rw [Walk.outline_reference?, Walk.outline_reference?] at found
  unfold Walk.expandReference
  cases here : Walk.reference? body with
  | none =>
    rw [here] at found
    rw [Option.map_eq_none_iff.mp found]
    exact follows_pure ⟨rfl, same⟩
  | some reference =>
    obtain ⟨e, made⟩ := reference
    rw [here] at found
    obtain ⟨⟨e', made'⟩, there, alike⟩ := Option.map_eq_some_iff.mp found
    rw [there]
    injection alike with expressions mades
    have names : Follows run spot (Walk.impliedNames attached) (Walk.impliedNames attached') (· = ·) :=
      (rereads_impliedNames calls).follows unchanging_impliedNames
    apply follows_bind names fun _ => rfl
    rintro names _ rfl
    have name : made'.name = made.name := by simpa using congrArg Call.name mades
    rw [name]
    generalize names.map (Walk.impliedParameter made.name) = implied
    have declared : Follows run spot
        (implied.forM fun parameter => Walk.edit (ScopeTree.Edit.addVariable scope parameter.text)) _ _ :=
      follows_forM implied fun parameter _ => follows_addVariable scope parameter.text
    apply follows_bind declared fun _ => trivial
    intro _ _ _
    apply follows_bind (follows_renameParameters id id' _) fun _ => trivial
    intro _ _ _
    apply follows_pure
    refine ⟨rfl, ?_⟩
    rw [Walk.outline_replaceOnly, Walk.outline_replaceOnly, same]
    congr 1
    obtain ⟨kind, span, isRoot, enclosing⟩ := e
    obtain ⟨kind', span', isRoot', enclosing'⟩ := e'
    injection expressions with _ span isRoot
    apply Expr.outline_congr _ span isRoot
    exact congrArg ExprKind.call (Walk.outline_expandedCall id id' scope implied mades)

end Retracing

/-! ### Visits and lists of them -/

namespace Rerun

variable (run : Rerun) (spot : Spot)

/-- What the walks make of an expression has the same outline. -/
def Alike (r r' : Expr) : Prop :=
  r'.outline run.last.tree spot.around = r.outline run.last.tree spot.around

/-- The second walk follows the first one over the expression, wherever both go over it. -/
def Retraces (e : Expr) : Prop :=
  ∀ spot context slot slot', context.enclosing = spot.first →
    slot'.outline run.last.tree spot.around = slot.outline run.last.tree spot.around →
    Follows run spot (Walk.expr context slot e) (Walk.expr { context with enclosing := spot.second } slot' e)
      (run.Alike spot)

end Rerun

section Plans

variable {run : Rerun} {spot : Spot} {α β γ : Type} {next : α → Plan β} {next' : α → Plan γ}
  {alike : β → γ → Prop}

theorem follows_run_bind {p p' : Plan α} {alike' : α → α → Prop}
    (first : Follows run spot p.run p'.run alike') (refl : ∀ a, alike' a a)
    (rest : ∀ a a', alike' a a' → Follows run spot (next a).run (next' a').run alike) :
    Follows run spot (p >>= next).run (p' >>= next').run alike := by
  rw [Plan.run_bind, Plan.run_bind]
  exact follows_bind first refl rest

theorem follows_lift {action action' : Walk α} {alike' : α → α → Prop}
    (first : Follows run spot action action' alike') (refl : ∀ a, alike' a a)
    (rest : ∀ a a', alike' a a' → Follows run spot (next a).run (next' a').run alike) :
    Follows run spot (liftM action >>= next : Plan β).run (liftM action' >>= next' : Plan γ).run alike :=
  follows_bind first refl rest

/-- An action whose value does not matter. -/
theorem follows_do {action action' : Walk α} (first : Follows run spot action action' fun _ _ => True)
    (rest : ∀ a a', Follows run spot (next a).run (next' a').run alike) :
    Follows run spot (liftM action >>= next : Plan β).run (liftM action' >>= next' : Plan γ).run alike :=
  follows_lift first (fun _ => trivial) fun a a' _ => rest a a'

/-- An action that only looks something up. -/
theorem follows_read {action action' : Walk α} (unchanging : Unchanging action)
    (rereads : Rereads run spot action action' (· = ·))
    (rest : ∀ a, Follows run spot (next a).run (next' a).run alike) :
    Follows run spot (liftM action >>= next : Plan β).run (liftM action' >>= next' : Plan γ).run alike :=
  follows_lift (rereads.follows unchanging) (fun _ => rfl) fun a _ same => same ▸ rest a

/-- A block has the same scope in both walks. -/
theorem follows_block {e : Expr} {next : ScopeId → Plan β} {next' : ScopeId → Plan γ}
    (rest : ∀ scope, e.blockScope? = some scope →
      Follows run spot (next scope).run (next' scope).run alike) :
    Follows run spot (liftM (Walk.blockScope e) >>= next : Plan β).run
      (liftM (Walk.blockScope e) >>= next' : Plan γ).run alike := by
  unfold Walk.blockScope
  cases found : e.blockScope? with
  | none =>
    apply follows_of_halts (onward_calm.keeps_unchanging unchanging_crash)
    exact fun _ _ _ given => (gives_crash.mp given).elim
  | some scope => exact rest scope found

end Plans

section Visits

variable {run : Rerun} {spot : Spot} {context : Context} (enclosing : context.enclosing = spot.first)

include enclosing

theorem follows_visit {β γ : Type} {alike : β → γ → Prop} {slot slot' : Slot} {e : Expr}
    {next : Expr → Plan β} {next' : Expr → Plan γ} (below : run.Retraces e)
    (slots : slot'.outline run.last.tree spot.around = slot.outline run.last.tree spot.around)
    (rest : ∀ r r', run.Alike spot r r' → Follows run spot (next r).run (next' r').run alike) :
    Follows run spot (Plan.enter context slot e >>= next).run
      (Plan.enter { context with enclosing := spot.second } slot' e >>= next').run alike := by
  have first : Follows run spot (Plan.enter context slot e).run
      (Plan.enter { context with enclosing := spot.second } slot' e).run (run.Alike spot) := by
    rw [Plan.run_enter, Plan.run_enter]
    exact below spot context slot slot' enclosing slots
  exact follows_run_bind first (fun _ => rfl) rest

theorem follows_each (slot : Expr → Slot) {es : List Expr} (below : ∀ e ∈ es, run.Retraces e) :
    Follows run spot (Plan.each context slot es).run
      (Plan.each { context with enclosing := spot.second } slot es).run fun rs rs' =>
        outlineAll run.last.tree spot.around rs' = outlineAll run.last.tree spot.around rs := by
  induction es with
  | nil => exact follows_pure rfl
  | cons e es ih =>
    apply follows_visit enclosing (below e List.mem_cons_self) rfl
    intro r r' same
    apply follows_run_bind (ih fun e member => below e (List.mem_cons_of_mem _ member)) fun _ => rfl
    intro rs rs' rest
    apply follows_pure
    rw [outlineAll, outlineAll, same, rest]

theorem follows_option (isRoot : Option Bool) {e : Option Expr} (below : ∀ c ∈ e.toList, run.Retraces c) :
    Follows run spot (Plan.option context isRoot e).run
      (Plan.option { context with enclosing := spot.second } isRoot e).run fun r r' =>
        outlineOption run.last.tree spot.around r' = outlineOption run.last.tree spot.around r := by
  cases e with
  | none => exact follows_pure rfl
  | some e =>
    apply follows_visit enclosing (below e List.mem_cons_self) rfl
    intro r r' same
    apply follows_pure
    rw [outlineOption, outlineOption, same]

theorem follows_pairs {entries : List (Expr × Expr)}
    (below : ∀ c ∈ entries.flatMap fun entry => [entry.1, entry.2], run.Retraces c) :
    Follows run spot (Plan.pairs context entries).run
      (Plan.pairs { context with enclosing := spot.second } entries).run fun rs rs' =>
        outlineEntries run.last.tree spot.around rs' = outlineEntries run.last.tree spot.around rs := by
  induction entries with
  | nil => exact follows_pure rfl
  | cons entry entries ih =>
    obtain ⟨key, value⟩ := entry
    apply follows_visit enclosing (below key (by simp)) rfl
    intro k k' sameKey
    apply follows_visit enclosing (below value (by simp)) rfl
    intro v v' sameValue
    apply follows_run_bind (ih fun c member => below c (by simp [member])) fun _ => rfl
    intro rs rs' rest
    apply follows_pure
    rw [outlineEntries, outlineEntries, sameKey, sameValue, rest]

theorem follows_environmentValues {entries : List (String × Expr)}
    (below : ∀ c ∈ entries.map Prod.snd, run.Retraces c) :
    Follows run spot (Plan.environmentValues context entries).run
      (Plan.environmentValues { context with enclosing := spot.second } entries).run fun rs rs' =>
        outlineEnvironment run.last.tree spot.around rs' =
          outlineEnvironment run.last.tree spot.around rs := by
  induction entries with
  | nil => exact follows_pure rfl
  | cons entry entries ih =>
    obtain ⟨name, value⟩ := entry
    apply follows_visit enclosing (below value (by simp)) rfl
    intro v v' same
    apply follows_run_bind (ih fun c member => below c (List.mem_cons_of_mem _ member)) fun _ => rfl
    intro rs rs' rest
    apply follows_pure
    rw [outlineEnvironment, outlineEnvironment, same, rest]

theorem follows_parameterList (seenDefault : Bool) {parameters : List Parameter}
    (below : ∀ c ∈ parameters.flatMap Parameter.children, run.Retraces c) :
    Follows run spot (Plan.parameterList context seenDefault parameters).run
      (Plan.parameterList { context with enclosing := spot.second } seenDefault parameters).run
      fun rs rs' => outlineParameters run.last.tree spot.around rs' =
        outlineParameters run.last.tree spot.around rs := by
  induction parameters generalizing seenDefault with
  | nil => exact follows_pure rfl
  | cons parameter rest ih =>
    obtain ⟨name, default?, isVariadic⟩ := parameter
    have later (seenDefault : Bool) := ih seenDefault fun c member => below c (by simp [member])
    apply follows_do (follows_note name.span .parameter)
    intro _ _
    apply follows_read unchanging_checkVariadic (rereads_checkVariadic isVariadic rest)
    intro _
    -- Whether a default has been seen depends on the source only, so both walks check alike.
    cases default? with
    | none =>
      apply follows_read unchanging_check rereads_check
      intro _
      apply follows_run_bind (later seenDefault) fun _ => rfl
      intro rs rs' same
      apply follows_pure
      rw [outlineParameters, outlineParameters, same]
    | some value =>
      apply follows_read unchanging_check rereads_check
      intro _
      apply follows_visit enclosing (below value (by simp [Parameter.children])) rfl
      intro v v' sameValue
      apply follows_run_bind (later true) fun _ => rfl
      intro rs rs' same
      apply follows_pure
      rw [outlineParameters, outlineParameters, same, outlineOption, outlineOption, sameValue]

theorem follows_catchList (isRoot : Bool) {catches : List Catch}
    (below : ∀ c ∈ catches.flatMap Catch.children, run.Retraces c) :
    Follows run spot (Plan.catchList context isRoot catches).run
      (Plan.catchList { context with enclosing := spot.second } isRoot catches).run fun rs rs' =>
        outlineCatches run.last.tree spot.around rs' = outlineCatches run.last.tree spot.around rs := by
  induction catches with
  | nil => exact follows_pure rfl
  | cons clause rest ih =>
    obtain ⟨identifier, typeRef, body⟩ := clause
    have types (c : Expr) (member : c ∈ typeRef.toList) : run.Retraces c :=
      below c (by simp [Catch.children, member])
    have others (c : Expr) (member : c ∈ rest.flatMap Catch.children) : run.Retraces c :=
      below c (List.mem_append_right _ member)
    apply follows_run_bind (follows_option enclosing none types) fun _ => rfl
    intro type type' sameType
    apply follows_read unchanging_blockScope (rereads_blockScope body)
    -- The name of a clause is declared in both walks, the second time in vain.
    intro scope
    apply follows_do (follows_declareOption scope .variableName identifier)
    intro _ _
    apply follows_visit enclosing (below body (by simp [Catch.children])) rfl
    intro b b' sameBody
    apply follows_run_bind (ih others) fun _ => rfl
    intro rs rs' same
    apply follows_pure
    rw [outlineCatches, outlineCatches, sameType, sameBody, same]

/-! ### Nodes -/

omit enclosing in
theorem follows_result {kind kind' : ExprKind} {span : Span} {isRoot isRoot' : Bool}
    (roots : isRoot' = isRoot)
    (same : kind'.outline run.last.tree spot.around = kind.outline run.last.tree spot.around) :
    Follows run spot (pure ⟨kind, span, isRoot, none⟩ : Plan Expr).run
      (pure ⟨kind', span, isRoot', none⟩ : Plan Expr).run (run.Alike spot) :=
  follows_pure (Expr.outline_congr same rfl roots)

/-- A call is alike if the callee is the same, and its parts are alike. -/
theorem follows_called {slot slot' : Slot} (span : Span) {made : Call} (callee : Callee)
    (arguments : ∀ c ∈ made.arguments, run.Retraces c)
    (environment : ∀ c ∈ made.environment.map Prod.snd, run.Retraces c)
    (slots : slot'.outline run.last.tree spot.around = slot.outline run.last.tree spot.around) :
    Follows run spot (Plan.called context slot span made callee).run
      (Plan.called { context with enclosing := spot.second } slot' span made callee).run
      (run.Alike spot) := by
  have isRoot : slot'.isRoot = slot.isRoot := by simpa using congrArg Slot.isRoot slots
  have hasClosure : slot'.hasClosure = slot.hasClosure := by
    simpa using congrArg Slot.hasClosure slots
  have piped : outlineOption run.last.tree spot.around slot'.piped =
      outlineOption run.last.tree spot.around slot.piped := by
    simpa using congrArg Slot.piped slots
  apply follows_do (follows_noteCall made.name made.path callee)
  intro _ _
  apply follows_run_bind (follows_each enclosing Expr.slot arguments) fun _ => rfl
  intro es es' same
  -- Where the piped expression goes is decided on outlines already.
  have placed : Walk.placePiped callee (outlineOption run.last.tree spot.around slot'.piped)
      (outlineAll run.last.tree spot.around es') = _ := Walk.outline_placePiped callee slot'.piped es'
  rw [same, piped, Walk.outline_placePiped] at placed
  injection placed with sameGiven sameLeft
  generalize Walk.placePiped callee slot.piped es = placed at sameGiven sameLeft ⊢
  generalize Walk.placePiped callee slot'.piped es' = placed' at sameGiven sameLeft ⊢
  obtain ⟨given, left⟩ := placed
  obtain ⟨given', left'⟩ := placed'
  dsimp only at sameGiven sameLeft ⊢
  have count : given'.length = given.length := by
    simpa using (congrArg List.length sameGiven).symm
  rw [hasClosure, count]
  apply follows_read unchanging_checkClosure (rereads_checkClosure callee slot.hasClosure)
  intro _
  apply follows_do ((rereads_checkArguments callee _ _).follows unchanging_checkArguments)
  intro _ _
  apply follows_run_bind (follows_environmentValues enclosing environment) fun _ => rfl
  intro values values' sameValues
  apply follows_result isRoot
  simp only [ExprKind.outline, outlineCall, Walk.outline_holdProcesses, sameGiven, sameLeft, sameValues]

/-! ### Closures -/

/-- What is done at a closure after its body has been gone over. -/
def Plan.closed (enclosing : Option Enclosing) (id : ClosureId) (made : Call) (scope : ScopeId)
    (parameters : List Token) (attached : Expr) (span : Span) (isRoot : Bool) (body : Expr) :
    Plan Expr := do
  Walk.propagateCaptures id enclosing
  let (parameters, body) ← Walk.expandReference id made scope parameters body
  let captured := (← (Walk.frame id)).captured
  return ⟨.closure attached parameters body captured (some id), span, isRoot, none⟩

omit enclosing in
theorem onward_closed (enclosing : Option Enclosing) (id : ClosureId) (made : Call) (scope : ScopeId)
    (parameters : List Token) (attached : Expr) (span : Span) (isRoot : Bool) (body : Expr) :
    Keeps Onward (Plan.closed enclosing id made scope parameters attached span isRoot body).run := by
  apply onward_calm.keeps_bind (onward_preserved.toSettled.keeps_propagateCaptures id enclosing)
  intro _
  apply onward_calm.keeps_bind (onward_preserved.expand id made scope parameters body trivial)
  intro _
  apply onward_calm.keeps_bind (onward_calm.keeps_unchanging unchanging_frame)
  exact fun _ => keeps_pure onward_calm.refl _

omit enclosing in
theorem follows_closed {tree : ScopeTree} {around : Option ScopeId} {scope : ScopeId} (id id' : ClosureId)
    {made made' : Call} {parameters : List Token} {attached attached' : Expr} {span : Span} {isRoot : Bool}
    {body body' : Expr} (calls : outlineCall tree around made' = outlineCall tree around made)
    (attaches : attached'.outline tree around = attached.outline tree around)
    (block : body.blockScope? = some scope)
    (same : body'.outline tree (some scope) = body.outline tree (some scope))
    (enclosing enclosing' : Option Enclosing) :
    Follows run spot (Plan.closed enclosing id made scope parameters attached span isRoot body).run
      (Plan.closed enclosing' id' made' scope parameters attached' span isRoot body').run
      fun r r' => r'.outline tree around = r.outline tree around := by
  apply follows_do (follows_propagateCaptures id id' enclosing enclosing')
  intro _ _
  apply follows_bind_of_gives (follows_expandReference id id' calls same)
  · intro result
    apply onward_calm.keeps_bind (onward_calm.keeps_unchanging unchanging_frame)
    exact fun _ => keeps_pure onward_calm.refl _
  rintro ⟨names, expanded⟩ ⟨names', expanded'⟩ s t given ⟨sameNames, same⟩
  dsimp only at sameNames same ⊢
  subst sameNames
  -- The body may have been exchanged for another block of the same scope, and so in both walks.
  have still : expanded.blockScope? = some scope :=
    (Walk.expands_of_gives given).blockScope.trans block
  have still' : expanded'.blockScope? = some scope := by
    simpa [still] using congrArg Expr.blockScope? same
  apply follows_do (follows_frame id id')
  intro _ _
  apply follows_pure
  simp only [Expr.outline, ExprKind.outline, attaches, still, still', same]

theorem follows_closure {slot slot' : Slot} (span : Span) {attached body : Expr} {parameters : List Token}
    {captured : NameSet} {old : Option ClosureId} (room : run.last.closures.size ≤ 2 ^ 32)
    (below : run.Retraces attached) (inside : run.Retraces body)
    (slots : slot'.outline run.last.tree spot.around = slot.outline run.last.tree spot.around) :
    Follows run spot (Plan.node context slot span (.closure attached parameters body captured old)).run
      (Plan.node { context with enclosing := spot.second } slot' span
        (.closure attached parameters body captured old)).run (run.Alike spot) := by
  have isRoot : slot'.isRoot = slot.isRoot := by simpa using congrArg Slot.isRoot slots
  have piped : outlineOption run.last.tree spot.around slot'.piped =
      outlineOption run.last.tree spot.around slot.piped := by
    simpa using congrArg Slot.piped slots
  apply follows_visit enclosing below
  · simp only [Slot.outline, Option.map_some, piped]
  intro call call' attaches
  apply follows_lift ((rereads_attachedCall attaches).follows unchanging_attachedCall) fun _ => rfl
  intro made made' calls
  apply follows_block
  intro scope block
  -- The body is gone over in the two frames that the walks have opened for it.
  apply follows_within enclosing room
  · intro id id'
    have visited := inside ⟨some scope, some (.closure id), some (.closure id')⟩
      { context with enclosing := some (.closure id) } body.slot body.slot rfl rfl
    apply follows_bind_of_gives visited
    · exact fun r => onward_closed _ id made scope parameters call span slot.isRoot r
    · intro r r' s t given same
      have still : r.blockScope? = some scope :=
        Visit.blockScope_of_gives (v := ⟨_, _, body, s⟩) block given
      rw [isRoot]
      exact follows_closed id id' calls attaches still same _ _
  · intro id
    apply onward_calm.keeps_bind
    · exact onward_preserved.keeps_expr body.permitted_everywhere (.inl trivial)
    · exact fun r => onward_closed _ id made' scope parameters call' span slot'.isRoot r

/-- The fields of a struct have the same shapes both times, and it is registered with them. -/
theorem follows_structDecl {slot slot' : Slot} (span : Span) (access : Access) (name : Token)
    {parameters : List Parameter} (module : ModuleId)
    (repeatable : (ExprKind.structDecl access name parameters module).Repeatable run.base run.last.tree)
    (below : ∀ c ∈ (ExprKind.structDecl access name parameters module).children, run.Retraces c)
    (isRoot : slot'.isRoot = slot.isRoot) :
    Follows run spot (Plan.node context slot span (.structDecl access name parameters module)).run
      (Plan.node { context with enclosing := spot.second } slot' span
        (.structDecl access name parameters module)).run (run.Alike spot) := by
  apply follows_do (follows_note name.span .struct)
  intro _ _
  rw [Plan.run_bind, Plan.run_bind]
  apply follows_bind_of_gives (follows_parameterList enclosing false below)
  · intro _
    apply onward_calm.keeps_bind (onward_calm.keeps_unchanging unchanging_checkFields)
    intro _
    apply onward_calm.keeps_bind (onward_calm.registerStruct access name _ module trivial)
    exact fun _ => keeps_pure onward_calm.refl _
  intro fields fields' s t given same
  have gone : GoneOver parameters fields := ⟨_, _, _, given⟩
  -- Defaults may differ between the walks, but not whether there is one.
  have shapes' : shapesOf fields' = shapesOf parameters := by
    simpa [gone.shapes] using congrArg shapesOf same
  apply follows_do ((rereads_checkFields name same).follows unchanging_checkFields)
  intro _ _
  apply follows_do (follows_registerStruct repeatable gone shapes')
  intro _ _
  apply follows_result isRoot
  rw [ExprKind.outline, ExprKind.outline, same]

/-- A pipe hands on what its left side has given, which is outlined alike. -/
theorem follows_binary {slot slot' : Slot} (span : Span) {left right : Expr} (op : BinaryOp)
    (first : run.Retraces left) (second : run.Retraces right)
    (slots : slot'.outline run.last.tree spot.around = slot.outline run.last.tree spot.around) :
    Follows run spot (Plan.node context slot span (.binary left op right)).run
      (Plan.node { context with enclosing := spot.second } slot' span (.binary left op right)).run
      (run.Alike spot) := by
  have isRoot : slot'.isRoot = slot.isRoot := by simpa using congrArg Slot.isRoot slots
  have inChain : slot'.inChain = slot.inChain := by simpa using congrArg Slot.inChain slots
  simp only [Plan.node]
  cases op.redirection? with
  -- The right side takes the place of the pipe, with what the left side has given in its slot.
  | some redirection =>
    apply follows_visit enclosing first rfl
    intro l l' same
    apply follows_lift ((rereads_redirect op redirection same).follows unchanging_redirect) fun _ => rfl
    intro piped piped' samePiped
    rw [Plan.run_enter, Plan.run_enter]
    apply second spot context _ _ enclosing
    simp only [Slot.outline, Option.map_some, outlineOption, isRoot, samePiped]
  | none =>
    apply follows_read unchanging_checkAssign (rereads_checkAssign op left)
    intro _
    apply follows_visit enclosing first rfl
    intro l l' sameLeft
    rw [inChain]
    apply follows_visit enclosing second rfl
    intro r r' sameRight
    apply follows_result isRoot
    rw [ExprKind.outline, ExprKind.outline, sameLeft, sameRight]

/-- A node that declares no function is gone over as before. -/
theorem follows_node {slot slot' : Slot} (span : Span) {kind : ExprKind}
    (function : kind.name ≠ "function") (repeatable : kind.Repeatable run.base run.last.tree)
    (room : run.last.closures.size ≤ 2 ^ 32) (below : ∀ c ∈ kind.children, run.Retraces c)
    (slots : slot'.outline run.last.tree spot.around = slot.outline run.last.tree spot.around) :
    Follows run spot (Plan.node context slot span kind).run
      (Plan.node { context with enclosing := spot.second } slot' span kind).run (run.Alike spot) := by
  have isRoot : slot'.isRoot = slot.isRoot := by simpa using congrArg Slot.isRoot slots
  cases kind
  case functionDecl => exact absurd rfl function
  case call made =>
    rw [Plan.node_call, Plan.node_call]
    apply follows_lift (follows_callee enclosing _ _) fun _ => rfl
    rintro callee _ rfl
    apply follows_called enclosing span callee _ _ slots
    · exact fun c member => below c (by simp [ExprKind.children, Call.children, member])
    · exact fun c member => below c (List.mem_append_right _ member)
  case closure attached parameters body captured id =>
    apply follows_closure enclosing span room _ _ slots
    · exact below attached (by simp [ExprKind.children])
    · exact below body (by simp [ExprKind.children])
  -- In each case the two walks do the same in step: what they note, look up, declare and visit has
  -- like outcomes, and the results are put together alike.
  case moduleDecl access name body =>
    apply follows_do (follows_note name.span .module)
    intro _ _
    apply follows_read unchanging_blockScope (rereads_blockScope body)
    intro _
    apply follows_visit enclosing (below body (by simp [ExprKind.children])) rfl
    intro r r' same
    apply follows_result isRoot
    rw [ExprKind.outline, ExprKind.outline, same]
  case structDecl access name parameters module =>
    exact follows_structDecl enclosing span access name module repeatable below isRoot
  case letIn identifiers value scope =>
    apply follows_read unchanging_checkBinding (rereads_checkBinding identifiers)
    intro _
    apply follows_visit enclosing (below value (by simp [ExprKind.children])) rfl
    intro r r' same
    apply follows_do (follows_bindAll context spot.second identifiers)
    intro _ _
    apply follows_result isRoot
    rw [ExprKind.outline, ExprKind.outline, same]
  case construct name path arguments target =>
    apply follows_read unchanging_structTarget (rereads_structTarget context _ _ _)
    intro target
    apply follows_do (follows_noteConstruction name path)
    intro _ _
    apply follows_run_bind (follows_each enclosing Expr.slot below) fun _ => rfl
    intro rs rs' same
    apply follows_result isRoot
    rw [ExprKind.outline, ExprKind.outline, same]
  case ifElse condition thenBranch elseBranch =>
    apply follows_visit enclosing (below condition (by simp [ExprKind.children])) rfl
    intro r r' sameCondition
    rw [isRoot]
    apply follows_visit enclosing (below thenBranch (by simp [ExprKind.children])) rfl
    intro t t' sameThen
    have others (c : Expr) (member : c ∈ elseBranch.toList) : run.Retraces c :=
      below c (by simp only [ExprKind.children, member, List.mem_cons, or_true])
    apply follows_run_bind (follows_option enclosing (some slot.isRoot) others) fun _ => rfl
    intro e e' sameElse
    apply follows_result rfl
    rw [ExprKind.outline, ExprKind.outline, sameCondition, sameThen, sameElse]
  case forEach identifiers value body =>
    apply follows_visit enclosing (below value (by simp [ExprKind.children])) rfl
    intro r r' sameValue
    apply follows_read unchanging_blockScope (rereads_blockScope body)
    intro scope
    apply follows_do (follows_declareAll scope .variableName identifiers)
    intro _ _
    apply follows_visit enclosing (below body (by simp [ExprKind.children])) rfl
    intro b b' sameBody
    apply follows_result isRoot
    rw [ExprKind.outline, ExprKind.outline, sameValue, sameBody]
  case whileDo condition body =>
    apply follows_visit enclosing (below condition (by simp [ExprKind.children])) rfl
    intro r r' sameCondition
    apply follows_read unchanging_blockScope (rereads_blockScope body)
    intro _
    apply follows_visit enclosing (below body (by simp [ExprKind.children])) rfl
    intro b b' sameBody
    apply follows_result isRoot
    rw [ExprKind.outline, ExprKind.outline, sameCondition, sameBody]
  case sequence form items =>
    apply follows_run_bind (follows_each enclosing Expr.slot below) fun _ => rfl
    intro rs rs' same
    apply follows_result isRoot
    rw [ExprKind.outline, ExprKind.outline, same]
  case dictionary entries =>
    apply follows_run_bind (follows_pairs enclosing below) fun _ => rfl
    intro rs rs' same
    apply follows_result isRoot
    rw [ExprKind.outline, ExprKind.outline, same]
  case block expressions role scope =>
    have inner : Context.enclosing { context with scope } = spot.first := enclosing
    simp only [Plan.node, isRoot]
    apply follows_run_bind (follows_each inner _ below) fun _ => rfl
    intro rs rs' same
    apply follows_result rfl
    rw [ExprKind.outline, ExprKind.outline, same]
  case keyword token value =>
    apply follows_do (follows_note token.span .keyword)
    intro _ _
    apply follows_run_bind (follows_option enclosing none below) fun _ => rfl
    intro r r' same
    apply follows_result isRoot
    rw [ExprKind.outline, ExprKind.outline, same]
  case binary left op right =>
    apply follows_binary enclosing span op _ _ slots
    · exact below left (by simp [ExprKind.children])
    · exact below right (by simp [ExprKind.children])
  case unary op value =>
    apply follows_visit enclosing (below value (by simp [ExprKind.children])) rfl
    intro r r' same
    apply follows_result isRoot
    rw [ExprKind.outline, ExprKind.outline, same]
  case fieldAccess object field fieldValue =>
    apply follows_visit enclosing (below object (by simp [ExprKind.children])) rfl
    intro r r' same
    apply follows_do (follows_note field.span .property)
    intro _ _
    apply follows_result isRoot
    rw [ExprKind.outline, ExprKind.outline, same]
  case range lower upper inclusive =>
    have lowers (c : Expr) (member : c ∈ lower.toList) := below c (List.mem_append_left _ member)
    have uppers (c : Expr) (member : c ∈ upper.toList) := below c (List.mem_append_right _ member)
    apply follows_run_bind (follows_option enclosing none lowers) fun _ => rfl
    intro l l' sameLower
    apply follows_run_bind (follows_option enclosing none uppers) fun _ => rfl
    intro u u' sameUpper
    apply follows_result isRoot
    rw [ExprKind.outline, ExprKind.outline, sameLower, sameUpper]
  case indexer value index =>
    apply follows_visit enclosing (below value (by simp [ExprKind.children])) rfl
    intro r r' sameValue
    apply follows_visit enclosing (below index (by simp [ExprKind.children])) rfl
    intro i i' sameIndex
    apply follows_result isRoot
    rw [ExprKind.outline, ExprKind.outline, sameValue, sameIndex]
  case typeRef name target =>
    apply follows_lift (follows_typeUse context name) fun _ => rfl
    rintro kind _ rfl
    exact follows_result isRoot rfl
  case variableRef name place isCaptured =>
    apply follows_lift (follows_variableUse enclosing name) fun _ => rfl
    intro kind kind' same
    exact follows_result isRoot same
  case literal token value =>
    apply follows_lift (follows_literal context spot.second span token) fun _ => rfl
    intro kind kind' same
    exact follows_result isRoot same
  case tryCatch body catches =>
    have others (c : Expr) (member : c ∈ catches.flatMap Catch.children) :=
      below c (List.mem_cons_of_mem body member)
    apply follows_read unchanging_blockScope (rereads_blockScope body)
    intro _
    rw [isRoot]
    apply follows_visit enclosing (below body List.mem_cons_self) rfl
    intro b b' sameBody
    apply follows_run_bind (follows_catchList enclosing slot.isRoot others) fun _ => rfl
    intro cs cs' sameCatches
    apply follows_result rfl
    rw [ExprKind.outline, ExprKind.outline, sameBody, sameCatches]

end Visits

/-! ### Functions -/

/-- What a visit notes stands where the tokens of its source stand. -/
theorem Visit.tokens_of_gives {v : Visit} {r : Expr} {t : AnalysisState} {noted : Array SemanticToken}
    (given : v.Gives r t) (before : v.before.tokens = some noted) :
    ∃ more : List SemanticToken, t.tokens = some (noted ++ more.toArray) ∧
      ∀ token ∈ more, token.span ∈ v.source.tokens.map Token.span := by
  have keeps : KeepsNoted v.before t :=
    ((keepsNoted_preserved (Permit.onScopes fun _ => True)).keeps_expr v.source.permitted_everywhere
      (.inl trivial)).of_gives given
  obtain ⟨⟨more⟩, after⟩ := keeps noted before
  refine ⟨more, after, fun token member => ?_⟩
  obtain ⟨own, within, same⟩ := noted_at_most given
  simp only [AnalysisState.noted?, after, before, Option.map_some, Option.some.injEq,
    Array.toList_append, List.map_append, ← Multiset.coe_add, Multiset.add_right_inj] at same
  rw [← same] at within
  exact Multiset.mem_coe.mp (Multiset.mem_of_le within
    (Multiset.mem_coe.mpr (List.mem_map_of_mem member)))

/-- After a visit of a function it has been met, and the function is as declared apart from its parts. -/
theorem Visit.met_of_gives {v : Visit} {access : Access} {name : Token} {parameters : List Parameter}
    {body r : Expr} {home : ModuleId} {takesClosure : Bool} {id : FunctionId} {t : AnalysisState}
    (source : v.source.kind = .functionDecl access name parameters body home takesClosure id)
    (given : v.Gives r t) :
    (∃ parameters' body', r = ⟨.functionDecl access name parameters' body' home takesClosure id,
        v.source.span, v.slot.isRoot, v.context.enclosing⟩) ∧
      ∃ f, t.tree.function id = .ok f ∧ f.status ≠ .pending := by
  obtain ⟨-, made, carried, rfl⟩ := gives_iff.mp given
  simp only [plan, source, Plan.node, Plan.run_bind, Plan.run_lift, gives_bind, gives_ask] at carried
  obtain ⟨f, _, ⟨found, rfl⟩, carried⟩ := carried
  split at carried
  next met =>
    obtain ⟨rfl, rfl⟩ := gives_pure.mp carried
    exact ⟨⟨parameters, body, rfl⟩, f, found, met⟩
  next =>
    simp only [Plan.run_bind, Plan.run_lift, Plan.run_pure, gives_bind, gives_pure] at carried
    obtain ⟨_, s₁, -, _, s₂, -, parts, s₃, -, _, _, registered, rfl, rfl⟩ := carried
    obtain ⟨-, found⟩ := function_of_registerFunction registered
    exact ⟨⟨_, _, rfl⟩, _, found, Status.noConfusion⟩

namespace Rerun

variable {run : Rerun} {e : Expr}

/-- The second walk leaves a function as it is, whatever the first one has done in it. -/
theorem retraces_function (function : e.kindName = "function")
    (repeatable : ∀ n ∈ e.nodes, n.kind.Repeatable run.base run.last.tree)
    (skipped : ∀ token : SemanticToken, token.span ∈ e.tokens.map Token.span → run.skipped token) :
    run.Retraces e := by
  intro spot context slot slot' enclosing slots
  refine ⟨onward_preserved.keeps_expr e.permitted_everywhere (.inl trivial), ?_⟩
  intro s s' r t repeating given onward
  have visited : Visit.Gives ⟨context, slot, e, s⟩ r t := given
  have walked : Onward s t := Visit.onward_of_gives visited
  obtain ⟨registered, registers⟩ := (registers_registering repeating.passes.imports).of_visit repeatable
    visited repeating.passes.registered
  have passes : run.Passes t := repeating.passes.on registered registers onward
  obtain ⟨noted, _, _, before, -⟩ := repeating.noted
  obtain ⟨more, after, stand⟩ := Visit.tokens_of_gives visited before
  have repeating' : Repeating run spot t s' :=
    { passes
      resembles := repeating.resembles
      linked := repeating.linked.kept walked.framesStay (framesStay_refl _)
      fewer := Nat.le_trans repeating.fewer walked.grows.frames.size_le
      noted := repeating.noted.skip before after fun token member => skipped token (stand token member) }
  obtain ⟨access, name, parameters, body, home, takesClosure, id, source⟩ :=
    Expr.function_of_kindName function
  obtain ⟨⟨parameters', body', rfl⟩, f, found, met⟩ := Visit.met_of_gives source visited
  -- The function has been met by the end of the first walk, so it has been met here.
  obtain ⟨f', found', -⟩ := repeating'.recalls.function found
  have met' : f'.status ≠ .pending := by
    intro pending
    have late : run.last.tree.statusOf? id = some .pending := by
      rw [ScopeTree.statusOf?, ← repeating.resembles.functions, ScopeTree.function_eq_ok.mp found',
        Option.map_some, pending]
    have early := onward.met id late
    rw [ScopeTree.statusOf?, ScopeTree.function_eq_ok.mp found, Option.map_some] at early
    exact met (Option.some.inj early)
  have admitted : slot'.admits e.kind = true := by
    rw [← Slot.outline_admits, slots, Slot.outline_admits]
    exact (Visit.gives_iff.mp visited).1
  have isRoot : slot'.isRoot = slot.isRoot := by simpa using congrArg Slot.isRoot slots
  apply arrives_expr admitted
  rw [source]
  have left : Gives (Plan.node { context with enclosing := spot.second } slot' e.span
      (.functionDecl access name parameters body home takesClosure id)).run s'
      ⟨.functionDecl access name parameters body home takesClosure id, e.span, slot'.isRoot, none⟩ s' := by
    simp only [Plan.node, Plan.run_bind, Plan.run_lift, gives_bind, gives_ask]
    refine ⟨f', s', ⟨found', rfl⟩, ?_⟩
    rw [if_pos met']
    exact gives_pure.mpr ⟨rfl, rfl⟩
  apply arrives_of_gives left
  refine ⟨?_, repeating'⟩
  rw [Alike, Expr.outline, Expr.outline, isRoot]
  rfl

/-- The second walk follows the first one over every tree in which what is declared lasts. -/
theorem retraces (room : run.last.closures.size ≤ 2 ^ 32)
    (repeatable : ∀ n ∈ e.nodes, n.kind.Repeatable run.base run.last.tree)
    (skipped : ∀ n ∈ e.nodes, n.kindName = "function" →
      ∀ token : SemanticToken, token.span ∈ n.tokens.map Token.span → run.skipped token) :
    run.Retraces e := by
  induction e using Expr.induction with
  | inherited e ih =>
    by_cases function : e.kindName = "function"
    · exact retraces_function function repeatable (skipped e e.mem_nodes_self function)
    intro spot context slot slot' enclosing slots
    -- Every child is retraced by itself, and the node puts the outcomes together.
    have below (c : Expr) (child : c ∈ e.children) : run.Retraces c := by
      apply ih c child
      · exact fun n inside => repeatable n (Expr.mem_nodes_of_child child inside)
      · exact fun n inside => skipped n (Expr.mem_nodes_of_child child inside)
    have follows := follows_node enclosing e.span function (repeatable e e.mem_nodes_self) room below slots
    refine ⟨onward_preserved.keeps_expr e.permitted_everywhere (.inl trivial), ?_⟩
    intro s s' r t repeating given onward
    obtain ⟨admitted, made, carried, rfl⟩ := gives_expr.mp given
    have admitted' : slot'.admits e.kind = true := by
      rw [← Slot.outline_admits, slots, Slot.outline_admits]
      exact admitted
    apply arrives_expr admitted'
    apply (follows.arrives s s' made t repeating carried onward).mono
    rintro r' t' - ⟨same, repeating'⟩
    refine ⟨?_, repeating'⟩
    rw [Alike, Expr.outline_enclosing, Expr.outline_enclosing]
    exact same

end Rerun
end ShellSema
