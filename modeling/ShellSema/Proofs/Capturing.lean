import ShellSema.Proofs.Growth

/-!
# Capturing a name

Two actions capture names: the use of a variable, for the closure right around it, and the end of a
closure, for the closure right around that one. Each captures a name that is declared outside of the
closure in question, if no scope in between declares it as well.
-/
namespace ShellSema

open ScopeTree

/-! ### Using a variable -/

section Using

variable {context : Context} {frame : ClosureFrame} {s t : AnalysisState} {d : ScopeId}

/-- A name is captured from the scope that declares it for the surroundings of the body, unless it is
declared again on the way from the use to the body. -/
theorem capturedFrom_cases {name : String} {found : Option ScopeId}
    (given : Gives (Walk.capturedFrom context frame name) s found t) :
    (s.tree.parentScope? frame.bodyScope = none ∧ found = none) ∨
      ∃ outside answer, s.tree.parentScope? frame.bodyScope = some outside ∧
        s.tree.declaringScope outside name = .ok answer ∧
        ((answer = none ∧ found = none) ∨ ∃ d between, answer = some d ∧
          s.tree.declaredBetween name context.scope frame.bodyScope = .ok between ∧
          found = if between then none else some d) := by
  unfold Walk.capturedFrom at given
  simp only [gives_bind, gives_ask] at given
  obtain ⟨scope, _, ⟨known, rfl⟩, given⟩ := given
  rw [parentScope?_eq known]
  split at given
  next outermost =>
    obtain ⟨rfl, -⟩ := gives_pure.mp given
    exact .inl ⟨outermost, rfl⟩
  next outside outward =>
    simp only [gives_bind, gives_ask] at given
    obtain ⟨answer, _, ⟨answered, rfl⟩, given⟩ := given
    refine .inr ⟨outside, answer, outward, answered, ?_⟩
    cases answer with
    | none =>
      obtain ⟨rfl, -⟩ := gives_pure.mp given
      exact .inl ⟨rfl, rfl⟩
    | some d =>
      simp only [gives_bind, gives_ask] at given
      obtain ⟨between, _, ⟨searched, rfl⟩, given⟩ := given
      refine .inr ⟨d, between, rfl, searched, ?_⟩
      cases between
      · obtain ⟨rfl, -⟩ := gives_pure.mp given
        rfl
      · obtain ⟨rfl, -⟩ := gives_pure.mp given
        rfl

/-- A name that is declared around the body of a closure, and nowhere on the way there, is captured
from the scope that declares it. -/
theorem capturedFrom_eq {name : String} (acyclic : s.tree.ScopesAcyclic)
    (inside : s.tree.Inside context.scope frame.bodyScope)
    (around : s.tree.Around frame.bodyScope d)
    (innermost : s.tree.declaringScope context.scope name = .ok (some d)) {found : Option ScopeId}
    (given : Gives (Walk.capturedFrom context frame name) s found t) : found = some d := by
  obtain ⟨outside, step, within⟩ := Relation.TransGen.head'_iff.mp around
  rcases capturedFrom_cases given with ⟨outermost, -⟩ | ⟨outside', answer, step', answered, rest⟩
  · rw [step] at outermost
    cases outermost
  obtain rfl := Option.some.inj (step.symm.trans step')
  obtain rfl : answer = some d :=
    declaringScope_outward acyclic innermost (.tail inside step) within answered
  rcases rest with ⟨nothing, -⟩ | ⟨_, between, ⟨rfl⟩, searched, same⟩
  · cases nothing
  -- The innermost declaration lies around the body, so there is none on the way to it.
  obtain rfl : between = false := by
    refine declaredWithin_eq_false searched inside fun scope way rest => ?_
    exact not_declares_of_declaringWithin acyclic innermost way (rest.around around)
  exact same

/-- What the closure captures is declared around its body. -/
theorem declares_of_capturedFrom {name : String}
    (given : Gives (Walk.capturedFrom context frame name) s (some d) t) :
    s.tree.Declares d name ∧ s.tree.Around frame.bodyScope d := by
  rcases capturedFrom_cases given with ⟨-, nothing⟩ |
    ⟨outside, answer, step, answered, ⟨-, nothing⟩ | ⟨d', between, rfl, -, same⟩⟩
  · cases nothing
  · cases nothing
  obtain ⟨declares, inside⟩ := declares_of_declaringWithin answered
  cases between <;> cases same
  exact ⟨declares, Relation.TransGen.head' step inside⟩

/-- A name is not captured, and nothing changes; or the closure around captures it, and it is marked
where it is declared. -/
theorem captureName_cases {name : String} {isCaptured : Bool}
    (given : Gives (Walk.captureName context name) s isCaptured t) :
    (isCaptured = false ∧ t = s ∧ ∀ id, context.enclosing = some (.closure id) →
      ∃ frame, s.closures[id.index]? = some frame ∧
        Gives (Walk.capturedFrom context frame name) s none s) ∨
      ∃ id frame d, isCaptured = true ∧ context.enclosing = some (.closure id) ∧
        s.closures[id.index]? = some frame ∧
        Gives (Walk.capturedFrom context frame name) s (some d) s ∧
        Gives (Walk.edit (Edit.captureHere d name))
          { s with closures := s.closures.modify id.index fun frame =>
            { frame with captured := frame.captured.insert name } } () t := by
  unfold Walk.captureName at given
  split at given
  next id enclosing =>
    simp only [gives_bind, gives_frame] at given
    obtain ⟨frame, _, ⟨found, rfl⟩, answer, _, from_, given⟩ := given
    -- The search leaves the state alone. Only what is found is recorded, in the frame and then in
    -- the scope.
    have stays := unchanging_capturedFrom.of_gives from_
    subst stays
    cases answer with
    | none =>
      obtain ⟨rfl, rfl⟩ := gives_pure.mp given
      refine .inl ⟨rfl, rfl, fun id' same => ?_⟩
      rw [enclosing] at same
      cases same
      exact ⟨frame, found, from_⟩
    | some d =>
      simp only [gives_bind, gives_pure, Walk.changeFrame, gives_modify] at given
      obtain ⟨_, _, rfl, _, _, marked, rfl, rfl⟩ := given
      exact .inr ⟨id, frame, d, rfl, enclosing, found, from_, marked⟩
  next outside =>
    obtain ⟨rfl, rfl⟩ := gives_pure.mp given
    exact .inl ⟨rfl, rfl, fun id same => (outside id same).elim⟩

theorem marks_of_captureHere {name : String} {u : Unit}
    (given : Gives (Walk.edit (Edit.captureHere d name)) s u t) (declares : s.tree.Declares d name) :
    t.tree.Marks d name := by
  have ended : runFrom (Walk.edit (Edit.captureHere d name)) s = (.ok u, t) := given
  rw [runFrom_edit, Edit.captureHere, Edit.runFrom_changeScope] at ended
  obtain ⟨v, found⟩ := Option.isSome_iff_exists.mp declares
  obtain ⟨scope, entry, there⟩ := Option.bind_eq_some_iff.mp found
  have known : s.tree.hasScope d = true :=
    hasScope_iff.mpr ⟨scope, scope_eq_ok.mpr entry⟩
  rw [if_pos known] at ended
  obtain ⟨-, rfl⟩ := Prod.mk.inj ended
  refine ⟨{ v with isCaptured := true }, ?_, rfl⟩
  rw [ownVariable?_modify, if_pos rfl, entry, Option.bind_some, Table.get?_adjust, if_pos rfl, there,
    Option.map_some]

/-- The use of a variable marks it as captured if it is declared around the closure, and the closure
captures its name. -/
theorem captures_of_variableUse {name : Token} {kind : ExprKind} {id : ClosureId}
    (given : Gives (Walk.variableUse context name) s kind t)
    (script : name.isEnvironmentName = false) (enclosing : context.enclosing = some (.closure id))
    (entered : s.closures[id.index]? = some frame) (acyclic : s.tree.ScopesAcyclic)
    (inside : s.tree.Inside context.scope frame.bodyScope)
    (around : s.tree.Around frame.bodyScope d)
    (innermost : s.tree.declaringScope context.scope name.text = .ok (some d)) :
    t.tree.Marks d name.text ∧
      ∃ frame', t.closures[id.index]? = some frame' ∧ name.text ∈ frame'.captured := by
  rcases gives_variableUse.mp given with ⟨environment, -⟩ | ⟨-, -, isCaptured, u, -, caught, noted⟩
  · rw [environment] at script
    cases script
  obtain rfl := gives_modify.mp noted
  rcases captureName_cases caught with ⟨-, -, nothing⟩ |
    ⟨id', frame', d', -, enclosing', entered', from_, marked⟩
  · obtain ⟨frame', entered', from_⟩ := nothing id enclosing
    obtain rfl := Option.some.inj (entered.symm.trans entered')
    -- It cannot be left uncaptured, since there is a scope to capture it from.
    cases capturedFrom_eq acyclic inside around innermost from_
  · rw [enclosing] at enclosing'
    cases enclosing'
    obtain rfl := Option.some.inj (entered.symm.trans entered')
    obtain rfl := Option.some.inj (capturedFrom_eq acyclic inside around innermost from_)
    obtain ⟨declares, -⟩ := declares_of_declaringWithin innermost
    have marks := marks_of_captureHere marked declares
    obtain ⟨tree, -, rfl⟩ := gives_edit.mp marked
    refine ⟨marks, { frame with captured := frame.captured.insert name.text }, ?_, ?_⟩
    · exact getElem?_modify_self entered _
    · exact NameSet.mem_insert.mpr (.inl rfl)

/-- The use of a variable leaves the closures as they are, or is marked as captured. Then the closure
around captures the name from a scope around its body. -/
theorem variableUse_cases {name : Token} {kind : ExprKind}
    (given : Gives (Walk.variableUse context name) s kind t) :
    ((∃ scope, kind = .variableRef name scope false) ∧ t.closures = s.closures) ∨
      ∃ scope id frame d, kind = .variableRef name scope true ∧
        context.enclosing = some (.closure id) ∧ s.closures[id.index]? = some frame ∧
        s.tree.Around frame.bodyScope d ∧ t.tree.Marks d name.text ∧
        t.closures = s.closures.modify id.index fun frame =>
          { frame with captured := frame.captured.insert name.text } := by
  rcases gives_variableUse.mp given with ⟨-, rfl, noted⟩ | ⟨-, -, isCaptured, u, rfl, caught, noted⟩
  · obtain rfl := gives_modify.mp noted
    exact .inl ⟨⟨_, rfl⟩, rfl⟩
  obtain rfl := gives_modify.mp noted
  rcases captureName_cases caught with ⟨rfl, rfl, -⟩ |
    ⟨id, frame, d, rfl, enclosing, found, from_, marked⟩
  · exact .inl ⟨⟨_, rfl⟩, rfl⟩
  · obtain ⟨declares, around⟩ := declares_of_capturedFrom from_
    have marks := marks_of_captureHere marked declares
    obtain ⟨tree, -, rfl⟩ := gives_edit.mp marked
    exact .inr ⟨_, id, frame, d, rfl, enclosing, found, around, marks, rfl⟩

end Using

/-! ### The end of a closure -/

/-- A filter whose test changes nothing is that of the answers which the test gives. -/
theorem gives_filterM {names : List String} {test : String → Walk Bool}
    (each : ∀ name, Unchanging (test name)) {s t : AnalysisState} {kept : List String}
    (given : Gives (names.filterM test) s kept t) :
    ∃ passes : String → Bool, (∀ name ∈ names, Gives (test name) s (passes name) s) ∧
      kept = names.filter passes := by
  classical
  -- In one state the test has one answer to each name, however often it is asked.
  let passes (name : String) : Bool := decide (Gives (test name) s true s)
  have answers {name : String} {passed : Bool} (tested : Gives (test name) s passed s) :
      passes name = passed := by
    cases passed
    · exact decide_eq_false fun also => Bool.noConfusion (Gives.unique tested also).1
    · exact decide_eq_true tested
  have collects (names before after : List String) (t : AnalysisState)
      (given : Gives (names.filterAuxM test before) s after t) :
      (∀ name ∈ names, Gives (test name) s (passes name) s) ∧
        after = (names.filter passes).reverse ++ before := by
    induction names generalizing before with
    | nil =>
      obtain ⟨rfl, -⟩ := gives_pure.mp given
      exact ⟨nofun, rfl⟩
    | cons name rest ih =>
      rw [List.filterAuxM] at given
      obtain ⟨passed, s', tested, further⟩ := gives_bind.mp given
      have same := (each name).of_gives tested
      subst same
      obtain rfl := answers tested
      obtain ⟨others, rfl⟩ := ih _ further
      refine ⟨List.forall_mem_cons.mpr ⟨tested, others⟩, ?_⟩
      cases passed : passes name <;> simp [passed]
  obtain ⟨after, t', collected, last⟩ := gives_bind.mp given
  obtain ⟨rfl, -⟩ := gives_pure.mp last
  obtain ⟨tested, rfl⟩ := collects names [] after t' collected
  exact ⟨passes, tested, by simp⟩

section Ending

variable {inner outer : ClosureFrame} {outside d : ScopeId} {name : String} {s t : AnalysisState}

/-- What the inner closure captures lies outside of the outer one too, if the name is declared
around that one and nowhere on the way there. -/
theorem reachesOut_eq_true (around : s.tree.Inside outer.bodyScope d)
    (declares : s.tree.Declares d name) (free : name ∉ outer.parameters)
    (fresh : ¬ s.tree.Declares inner.bodyScope name)
    (inside : s.tree.Inside outside outer.bodyScope)
    (absent : ∀ scope, s.tree.Inside outside scope → s.tree.Inside scope outer.bodyScope →
      ¬ s.tree.Declares scope name) {reaches : Bool}
    (given : Gives (Walk.reachesOut inner outer outside name) s reaches t) : reaches = true := by
  unfold Walk.reachesOut at given
  simp only [gives_bind, gives_ask] at given
  obtain ⟨visible, s', ⟨seen, rfl⟩, given⟩ := given
  -- Each of the four tests is passed in turn.
  have visible : visible = true := by
    unfold ScopeTree.isVisible at seen
    cases searched : s'.tree.declaringScope outer.bodyScope name with
    | error fault => rw [searched] at seen; cases seen
    | ok answer =>
      rw [searched] at seen
      cases seen
      exact Option.isSome_iff_ne_none.mpr (declaringWithin_ne_none searched around declares)
  have unbound : outer.parameters.contains name = false := by
    simpa using free
  subst visible
  simp only [Bool.not_true, Bool.false_eq_true, if_false, unbound, gives_bind, gives_ask] at given
  obtain ⟨here, s'', ⟨answered, rfl⟩, given⟩ := given
  have elsewhere : here = false := by
    rw [← declaresHere_eq_ok answered] at fresh
    simpa using fresh
  subst elsewhere
  simp only [Bool.false_eq_true, if_false, gives_bind, gives_ask, gives_pure] at given
  obtain ⟨between, _, ⟨searched, rfl⟩, rfl, -⟩ := given
  rw [declaredWithin_eq_false searched inside absent]
  rfl

/-- A name is handed on if the body of the inner closure does not declare it, and no scope from there
up to the body of the outer one does. -/
theorem reachesOut_cases (given : Gives (Walk.reachesOut inner outer outside name) s true t) :
    ¬ s.tree.Declares inner.bodyScope name ∧
      s.tree.declaredBetween name outside outer.bodyScope = .ok false := by
  unfold Walk.reachesOut at given
  simp only [gives_bind, gives_ask] at given
  obtain ⟨visible, _, ⟨-, rfl⟩, given⟩ := given
  split at given
  · cases (gives_pure.mp given).1
  split at given
  · cases (gives_pure.mp given).1
  simp only [gives_bind, gives_ask] at given
  obtain ⟨here, _, ⟨answered, rfl⟩, given⟩ := given
  split at given
  · cases (gives_pure.mp given).1
  next elsewhere =>
    simp only [gives_bind, gives_ask, gives_pure] at given
    obtain ⟨between, _, ⟨searched, rfl⟩, same, -⟩ := given
    have nothing : between = false := by simpa using same
    subst nothing
    refine ⟨fun declares => elsewhere ?_, searched⟩
    exact (declaresHere_eq_ok answered).mpr declares

/-- What a closure hands on to the one around it is declared around that one too. -/
theorem around_of_reachesOut (given : Gives (Walk.reachesOut inner outer outside name) s true t)
    (inside : s.tree.Inside outside d) (declares : s.tree.Declares d name) :
    s.tree.Around outer.bodyScope d :=
  around_of_declaredWithin (reachesOut_cases given).2 inside declares

/-- When a closure ends within another one, the outer one captures those names of the inner one that
reach out of it. -/
theorem gives_propagateCaptures {innerId outerId : ClosureId} {u : Unit}
    (given : Gives (Walk.propagateCaptures innerId (some (.closure outerId))) s u t) :
    ∃ inner outer, s.closures[innerId.index]? = some inner ∧
      s.closures[outerId.index]? = some outer ∧
      ((s.tree.parentScope? inner.bodyScope = none ∧ t = s) ∨
        ∃ (outside : ScopeId) (reaches : String → Bool),
          s.tree.parentScope? inner.bodyScope = some outside ∧
          (∀ name ∈ inner.captured, Gives (Walk.reachesOut inner outer outside name) s (reaches name) s) ∧
          t = { s with closures := s.closures.modify outerId.index fun frame =>
            { frame with captured := frame.captured.union (inner.captured.names.filter reaches) } }) := by
  simp only [Walk.propagateCaptures, gives_bind, gives_frame, gives_ask] at given
  obtain ⟨inner, _, ⟨found, rfl⟩, outer, _, ⟨found', rfl⟩, scope, _, ⟨known, rfl⟩, given⟩ := given
  refine ⟨inner, outer, found, found', ?_⟩
  rw [parentScope?_eq known]
  split at given
  next outermost =>
    obtain ⟨-, rfl⟩ := gives_pure.mp given
    exact .inl ⟨outermost, rfl⟩
  next outside outward =>
    simp only [gives_bind, Walk.changeFrame, gives_modify] at given
    obtain ⟨names, _, filtered, rfl⟩ := given
    have stays := (unchanging_filterM fun _ => unchanging_reachesOut).of_gives filtered
    subst stays
    obtain ⟨reaches, answers, rfl⟩ := gives_filterM (fun _ => unchanging_reachesOut) filtered
    exact .inr ⟨outside, reaches, outward, answers, rfl⟩

/-- When a closure ends, the closure around it captures what the inner one captures from outside of
both. -/
theorem captures_of_propagateCaptures {innerId outerId : ClosureId} {u : Unit}
    (given : Gives (Walk.propagateCaptures innerId (some (.closure outerId))) s u t)
    (innerFrame : s.closures[innerId.index]? = some inner)
    (outerFrame : s.closures[outerId.index]? = some outer) (captured : name ∈ inner.captured)
    (parent : s.tree.parentScope? inner.bodyScope = some outside)
    (around : s.tree.Inside outer.bodyScope d) (declares : s.tree.Declares d name)
    (free : name ∉ outer.parameters) (fresh : ¬ s.tree.Declares inner.bodyScope name)
    (inside : s.tree.Inside outside outer.bodyScope)
    (absent : ∀ scope, s.tree.Inside outside scope → s.tree.Inside scope outer.bodyScope →
      ¬ s.tree.Declares scope name) :
    ∃ frame, t.closures[outerId.index]? = some frame ∧ name ∈ frame.captured := by
  obtain ⟨inner', outer', found, found', ended⟩ := gives_propagateCaptures given
  obtain rfl := Option.some.inj (innerFrame.symm.trans found)
  obtain rfl := Option.some.inj (outerFrame.symm.trans found')
  rcases ended with ⟨outermost, -⟩ | ⟨outside', reaches, parent', answers, rfl⟩
  · rw [parent] at outermost
    cases outermost
  obtain rfl := Option.some.inj (parent.symm.trans parent')
  have out : reaches name = true :=
    reachesOut_eq_true around declares free fresh inside absent (answers name captured)
  refine ⟨_, getElem?_modify_self outerFrame _, ?_⟩
  exact NameSet.mem_union.mpr (.inl (List.mem_filter.mpr ⟨captured, out⟩))

/-- A closure hands nothing on under a name that its own body declares. -/
theorem captured_of_propagateCaptures {innerId outerId : ClosureId} {u : Unit}
    (given : Gives (Walk.propagateCaptures innerId (some (.closure outerId))) s u t)
    (innerFrame : s.closures[innerId.index]? = some inner)
    (declares : s.tree.Declares inner.bodyScope name) :
    ∃ outer outer', s.closures[outerId.index]? = some outer ∧
      t.closures[outerId.index]? = some outer' ∧
      (name ∈ outer'.captured → name ∈ outer.captured) := by
  obtain ⟨inner', outer, found, outerFrame, ended⟩ := gives_propagateCaptures given
  obtain rfl := Option.some.inj (innerFrame.symm.trans found)
  rcases ended with ⟨-, rfl⟩ | ⟨outside, reaches, -, answers, rfl⟩
  · exact ⟨outer, outer, outerFrame, outerFrame, fun member => member⟩
  refine ⟨outer, _, outerFrame, getElem?_modify_self outerFrame _, fun member => ?_⟩
  refine (NameSet.mem_union.mp member).resolve_left fun handed => ?_
  obtain ⟨captured, out⟩ := List.mem_filter.mp handed
  have answer := answers name captured
  rw [out] at answer
  exact (reachesOut_cases answer).1 declares

/-- The end of a closure changes nothing, or adds names to the captures of the closure around it. -/
theorem propagateCaptures_cases {innerId : ClosureId} {enclosing : Option Enclosing} {u : Unit}
    (given : Gives (Walk.propagateCaptures innerId enclosing) s u t) :
    t = s ∨ ∃ outerId inner outer outside names, enclosing = some (.closure outerId) ∧
      s.closures[innerId.index]? = some inner ∧ s.closures[outerId.index]? = some outer ∧
      s.tree.parentScope? inner.bodyScope = some outside ∧
      (∀ name ∈ names, name ∈ inner.captured ∧
        Gives (Walk.reachesOut inner outer outside name) s true s) ∧
      t = { s with closures := s.closures.modify outerId.index fun frame =>
        { frame with captured := frame.captured.union names } } := by
  by_cases within : ∃ outerId, enclosing = some (.closure outerId)
  · obtain ⟨outerId, rfl⟩ := within
    obtain ⟨inner, outer, found, found', ended⟩ := gives_propagateCaptures given
    rcases ended with ⟨-, rfl⟩ | ⟨outside, reaches, parent, answers, rfl⟩
    · exact .inl rfl
    refine .inr ⟨outerId, inner, outer, outside, _, rfl, found, found', parent, ?_, rfl⟩
    intro name handed
    obtain ⟨captured, out⟩ := List.mem_filter.mp handed
    exact ⟨captured, out ▸ answers name captured⟩
  · unfold Walk.propagateCaptures at given
    split at given
    next outerId => exact (within ⟨outerId, rfl⟩).elim
    next =>
      obtain ⟨-, rfl⟩ := gives_pure.mp given
      exact .inl rfl

end Ending
end ShellSema
