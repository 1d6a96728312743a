import ShellSema.Proofs.Chains

/-!
# Which scope declares a name

The searches along a chain of scopes find the innermost scope that declares a name. Here their
answers are put in terms of what the scopes of the chain declare, so that what is found from one
scope can be compared with what is found from another one.
-/
namespace ShellSema.ScopeTree

variable {tree : ScopeTree}

/-- The variable that a scope itself declares under a name. -/
def ownVariable? (tree : ScopeTree) (id : ScopeId) (name : String) : Option Variable :=
  (tree.scopes[id.index]?).bind fun scope => scope.locals.get? name

/-- The scope itself declares the name. -/
def Declares (tree : ScopeTree) (id : ScopeId) (name : String) : Prop :=
  (tree.ownVariable? id name).isSome = true

/-- The variable that the scope declares under the name is captured. -/
def Marks (tree : ScopeTree) (id : ScopeId) (name : String) : Prop :=
  ∃ v, tree.ownVariable? id name = some v ∧ v.isCaptured = true

theorem Marks.declares {id : ScopeId} {name : String} (marks : tree.Marks id name) :
    tree.Declares id name := by
  obtain ⟨v, found, -⟩ := marks
  exact Option.isSome_iff_exists.mpr ⟨v, found⟩

/-- The first scope is the second one or lies within it. -/
def Inside (tree : ScopeTree) : ScopeId → ScopeId → Prop :=
  Relation.ReflTransGen fun inner outer => tree.parentScope? inner = some outer

theorem inside_congr {other : ScopeTree} (same : other.parentScope? = tree.parentScope?) :
    other.Inside = tree.Inside := by
  unfold Inside
  rw [same]

theorem around_congr {other : ScopeTree} (same : other.parentScope? = tree.parentScope?) :
    other.Around = tree.Around := by
  unfold Around
  rw [same]

theorem Inside.around {inner middle outer : ScopeId} (inside : tree.Inside inner middle)
    (around : tree.Around middle outer) : tree.Around inner outer :=
  Relation.TransGen.trans_right inside around

/-- Of two scopes on one chain, one is inside of the other. -/
theorem Inside.total {first left right : ScopeId} (toLeft : tree.Inside first left)
    (toRight : tree.Inside first right) : tree.Inside left right ∨ tree.Inside right left := by
  refine Relation.ReflTransGen.total_of_right_unique ?_ toLeft toRight
  intro inner outer other step step'
  rw [step] at step'
  exact Option.some.inj step'

/-- A scope inside of another one is that scope, or it lies in a scope directly within. -/
theorem Inside.cases_head {inner outer : ScopeId} (inside : tree.Inside inner outer) :
    inner = outer ∨ ∃ parent, tree.parentScope? inner = some parent ∧ tree.Inside parent outer :=
  Relation.ReflTransGen.cases_head inside

theorem Inside.eq_or_around {inner outer : ScopeId} (inside : tree.Inside inner outer) :
    inner = outer ∨ tree.Around inner outer := by
  rcases Relation.reflTransGen_iff_eq_or_transGen.mp inside with same | around
  · exact .inl same.symm
  · exact .inr around

theorem Around.inside {inner outer : ScopeId} (around : tree.Around inner outer) :
    tree.Inside inner outer :=
  Relation.TransGen.to_reflTransGen around

/-! ### Answers of the searches -/

theorem contains_iff_declares {id : ScopeId} {scope : Scope} {name : String}
    (found : tree.scope id = .ok scope) :
    scope.locals.contains name = true ↔ tree.Declares id name := by
  have entry := scope_eq_ok.mp found
  simp [Declares, ownVariable?, entry, Table.contains]

theorem declaresHere_eq_ok {id : ScopeId} {name : String} {answer : Bool}
    (answered : tree.declaresHere id name = .ok answer) :
    answer = true ↔ tree.Declares id name := by
  unfold declaresHere at answered
  cases found : tree.scope id with
  | error fault => rw [found] at answered; cases answered
  | ok scope =>
    rw [found] at answered
    cases answered
    exact contains_iff_declares found

/-- A search has an answer at the scope from which it starts, or goes on from the one around it. -/
theorem declaringWithin_cases {name : String} {steps : Nat} {id : ScopeId}
    {answer : Option ScopeId} (answered : tree.declaringWithin name (steps + 1) id = .ok answer) :
    (tree.Declares id name ∧ answer = some id) ∨
      ¬ tree.Declares id name ∧
        ((tree.parentScope? id = none ∧ answer = none) ∨
          ∃ parent, tree.parentScope? id = some parent ∧
            tree.declaringWithin name steps parent = .ok answer) := by
  unfold declaringWithin at answered
  cases found : tree.scope id with
  | error fault => rw [found] at answered; cases answered
  | ok scope =>
    have declares : scope.locals.contains name = true ↔ tree.Declares id name :=
      contains_iff_declares found
    have parent := parentScope?_eq found
    rw [found, ok_bind] at answered
    -- The scope itself comes first, then what is around it.
    by_cases here : scope.locals.contains name = true
    · rw [if_pos here] at answered
      cases answered
      exact .inl ⟨declares.mp here, rfl⟩
    · right
      refine ⟨fun declared => here (declares.mpr declared), ?_⟩
      rw [if_neg here] at answered
      cases outward : scope.parent with
      | none =>
        rw [outward] at answered parent
        cases answered
        exact .inl ⟨parent, rfl⟩
      | some outer =>
        rw [outward] at answered parent
        exact .inr ⟨outer, parent, answered⟩

/-- What is found declares the name, and lies around the scope from which the search starts. -/
theorem declares_of_declaringWithin {name : String} {steps : Nat} {id declaring : ScopeId}
    (answered : tree.declaringWithin name steps id = .ok (some declaring)) :
    tree.Declares declaring name ∧ tree.Inside id declaring := by
  induction steps generalizing id with
  | zero => cases answered
  | succ steps ih =>
    rcases declaringWithin_cases answered with ⟨declares, same⟩ | ⟨-, rest⟩
    · cases same
      exact ⟨declares, .refl⟩
    · rcases rest with ⟨-, impossible⟩ | ⟨parent, step, further⟩
      · cases impossible
      · obtain ⟨declares, inside⟩ := ih further
        exact ⟨declares, .head step inside⟩

/-- No scope on the way to what is found declares the name. -/
theorem not_declares_of_declaringWithin (acyclic : tree.ScopesAcyclic) {name : String}
    {steps : Nat} {id between declaring : ScopeId}
    (answered : tree.declaringWithin name steps id = .ok (some declaring))
    (inside : tree.Inside id between) (around : tree.Around between declaring) :
    ¬ tree.Declares between name := by
  induction steps generalizing id with
  | zero => cases answered
  | succ steps ih =>
    rcases declaringWithin_cases answered with ⟨-, same⟩ | ⟨absent, rest⟩
    · cases same
      exact absurd (inside.around around) (acyclic _)
    · rcases inside.cases_head with rfl | ⟨parent, step, further⟩
      · exact absent
      · rcases rest with ⟨outermost, -⟩ | ⟨parent', step', answered'⟩
        · cases step.symm.trans outermost
        · cases step.symm.trans step'
          exact ih answered' further

/-- A search finds something if a scope on its way declares the name. -/
theorem declaringWithin_ne_none {name : String} {steps : Nat} {id declaring : ScopeId}
    {answer : Option ScopeId} (answered : tree.declaringWithin name steps id = .ok answer)
    (inside : tree.Inside id declaring) (declares : tree.Declares declaring name) :
    answer ≠ none := by
  induction steps generalizing id with
  | zero => cases answered
  | succ steps ih =>
    rcases declaringWithin_cases answered with ⟨-, same⟩ | ⟨absent, rest⟩
    · simp [same]
    · rcases inside.cases_head with rfl | ⟨parent, step, further⟩
      · exact absurd declares absent
      · rcases rest with ⟨outermost, -⟩ | ⟨parent', step', answered'⟩
        · cases step.symm.trans outermost
        · cases step.symm.trans step'
          exact ih answered' further

/-- From a scope further out, but within what is found, the search finds the same. -/
theorem declaringScope_outward (acyclic : tree.ScopesAcyclic) {name : String}
    {id outer declaring : ScopeId} {answer : Option ScopeId}
    (answered : tree.declaringScope id name = .ok (some declaring)) (inside : tree.Inside id outer)
    (within : tree.Inside outer declaring)
    (answered' : tree.declaringScope outer name = .ok answer) : answer = some declaring := by
  unfold declaringScope at answered answered'
  obtain ⟨declares, -⟩ := declares_of_declaringWithin answered
  cases answer with
  | none => exact absurd rfl (declaringWithin_ne_none answered' within declares)
  | some other =>
    obtain ⟨declares', outside⟩ := declares_of_declaringWithin answered'
    -- Both lie on the chain outwards; neither search passes by a scope that declares the name.
    rcases Inside.total within outside with inward | outward
    · rcases inward.eq_or_around with rfl | around
      · rfl
      · exact absurd declares (not_declares_of_declaringWithin acyclic answered' within around)
    · rcases outward.eq_or_around with rfl | around
      · rfl
      · have way := Relation.ReflTransGen.trans inside outside
        exact absurd declares' (not_declares_of_declaringWithin acyclic answered way around)

/-- A search between two scopes has an answer at the scope from which it starts, or goes on from the one
around it, as long as it has not come to the last one. -/
theorem declaredWithin_cases {name : String} {steps : Nat} {id last : ScopeId} {answer : Bool}
    (answered : tree.declaredWithin name last (steps + 1) id = .ok answer) :
    (tree.Declares id name ∧ answer = true) ∨
      ¬ tree.Declares id name ∧
        (answer = false ∧ (id = last ∨ tree.parentScope? id = none) ∨
          id ≠ last ∧ ∃ parent, tree.parentScope? id = some parent ∧
            tree.declaredWithin name last steps parent = .ok answer) := by
  unfold declaredWithin at answered
  cases here : tree.declaresHere id name with
  | error fault => rw [here] at answered; cases answered
  | ok declared =>
    have declares := declaresHere_eq_ok here
    rw [here, ok_bind] at answered
    cases declared with
    | true =>
      cases answered
      exact .inl ⟨declares.mp rfl, rfl⟩
    | false =>
      refine .inr ⟨by simpa using declares, ?_⟩
      rw [if_neg Bool.false_ne_true] at answered
      -- The last scope is still searched itself, but not what is around it.
      by_cases atEnd : id = last
      · rw [if_pos atEnd] at answered
        cases answered
        exact .inl ⟨rfl, .inl atEnd⟩
      · rw [if_neg atEnd] at answered
        cases found : tree.scope id with
        | error fault => rw [found] at answered; cases answered
        | ok scope =>
          have parent := parentScope?_eq found
          rw [found, ok_bind] at answered
          cases outward : scope.parent with
          | none =>
            rw [outward] at answered parent
            cases answered
            exact .inl ⟨rfl, .inr parent⟩
          | some outer =>
            rw [outward] at answered parent
            exact .inr ⟨atEnd, outer, parent, answered⟩

/-- The search between two scopes finds nothing if no scope on its way declares the name. -/
theorem declaredWithin_eq_false {name : String} {steps : Nat} {id last : ScopeId} {answer : Bool}
    (answered : tree.declaredWithin name last steps id = .ok answer) (inside : tree.Inside id last)
    (absent : ∀ between, tree.Inside id between → tree.Inside between last →
      ¬ tree.Declares between name) : answer = false := by
  induction steps generalizing id with
  | zero => cases answered
  | succ steps ih =>
    rcases declaredWithin_cases answered with ⟨declares, -⟩ | ⟨-, rest⟩
    · exact absurd declares (absent id .refl inside)
    · rcases rest with ⟨same, -⟩ | ⟨apart, parent, step, further⟩
      · exact same
      · obtain ⟨parent', step', within⟩ := inside.cases_head.resolve_left apart
        cases step.symm.trans step'
        exact ih further within fun between way => absent between (.head step way)

/-- A search between two scopes that finds nothing passes by no scope that declares the name, so such a
scope lies around the last one. -/
theorem around_of_declaredWithin {name : String} {steps : Nat} {id last declaring : ScopeId}
    (answered : tree.declaredWithin name last steps id = .ok false)
    (inside : tree.Inside id declaring) (declares : tree.Declares declaring name) :
    tree.Around last declaring := by
  induction steps generalizing id with
  | zero => cases answered
  | succ steps ih =>
    rcases declaredWithin_cases answered with ⟨-, impossible⟩ | ⟨absent, rest⟩
    · cases impossible
    · -- The scope itself does not declare the name, so the one that does lies further out.
      have apart : id ≠ declaring := by
        rintro rfl
        exact absent declares
      obtain ⟨parent, step, within⟩ := inside.cases_head.resolve_left apart
      rcases rest with ⟨-, rfl | outermost⟩ | ⟨-, parent', step', further⟩
      · exact inside.eq_or_around.resolve_left apart
      · cases step.symm.trans outermost
      · cases step.symm.trans step'
        exact ih further within

end ShellSema.ScopeTree
