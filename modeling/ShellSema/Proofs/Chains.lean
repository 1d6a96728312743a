import Mathlib.Logic.Relation
import Mathlib.Data.List.Perm.Subperm
import Mathlib.Data.List.Nodup
import ShellSema.Analysis.Names
import ShellSema.Proofs.Entries

/-!
# Chains of scopes

Each scope names the scope around it. If no scope lies around itself, a chain of them meets no scope
twice, so it ends within as many steps as there are scopes, and the searches that go outwards along
a chain give an answer.
-/
namespace ShellSema

/-- The question is answered, and the answer is as wanted. -/
def Answers {ε α : Type} (asked : Except ε α) (wanted : α → Prop) : Prop :=
  ∃ a, asked = .ok a ∧ wanted a

section Answers

variable {ε α β : Type} {P : α → Prop} {Q : β → Prop}

@[simp] theorem ok_bind (a : α) (next : α → Except ε β) : (Except.ok a >>= next) = next a := rfl

theorem ok_of_toOption {answer : Except ε α} {a : α} (found : answer.toOption = some a) :
    answer = .ok a := by
  cases answer with
  | error => cases found
  | ok answer => exact congrArg Except.ok (Option.some.inj found)

theorem answers_pure {a : α} (holds : P a) : Answers (pure a : Except ε α) P := ⟨a, rfl, holds⟩

theorem Answers.bind {asked : Except ε α} {next : α → Except ε β} (first : Answers asked P)
    (rest : ∀ a, P a → Answers (next a) Q) : Answers (asked >>= next) Q := by
  obtain ⟨a, rfl, holds⟩ := first
  exact rest a holds

theorem Answers.mono {asked : Except ε α} {P' : α → Prop} (answers : Answers asked P)
    (weaker : ∀ a, P a → P' a) : Answers asked P' := by
  obtain ⟨a, same, holds⟩ := answers
  exact ⟨a, same, weaker a holds⟩

end Answers

namespace ScopeTree

variable {tree : ScopeTree}

/-- The scope directly around a scope. -/
def parentScope? (tree : ScopeTree) (id : ScopeId) : Option ScopeId :=
  (tree.scopes[id.index]?).bind (·.parent)

theorem parentScope?_eq {id : ScopeId} {scope : Scope} (found : tree.scope id = .ok scope) :
    tree.parentScope? id = scope.parent := by
  rw [scope_eq_ok] at found
  simp [parentScope?, found]

/-- The second scope lies around the first. -/
def Around (tree : ScopeTree) : ScopeId → ScopeId → Prop :=
  Relation.TransGen fun inner outer => tree.parentScope? inner = some outer

/-- No scope lies around itself. -/
def ScopesAcyclic (tree : ScopeTree) : Prop := ∀ id, ¬ tree.Around id id

/-- From the scope outwards, a scope without a parent is reached within so many steps. -/
inductive Ends (tree : ScopeTree) : Nat → ScopeId → Prop where
  | root {steps : Nat} {id : ScopeId} {scope : Scope} (found : tree.scope id = .ok scope)
      (outermost : scope.parent = none) : Ends tree (steps + 1) id
  | inner {steps : Nat} {id parent : ScopeId} {scope : Scope} (found : tree.scope id = .ok scope)
      (around : scope.parent = some parent) (ends : Ends tree steps parent) :
      Ends tree (steps + 1) id

/-! ### Every chain ends -/

/-- Distinct scopes of a tree are no more than it has. -/
theorem length_le_of_nodup {ids : List ScopeId} (distinct : ids.Nodup)
    (known : ∀ id ∈ ids, tree.hasScope id = true) : ids.length ≤ tree.scopes.size := by
  have indices : (ids.map ScopeId.index).Nodup := distinct.map ScopeId.index_injective
  have within : ids.map ScopeId.index ⊆ List.range tree.scopes.size := by
    intro index member
    obtain ⟨id, listed, rfl⟩ := List.mem_map.mp member
    simpa [hasScope] using known id listed
  simpa using (List.subperm_of_subset indices within).length_le

/-- A chain is at its end before it has met more scopes than the tree has. -/
private theorem ends_after (acyclic : tree.ScopesAcyclic)
    (linked : ∀ id scope parent, tree.scope id = .ok scope → scope.parent = some parent →
      tree.hasScope parent = true)
    (steps : Nat) (met : List ScopeId) (id : ScopeId) (known : tree.hasScope id = true)
    (distinct : met.Nodup) (below : ∀ inner ∈ met, tree.hasScope inner = true ∧ tree.Around inner id)
    (enough : met.length + steps = tree.scopes.size) : tree.Ends steps id := by
  have fresh : id ∉ met := fun member => acyclic id (below id member).2
  have longer : (id :: met).Nodup := List.nodup_cons.mpr ⟨fresh, distinct⟩
  -- Each step outwards meets a scope that has not been met before, so there are no more steps than
  -- scopes.
  induction steps generalizing met id with
  | zero =>
    have bound : (id :: met).length ≤ tree.scopes.size := length_le_of_nodup longer (by
      rintro other (_ | ⟨_, member⟩)
      · exact known
      · exact (below _ member).1)
    rw [List.length_cons] at bound
    omega
  | succ steps ih =>
    obtain ⟨scope, found⟩ := hasScope_iff.mp known
    cases outward : scope.parent with
    | none => exact .root found outward
    | some parent =>
      have step : tree.parentScope? id = some parent := (parentScope?_eq found).trans outward
      have below' : ∀ inner ∈ id :: met, tree.hasScope inner = true ∧ tree.Around inner parent := by
        rintro inner (_ | ⟨_, member⟩)
        · exact ⟨known, .single step⟩
        · exact ⟨(below _ member).1, (below _ member).2.tail step⟩
      have fresh' : parent ∉ id :: met := fun member => acyclic parent (below' parent member).2
      refine .inner found outward (ih (id :: met) parent (linked _ _ _ found outward) longer below'
        ?_ fresh' (List.nodup_cons.mpr ⟨fresh', longer⟩))
      rw [List.length_cons]
      omega

/-- Without a ring of scopes, every chain ends within as many steps as there are scopes. -/
theorem ScopesAcyclic.ends (acyclic : tree.ScopesAcyclic)
    (linked : ∀ id scope parent, tree.scope id = .ok scope → scope.parent = some parent →
      tree.hasScope parent = true)
    {id : ScopeId} (known : tree.hasScope id = true) : tree.Ends tree.scopes.size id :=
  ends_after acyclic linked _ [] id known .nil (by simp) (by simp)

theorem Ends.known {steps : Nat} {id : ScopeId} (ends : tree.Ends steps id) :
    tree.hasScope id = true := by
  cases ends with
  | root found _ => exact hasScope_iff.mpr ⟨_, found⟩
  | inner found _ _ => exact hasScope_iff.mpr ⟨_, found⟩

theorem Ends.mono {steps more : Nat} {id : ScopeId} (ends : tree.Ends steps id)
    (fewer : steps ≤ more) : tree.Ends more id := by
  induction ends generalizing more with
  | root found outermost =>
    obtain ⟨more, rfl⟩ := Nat.exists_eq_add_of_lt fewer
    exact .root found outermost
  | inner found around _ ih =>
    obtain ⟨more, rfl⟩ := Nat.exists_eq_add_of_lt fewer
    exact .inner found around (ih (by omega))

/-- Trees of which each scope has the same parent have the same chains. -/
theorem Ends.congr {other : ScopeTree} {steps : Nat} {id : ScopeId} (ends : tree.Ends steps id)
    (same : ∀ id scope, tree.scope id = .ok scope →
      ∃ scope', other.scope id = .ok scope' ∧ scope'.parent = scope.parent) :
    other.Ends steps id := by
  induction ends with
  | root found outermost =>
    obtain ⟨scope', found', parent⟩ := same _ _ found
    exact .root found' (parent.trans outermost)
  | inner found around _ ih =>
    obtain ⟨scope', found', parent⟩ := same _ _ found
    exact .inner found' (parent.trans around) ih

/-- If every scope is stored after the one around it, no scope lies around itself. -/
theorem scopesAcyclic_of_descending
    (descending : ∀ id parent, tree.parentScope? id = some parent → parent.index < id.index) :
    tree.ScopesAcyclic := by
  intro id around
  have lower {inner outer : ScopeId} (around : tree.Around inner outer) :
      outer.index < inner.index := by
    induction around with
    | single step => exact descending _ _ step
    | tail _ step ih => exact Nat.lt_trans (descending _ _ step) ih
  exact Nat.lt_irrefl _ (lower around)

theorem scopesAcyclic_of_stored (stored : ∀ entry ∈ tree.scopes.toList.zipIdx,
    ∀ parent ∈ entry.1.parent, parent.index < entry.2) : tree.ScopesAcyclic := by
  apply scopesAcyclic_of_descending
  intro id parent outward
  obtain ⟨scope, found, around⟩ := Option.bind_eq_some_iff.mp outward
  have entry : (scope, id.index) ∈ tree.scopes.toList.zipIdx := by
    rw [List.mem_zipIdx_iff_getElem?, Array.getElem?_toList]
    exact found
  exact stored _ entry parent around

/-! ### Searches along a chain -/

theorem declaringWithin_answers {steps : Nat} {id : ScopeId} (name : String)
    (ends : tree.Ends steps id) :
    Answers (tree.declaringWithin name steps id) fun found =>
      ∀ declaring, found = some declaring → tree.hasScope declaring = true := by
  have known := ends.known
  induction ends with
  | root found outermost =>
    simp only [declaringWithin, found, ok_bind, outermost]
    split
    · exact answers_pure (by rintro _ ⟨⟩; exact known)
    · exact answers_pure (by simp)
  | inner found around ends ih =>
    simp only [declaringWithin, found, ok_bind, around]
    split
    · exact answers_pure (by rintro _ ⟨⟩; exact known)
    · exact ih ends.known

theorem declaredWithin_answers {steps : Nat} {id : ScopeId} (name : String) (last : ScopeId)
    (ends : tree.Ends steps id) :
    Answers (tree.declaredWithin name last steps id) fun _ => True := by
  induction ends with
  | root found outermost =>
    simp only [declaredWithin, declaresHere, found, ok_bind, outermost]
    refine (answers_pure (P := fun _ => True) trivial).bind fun _ _ => ?_
    split
    · exact answers_pure trivial
    split <;> exact answers_pure trivial
  | inner found around ends ih =>
    simp only [declaredWithin, declaresHere, found, ok_bind, around]
    refine (answers_pure (P := fun _ => True) trivial).bind fun _ _ => ?_
    split
    · exact answers_pure trivial
    split
    · exact answers_pure trivial
    · exact ih

end ScopeTree
end ShellSema
