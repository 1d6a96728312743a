/-!
# Sets of names

A `NameSet` lists its names in ascending order of their code points, each once.
-/
namespace ShellSema

/-- Put a name into its place in an ascending list, unless it stands there. -/
def placeName (name : String) : List String → List String
  | [] => [name]
  | other :: rest =>
    if name < other then name :: other :: rest
    else if name = other then other :: rest
    else other :: placeName name rest

theorem mem_placeName {name key : String} {names : List String} :
    key ∈ placeName name names ↔ key = name ∨ key ∈ names := by
  induction names with
  | nil => simp [placeName]
  | cons other rest ih =>
    unfold placeName
    split
    · simp
    · split
      next same => subst same; simp
      next =>
        simp only [List.mem_cons, ih]
        constructor
        · rintro (h | h | h) <;> simp [h]
        · rintro (h | h | h) <;> simp [h]

theorem ascending_placeName {name : String} {names : List String}
    (ascending : names.Pairwise (· < ·)) : (placeName name names).Pairwise (· < ·) := by
  induction names with
  | nil => simp [placeName]
  | cons other rest ih =>
    simp only [List.pairwise_cons] at ascending
    unfold placeName
    split
    next below =>
      simp only [List.pairwise_cons, List.mem_cons]
      exact ⟨fun key member => member.elim (fun h => h ▸ below)
        (fun h => String.lt_trans below (ascending.1 key h)), ascending⟩
    next notBelow =>
      split
      next => simpa using ascending
      next differ =>
        simp only [List.pairwise_cons, mem_placeName]
        refine ⟨fun key member => ?_, ih ascending.2⟩
        rcases member with rfl | member
        · rcases Decidable.em (other < key) with above | notAbove
          · exact above
          · have equal := String.le_antisymm (String.not_lt.mp notAbove) (String.not_lt.mp notBelow)
            exact absurd equal differ
        · exact ascending.1 key member

theorem ascending_nil : ([] : List String).Pairwise (· < ·) := .nil

structure NameSet where
  names : List String := []
  ascending : names.Pairwise (· < ·) := by exact ascending_nil
deriving Repr

namespace NameSet

instance : DecidableEq NameSet
  | ⟨left, _⟩, ⟨right, _⟩ =>
    if same : left = right then isTrue (by subst same; rfl)
    else isFalse (fun equal => same (congrArg names equal))

instance : Inhabited NameSet := ⟨{}⟩

instance : Membership String NameSet := ⟨fun set name => name ∈ set.names⟩

instance (name : String) (set : NameSet) : Decidable (name ∈ set) :=
  inferInstanceAs (Decidable (name ∈ set.names))

def insert (set : NameSet) (name : String) : NameSet :=
  ⟨placeName name set.names, ascending_placeName set.ascending⟩

def union (set : NameSet) (names : List String) : NameSet :=
  names.foldl insert set

def ofList (names : List String) : NameSet := ({} : NameSet).union names

@[simp] theorem mem_insert {set : NameSet} {name key : String} :
    key ∈ set.insert name ↔ key = name ∨ key ∈ set :=
  mem_placeName

end NameSet
end ShellSema
