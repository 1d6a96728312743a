/-!
# Tables by name

A `Table` maps names to values and keeps them in the order in which the names first came.
Each name stands in it once.
-/
namespace ShellSema

/-- Replace the value of a name where it stands, or add the pair at the end. -/
def assign {α : Type} (name : String) (value : α) : List (String × α) → List (String × α)
  | [] => [(name, value)]
  | (other, old) :: rest =>
    if other = name then (name, value) :: rest else (other, old) :: assign name value rest

theorem mem_keys_assign {α : Type} {name key : String} {value : α} {entries : List (String × α)} :
    key ∈ (assign name value entries).map Prod.fst ↔ key = name ∨ key ∈ entries.map Prod.fst := by
  induction entries with
  | nil => simp [assign]
  | cons entry rest ih =>
    obtain ⟨other, old⟩ := entry
    by_cases same : other = name
    · simp [assign, same]
    · simp only [assign, same, if_false, List.map_cons, List.mem_cons, ih]
      constructor
      · rintro (h | h | h) <;> simp [h]
      · rintro (h | h | h) <;> simp [h]

theorem nodup_keys_assign {α : Type} {name : String} {value : α} {entries : List (String × α)}
    (distinct : (entries.map Prod.fst).Nodup) :
    ((assign name value entries).map Prod.fst).Nodup := by
  induction entries with
  | nil => simp [assign]
  | cons entry rest ih =>
    obtain ⟨other, old⟩ := entry
    simp only [List.map_cons, List.nodup_cons] at distinct
    by_cases same : other = name
    · subst same
      simpa [assign] using distinct
    · simp only [assign, same, if_false, List.map_cons, List.nodup_cons, mem_keys_assign]
      refine ⟨fun member => ?_, ih distinct.2⟩
      exact member.elim False.elim distinct.1

structure Table (α : Type) where
  entries : List (String × α) := []
  distinct : (entries.map Prod.fst).Nodup := by exact List.nodup_nil
deriving Repr

namespace Table

variable {α : Type}

instance [DecidableEq α] : DecidableEq (Table α)
  | ⟨left, _⟩, ⟨right, _⟩ =>
    if same : left = right then isTrue (by subst same; rfl)
    else isFalse (fun equal => same (congrArg entries equal))

instance : Inhabited (Table α) := ⟨{}⟩

def get? (table : Table α) (name : String) : Option α :=
  table.entries.lookup name

def contains (table : Table α) (name : String) : Bool :=
  (table.get? name).isSome

def insert (table : Table α) (name : String) (value : α) : Table α :=
  ⟨assign name value table.entries, nodup_keys_assign table.distinct⟩

/-- Add a name unless the table has it. -/
def insertNew (table : Table α) (name : String) (value : α) : Table α :=
  if table.contains name then table else table.insert name value

/-- Change the value of a name that the table has. -/
def adjust (table : Table α) (name : String) (change : α → α) : Table α :=
  match table.get? name with
  | some value => table.insert name (change value)
  | none => table

def size (table : Table α) : Nat := table.entries.length

def keys (table : Table α) : List String := table.entries.map Prod.fst

def values (table : Table α) : List α := table.entries.map Prod.snd

/-- The table of a list of pairs, where a later pair of a name replaces an earlier one. -/
def ofList (pairs : List (String × α)) : Table α :=
  pairs.foldl (fun table pair => table.insert pair.1 pair.2) {}

theorem lookup_assign (entries : List (String × α)) (name key : String) (value : α) :
    (assign name value entries).lookup key =
      if key = name then some value else entries.lookup key := by
  have step (other : String) (old : α) (rest : List (String × α)) :
      List.lookup key ((other, old) :: rest) =
        if key = other then some old else rest.lookup key := by
    by_cases same : key = other
    · simp [same]
    · have differ : (key == other) = false := by simpa using same
      simp [List.lookup_cons, differ, same]
  induction entries with
  | nil => simp [assign, step]
  | cons entry rest ih =>
    obtain ⟨other, old⟩ := entry
    by_cases same : other = name
    · subst same
      simp only [assign, if_true, step]
      split <;> rfl
    · simp only [assign, same, if_false, step, ih]
      by_cases first : key = other
      · subst first; simp [same]
      · simp [first]

@[simp] theorem get?_insert (table : Table α) (name key : String) (value : α) :
    (table.insert name value).get? key = if key = name then some value else table.get? key :=
  lookup_assign table.entries name key value

@[simp] theorem get?_empty (key : String) : ({} : Table α).get? key = none := rfl

end Table
end ShellSema
