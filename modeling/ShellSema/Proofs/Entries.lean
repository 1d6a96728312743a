import Mathlib.Logic.Function.Basic
import ShellSema.Scope.Tree

/-!
# Entries

What a tree has of each kind stands in a store, and a handle is a number in it. Stores change in two
ways only: an entry is added at the end, or the entry at a place is changed. So each question about a
changed store comes down to the one entry that is new.
-/
namespace ShellSema

/-! ### Stores -/

section Stores

variable {α : Type} {entries : Array α} {index i : Nat} {a : α} {change : α → α}

theorem getElem?_push_of_some (found : entries[i]? = some a) (last : α) :
    (entries.push last)[i]? = some a := by
  have inside : i < entries.size := (Array.getElem?_eq_some_iff.mp found).1
  rwa [Array.getElem?_push, if_neg (by omega)]

/-- What stands in a store that has grown is what has been added, or it stood there before. -/
theorem getElem?_push_cases {last : α} (found : (entries.push last)[i]? = some a) :
    (i = entries.size ∧ a = last) ∨ entries[i]? = some a := by
  rw [Array.getElem?_push] at found
  split at found
  next here => exact .inl ⟨here, (Option.some.inj found).symm⟩
  next => exact .inr found

/-- What stands in a store of which one entry was changed is this entry, or it stood there before. -/
theorem getElem?_modify_cases (found : (entries.modify index change)[i]? = some a) :
    (index = i ∧ ∃ old, entries[i]? = some old ∧ a = change old) ∨ entries[i]? = some a := by
  rw [Array.getElem?_modify] at found
  split at found
  next here =>
    obtain ⟨old, there, rfl⟩ := Option.map_eq_some_iff.mp found
    exact .inl ⟨here, old, there, rfl⟩
  next => exact .inr found

theorem getElem?_modify_self (found : entries[i]? = some a) (change : α → α) :
    (entries.modify i change)[i]? = some (change a) := by
  rw [Array.getElem?_modify, if_pos rfl, found, Option.map_some]

/-- A part that a change leaves as it is reads the same in the whole store. -/
theorem map_getElem?_modify {β : Type} {part : α → β}
    (same : ∀ a, entries[index]? = some a → part (change a) = part a) (i : Nat) :
    ((entries.modify index change)[i]?).map part = (entries[i]?).map part := by
  rw [Array.getElem?_modify]
  split
  next here =>
    subst here
    rw [Option.map_map]
    exact Option.map_congr same
  next => rfl

theorem getElem?_modify_handle {ι : Type} [DecidableEq ι] {number : ι → Nat}
    (injective : Function.Injective number) (entries : Array α) (id other : ι) (change : α → α) :
    (entries.modify (number id) change)[number other]? =
      if id = other then (entries[number other]?).map change else entries[number other]? := by
  rw [Array.getElem?_modify]
  exact if_congr injective.eq_iff rfl rfl

/-- What holds of the entries of a store, before and after a change, holds after one is changed. -/
theorem forall_mem_modify {P : α → Prop} (all : ∀ x ∈ entries, P x)
    (changed : ∀ x ∈ entries, P (change x)) : ∀ x ∈ entries.modify index change, P x := by
  intro x member
  obtain ⟨i, found⟩ := Array.mem_iff_getElem?.mp member
  rcases getElem?_modify_cases found with ⟨-, old, there, rfl⟩ | before
  · exact changed old (Array.mem_of_getElem? there)
  · exact all x (Array.mem_of_getElem? before)

/-- Two changes do the same if they do the same to the entry in question. -/
theorem modify_congr {change' : α → α}
    (same : ∀ a, entries[index]? = some a → change a = change' a) :
    entries.modify index change = entries.modify index change' := by
  refine Array.ext_getElem? fun i => ?_
  rw [Array.getElem?_modify, Array.getElem?_modify]
  split
  next here =>
    subst here
    exact Option.map_congr same
  next => rfl

theorem modify_eq_self (same : ∀ a, entries[index]? = some a → change a = a) :
    entries.modify index change = entries := by
  refine Array.ext_getElem? fun i => ?_
  rw [Array.getElem?_modify]
  split
  next here =>
    subst here
    rw [Option.map_congr same, Option.map_id']
  next => rfl

theorem modify_of_unknown (unknown : ¬ index < entries.size) :
    entries.modify index change = entries :=
  modify_eq_self fun _ found => absurd (Array.getElem?_eq_some_iff.mp found).1 unknown

end Stores

/-! ### Handles -/

theorem ScopeId.index_injective : Function.Injective ScopeId.index := by
  rintro ⟨a⟩ ⟨b⟩ same
  exact congrArg ScopeId.mk (UInt32.toNat_inj.mp same)

theorem ModuleId.index_injective : Function.Injective ModuleId.index := by
  rintro ⟨a⟩ ⟨b⟩ same
  exact congrArg ModuleId.mk (UInt32.toNat_inj.mp same)

theorem FunctionId.index_injective : Function.Injective FunctionId.index := by
  rintro ⟨a⟩ ⟨b⟩ same
  exact congrArg FunctionId.mk (UInt32.toNat_inj.mp same)

theorem StructId.index_injective : Function.Injective StructId.index := by
  rintro ⟨a⟩ ⟨b⟩ same
  exact congrArg StructId.mk (UInt32.toNat_inj.mp same)

theorem ClosureId.index_injective : Function.Injective ClosureId.index := by
  rintro ⟨a⟩ ⟨b⟩ same
  exact congrArg ClosureId.mk (UInt32.toNat_inj.mp same)

/-- Where there are no more entries than handles, each entry has a handle. -/
theorem exists_handle {α : Type} {entries : Array α} {a : α} (room : entries.size ≤ 2 ^ 32)
    (member : a ∈ entries) : ∃ number : UInt32, entries[number.toNat]? = some a := by
  obtain ⟨i, inside, rfl⟩ := Array.mem_iff_getElem.mp member
  refine ⟨UInt32.ofNat i, ?_⟩
  rw [UInt32.toNat_ofNat_of_lt' (Nat.lt_of_lt_of_le inside room), Array.getElem?_eq_getElem inside]

/-! ### Entries of a tree -/

namespace ScopeTree

variable {tree : ScopeTree}

theorem scope_eq_ok {id : ScopeId} {scope : Scope} :
    tree.scope id = .ok scope ↔ tree.scopes[id.index]? = some scope := by
  unfold ScopeTree.scope
  split <;> simp_all

theorem module_eq_ok {id : ModuleId} {m : ScriptModule} :
    tree.module id = .ok m ↔ tree.modules[id.index]? = some m := by
  unfold ScopeTree.module
  split <;> simp_all

theorem function_eq_ok {id : FunctionId} {f : ScriptFunction} :
    tree.function id = .ok f ↔ tree.functions[id.index]? = some f := by
  unfold ScopeTree.function
  split <;> simp_all

theorem struct_eq_ok {id : StructId} {struct : ScriptStruct} :
    tree.struct id = .ok struct ↔ tree.structs[id.index]? = some struct := by
  unfold ScopeTree.struct
  split <;> simp_all

theorem hasScope_iff {id : ScopeId} :
    tree.hasScope id = true ↔ ∃ scope, tree.scope id = .ok scope := by
  simp only [scope_eq_ok, ← Option.isSome_iff_exists, isSome_getElem?, hasScope,
    decide_eq_true_eq]

theorem hasModule_iff {id : ModuleId} :
    tree.hasModule id = true ↔ ∃ m, tree.module id = .ok m := by
  simp only [module_eq_ok, ← Option.isSome_iff_exists, isSome_getElem?, hasModule,
    decide_eq_true_eq]

theorem hasFunction_iff {id : FunctionId} :
    tree.hasFunction id = true ↔ ∃ f, tree.function id = .ok f := by
  simp only [function_eq_ok, ← Option.isSome_iff_exists, isSome_getElem?, hasFunction,
    decide_eq_true_eq]

theorem hasStruct_iff {id : StructId} :
    tree.hasStruct id = true ↔ ∃ struct, tree.struct id = .ok struct := by
  simp only [struct_eq_ok, ← Option.isSome_iff_exists, isSome_getElem?, hasStruct,
    decide_eq_true_eq]

end ScopeTree
end ShellSema
