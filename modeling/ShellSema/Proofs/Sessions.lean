import ShellSema.Analysis.Session
import ShellSema.Proofs.Actions

/-!
# The entries of a session

Entries are in ascending order of the modules' handles, and each module has at most one. What a
session is to analyse is taken off its pending entries one by one.
-/
namespace ShellSema

/-- The modules of some entries. -/
def modulesOf (entries : List ModuleTree) : List ModuleId := entries.map ModuleTree.module

/-- The import queue of a module names another one as an origin. -/
def ScriptModule.ImportsFrom (m : ScriptModule) (origin : ModuleId) : Prop :=
  origin ∈ m.importQueue.map QueuedImport.origin

namespace Session

variable {entry other : ModuleTree} {entries : List ModuleTree} {id module : ModuleId}

/-! ### Entries in their places -/

theorem moduleNumber_injective : Function.Injective ModuleId.number := by
  rintro ⟨a⟩ ⟨b⟩ same
  exact congrArg ModuleId.mk same

/-- What is entered in a session replaces what was entered for the same module. -/
theorem mem_place (member : other ∈ place entry entries) : other = entry ∨ other ∈ entries := by
  induction entries with
  | nil => exact .inl (List.mem_singleton.mp member)
  | cons first rest ih =>
    unfold place at member
    split at member
    · exact (List.mem_cons.mp member).imp_right (List.mem_cons_of_mem _)
    split at member
    · exact List.mem_cons.mp member
    · rcases List.mem_cons.mp member with same | inside
      · exact .inr (same ▸ List.mem_cons_self)
      · exact (ih inside).imp_right (List.mem_cons_of_mem _)

theorem mem_modules_place :
    id ∈ modulesOf (place entry entries) ↔ id = entry.module ∨ id ∈ modulesOf entries := by
  induction entries with
  | nil => simp [modulesOf, place]
  | cons first rest ih =>
    unfold modulesOf at ih ⊢
    unfold place
    split
    next same => simp [same]
    split
    · simp
    · simp only [List.map_cons, List.mem_cons, ih]
      exact or_left_comm

/-- An entry for a module that had none is one more. -/
theorem place_perm (fresh : entry.module ∉ modulesOf entries) :
    (place entry entries).Perm (entry :: entries) := by
  induction entries with
  | nil => exact .refl _
  | cons first rest ih =>
    simp only [modulesOf, List.map_cons, List.mem_cons, not_or] at fresh
    unfold place
    rw [if_neg fresh.1]
    split
    · exact .refl _
    · exact ((ih fresh.2).cons first).trans (.swap entry first rest)

/-- The entries are in ascending order of the modules' handles. -/
def Ascending (entries : List ModuleTree) : Prop :=
  entries.Pairwise fun one other => one.module.number < other.module.number

theorem Ascending.distinct (ascending : Ascending entries) : (modulesOf entries).Nodup := by
  refine List.pairwise_map.mpr (ascending.imp fun {one other} below same => ?_)
  rw [same] at below
  exact UInt32.lt_irrefl _ below

theorem Ascending.place (ascending : Ascending entries) : Ascending (place entry entries) := by
  induction entries with
  | nil => exact List.pairwise_singleton _ _
  | cons first rest ih =>
    obtain ⟨below, ascending'⟩ := List.pairwise_cons.mp ascending
    unfold Session.place
    split
    next same => exact List.pairwise_cons.mpr ⟨same ▸ below, ascending'⟩
    next apart =>
      split
      next before =>
        -- It goes before the first entry that is for a later module.
        refine List.pairwise_cons.mpr ⟨fun other member => ?_, ascending⟩
        rcases List.mem_cons.mp member with rfl | later
        · exact before
        · exact UInt32.lt_trans before (below other later)
      next after =>
        refine List.pairwise_cons.mpr ⟨fun other member => ?_, ih ascending'⟩
        rcases mem_place member with rfl | later
        · refine UInt32.lt_of_le_of_ne (UInt32.not_lt.mp after) fun same => ?_
          exact apart (moduleNumber_injective same.symm)
        · exact below other later

/-! ### Added modules -/

theorem ascending_foldl_add (session : Session) (ascending : Ascending session.pending) :
    Ascending (entries.foldl add session).pending := by
  induction entries generalizing session with
  | nil => exact ascending
  | cons entry entries ih => exact ih _ ascending.place

theorem mem_modules_foldl_add (session : Session) :
    id ∈ modulesOf (entries.foldl add session).pending ↔
      id ∈ modulesOf entries ∨ id ∈ modulesOf session.pending := by
  induction entries generalizing session with
  | nil => simp [modulesOf]
  | cons entry entries ih =>
    rw [List.foldl_cons, ih, add, mem_modules_place]
    simp only [modulesOf, List.map_cons, List.mem_cons]
    exact or_left_comm.trans or_assoc.symm

theorem ofModules_tree (tree : ScopeTree) (entries : List ModuleTree) :
    (ofModules tree entries).tree = tree ∧ (ofModules tree entries).analysed = [] := by
  have kept (session : Session) : (entries.foldl add session).tree = session.tree ∧
      (entries.foldl add session).analysed = session.analysed := by
    induction entries generalizing session with
    | nil => exact ⟨rfl, rfl⟩
    | cons entry entries ih => exact ih _
  exact kept { tree }

/-- What is to be analysed was added, or had been there before. -/
theorem mem_pending_foldl_add (session : Session)
    (member : other ∈ (entries.foldl add session).pending) :
    other ∈ entries ∨ other ∈ session.pending := by
  induction entries generalizing session with
  | nil => exact .inr member
  | cons first rest ih =>
    rcases ih (session.add first) member with later | before
    · exact .inl (List.mem_cons_of_mem _ later)
    · exact (mem_place before).imp_left fun same => List.mem_cons.mpr (.inl same)

theorem mem_of_mem_ofModules {tree : ScopeTree} (member : other ∈ (ofModules tree entries).pending) :
    other ∈ entries :=
  (mem_pending_foldl_add { tree } member).resolve_right List.not_mem_nil

/-- The added modules are those of the entries. -/
theorem mem_modules_ofModules {tree : ScopeTree} :
    id ∈ modulesOf (ofModules tree entries).pending ↔ id ∈ modulesOf entries := by
  unfold ofModules
  rw [mem_modules_foldl_add]
  simp [modulesOf]

theorem distinct_ofModules (tree : ScopeTree) (entries : List ModuleTree) :
    (modulesOf (ofModules tree entries).pending).Nodup :=
  (ascending_foldl_add { tree } List.Pairwise.nil).distinct

/-! ### Origins -/

theorem mem_placeId {ids : List ModuleId} : id ∈ placeId module ids ↔ id = module ∨ id ∈ ids := by
  induction ids with
  | nil => simp [placeId]
  | cons first rest ih =>
    unfold placeId
    split
    next same => simp [same]
    split
    · simp
    · simp only [List.mem_cons, ih]
      exact or_left_comm

theorem mem_origins {m : ScriptModule} :
    id ∈ origins m module ↔ m.ImportsFrom id ∧ id ≠ module := by
  have placed (ids : List ModuleId) : id ∈ ids.foldr placeId [] ↔ id ∈ ids := by
    induction ids with
    | nil => rfl
    | cons first rest ih => rw [List.foldr_cons, mem_placeId, ih, List.mem_cons]
  unfold origins ScriptModule.ImportsFrom
  rw [placed, List.mem_filter, decide_eq_true_iff]

/-! ### Pending entries -/

theorem runFrom_take? (module : ModuleId) (session : Session) :
    runFrom (take? module) session =
      match session.pending.find? (·.module = module) with
      | none => (.ok none, session)
      | some entry =>
        (.ok (some entry),
          { session with pending := session.pending.filter (·.module ≠ module) }) := by
  simp only [take?, runFrom_bind, runFrom_get]
  cases session.pending.find? (·.module = module) <;> rfl

end Session
end ShellSema
