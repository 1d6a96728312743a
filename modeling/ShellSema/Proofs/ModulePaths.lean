import Mathlib.Data.List.Induction
import ShellSema.Proofs.ModuleTrees
import ShellSema.Scope.Label

/-!
# Modules found by their paths

The path of a module is read off its parents, from the module up to the root; a search goes down from
the root by the names of submodules. In a tree whose modules have names of their own within their
parents both agree: the first module that has a path is the one that the search comes to.
-/
namespace ShellSema

/-! ### Written paths -/

namespace Text

variable {part rest : List Char}

theorem colonParts_cons {c : Char} (other : c ≠ ':') (cs : List Char) :
    colonParts (c :: cs) = consToFirst c (colonParts cs) := by
  rw [colonParts]
  rintro _ rfl
  exact absurd rfl other

theorem colonParts_of_free (free : ':' ∉ part) : colonParts part = [part] := by
  induction part with
  | nil => rfl
  | cons c cs ih =>
    rw [List.mem_cons, not_or] at free
    rw [colonParts_cons (Ne.symm free.1), ih free.2, consToFirst]

theorem colonParts_append (free : ':' ∉ part) :
    colonParts (part ++ ':' :: ':' :: rest) = part :: colonParts rest := by
  induction part with
  | nil => rw [List.nil_append, colonParts]
  | cons c cs ih =>
    rw [List.mem_cons, not_or] at free
    rw [List.cons_append, colonParts_cons (Ne.symm free.1), ih free.2, consToFirst]

end Text

/-- A name that a path can be written with. -/
def IsPathName (name : String) : Prop := name ≠ "" ∧ ':' ∉ name.toList

theorem colonParts_intercalate {name : String} {names : List String}
    (plain : ∀ part ∈ name :: names, IsPathName part) :
    Text.colonParts ("::".intercalate (name :: names)).toList = (name :: names).map String.toList := by
  induction names generalizing name with
  | nil =>
    rw [String.intercalate_singleton]
    exact Text.colonParts_of_free (plain name List.mem_cons_self).2
  | cons next names ih =>
    have cut : ("::".intercalate (name :: next :: names)).toList =
        name.toList ++ ':' :: ':' :: ("::".intercalate (next :: names)).toList := by
      simp [String.intercalate_cons_cons]
    rw [cut, Text.colonParts_append (plain name List.mem_cons_self).2,
      ih fun part member => plain part (List.mem_cons_of_mem _ member)]
    rfl

/-- What is written for a path is read as the path. -/
theorem writtenPath_intercalate {path : List String} (plain : ∀ part ∈ path, IsPathName part) :
    writtenPath ("::".intercalate path) = path := by
  cases path with
  | nil => decide
  | cons name names =>
    have full : ((name :: names).map String.toList).filter (!·.isEmpty) =
        (name :: names).map String.toList := by
      rw [List.filter_eq_self]
      intro cs member
      obtain ⟨part, there, rfl⟩ := List.mem_map.mp member
      simpa using (plain part there).1
    rw [writtenPath, colonParts_intercalate plain, full, List.map_map]
    exact List.map_id'' (fun part => String.ofList_toList) _

namespace ScopeTree

variable {tree : ScopeTree}

/-! ### From the root to a module and back -/

/-- No two modules have the same name within the same module. -/
def SiblingsDiffer (tree : ScopeTree) : Prop :=
  (tree.modules.toList.map fun m => (m.parent, m.name)).Nodup

instance (tree : ScopeTree) : Decidable tree.SiblingsDiffer :=
  inferInstanceAs (Decidable (List.Nodup _))

theorem SiblingsDiffer.eq (differ : tree.SiblingsDiffer) {a b : ModuleId} {m n : ScriptModule}
    (known : tree.module a = .ok m) (known' : tree.module b = .ok n) (lies : m.parent = n.parent)
    (called : m.name = n.name) : a = b := by
  have place {id : ModuleId} {m : ScriptModule} (known : tree.module id = .ok m) :
      (tree.modules.toList.map fun m => (m.parent, m.name))[id.index]? = some (m.parent, m.name) := by
    rw [List.getElem?_map, Array.getElem?_toList, module_eq_ok.mp known, Option.map_some]
  have same := (place known').trans (by rw [← lies, ← called])
  have inside := (List.getElem?_eq_some_iff.mp (place known)).1
  exact ModuleId.index_injective
    ((List.getElem?_inj inside differ).mp ((place known).trans same.symm))

theorem LeadsDown.concat {module mid target : ModuleId} {path : List String} {m : ScriptModule}
    {name : String} (leads : tree.LeadsDown module path mid) (known : tree.module mid = .ok m)
    (named : m.submodules.get? name = some target) : tree.LeadsDown module (path ++ [name]) target := by
  induction leads with
  | here => exact .down known named .here
  | down around first _ ih => exact .down around first (ih known)

theorem leadsDown_concat {module target : ModuleId} {path : List String} {name : String}
    (leads : tree.LeadsDown module (path ++ [name]) target) :
    ∃ mid m, tree.LeadsDown module path mid ∧ tree.module mid = .ok m ∧
      m.submodules.get? name = some target := by
  induction path generalizing module with
  | nil =>
    cases leads with
    | down known named rest =>
      cases rest
      exact ⟨_, _, .here, known, named⟩
  | cons first path ih =>
    cases leads with
    | down known named rest =>
      obtain ⟨mid, m, upper, known', last⟩ := ih rest
      exact ⟨mid, m, .down known named upper, known', last⟩

theorem pathWithin_of_parent {id parent : ModuleId} {m : ScriptModule} {steps : Nat}
    {names : List String} (known : tree.module id = .ok m) (lies : m.parent = some parent)
    (above : tree.pathWithin steps parent = .ok names) :
    tree.pathWithin (steps + 1) id = .ok (m.name :: names) := by
  simp [pathWithin, known, lies, above, bind, Except.bind, pure, Except.pure]

namespace Rooted

theorem hasModule_root (rooted : tree.Rooted) : tree.hasModule root = true := by
  obtain ⟨m, known, -⟩ := rooted.top
  exact hasModule_iff.mpr ⟨m, known⟩

/-- A module that another one lies in was declared before it. -/
theorem index_lt (rooted : tree.Rooted) {id parent : ModuleId} {m : ScriptModule}
    (known : tree.module id = .ok m) (lies : m.parent = some parent) : parent.index < id.index := by
  have lower : id ≠ root := by
    rintro rfl
    obtain ⟨top, known', orphan⟩ := rooted.top
    cases known.symm.trans known'
    rw [orphan] at lies
    cases lies
  obtain ⟨p, -, -, lies', earlier, -⟩ := rooted.inside id m known lower
  cases lies.symm.trans lies'
  exact earlier

/-- The names on the way down to a module are its path, read upwards. -/
theorem pathWithin_of_leadsDown (rooted : tree.Rooted) {id : ModuleId} {path : List String}
    (leads : tree.LeadsDown root path id) {steps : Nat} (enough : id.index < steps) :
    tree.pathWithin steps id = .ok path.reverse := by
  -- The path is read from its end, so the induction takes off the last name. Each step up needs one
  -- step of the bound, and the bound lasts, since parents come before their submodules.
  obtain ⟨steps, rfl⟩ := Nat.exists_eq_add_one_of_ne_zero (by omega : steps ≠ 0)
  induction path using List.reverseRecOn generalizing id steps with
  | nil =>
    cases leads
    obtain ⟨m, known, orphan⟩ := rooted.top
    simp [pathWithin, known, orphan, bind, Except.bind, pure, Except.pure]
  | append_singleton path name ih =>
    obtain ⟨mid, m, upper, known, named⟩ := leadsDown_concat leads
    obtain ⟨inner, there, lies, called⟩ := rooted.entered mid m name id known named
    have earlier := rooted.index_lt there lies
    obtain ⟨steps, rfl⟩ := Nat.exists_eq_add_one_of_ne_zero (by omega : steps ≠ 0)
    have above := ih upper steps (by omega)
    rw [pathWithin_of_parent there lies above, called, List.reverse_concat]

/-- In a tree whose modules have names of their own, the way up from a module is a way down to it. -/
theorem leadsDown_of_module (rooted : tree.Rooted) (differ : tree.SiblingsDiffer) {id : ModuleId}
    {m : ScriptModule} (known : tree.module id = .ok m) : ∃ path, tree.LeadsDown root path id := by
  induction index : id.index using Nat.strongRecOn generalizing id m with
  | ind n ih =>
    by_cases top : id = root
    · subst top
      exact ⟨[], .here⟩
    · obtain ⟨parent, outer, next, lies, earlier, around, named⟩ := rooted.inside id m known top
      obtain ⟨path, leads⟩ := ih parent.index (by omega) around rfl
      obtain ⟨inner, there, lies', called⟩ := rooted.entered parent outer m.name next around named
      obtain rfl : next = id := differ.eq there known (lies'.trans lies.symm) called
      exact ⟨path ++ [m.name], leads.concat around named⟩

theorem leadsDown_hasModule (rooted : tree.Rooted) {module target : ModuleId} {path : List String}
    (leads : tree.LeadsDown module path target) (there : tree.hasModule module = true) :
    tree.hasModule target = true := by
  induction leads with
  | here => exact there
  | @down module next _ m name _ known named _ ih =>
    obtain ⟨inner, known', -⟩ := rooted.entered module m name next known named
    exact ih (hasModule_iff.mpr ⟨inner, known'⟩)

/-- A module has the path that leads down to it. -/
theorem modulePath_of_leadsDown (rooted : tree.Rooted) {id : ModuleId} {path : List String}
    (leads : tree.LeadsDown root path id) : tree.modulePath id = .ok path := by
  have there : id.index < tree.modules.size := by
    simpa [hasModule] using rooted.leadsDown_hasModule leads rooted.hasModule_root
  have read := rooted.pathWithin_of_leadsDown leads (Nat.lt_succ_of_lt there)
  simp [modulePath, read, bind, Except.bind, pure, Except.pure]

theorem exists_modulePath (rooted : tree.Rooted) (differ : tree.SiblingsDiffer) {id : ModuleId}
    (there : tree.hasModule id = true) :
    ∃ path, tree.modulePath id = .ok path ∧ tree.LeadsDown root path id := by
  obtain ⟨m, known⟩ := hasModule_iff.mp there
  obtain ⟨path, leads⟩ := rooted.leadsDown_of_module differ known
  exact ⟨path, rooted.modulePath_of_leadsDown leads, leads⟩

end Rooted

/-! ### The two searches -/

/-- Where the imports do not count, a path means the same from the root as below it. -/
theorem findModule_root (tree : ScopeTree) (path : List String) :
    tree.findModule root path false = tree.descend root path := by
  cases path with
  | nil => rfl
  | cons name names =>
    simp only [findModule, descend]
    cases known : tree.module root with
    | error fault => rfl
    | ok top =>
      simp only [bind, Except.bind]
      cases top.submodule? name false <;> rfl

theorem mem_moduleIds (rooted : tree.Rooted) {id : ModuleId} :
    id ∈ tree.moduleIds ↔ tree.hasModule id = true := by
  have room := rooted.room
  simp only [moduleIds, List.mem_map, List.mem_range, hasModule, decide_eq_true_eq]
  constructor
  · rintro ⟨index, inside, rfl⟩
    rw [ModuleId.index, UInt32.toNat_ofNat_of_lt' (Nat.lt_of_lt_of_le inside room)]
    exact inside
  · intro inside
    exact ⟨id.index, inside, by simp [ModuleId.index]⟩

/-- A search among modules whose paths can be read comes to the only one that has a path. -/
theorem firstAt_eq_some {path : List String} {id : ModuleId} {ids : List ModuleId}
    (reads : ∀ other ∈ ids, ∃ path', tree.modulePath other = .ok path' ∧ (path' = path ↔ other = id))
    (member : id ∈ ids) : tree.firstAt path ids = .ok (some id) := by
  induction ids with
  | nil => cases member
  | cons other ids ih =>
    obtain ⟨path', read, only⟩ := reads other List.mem_cons_self
    rw [firstAt, read]
    simp only [bind, Except.bind]
    by_cases same : other = id
    · rw [if_pos (only.mpr same), same]
      rfl
    · rw [if_neg (fun equal => same (only.mp equal))]
      have rest : id ∈ ids := (List.mem_cons.mp member).resolve_left fun equal => same equal.symm
      exact ih (fun other member => reads other (List.mem_cons_of_mem _ member)) rest

theorem firstAt_eq_none {path : List String} {ids : List ModuleId}
    (reads : ∀ other ∈ ids, ∃ path', tree.modulePath other = .ok path' ∧ path' ≠ path) :
    tree.firstAt path ids = .ok none := by
  induction ids with
  | nil => rfl
  | cons other ids ih =>
    obtain ⟨path', read, differs⟩ := reads other List.mem_cons_self
    rw [firstAt, read]
    simp only [bind, Except.bind]
    rw [if_neg differs]
    exact ih fun other member => reads other (List.mem_cons_of_mem _ member)

namespace Rooted

theorem descend_ok (rooted : tree.Rooted) (path : List String) {module : ModuleId}
    (there : tree.hasModule module = true) : ∃ found, tree.descend module path = .ok found := by
  induction path generalizing module with
  | nil => exact ⟨some module, rfl⟩
  | cons name names ih =>
    obtain ⟨m, known⟩ := hasModule_iff.mp there
    simp only [descend, known, submodule?_own, bind, Except.bind]
    cases named : m.submodules.get? name with
    | none => exact ⟨none, rfl⟩
    | some next => exact ih (rooted.leadsDown_hasModule (.down known named .here) there)

/-- The first module that has a path is the one that the search from the root comes to, and there is
none if the search comes to none. -/
theorem firstAt_eq_descend (rooted : tree.Rooted) (differ : tree.SiblingsDiffer)
    (path : List String) :
    ∃ found, tree.firstAt path tree.moduleIds = .ok found ∧ tree.descend root path = .ok found := by
  have reads {other : ModuleId} (member : other ∈ tree.moduleIds) :
      ∃ path', tree.modulePath other = .ok path' ∧ tree.LeadsDown root path' other :=
    rooted.exists_modulePath differ ((mem_moduleIds rooted).mp member)
  obtain ⟨found, searched⟩ := rooted.descend_ok path rooted.hasModule_root
  refine ⟨found, ?_, searched⟩
  cases found with
  | some id =>
    have leads := descend_eq_some.mp searched
    have member := (mem_moduleIds rooted).mpr (rooted.leadsDown_hasModule leads rooted.hasModule_root)
    refine firstAt_eq_some (fun other there => ?_) member
    obtain ⟨path', read, leads'⟩ := reads there
    refine ⟨path', read, fun same => ?_, fun same => ?_⟩
    · -- A path leads down from the root to one module only.
      rw [same] at leads'
      cases (descend_eq_some.mpr leads').symm.trans searched
      rfl
    · rw [same, rooted.modulePath_of_leadsDown leads] at read
      exact (Except.ok.inj read).symm
  | none =>
    refine firstAt_eq_none fun other there => ?_
    obtain ⟨path', read, leads'⟩ := reads there
    refine ⟨path', read, fun same => ?_⟩
    rw [same] at leads'
    cases (descend_eq_some.mpr leads').symm.trans searched

end Rooted

/-- In a tree that has been built by declarations, and in which no two modules have the same name
within the same module, the module of a written path is the one that the search for its names from the
root comes to. So a module is found again by its own path, if that can be written. -/
theorem written_search_agrees (built : tree.Built) (differ : tree.SiblingsDiffer) :
    (∀ text, ∃ found, tree.writtenModule? text = .ok found ∧
      tree.findModule root (writtenPath text) false = .ok found) ∧
    ∀ id, tree.hasModule id = true → ∃ path, tree.modulePath id = .ok path ∧
      ((∀ part ∈ path, IsPathName part) →
        tree.writtenModule? ("::".intercalate path) = .ok (some id)) := by
  have rooted := built.rooted
  have agree (path : List String) : ∃ found, tree.firstAt path tree.moduleIds = .ok found ∧
      tree.findModule root path false = .ok found := by
    rw [findModule_root]
    exact rooted.firstAt_eq_descend differ path
  refine ⟨fun text => agree (writtenPath text), fun id there => ?_⟩
  obtain ⟨path, read, leads⟩ := rooted.exists_modulePath differ there
  refine ⟨path, read, fun plain => ?_⟩
  obtain ⟨found, first, searched⟩ := agree path
  rw [findModule_root, descend_eq_some.mpr leads] at searched
  rw [writtenModule?, writtenPath_intercalate plain, first, ← Except.ok.inj searched]

/-- A program with two modules of the same name, in different modules. -/
def repeatedNames : ScopeTree :=
  .declare "main" [.addModule ⟨0⟩ "lib" .exported, .addModule ⟨1⟩ "lib" .restricted]

theorem written_search_of_repeatedNames :
    (repeatedNames.Built ∧ repeatedNames.SiblingsDiffer) ∧
      repeatedNames.writtenModule? "lib::lib" = .ok (some ⟨2⟩) := by
  have built : repeatedNames.Built := built_declare "main" ⟨rfl, rfl, trivial⟩
  have differ : repeatedNames.SiblingsDiffer := by decide +kernel
  obtain ⟨path, read, found⟩ := (written_search_agrees built differ).2 ⟨2⟩ rfl
  have down : repeatedNames.modulePath ⟨2⟩ = .ok ["lib", "lib"] := by decide +kernel
  cases read.symm.trans down
  exact ⟨⟨built, differ⟩, found (by simp [IsPathName])⟩

end ScopeTree
end ShellSema
