import ShellSema.Proofs.Extent
import ShellSema.Proofs.Paths
import ShellSema.Proofs.Unlinked

/-!
# The tree of modules

A module is declared within a module that there is, and entered there under its name. So the modules
form a tree: from each of them the parents lead up to the root, and a name that a module has for a
submodule leads down to a module that lies in it. No analysis moves a module.
-/
namespace ShellSema

/-- The modules have the same name and access, and stand at the same place. -/
structure ScriptModule.SamePlace (m other : ScriptModule) : Prop where
  name : other.name = m.name
  access : other.access = m.access
  parent : other.parent = m.parent
  submodules : other.submodules = m.submodules

theorem ScriptModule.samePlace_of_frame {m other : ScriptModule} (same : other.frame = m.frame) :
    m.SamePlace other where
  name := show other.frame.name = m.frame.name by rw [same]
  access := show other.frame.access = m.frame.access by rw [same]
  parent := show other.frame.parent = m.frame.parent by rw [same]
  submodules := show other.frame.submodules = m.frame.submodules by rw [same]

namespace ScopeTree

/-! ### Places of modules -/

/-- The modules form a tree below the root, and names lead down in it. -/
structure Rooted (tree : ScopeTree) : Prop where
  room : tree.modules.size ≤ 2 ^ 32
  top : ∃ m, tree.module root = .ok m ∧ m.parent = none
  /-- A module other than the root lies in one that was declared before it. That one has the module's
  name for a submodule: the module itself, or another one that has come to hide it. -/
  inside : ∀ id m, tree.module id = .ok m → id ≠ root →
    ∃ parent outer next, m.parent = some parent ∧ parent.index < id.index ∧
      tree.module parent = .ok outer ∧ outer.submodules.get? m.name = some next
  entered : ∀ id m name next, tree.module id = .ok m → m.submodules.get? name = some next →
    ∃ inner, tree.module next = .ok inner ∧ inner.parent = some id ∧ inner.name = name

/-- Each module stands where it stood. -/
def SamePlaces (tree other : ScopeTree) : Prop :=
  other.modules.map ScriptModule.frame = tree.modules.map ScriptModule.frame

variable {tree other after : ScopeTree}

theorem SamePlaces.symm (same : SamePlaces tree other) : SamePlaces other tree := Eq.symm same

theorem SamePlaces.module {id : ModuleId} {m : ScriptModule} (same : SamePlaces tree other)
    (known : tree.module id = .ok m) : ∃ now, other.module id = .ok now ∧ m.SamePlace now := by
  have found := congrArg (·[id.index]?) same
  simp only [Array.getElem?_map, module_eq_ok.mp known, Option.map_some] at found
  obtain ⟨now, there, equal⟩ := Option.map_eq_some_iff.mp found
  exact ⟨now, module_eq_ok.mpr there, ScriptModule.samePlace_of_frame equal⟩

theorem SamePlaces.size (same : SamePlaces tree other) : other.modules.size = tree.modules.size := by
  simpa using congrArg Array.size same

theorem Rooted.of_samePlaces (rooted : tree.Rooted) (same : SamePlaces tree other) :
    other.Rooted := by
  -- Of a module the conditions read its parent, its name and its submodules, and no more.
  refine ⟨?_, ?_, ?_, ?_⟩
  · rw [same.size]
    exact rooted.room
  · obtain ⟨m, known, orphan⟩ := rooted.top
    obtain ⟨now, known', place⟩ := same.module known
    exact ⟨now, known', place.parent.trans orphan⟩
  · intro id m known lower
    obtain ⟨before, known', place⟩ := same.symm.module known
    obtain ⟨parent, outer, next, lies, earlier, around, named⟩ :=
      rooted.inside id before known' lower
    obtain ⟨outer', around', place'⟩ := same.module around
    refine ⟨parent, outer', next, place.parent.symm.trans lies, earlier, around', ?_⟩
    rw [place'.submodules, ← place.name]
    exact named
  · intro id m name next known named
    obtain ⟨before, known', place⟩ := same.symm.module known
    rw [← place.submodules] at named
    obtain ⟨inner, there, lies, called⟩ := rooted.entered id before name next known' named
    obtain ⟨inner', there', place'⟩ := same.module there
    exact ⟨inner', there', place'.parent.trans lies, place'.name.trans called⟩

theorem rooted_ofRoot (name : String) : (ofRoot name).Rooted := by
  have only {id : ModuleId} {m : ScriptModule} (known : (ofRoot name).module id = .ok m) :
      id = root ∧ m = { name, access := .exported, scope := ⟨0⟩ } := by
    have found := module_eq_ok.mp known
    simp only [ofRoot, Array.getElem?_singleton, Option.ite_none_right_eq_some,
      Option.some.injEq] at found
    exact ⟨ModuleId.index_injective found.1, found.2.symm⟩
  refine ⟨by simp [ofRoot], ⟨_, rfl, rfl⟩, fun id m known lower => ?_, fun id m key next known named => ?_⟩
  · exact absurd (only known).1 lower
  · rw [(only known).2] at named
    cases named

/-! ### Declarations -/

/-- The handle of the module that is declared next. -/
def nextModule (tree : ScopeTree) : ModuleId := ⟨UInt32.ofNat tree.modules.size⟩

/-- A module as it is declared. -/
def newModule (tree : ScopeTree) (parent : ModuleId) (name : String) (access : Access) : ScriptModule :=
  { name, access, parent := some parent, scope := ⟨UInt32.ofNat tree.scopes.size⟩ }

/-- What becomes of a module when another one is declared in the parent. -/
def besideNew (tree : ScopeTree) (parent : ModuleId) (name : String) (id : ModuleId)
    (m : ScriptModule) : ScriptModule :=
  if id = parent then { m with submodules := m.submodules.insert name tree.nextModule } else m

/-- The tree with one module more, in a parent that there is. -/
def withNewModule (tree : ScopeTree) (parent : ModuleId) (name : String) (access : Access) : ScopeTree :=
  { tree with
    scopes := tree.scopes.push { parent := none, module := tree.nextModule }
    modules := (tree.modules.push (tree.newModule parent name access)).modify parent.index
      (tree.besideNew parent name parent) }

theorem besideNew_self (tree : ScopeTree) (parent : ModuleId) (name : String) :
    tree.besideNew parent name parent = fun m =>
      { m with submodules := m.submodules.insert name tree.nextModule } := by
  funext m
  simp [besideNew]

section Declaring

variable {parent id : ModuleId} {name : String} {access : Access}

theorem runFrom_addModule (there : tree.hasModule parent = true) (name : String)
    (access : Access) :
    runFrom (Edit.addModule parent name access) tree =
      if tree.modules.size < 2 ^ 32 ∧ tree.scopes.size < 2 ^ 32 then
        (.ok tree.nextModule, tree.withNewModule parent name access)
      else (.error .storeFull, tree) := by
  have inside : parent.index < tree.modules.size + 1 := by
    rw [hasModule, decide_eq_true_eq] at there
    omega
  simp only [Edit.addModule, Edit.allocate, runFrom_bind, runFrom_get]
  by_cases modules : tree.modules.size < 2 ^ 32
  · by_cases scopes : tree.scopes.size < 2 ^ 32
    · simp [modules, scopes, Edit.runFrom_changeModule, hasModule, inside, withNewModule, newModule,
        nextModule, besideNew_self]
    · simp [modules, scopes]
  · simp [modules]

@[simp] theorem besideNew_name (m : ScriptModule) :
    (tree.besideNew parent name id m).name = m.name := by
  unfold besideNew
  split <;> rfl

@[simp] theorem besideNew_parent (m : ScriptModule) :
    (tree.besideNew parent name id m).parent = m.parent := by
  unfold besideNew
  split <;> rfl

@[simp] theorem besideNew_importedModules (m : ScriptModule) :
    (tree.besideNew parent name id m).importedModules = m.importedModules := by
  unfold besideNew
  split <;> rfl

theorem besideNew_submodules (m : ScriptModule) (key : String) :
    (tree.besideNew parent name id m).submodules.get? key =
      if id = parent ∧ key = name then some tree.nextModule else m.submodules.get? key := by
  unfold besideNew
  split <;> simp_all

/-- A module of the grown tree is the new one, or it was there before. -/
theorem module_withNewModule (there : tree.hasModule parent = true) {now : ScriptModule} :
    (tree.withNewModule parent name access).module id = .ok now ↔
      id.index = tree.modules.size ∧ now = tree.newModule parent name access ∨
      ∃ m, tree.module id = .ok m ∧ now = tree.besideNew parent name id m := by
  have inside : parent.index < tree.modules.size := by simpa [hasModule] using there
  simp only [module_eq_ok, withNewModule, Array.getElem?_modify, Array.getElem?_push]
  by_cases last : id.index = tree.modules.size
  · have apart : parent.index ≠ id.index := by omega
    have missing : tree.modules[id.index]? = none := by simp [last]
    rw [if_neg apart, if_pos last, Option.some.injEq, missing]
    simp [last, eq_comm]
  · rw [if_neg last]
    by_cases around : parent.index = id.index
    · obtain rfl : parent = id := ModuleId.index_injective around
      simp [last, eq_comm]
    · have other : id ≠ parent := fun same => around (congrArg ModuleId.index same.symm)
      simp [around, last, other, besideNew]

theorem nextModule_index (room : tree.modules.size < 2 ^ 32) :
    tree.nextModule.index = tree.modules.size :=
  UInt32.toNat_ofNat_of_lt' room

theorem Rooted.withNewModule (rooted : tree.Rooted) (there : tree.hasModule parent = true)
    (room : tree.modules.size < 2 ^ 32) : (tree.withNewModule parent name access).Rooted := by
  have inside : parent.index < tree.modules.size := by simpa [hasModule] using there
  have new : (tree.withNewModule parent name access).module tree.nextModule =
      .ok (tree.newModule parent name access) :=
    (module_withNewModule there).mpr (.inl ⟨nextModule_index room, rfl⟩)
  have kept {id : ModuleId} {m : ScriptModule} (known : tree.module id = .ok m) :
      (tree.withNewModule parent name access).module id = .ok (tree.besideNew parent name id m) :=
    (module_withNewModule there).mpr (.inr ⟨m, known, rfl⟩)
  refine ⟨?_, ?_, ?_, ?_⟩
  · rw [ScopeTree.withNewModule, Array.size_modify, Array.size_push]
    exact room
  · obtain ⟨m, known, orphan⟩ := rooted.top
    exact ⟨_, kept known, (besideNew_parent m).trans orphan⟩
  · intro id now known lower
    rcases (module_withNewModule there).mp known with ⟨last, rfl⟩ | ⟨m, before, rfl⟩
    · obtain ⟨outer, around⟩ := hasModule_iff.mp there
      refine ⟨parent, _, tree.nextModule, rfl, by omega, kept around, ?_⟩
      rw [besideNew_submodules, if_pos ⟨rfl, rfl⟩]
    · obtain ⟨p, outer, next, lies, earlier, around, named⟩ := rooted.inside id m before lower
      rw [besideNew_parent, besideNew_name]
      -- If the parent has had a submodule of this name, the name leads to the new one from now on.
      by_cases hidden : p = parent ∧ m.name = name
      · refine ⟨p, _, tree.nextModule, lies, earlier, kept around, ?_⟩
        rw [besideNew_submodules, if_pos hidden]
      · refine ⟨p, _, next, lies, earlier, kept around, ?_⟩
        rw [besideNew_submodules, if_neg hidden, named]
  · intro id now key next known named
    rcases (module_withNewModule there).mp known with ⟨-, rfl⟩ | ⟨m, before, rfl⟩
    · cases named
    · rw [besideNew_submodules] at named
      split at named
      next here =>
        cases named
        exact ⟨_, new, congrArg some here.1.symm, here.2.symm⟩
      next =>
        obtain ⟨inner, known', lies, called⟩ := rooted.entered id m key next before named
        exact ⟨_, kept known', (besideNew_parent inner).trans lies, (besideNew_name inner).trans called⟩

theorem map_changeModule {α : Type} {part : ScriptModule → α} {grown : ScopeTree}
    {change : ScriptModule → ScriptModule} {result : Except Fault Unit}
    (ended : runFrom (Edit.changeModule id change) grown = (result, after))
    (modules : grown.modules = tree.modules) (same : ∀ m, part (change m) = part m) :
    after.modules.map part = tree.modules.map part := by
  obtain rfl : (runFrom (Edit.changeModule id change) grown).2 = after := by rw [ended]
  rw [Edit.state_changeModule, ← modules]
  exact map_modify_of_same same _ _

/-- Only declarations of modules change the modules in any part besides the symbols that they declare
and the imports that they have queued. -/
theorem map_edit {α : Type} {part : ScriptModule → α} (blind : ∀ m functions structs importQueue,
      part { m with functions, structs, importQueue } = part m)
    {declaration : Declaration}
    (other : ∀ parent name access, declaration ≠ .addModule parent name access) :
    (runFrom declaration.edit tree).2.modules.map part = tree.modules.map part := by
  -- The stores of modules are the same before another store grows, so the parts are read there.
  cases declaration with
  | addModule parent name access => exact absurd rfl (other parent name access)
  | addScope parent =>
    refine keeps_discard (R := fun s t => t.modules.map part = s.modules.map part) (fun tree => ?_) tree
    rw [Edit.runFrom_addScope]
    split
    next => rfl
    next => split <;> rfl
  | addFunction name access module parameters takesClosure =>
    refine keeps_discard (R := fun s t => t.modules.map part = s.modules.map part) (fun tree => ?_) tree
    rw [Edit.runFrom_declareFunction]
    split
    next =>
      rcases ended : runFrom _ _ with ⟨_ | _, after⟩ <;>
        exact map_changeModule ended rfl fun m => blind m _ m.structs m.importQueue
    next => rfl
  | addStruct struct =>
    refine keeps_discard (R := fun s t => t.modules.map part = s.modules.map part) (fun tree => ?_) tree
    rw [Edit.runFrom_declareStruct]
    split
    next =>
      rcases ended : runFrom _ _ with ⟨_ | _, after⟩ <;>
        exact map_changeModule ended rfl fun m => blind m m.functions _ m.importQueue
    next => rfl
  | addImport module queued =>
    exact map_changeModule (Prod.eta _).symm rfl fun m => blind m m.functions m.structs _

theorem samePlaces_edit {declaration : Declaration}
    (other : ∀ parent name access, declaration ≠ .addModule parent name access) :
    SamePlaces tree (runFrom declaration.edit tree).2 :=
  map_edit (fun _ _ _ _ => rfl) other

end Declaring

/-- A module is declared in one that there is; other declarations fit anyway. -/
def Declaration.FitsIn (tree : ScopeTree) : Declaration → Prop
  | .addModule parent _ _ => tree.hasModule parent = true
  | _ => True

/-- Each of some declarations fits when its turn comes. -/
def AllFit : ScopeTree → List Declaration → Prop
  | _, [] => True
  | tree, declaration :: rest =>
    declaration.FitsIn tree ∧ AllFit (runFrom declaration.edit tree).2 rest

/-- The tree has been built from its root by declarations. -/
inductive Built : ScopeTree → Prop where
  | new (name : String) : Built (ofRoot name)
  | declare {tree : ScopeTree} {declaration : Declaration} (built : Built tree)
      (fits : declaration.FitsIn tree) : Built (runFrom declaration.edit tree).2

theorem Built.declarations {declarations : List Declaration} (built : Built tree)
    (fit : AllFit tree declarations) : Built (runFrom (declarations.forM Declaration.edit) tree).2 := by
  induction declarations generalizing tree with
  | nil => exact built
  | cons declaration rest ih =>
    have next := built.declare fit.1
    have last := ih next fit.2
    rw [List.forM_eq_forM, List.forM_cons, runFrom_bind]
    rcases ended : runFrom declaration.edit tree with ⟨_ | _, after⟩ <;> rw [ended] at next last
    · exact next
    · exact last

theorem built_declare (root : String) {declarations : List Declaration}
    (fit : AllFit (ofRoot root) declarations) : Built (declare root declarations) :=
  (Built.new root).declarations fit

/-- However a tree has been built, its modules form a tree. -/
theorem Built.rooted (built : Built tree) : tree.Rooted := by
  induction built with
  | new name => exact rooted_ofRoot name
  | @declare tree declaration _ fits rooted =>
    by_cases other : ∀ parent name access, declaration ≠ .addModule parent name access
    · exact rooted.of_samePlaces (samePlaces_edit other)
    · push Not at other
      obtain ⟨parent, name, access, rfl⟩ := other
      refine keeps_discard (R := fun s t => s = tree → t.Rooted) (fun s same => ?_) tree rfl
      rw [same, runFrom_addModule fits]
      split
      next room => exact rooted.withNewModule fits room.1
      next => exact rooted

end ScopeTree
end ShellSema
