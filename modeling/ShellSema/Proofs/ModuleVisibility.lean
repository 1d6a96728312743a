import ShellSema.Proofs.ModuleRuns
import ShellSema.Proofs.Visibility

/-!
# What an analysed module may name

The analysis of a module resolves its imports first, and goes over its tree after that. The tree of
scopes stays linked all the time, and each declaration is met when its function is still pending. So
each name in the tree that comes out is bound to what may be used there.
-/
namespace ShellSema.Analysis

variable {registry : Registry} {mode : AnalysisMode} {module : ModuleId} {ast analysed : Ast}

/-! ### Links -/

section Linking

variable {base : ScopeTree} {s t : AnalysisState} {v : Visit}

theorem staysLinked_setStatus (status : Status) :
    Keeps (StaysLinked base) (setStatus module status) :=
  staysLinked_changeModule module fun _ tables =>
    ⟨tables.functions, tables.structs, tables.importedFunctions, tables.importedStructs,
      tables.origin, tables.stored⟩

/-- The imports of a module are resolved to what is exported. -/
theorem staysLinked_resolveImports (module : ModuleId) :
    Keeps (StaysLinked base) (Walk.resolveImports module) := by
  refine keeps_importing staysLinked_refl StaysLinked.trans ?_ fun s name target exported linked => ?_
  · exact staysLinked_changeModule module fun _ tables =>
      ⟨tables.functions, tables.structs, tables.importedFunctions, tables.importedStructs,
        tables.origin, tables.stored⟩
  · rw [runFrom_edit_state]
    exact ScopeTree.linked_changeModule linked module fun m tables =>
      linked_importTarget linked exported tables name

/-- The tree is linked at each visit. -/
theorem Visited.linked (linked : ScopeTree.Linked base s.tree)
    (permitted : ∀ e ∈ ast.expressions, e.Permitted (Permit.declaredIn base))
    (visited : Visited registry module ast s v) : ScopeTree.Linked base v.before.tree :=
  (visited.allowed (staysLinked_preserved base) (staysLinked_setStatus _)
    (staysLinked_resolveImports module) (fun _ => trivial) permitted).2 linked

/-- The tree is linked after an analysis that does not store its result, however it ends. -/
theorem staysLinked_moduleWalk
    (permitted : ∀ e ∈ ast.expressions, e.Permitted (Permit.declaredIn base)) :
    Keeps (StaysLinked base) (moduleWalk registry .overwrite module ast) :=
  keeps_moduleWalk staysLinked_refl StaysLinked.trans staysLinked_setStatus nofun
    (staysLinked_resolveImports module) fun _ =>
      (staysLinked_preserved base).keeps_exprs trivial _ permitted

end Linking

/-! ### Names in the analysed tree -/

/-- In an analysed module, each name is bound to what may be used where it stands. -/
theorem visible_of_moduleWalk {base : ScopeTree} {s t : AnalysisState}
    (linked : ScopeTree.Linked base s.tree)
    (permitted : ∀ e ∈ ast.expressions, e.Permitted (Permit.declaredIn base))
    (once : ast.functionIds.Nodup) (awaits : s.tree.Awaits ast.functionIds)
    (given : Gives (moduleWalk registry mode module ast) s analysed t) :
    ∃ m, s.tree.module module = .ok m ∧ analysed.Visible base m.scope := by
  have spreads : Spreads (Visited registry module ast s) (fun _ => False)
      fun place e => e.VisibleAt base place :=
    spreads_visible (fun _ visited => visited.linked linked permitted)
      fun _ visited => (visited.fresh once awaits).not_skips
  obtain ⟨m, found, all⟩ := all_of_gives spreads given
  exact ⟨m, found, fun e member => Expr.allAbove_none.mp (all e member)⟩

/-- A tree may be stored if each name in it is bound to what may be used there. -/
theorem staysLinked_store {base : ScopeTree} {m : ScriptModule}
    (known : base.modules[module.index]? = some m) (visible : analysed.Visible base m.scope) :
    Keeps (StaysLinked base) (store module analysed) := by
  apply staysLinked_changeModule
  intro later tables
  refine ⟨tables.functions, tables.structs, tables.importedFunctions, tables.importedStructs,
    tables.origin, ?_⟩
  rintro _ ⟨⟩
  obtain ⟨old, known', -, scope⟩ := tables.origin
  rw [known] at known'
  cases known'
  rwa [scope]

/-- An analysis leaves the tree linked, however it ends. -/
theorem linked_moduleWalk {base : ScopeTree} {s : AnalysisState} (registry : Registry)
    (mode : AnalysisMode) (module : ModuleId) (linked : ScopeTree.Linked base s.tree)
    (permitted : ∀ e ∈ ast.expressions, e.Permitted (Permit.declaredIn base))
    (once : ast.functionIds.Nodup) (awaits : s.tree.Awaits ast.functionIds) :
    ScopeTree.Linked base (runFrom (moduleWalk registry mode module ast) s).2.tree := by
  have walked : ScopeTree.Linked base (runFrom (moduleWalk registry .overwrite module ast) s).2.tree :=
    staysLinked_moduleWalk permitted s linked
  rw [moduleWalk_eq, runFrom_bind]
  rcases ended : runFrom (moduleWalk registry .overwrite module ast) s with ⟨halt | analysed, u⟩
  · rwa [ended] at walked
  · rw [ended] at walked
    -- The analysed tree is stored at the end, when it shows only what its module sees.
    have last : Keeps (StaysLinked base) (do
        if mode = .oncePerModule then store module analysed
        return analysed) := by
      split
      · obtain ⟨m, found, visible⟩ := visible_of_moduleWalk linked permitted once awaits ended
        obtain ⟨old, known, -, scope⟩ :=
          (linked.modules module m (ScopeTree.module_eq_ok.mp found)).origin
        rw [scope] at visible
        exact keeps_bind StaysLinked.trans (staysLinked_store known visible) fun _ =>
          keeps_pure staysLinked_refl _
      · exact keeps_pure staysLinked_refl _
    exact last u walked

end ShellSema.Analysis
