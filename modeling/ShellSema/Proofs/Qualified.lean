import ShellSema.Proofs.Paths
import ShellSema.Proofs.Resolved
import ShellSema.Proofs.Surroundings
import ShellSema.Proofs.Unlinked

/-!
# Names with a module path

A call or construction that is written with a module path is bound to what the path leads to, but for
three things that the language decides otherwise. The reserved words keep their meaning behind any
path. A function that the module at the end of the path does not have is taken for a program. And a
construction finds the standard module by the first name of its path alone.
-/
namespace ShellSema

/-- What a call may be found to call, if it is written with a module path in the scope. -/
inductive Callee.NamedBy (registry : Registry) (tree : ScopeTree) (scope : ScopeId) (name : String)
    (path : List String) : Callee → Prop where
  | reserved {callee : Callee} (word : CallType.builtin? name = some callee.callType) :
      NamedBy registry tree scope name path callee
  | standard {f : StandardFunction} (free : CallType.builtin? name = none)
      (found : registry.function? name path = some f) :
      NamedBy registry tree scope name path (.standard f)
  | user {current module : ModuleId} {id : FunctionId} (free : CallType.builtin? name = none)
      (other : registry.function? name path = none) (strange : registry.hasModule path = false)
      (stands : tree.moduleOf? scope = some current) (leads : tree.PathNames current path module)
      (offers : tree.OffersFunction module name id) : NamedBy registry tree scope name path (.user id)
  | program {current module : ModuleId} (free : CallType.builtin? name = none)
      (other : registry.function? name path = none) (strange : registry.hasModule path = false)
      (stands : tree.moduleOf? scope = some current) (leads : tree.PathNames current path module)
      (missing : ∀ id, ¬ tree.OffersFunction module name id) :
      NamedBy registry tree scope name path .program

/-- The struct that a construction may be found to make, if it is written with a module path in the
scope. -/
inductive StructTarget.NamedBy (registry : Registry) (tree : ScopeTree) (scope : ScopeId)
    (name : String) (path : List String) : StructTarget → Prop where
  | user {current module : ModuleId} {id : StructId} (stands : tree.moduleOf? scope = some current)
      (leads : tree.PathNames current path module) (offers : tree.OffersStruct module name id) :
      NamedBy registry tree scope name path (.user id)
  | standard {current : ModuleId} {first : String} {struct : StandardStruct}
      (stands : tree.moduleOf? scope = some current)
      (nowhere : ∀ module, ¬ tree.PathNames current path module) (begins : path.head? = some first)
      (known : registry.hasModule [first] = true) (found : registry.struct? name first = some struct) :
      NamedBy registry tree scope name path (.standard struct)

/-! ### Searches -/

section Searches

variable {context : Context} {name : String} {path : List String} {s t : AnalysisState}

theorem namedBy_of_callee {callee : Callee} (qualified : path ≠ [])
    (given : Gives (Walk.callee context name path) s callee t) :
    callee.NamedBy context.registry s.tree context.scope name path := by
  cases foundBy_of_callee given with
  | closure spelled => exact .reserved spelled
  | reserved spelled => exact .reserved spelled
  | standard free answered => exact .standard free answered
  | user free nowhere strange finds =>
    cases finds with
    | found stands followed answered =>
      exact .user free nowhere (strange.resolve_left qualified) stands
        (ScopeTree.findModule_eq_some.mp followed) (ScopeTree.findFunction_eq_some.mp answered)
  | program free nowhere strange finds =>
    cases finds with
    | missing stands followed answered =>
      exact .program free nowhere (strange.resolve_left qualified) stands
        (ScopeTree.findModule_eq_some.mp followed) fun id => ScopeTree.not_offersFunction answered

theorem namedBy_of_structTarget {count : Nat} {target : StructTarget}
    (given : Gives (Walk.structTarget context name path count) s target t) :
    target.NamedBy context.registry s.tree context.scope name path := by
  cases foundBy_of_structTarget given with
  | user stands followed answered =>
    exact .user stands (ScopeTree.findModule_eq_some.mp followed)
      (ScopeTree.findStruct_eq_some.mp answered)
  | standard stands followed chosen answered =>
    obtain ⟨begins, known⟩ := Option.filter_eq_some_iff.mp chosen
    exact .standard stands (fun _ => ScopeTree.not_pathNames followed) begins known answered

end Searches

/-! ### What visits bind -/

/-- A call keeps the name and path that were written. -/
theorem Visit.written_of_gives {v : Visit} {written made : Call} {r : Expr} {t : AnalysisState}
    (source : v.source.kind = .call written) (given : v.Gives r t) (kind : r.kind = .call made) :
    made.name = written.name ∧ made.path = written.path := by
  cases course_of_call source given with
  | call same _ _ made_kind =>
    rw [source] at same
    cases same
    rw [kind] at made_kind
    cases made_kind
    exact ⟨rfl, rfl⟩
  | parts _ _ other => simp [Expr.kindName, ExprKind.name, source] at other
  | skipped skips =>
    obtain ⟨_, _, _, _, _, _, _, _, same, -⟩ := skips
    simp [source] at same
  | pipe same => simp [source] at same
  | constant same => simp [source] at same
  | fragment same => simp [source] at same
  | closure same => simp [source] at same

/-- The call is bound to a callee that its path names, by what was known when the walk came to the
call. -/
def Call.BoundByPath (registry : Registry) (visited : Visit → Prop) (place : ScopeId) (made : Call) :
    Prop :=
  ∃ v written, ∃ callee : Callee, visited v ∧ v.context.scope = place ∧ v.source.kind = .call written ∧
    made.name = written.name ∧ made.path = written.path ∧ made.findings = callee.findings place ∧
    callee.NamedBy registry v.before.tree place made.name.text made.pathNames

/-- The construction is bound to a struct that its path names, by what was known when the walk came
to it. -/
def StructTarget.BoundByPath (registry : Registry) (visited : Visit → Prop) (place : ScopeId)
    (name : Token) (path : List Token) (target : StructTarget) : Prop :=
  ∃ v arguments old, visited v ∧ v.context.scope = place ∧
    v.source.kind = .construct name path arguments old ∧
    target.NamedBy registry v.before.tree place name.text (path.map Token.text)

/-- A call or construction with a module path is bound to what its path names. -/
def Expr.BoundByPath (registry : Registry) (visited : Visit → Prop) (place : ScopeId) (n : Expr) :
    Prop :=
  match n.kind with
  | .call made => made.path ≠ [] → made.BoundByPath registry visited place
  | .construct name path _ target =>
    path ≠ [] → ∃ found, target = some found ∧ found.BoundByPath registry visited place name path
  | _ => True

namespace Analysis

variable {registry : Registry} {mode : AnalysisMode} {module : ModuleId} {ast analysed : Ast}
  {s t : AnalysisState}

theorem registry_of_visited {v : Visit} (visited : Visited registry module ast s v) :
    v.context.registry = registry := by
  obtain ⟨context, start, top, ⟨m, -, rfl, -⟩, first, reached⟩ := visited
  induction reached with
  | refl =>
    have stands : (Plan.each ⟨registry, m.scope, none⟩ Expr.slot ast.expressions).Within
        (Grows fun _ => True) fun inner _ _ => inner.registry = registry :=
      Plan.within_each (fun _ _ => rfl) _ _
    exact (stands.enters grows_refl Grows.trans
      (fun _ _ _ _ given => Visit.grows_of_gives given) first).1
  | tail _ entered ih => exact (Visit.registry_of_enters entered).trans ih

/-- What a visit makes of a call or construction is bound by its path. -/
theorem boundByPath_of_gives {v : Visit} {r : Expr} {t : AnalysisState}
    (visited : Visited registry module ast s v) (given : v.Gives r t)
    (pipe : v.source.isPipe = false) :
    r.BoundByPath registry (Visited registry module ast s) v.context.scope := by
  have silent (call : r.kindName ≠ "call") (construct : r.kindName ≠ "new") :
      r.BoundByPath registry (Visited registry module ast s) v.context.scope := by
    unfold Expr.BoundByPath
    split
    next kind => simp [Expr.kindName, ExprKind.name, kind] at call
    next kind => simp [Expr.kindName, ExprKind.name, kind] at construct
    next => trivial
  cases kind : v.source.kind
  case call written =>
    obtain ⟨made, callee, bound, made_kind, ⟨written', _, _, _, source, called, -⟩, findings, -⟩ :=
      Visit.call_of_gives kind given
    rw [kind] at source
    cases source
    obtain ⟨name, path⟩ := Visit.written_of_gives kind given made_kind
    simp only [Expr.BoundByPath, made_kind]
    intro qualified
    refine ⟨v, written, callee, visited, rfl, kind, name, path, findings, ?_⟩
    rw [name, Call.pathNames, path, ← registry_of_visited visited]
    exact namedBy_of_callee (by simpa [path] using qualified) called
  case construct name path arguments old =>
    obtain ⟨arguments', target, found, made_kind, looked, -⟩ := Visit.construct_of_gives kind given
    simp only [Expr.BoundByPath, made_kind]
    intro qualified
    refine ⟨target, rfl, v, arguments, old, visited, rfl, kind, ?_⟩
    rw [← registry_of_visited visited]
    exact namedBy_of_structTarget looked
  case literal token value =>
    rcases Visit.literal_of_gives kind given with ⟨value, -, made_kind⟩ | ⟨code, -, made_kind⟩
    · simp [Expr.BoundByPath, made_kind]
    · -- A shell fragment becomes a call without a path.
      simp [Expr.BoundByPath, made_kind, fragmentCall, Call.plain]
  case' sequence form items => cases form
  all_goals
    have named : v.source.kindName ≠ "literal" ∧ v.source.kindName ≠ "call" ∧
        v.source.kindName ≠ "new" := by
      simp [Expr.kindName, ExprKind.name, Sequence.name, kind]
    have same := Visit.kindName_of_gives given pipe named.1
    exact silent (same ▸ named.2.1) (same ▸ named.2.2)

theorem spreads_boundByPath : Spreads (Visited registry module ast s)
    (LeftAlone registry module ast s)
    fun place n => n.BoundByPath registry (Visited registry module ast s) place where
  ending _ left := left.kindName
  made _ _ _ visited given pipe := boundByPath_of_gives visited given pipe
  mode place e change only bound := by
    unfold Expr.mapCall
    split
    next made kind =>
      -- Neither the path nor the findings are changed.
      obtain ⟨mode, changed, -⟩ := only made
      simp only [Expr.BoundByPath, kind, changed] at bound ⊢
      exact bound
    next => exact bound
  block place e block := by
    obtain ⟨scope, found⟩ := Option.isSome_iff_exists.mp block
    obtain ⟨expressions, role, kind⟩ := Expr.kind_of_blockScope? found
    simp [Expr.BoundByPath, kind]
  fragment _ _ _ _ _ := by simp [Expr.BoundByPath, fragmentArgument]
  implied _ _ _ _ _ _ _ _ _ _ _ _ _ _ _ _ _ _ _ := by
    simp [Expr.BoundByPath, Walk.impliedArgument]
  expanded _ _ _ e _ reference _ _ _ _ _ _ _ _ bound kind _ := by
    simp only [Expr.BoundByPath, kind, Walk.expandedCall] at bound ⊢
    exact bound
  skipped v r t' visited skips left goes := absurd ⟨v, t', visited, skips, left⟩ goes

/-- In an analysed tree, each call and each construction that is written with a module path is bound
to what the path names in the scope where it stands, but for those in functions that had been met
before. -/
theorem boundByPath_of_analysed (given : Gives (moduleWalk registry mode module ast) s analysed t) :
    ∃ m, s.tree.module module = .ok m ∧ ∀ e ∈ analysed.expressions,
      e.AllAbove (LeftAlone registry module ast s)
        (fun place n => n.BoundByPath registry (Visited registry module ast s) place) m.scope :=
  all_of_gives spreads_boundByPath given

/-! ### Paths that lead elsewhere -/

/-- The path and name of a call or construction, and what it has been bound to. -/
structure Binding where
  path : List String
  name : String
  callType : Option CallType := none
  target : Option StructTarget := none
deriving DecidableEq

def bindingOf (e : Expr) : Option Binding :=
  match e.kind with
  | .call made => some
    { path := made.pathNames, name := made.name.text, callType := made.findings.callType }
  | .construct name path _ target => some { path := path.map Token.text, name := name.text, target }
  | _ => none

/-- The root module has a submodule `m`, which declares a function `f`. -/
def submoduleScopes : ScopeTree :=
  .declare "main" [.addModule ⟨0⟩ "m" .exported, .addFunction "f" .exported ⟨1⟩ [] false]

def wholeLibrary : Registry := Standard.bindings.toRegistry

/-- `m::f()`, a misspelled `m::typo()`, a reserved word in `m::exec()`, and `new io::nowhere::File`. -/
def qualifiedNames : Ast :=
  ⟨[Build.pathCall ["m"] "f" [], Build.pathCall ["m"] "typo" [], Build.pathCall ["m"] "exec" [],
    Build.construct ["io", "nowhere"] "File" [Build.string "x"]]⟩

/-- The misspelled call is taken for a program, the reserved word keeps its meaning, and the struct
is found by the first name of its path. -/
theorem bound_elsewhere :
    ∃ analysed t, Gives (moduleWalk wholeLibrary .overwrite ⟨0⟩ qualifiedNames)
      { tree := submoduleScopes } analysed t ∧
      analysed.expressions.map bindingOf =
        [some { path := ["m"], name := "f", callType := some .function },
          some { path := ["m"], name := "typo", callType := some .program },
          some { path := ["m"], name := "exec", callType := some .builtinExec },
          some ⟨["io", "nowhere"], "File", none, some (.standard ⟨"File", "io", 1, 2, none⟩)⟩] := by
  have found : endsWith (moduleWalk wholeLibrary .overwrite ⟨0⟩ qualifiedNames)
      { tree := submoduleScopes } (fun analysed _ => analysed.expressions.map bindingOf ==
        [some { path := ["m"], name := "f", callType := some .function },
          some { path := ["m"], name := "typo", callType := some .program },
          some { path := ["m"], name := "exec", callType := some .builtinExec },
          some ⟨["io", "nowhere"], "File", none, some (.standard ⟨"File", "io", 1, 2, none⟩)⟩]) =
      true := by
    decide +kernel
  obtain ⟨analysed, t, ended, found⟩ := gives_of_endsWith found
  exact ⟨analysed, t, ended, eq_of_beq found⟩

/-- The names in that script are bound all the same. -/
theorem boundByPath_of_analysed_names :
    ∃ analysed t, Gives (moduleWalk wholeLibrary .overwrite ⟨0⟩ qualifiedNames)
      { tree := submoduleScopes } analysed t ∧ analysed.expressions.length = 4 ∧
      ∃ m, submoduleScopes.module ⟨0⟩ = .ok m ∧ ∀ e ∈ analysed.expressions,
        e.AllAbove (LeftAlone wholeLibrary ⟨0⟩ qualifiedNames { tree := submoduleScopes })
          (fun place n => n.BoundByPath wholeLibrary
            (Visited wholeLibrary ⟨0⟩ qualifiedNames { tree := submoduleScopes }) place) m.scope := by
  have ends : endsWith (moduleWalk wholeLibrary .overwrite ⟨0⟩ qualifiedNames)
      { tree := submoduleScopes } (fun analysed _ => analysed.expressions.length == 4) = true := by
    decide +kernel
  obtain ⟨analysed, t, ended, four⟩ := gives_of_endsWith ends
  exact ⟨analysed, t, ended, eq_of_beq four, boundByPath_of_analysed ended⟩

end Analysis
end ShellSema
