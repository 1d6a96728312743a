import ShellSema.Proofs.ImportResolution
import ShellSema.Proofs.Raising

/-!
# The places of errors

An error comes from one node: the visit of that node fails, and all visits within it have completed.
What is around the node passes the error on as it is. The error stands at the node, but for two kinds
of errors that name a place of their own: an import stands at the name that is imported, and a field
that has the name of one before it stands at its own name.
-/
namespace ShellSema

variable {s t : AnalysisState} {bare error other : AnalysisError}

/-! ### Names that are repeated -/

/-- A name among others has the text of one before it, and those before it differ. -/
def Repeats (names : List Token) (name : Token) : Prop :=
  ∃ before after, names = before ++ name :: after ∧ (before.map Token.text).Nodup ∧
    name.text ∈ before.map Token.text

theorem repeats_of_firstRepeated? {seen : List String} {parameters : List Parameter}
    {field : Parameter} (found : firstRepeated? seen parameters = some field) (apart : seen.Nodup) :
    ∃ before after, parameters.map (·.name) = before ++ field.name :: after ∧
      (before.map Token.text ++ seen).Nodup ∧ field.name.text ∈ before.map Token.text ++ seen := by
  induction parameters generalizing seen with
  | nil => cases found
  | cons p rest ih =>
    rw [firstRepeated?] at found
    by_cases repeated : p.name.text ∈ seen
    · rw [if_pos (by simpa using repeated)] at found
      cases found
      exact ⟨[], rest.map (·.name), rfl, by simpa using apart, by simpa using repeated⟩
    · rw [if_neg (by simpa using repeated)] at found
      obtain ⟨before, after, split, different, member⟩ := ih found (apart.cons repeated)
      have moved : (before.map Token.text ++ p.name.text :: seen).Perm
          (p.name.text :: (before.map Token.text ++ seen)) := List.perm_middle
      refine ⟨p.name :: before, after, by simp [split], ?_, ?_⟩
      · simpa using moved.nodup_iff.mp different
      · simpa using moved.mem_iff.mp member

/-- Fields of a struct that are refused have a name twice, and the error stands at the second. -/
theorem fails_checkFields {struct : Token} {fields : List Parameter}
    (failed : Fails (Walk.checkFields struct fields) s error t) :
    ∃ field, Repeats (fields.map (·.name)) field ∧
      error = { cause := .duplicateField struct.text field.text, span := some field.span } := by
  unfold Walk.checkFields at failed
  split at failed
  next field found =>
    obtain ⟨rfl, -⟩ := fails_throw.mp failed
    obtain ⟨before, after, split, different, member⟩ := repeats_of_firstRepeated? found List.nodup_nil
    rw [List.append_nil] at different member
    exact ⟨field.name, ⟨before, after, split, different, member⟩, rfl⟩
  next => exact (fails_pure.mp failed).elim

/-- A struct raises an error for the form of its parameters, or at a second field of one name. -/
theorem Plan.raises_struct {context : Context} {slot : Slot} {span : Span} {access : Access}
    {name : Token} {parameters : List Parameter} {module : ModuleId}
    (raised : (node context slot span (.structDecl access name parameters module)).Raises s bare) :
    bare.RaisedBy "struct" ∨ ∃ field, Repeats (parameters.map (·.name)) field ∧
      bare = { cause := .duplicateField name.text field.text, span := some field.span } := by
  simp only [node, raises_bind, raises_lift, raises_pure, run_lift, run_parameterList, fails_note,
    fails_edit, exists_false, and_false, or_false, false_or] at raised
  obtain ⟨_, _, -, disordered | ⟨results, r, listed, t, failed⟩⟩ := raised
  · exact .inl (throws_parameterList (fun cause same => ⟨rfl, by rw [same]; simp⟩) _ _ _ _ disordered)
  · obtain ⟨field, repeats, same⟩ := fails_checkFields failed
    -- The analysed parameters have the names of the given ones.
    rw [map_of_become (·.name) (becomes_of_gives listed).2 fun _ _ becomes => becomes.name] at repeats
    exact .inr ⟨field, repeats, same⟩

/-! ### The node that an error comes from -/

namespace Visit

variable {v w : Visit}

/-- The node of a visit raises this error itself. -/
inductive RaisesAt (w : Visit) : AnalysisError → Prop where
  /-- A call has to stand in its place. -/
  | refused (bad : ¬ w.slot.admits w.source.kind = true) :
      RaisesAt w { cause := .callExpectedAfterPipe, span := some w.source.span }
  /-- An action of the node fails, for a cause that nodes of its kind raise. -/
  | own {cause : ErrorCause} (admitted : w.slot.admits w.source.kind = true)
      (raised : w.plan.Raises w.before { cause }) (raises : w.source.kindName ∈ cause.raisers) :
      RaisesAt w { cause, span := some w.source.span }
  /-- A struct has two fields of one name. -/
  | field {access : Access} {name : Token} {parameters : List Parameter} {module : ModuleId}
      {field : Token} (kind : w.source.kind = .structDecl access name parameters module)
      (admitted : w.slot.admits w.source.kind = true)
      (raised : w.plan.Raises w.before
        { cause := .duplicateField name.text field.text, span := some field.span })
      (second : Repeats (parameters.map (·.name)) field) :
      RaisesAt w { cause := .duplicateField name.text field.text, span := some field.span }

/-- A node raises one error. -/
theorem RaisesAt.unique (one : w.RaisesAt error) (another : w.RaisesAt other) : error = other := by
  cases one with
  | refused bad =>
    cases another with
    | refused => rfl
    | own admitted => exact absurd admitted bad
    | field _ admitted => exact absurd admitted bad
  | own admitted raised =>
    cases another with
    | refused bad => exact absurd admitted bad
    | own _ raised' => cases raised.unique raised'; rfl
    | field _ _ raised' => cases raised.unique raised'
  | field kind admitted raised =>
    cases another with
    | refused bad => exact absurd admitted bad
    | own _ raised' => cases raised.unique raised'
    | field _ _ raised' => exact raised.unique raised'

/-- A visit that fails while no visit within it does raises its error. -/
theorem BreaksOff.raisesAt (breaks : w.BreaksOff error) : w.RaisesAt error := by
  obtain ⟨failed, completed⟩ := breaks
  obtain ⟨bare, rfl, ended⟩ := fails_iff.mp failed
  split at ended
  next admitted =>
    have raised : w.plan.Raises w.before bare := by
      rcases Plan.raises_or_enters ended with raised | ⟨v, entered, broken⟩
      · exact raised
      · exact absurd (completed v ⟨admitted, entered⟩) broken.not_completes
    -- A struct is the one declaration that places an error by itself, at one of its fields.
    by_cases struct : w.source.kindName = "struct"
    · obtain ⟨access, name, parameters, module, kind⟩ := Expr.struct_of_kindName struct
      have raised' := raised
      rw [plan, kind] at raised'
      rcases Plan.raises_struct raised' with ⟨unplaced, raises⟩ | ⟨field, second, rfl⟩
      · obtain ⟨cause, span⟩ := bare
        cases unplaced
        exact .own admitted raised (struct ▸ raises)
      · exact .field kind admitted raised second
    · obtain ⟨unplaced, raises⟩ := Plan.throws_node _ _ struct _ _ raised
      obtain ⟨cause, span⟩ := bare
      cases unplaced
      exact .own admitted raised raises
  next bad =>
    subst ended
    exact .refused bad

end Visit

namespace Analysis

variable {registry : Registry} {mode : AnalysisMode} {module : ModuleId} {ast : Ast}
  {tree later : ScopeTree} {u w : Visit}

/-- An error comes from the node of one visit. It raises this error and no other, though all visits
within it complete. Those around it fail with the same error, and all others complete. -/
structure ComesFrom (registry : Registry) (module : ModuleId) (ast : Ast) (s : AnalysisState)
    (error : AnalysisError) (w : Visit) : Prop where
  visited : Visited registry module ast s w
  raised : ∀ other, w.RaisesAt other ↔ other = error
  innermost : ∀ v, w.Enters v → v.Completes
  around : ∀ v, Visited registry module ast s v → v.Reaches w → v.Fails error
  elsewhere : ∀ v, Visited registry module ast s v → ¬ v.Reaches w → v.Completes

/-- The imports of a module end with an error at the first name that cannot be imported. -/
def RefusedAt (tree : ScopeTree) (module : ModuleId) (queued : QueuedImport)
    (error : AnalysisError) : Prop :=
  ∃ m before after, tree.module module = .ok m ∧ m.importQueue = before ++ queued :: after ∧
    (∀ earlier ∈ before, ∃ target, tree.CanImport earlier target) ∧ tree.Refuses queued error

theorem refusedAt_of_fails {m : ScriptModule} {begun r : AnalysisState}
    (found : s.tree.module module = .ok m) (marked : Gives (setStatus module .analysed) s () begun)
    (refused : Fails (Walk.resolveImports module) begun error r) :
    ∃ queued, RefusedAt s.tree module queued error := by
  have marked := (runFrom_edit_changeModule found _).symm.trans marked
  obtain rfl : _ = begun := congrArg Prod.snd marked
  -- The mark and the emptied queue leave what the names stand for.
  have kept : KeepsDeclared s { s with
      tree := s.tree.withModule module { m with status := .analysed, importQueue := [] } } :=
    keepsDeclared_withModule found rfl
  have found' := ScopeTree.module_withModule found { m with status := .analysed }
  have emptied := ScopeTree.module_withModule found
    { m with status := .analysed, importQueue := [] }
  rw [Fails, runFrom_resolveImports found', ScopeTree.withModule_withModule] at refused
  obtain ⟨bound, rest, result, split, cans, run, ends⟩ :=
    resolveQueue_cases (s := { s with tree := s.tree.withModule module _ }) emptied m.importQueue
  obtain rfl : result = .error (.failed error) := congrArg Prod.fst (run.symm.trans refused)
  cases kept.resolutionEnds ends with
  | stopped stops =>
    cases stops with
    | refused refuses =>
      refine ⟨_, m, _, _, found, split.symm, fun earlier member => ?_, refuses⟩
      obtain ⟨pair, listed, rfl⟩ := List.mem_map.mp member
      exact ⟨pair.2, kept.canImport.mp (cans pair listed)⟩

theorem comesFrom_of_breaksOff (failed : Fails (moduleWalk registry mode module ast) s error t)
    (visited : Visited registry module ast s w) (breaks : w.BreaksOff error) :
    ComesFrom registry module ast s error w := by
  have fails_iff {v : Visit} (member : Visited registry module ast s v) :
      v.Fails error ↔ v.Reaches w := by
    rw [member.fails_iff failed]
    constructor
    · rintro ⟨u, reached, breaks'⟩
      obtain rfl := breaksOff_unique failed (member.reaches reached) visited breaks' breaks
      exact reached
    · exact fun reached => ⟨w, reached, breaks⟩
  refine ⟨visited, fun other => ⟨fun raises => raises.unique breaks.raisesAt, ?_⟩, breaks.2,
    fun v member reached => (fails_iff member).mpr reached, fun v member apart => ?_⟩
  · rintro rfl
    exact breaks.raisesAt
  · exact (member.ends failed).resolve_right (mt (fails_iff member).mp apart)

/-- An error of the script has a place. Either nothing has been visited: the error stands at the first
queued name that cannot be imported. Or the error comes from one visited node, and it is just what that
node raises: at its own place, or at the second of two fields of one name. All that is around the node
passes on this very error. -/
theorem error_placed_innermost
    (failed : analyze registry mode tree module ast = ⟨.error (.failed error), later⟩) :
    error.span.isSome = true ∧
      ((∃ queued, RefusedAt tree module queued error ∧
          ∀ v, ¬ Visited registry module ast { tree } v) ∨
        ∃ w, ComesFrom registry module ast { tree } error w) := by
  obtain ⟨t, failed⟩ : ∃ t, Fails (moduleWalk registry mode module ast) { tree } error t := by
    unfold analyze at failed
    split at failed
    · cases failed
    · cases failed
    · rcases ended : (moduleWalk registry mode module ast).run { tree } with ⟨result, t⟩
      rw [ended] at failed
      cases failed
      exact ⟨t, ended⟩
  -- The run fails at an import, before any visit, or within the tree.
  obtain ⟨r, -, ⟨m, begun, found, marked, refused⟩ | ⟨context, start, begins, -⟩⟩ := fails_stages failed
  · obtain ⟨queued, refusedAt⟩ := refusedAt_of_fails found marked refused
    refine ⟨?_, .inl ⟨queued, refusedAt, ?_⟩⟩
    · obtain ⟨_, _, _, -, -, -, ⟨_⟩ | ⟨_⟩⟩ := refusedAt <;> rfl
    · rintro v ⟨context, start, _, begins, -⟩
      exact not_begins_of_fails marked refused context start begins
  · obtain ⟨w, visited, breaks⟩ := exists_breaksOff failed begins
    exact ⟨breaks.1.placed, .inr ⟨w, comesFrom_of_breaksOff failed visited breaks⟩⟩

/-- In a function, a list of files is piped into a call with a closure, and in the closure is a name that
stands for nothing. -/
def missingWithin : Ast :=
  let missing : Expr := { Build.variableRef "missing" with span := inColumn 20 }
  let each := Build.closure (Build.call "each" []) [] (Build.block ⟨2⟩ [Build.call "println" [missing]])
  ⟨[Build.function { name := "f", access := .restricted, module := ⟨0⟩ } ⟨0⟩
    (Build.blockOf .function ⟨1⟩ [Build.pipe (Build.command "ls" []) each])]⟩

def missingWithinScopes : ScopeTree :=
  .declare "main" [
    .addScope ⟨0⟩,
    .addScope ⟨1⟩,
    .addFunction "f" .restricted ⟨0⟩ [] false,
    .addFunction "each" .exported ⟨0⟩ [Build.parameter "files"] true]

/-- The error stands at the name. -/
theorem error_placed_innermost_nested :
    ∃ later, analyze .empty .overwrite missingWithinScopes ⟨0⟩ missingWithin =
        ⟨.error (.failed ⟨.notFound "missing", some (inColumn 20)⟩), later⟩ ∧
      ∃ w, ComesFrom .empty ⟨0⟩ missingWithin { tree := missingWithinScopes }
          ⟨.notFound "missing", some (inColumn 20)⟩ w ∧ w.source.span = inColumn 20 := by
  have fails : failsWith (moduleWalk .empty .overwrite ⟨0⟩ missingWithin)
      { tree := missingWithinScopes }
      (fun error _ => error = ⟨.notFound "missing", some (inColumn 20)⟩) = true := by
    decide +kernel
  obtain ⟨error, t, failed, same⟩ := fails_of_failsWith fails
  obtain rfl := of_decide_eq_true same
  have ended : analyze .empty .overwrite missingWithinScopes ⟨0⟩ missingWithin =
      ⟨.error (.failed ⟨.notFound "missing", some (inColumn 20)⟩), t.tree⟩ := by
    rw [analyze_overwrite, show runFrom _ _ = _ from failed]
  refine ⟨t.tree, ended, ?_⟩
  obtain ⟨-, ⟨queued, ⟨_, _, _, -, -, -, refuses⟩, -⟩ | ⟨w, comes⟩⟩ := error_placed_innermost ended
  · cases refuses
  · refine ⟨w, comes, ?_⟩
    have raises := (comes.raised _).mpr rfl
    -- Which rule places the error depends on its cause, so the cause is looked at case by case.
    generalize same : (⟨.notFound "missing", some (inColumn 20)⟩ : AnalysisError) = error at raises
    cases raises with
    | refused => cases congrArg AnalysisError.cause same
    | own => exact (Option.some.inj (congrArg AnalysisError.span same)).symm
    | field => cases congrArg AnalysisError.cause same

end Analysis
end ShellSema
