import ShellSema.Proofs.Moments

/-!
# Where an analysis breaks off

An error of the script ends a walk at one node: the visit of that node fails, and no visit within it
does. The visits around it fail with the same error, and all the others that have been made by then
have ended with a result.
-/
namespace ShellSema

variable {α β : Type} {s t : AnalysisState} {error : AnalysisError}

/-- From the first state the action fails: an error of the script ends it, and it leaves the second
state. -/
def Fails (action : Walk α) (s : AnalysisState) (error : AnalysisError) (t : AnalysisState) : Prop :=
  runFrom action s = (.error (.failed error), t)

/-! ### Actions that fail -/

theorem Fails.not_gives {action : Walk α} (failed : Fails action s error t) {a : α}
    {t' : AnalysisState} : ¬ Gives action s a t' := by
  intro given
  have same := failed.symm.trans given
  simp at same

theorem Fails.unique {action : Walk α} {other : AnalysisError} {t' : AnalysisState}
    (one : Fails action s error t) (another : Fails action s other t') : error = other ∧ t = t' := by
  have same := one.symm.trans another
  simpa using same

/-- The action fails, and its error and the state it leaves pass a check. -/
def failsWith (action : Walk α) (s : AnalysisState)
    (check : AnalysisError → AnalysisState → Bool) : Bool :=
  match runFrom action s with
  | (.error (.failed error), t) => check error t
  | _ => false

theorem fails_of_failsWith {action : Walk α} {check : AnalysisError → AnalysisState → Bool}
    (ends : failsWith action s check = true) :
    ∃ error t, Fails action s error t ∧ check error t = true := by
  unfold failsWith at ends
  split at ends
  next error t ended => exact ⟨error, t, ended, ends⟩
  next => cases ends

@[simp] theorem fails_pure {a : α} : Fails (pure a) s error t ↔ False := by
  simp [Fails]

@[simp] theorem fails_modify {change : AnalysisState → AnalysisState} :
    Fails (modify change : Walk PUnit) s error t ↔ False := by
  simp [Fails]

@[simp] theorem fails_get : Fails (get : Walk AnalysisState) s error t ↔ False := by
  simp [Fails]

theorem fails_bind {action : Walk α} {next : α → Walk β} :
    Fails (action >>= next) s error t ↔
      Fails action s error t ∨ ∃ a r, Gives action s a r ∧ Fails (next a) r error t := by
  simp only [Fails, Gives, runFrom_bind]
  rcases runFrom action s with ⟨halt | a, r⟩
  · simp
  · constructor
    · exact fun failed => .inr ⟨a, r, rfl, failed⟩
    · rintro (impossible | ⟨_, _, same, failed⟩)
      · cases impossible
      · cases same
        exact failed

@[simp] theorem fails_note {span : Span} {category : SemanticCategory} :
    Fails (Walk.note span category) s error t ↔ False :=
  fails_modify

/-- Only a tree that is not built as it should be makes a question or an edit halt. -/
@[simp] theorem fails_ask {question : ScopeTree → Except ScopeTree.Fault α} :
    Fails (Walk.ask question) s error t ↔ False := by
  simp only [Fails, Walk.ask, runFrom_bind, runFrom_get]
  cases question s.tree <;> simp [Walk.crash]

@[simp] theorem fails_edit {change : ScopeTree.Edit α} :
    Fails (Walk.edit change) s error t ↔ False := by
  simp only [Fails, runFrom_edit]
  rcases runFrom change s.tree with ⟨_ | _, _⟩ <;> simp

@[simp] theorem fails_registerFunction {access : Access} {name : Token} {parameters : List Parameter}
    {module : ModuleId} {takesClosure : Bool} {id : FunctionId} :
    Fails (Walk.registerFunction access name parameters module takesClosure id) s error t ↔ False := by
  simp only [Walk.registerFunction, fails_bind, fails_get, fails_edit, and_false, exists_false,
    or_false]

@[simp] theorem fails_throw {bare : AnalysisError} :
    Fails (throw (.failed bare) : Walk α) s error t ↔ error = bare ∧ t = s := by
  simp [Fails, eq_comm]

/-- A handler of errors passes a crash on. -/
theorem fails_tryCatch {action : Walk α} {handler : Halt → Walk α}
    (passes : ∀ crash, handler (.crashed crash) = throw (.crashed crash)) :
    Fails (tryCatch action handler) s error t ↔
      ∃ bare r, Fails action s bare r ∧ Fails (handler (.failed bare)) r error t := by
  simp only [Fails, runFrom_tryCatch]
  rcases runFrom action s with ⟨(bare | crash) | a, r⟩
  · constructor
    · exact fun failed => ⟨bare, r, rfl, failed⟩
    · rintro ⟨_, _, same, failed⟩
      cases same
      exact failed
  · simp [passes]
  · simp

theorem fails_locate {span : Span} {action : Walk α} :
    Fails (Walk.locate span action) s error t ↔
      ∃ bare, Fails action s bare t ∧ error = bare.orSpan span := by
  unfold Walk.locate
  rw [fails_tryCatch (by intro crash; rfl)]
  simp only [fails_throw]
  constructor
  · rintro ⟨bare, _, failed, rfl, rfl⟩
    exact ⟨bare, failed, rfl⟩
  · rintro ⟨bare, failed, rfl⟩
    exact ⟨bare, t, failed, rfl, rfl⟩

/-- A function is marked as failed before its error is passed on. -/
theorem fails_orFailFunction {id : FunctionId} {action : Walk α} :
    Fails (Walk.orFailFunction id action) s error t ↔ ∃ r, Fails action s error r ∧
      Gives (Walk.edit (ScopeTree.Edit.changeFunction id fun f => { f with status := .failed })) r ()
        t := by
  unfold Walk.orFailFunction
  rw [fails_tryCatch (by intro crash; rfl)]
  simp only [fails_bind, fails_edit, fails_throw, false_or]
  constructor
  · rintro ⟨bare, r, failed, _, _, marked, rfl, rfl⟩
    exact ⟨r, failed, marked⟩
  · rintro ⟨r, failed, marked⟩
    exact ⟨error, r, failed, (), t, marked, rfl, rfl⟩

namespace AnalysisError

/-- A place that an error has is kept. -/
theorem orSpan_of_placed {bare : AnalysisError} (placed : bare.span.isSome = true) (span : Span) :
    bare.orSpan span = bare := by
  obtain ⟨place, found⟩ := Option.isSome_iff_exists.mp placed
  simp [orSpan, found]

theorem placed_orSpan (bare : AnalysisError) (span : Span) :
    (bare.orSpan span).span.isSome = true := by
  unfold orSpan
  split
  next place found => simp [found]
  next => rfl

end AnalysisError

/-! ### Plans and visits that fail -/

namespace Visit

/-- The visit ends with a result. -/
def Completes (v : Visit) : Prop := ∃ r t, v.Gives r t

/-- An error of the script ends the visit. -/
def Fails (v : Visit) (error : AnalysisError) : Prop :=
  ShellSema.Fails (Walk.expr v.context v.slot v.source) v.before error v.after

theorem fails_of_expr {v : Visit}
    (failed : ShellSema.Fails (Walk.expr v.context v.slot v.source) v.before error t) :
    v.Fails error ∧ v.after = t := by
  have same : v.after = t := congrArg Prod.snd failed
  exact ⟨by rw [Fails, same]; exact failed, same⟩

theorem Fails.not_completes {v : Visit} (failed : v.Fails error) : ¬ v.Completes := by
  rintro ⟨r, t, given⟩
  exact ShellSema.Fails.not_gives failed given

end Visit

/-- An expression that its slot refuses fails at once, another one fails in its course. -/
theorem fails_expr {context : Context} {slot : Slot} {e : Expr} :
    Fails (Walk.expr context slot e) s error t ↔ ∃ bare, error = bare.orSpan e.span ∧
      if slot.admits e.kind then Fails (Plan.node context slot e.span e.kind).run s bare t
      else bare = { cause := .callExpectedAfterPipe } ∧ t = s := by
  obtain ⟨kind, span, isRoot, enclosing⟩ := e
  simp only [Walk.expr, fails_bind, fails_locate, fails_pure, and_false, exists_false, or_false]
  by_cases admitted : slot.admits kind = true
  · simp only [admitted, if_true, Plan.node_eq_run, and_comm]
  · simp [admitted, Walk.fail, and_comm]

/-- Of these visits at most one fails, with this error, and all others complete. -/
def FailsOnce (among : Visit → Prop) (error : AnalysisError) : Prop :=
  (∀ v, among v → v.Completes) ∨
    ∃ w, among w ∧ w.Fails error ∧ ∀ v, among v → v = w ∨ v.Completes

/-- Visits that complete may come to them. -/
theorem FailsOnce.extend {among more : Visit → Prop} (once : FailsOnce among error)
    (within : ∀ v, among v → more v) (added : ∀ v, more v → v.Completes ∨ among v) :
    FailsOnce more error := by
  rcases once with all | ⟨w, member, broken, others⟩
  · exact .inl fun v inside => (added v inside).elim id (all v)
  · exact .inr ⟨w, within w member, broken, fun v inside => (added v inside).elim .inr (others v)⟩

theorem FailsOnce.ends {among : Visit → Prop} {v : Visit} (once : FailsOnce among error)
    (member : among v) : v.Completes ∨ v.Fails error := by
  rcases once with all | ⟨w, -, broken, others⟩
  · exact .inl (all v member)
  · rcases others v member with rfl | completes
    · exact .inr broken
    · exact .inl completes

/-- Two of them that do not complete are the same. -/
theorem FailsOnce.unique {among : Visit → Prop} {v w : Visit} (once : FailsOnce among error)
    (member : among v) (member' : among w) (ends : ¬ v.Completes) (ends' : ¬ w.Completes) : v = w := by
  rcases once with all | ⟨u, -, -, others⟩
  · exact absurd (all v member) ends
  · have first := (others v member).resolve_right ends
    have second := (others w member').resolve_right ends'
    exact first.trans second.symm

namespace Plan

/-- A plan that fails does so in the last visit that it comes to, or in an action of its own. All other
visits complete. -/
theorem enters_of_fails {p : Plan α} (failed : Fails p.run s error t) :
    FailsOnce (p.Enters s) error := by
  induction p generalizing s t with
  | done a => exact (fails_pure.mp failed).elim
  | act action next ih =>
    rcases fails_bind.mp failed with here | ⟨b, r, given, failed⟩
    · refine .inl ?_
      rintro v ⟨b, r, given, -⟩
      exact (here.not_gives given).elim
    refine (ih b failed).extend (fun v inside => ⟨b, r, given, inside⟩) ?_
    rintro v ⟨b', r', given', entered⟩
    obtain ⟨rfl, rfl⟩ := given.unique given'
    exact .inr entered
  | visit context slot e next ih =>
    rcases fails_bind.mp failed with here | ⟨r, t', given, failed⟩
    · refine .inr ⟨⟨context, slot, e, s⟩, .inl rfl, (Visit.fails_of_expr here).1, ?_⟩
      rintro v (rfl | ⟨r, t', given, -⟩)
      · exact .inl rfl
      · exact (here.not_gives given).elim
    refine (ih r failed).extend (fun v inside => .inr ⟨r, t', given, inside⟩) ?_
    rintro v (rfl | ⟨r', t'', given', entered⟩)
    · exact .inl ⟨r, t', given⟩
    · obtain ⟨rfl, rfl⟩ := given.unique given'
      exact .inr entered
  | guarded function inner next innerIh ih =>
    rcases fails_bind.mp failed with here | ⟨b, t', given, failed⟩
    · -- On the way out the function is marked, but nothing is visited any more.
      obtain ⟨r, here, -⟩ := fails_orFailFunction.mp here
      refine (innerIh here).extend (fun v inside => .inl inside) ?_
      rintro v (entered | ⟨b, t', given, -⟩)
      · exact .inr entered
      · exact (here.not_gives given).elim
    have given := gives_orFailFunction.mp given
    refine (ih b failed).extend (fun v inside => .inr ⟨b, t', given, inside⟩) ?_
    rintro v (entered | ⟨b', t'', given', entered⟩)
    · exact .inl (Visit.gives_of_planEnters entered given)
    · obtain ⟨rfl, rfl⟩ := given.unique given'
      exact .inr entered

/-- The walk over a list of expressions fails in one of its visits. -/
theorem each_enters_of_fails {context : Context} {slot : Expr → Slot} {es : List Expr}
    (failed : Fails (each context slot es).run s error t) :
    ∃ w, (each context slot es).Enters s w ∧ w.Fails error := by
  induction es generalizing s with
  | nil => exact (fails_pure.mp failed).elim
  | cons e es ih =>
    simp only [each, run_bind, run_enter, fails_bind, run_pure, fails_pure, and_false, exists_false,
      or_false] at failed
    rcases failed with here | ⟨r, u, given, failed⟩
    · exact ⟨⟨context, slot e, e, s⟩, .inl rfl, (Visit.fails_of_expr here).1⟩
    · obtain ⟨w, entered, broken⟩ := ih failed
      refine ⟨w, ?_, broken⟩
      simp only [each, enters_bind, run_enter]
      exact .inr ⟨r, u, given, .inl entered⟩

end Plan

namespace Visit

variable {u v w : Visit}

theorem fails_iff : v.Fails error ↔ ∃ bare, error = bare.orSpan v.source.span ∧
    if v.slot.admits v.source.kind then ShellSema.Fails v.plan.run v.before bare v.after
    else bare = { cause := .callExpectedAfterPipe } := by
  rw [Fails, fails_expr]
  refine exists_congr fun bare => and_congr_right fun _ => ?_
  split
  next => rfl
  next refused => simp [after_of_refused refused]

/-- In the end, an error has a place. -/
theorem Fails.placed (failed : v.Fails error) : error.span.isSome = true := by
  obtain ⟨bare, rfl, -⟩ := fails_iff.mp failed
  exact bare.placed_orSpan _

/-- A visit that fails enters at most one that fails, with the same error. All others complete. -/
theorem enters_of_fails (failed : v.Fails error) : FailsOnce v.Enters error := by
  obtain ⟨bare, same, ended⟩ := fails_iff.mp failed
  split at ended
  next admitted =>
    rcases Plan.enters_of_fails ended with all | ⟨w, entered, broken, others⟩
    · exact .inl fun w entered => all w entered.2
    · -- The error has the place of the inner visit by now, so this one adds nothing.
      rw [AnalysisError.orSpan_of_placed broken.placed] at same
      exact .inr ⟨w, ⟨admitted, entered⟩, same ▸ broken, fun u inside => others u inside.2⟩
  next refused => exact .inl fun w entered => absurd entered.1 refused

/-- All visits within one that completes complete. -/
theorem Completes.of_reaches (completes : v.Completes) (reached : v.Reaches w) : w.Completes := by
  induction reached with
  | refl => exact completes
  | tail _ entered ih =>
    obtain ⟨r, t, given⟩ := ih
    exact gives_of_enters entered given

/-- A visit does not complete if one within it fails. -/
theorem Fails.not_completes_around (failed : w.Fails error) (reached : v.Reaches w) :
    ¬ v.Completes :=
  fun completes => failed.not_completes (completes.of_reaches reached)

/-- A visit within one that fails completes, or fails with the same error. -/
theorem Fails.of_reaches (failed : v.Fails error) (reached : v.Reaches w) :
    w.Completes ∨ w.Fails error := by
  induction reached with
  | refl => exact .inr failed
  | tail _ entered ih =>
    rcases ih with completes | broken
    · exact .inl (completes.of_reaches (.single entered))
    · exact (enters_of_fails broken).ends entered

/-- Here the walk breaks off: the visit fails, and no visit within it does. -/
def BreaksOff (v : Visit) (error : AnalysisError) : Prop :=
  v.Fails error ∧ ∀ w, v.Enters w → w.Completes

/-- Where its slot refuses an expression, the walk breaks off. -/
theorem breaksOff_of_refused (refused : ¬ v.slot.admits v.source.kind = true) :
    v.BreaksOff { cause := .callExpectedAfterPipe, span := some v.source.span } := by
  refine ⟨fails_iff.mpr ⟨{ cause := .callExpectedAfterPipe }, rfl, ?_⟩,
    fun w entered => absurd entered.1 refused⟩
  rw [if_neg refused]

/-- A visit that fails leads to one where the walk breaks off. -/
theorem exists_breaksOff (failed : v.Fails error) : ∃ w, v.Reaches w ∧ w.BreaksOff error := by
  obtain ⟨e, source⟩ : ∃ e, v.source = e := ⟨_, rfl⟩
  induction e using Expr.induction generalizing v with
  | inherited e ih =>
    rcases enters_of_fails failed with all | ⟨w, entered, broken, -⟩
    -- If all visits within have completed, it is this one; else it lies in the one that fails.
    · exact ⟨v, .refl, failed, all⟩
    · have child : w.source ∈ e.children := source ▸ mem_children_of_enters entered
      obtain ⟨u, reached, breaks⟩ := ih _ child broken rfl
      exact ⟨u, .head entered reached, breaks⟩

/-- There is no more than one such visit. -/
theorem breaksOff_unique (failed : v.Fails error) (first : v.Reaches u) (second : v.Reaches w)
    (breaks : u.BreaksOff error) (breaks' : w.BreaksOff error) : u = w := by
  -- As long as both lie further on, they lie within the one visit that fails.
  induction first using Relation.ReflTransGen.head_induction_on with
  | refl =>
    rcases Relation.ReflTransGen.cases_head second with same | ⟨c, entered, further⟩
    · exact same
    · exact absurd (breaks.2 c entered) (breaks'.1.not_completes_around further)
  | @head v c entered further ih =>
    have stays := breaks.1.not_completes_around further
    rcases Relation.ReflTransGen.cases_head second with rfl | ⟨d, entered', further'⟩
    · exact absurd (breaks'.2 c entered) stays
    have once := enters_of_fails failed
    obtain rfl := once.unique entered entered' stays (breaks'.1.not_completes_around further')
    exact ih ((once.ends entered).resolve_left stays) further'

end Visit

/-! ### Analyses that fail -/

namespace Analysis

variable {registry : Registry} {mode : AnalysisMode} {module : ModuleId} {ast : Ast} {u v w : Visit}

theorem fails_settle {walked : Walk Ast} :
    Fails (settle mode module walked) s error t ↔
      ∃ r, Fails walked s error r ∧ Gives (setStatus module .failed) r () t := by
  -- To store the tree that comes out cannot fail, so it was the walk itself.
  have storing (analysed : Ast) (r : AnalysisState) : ¬ Fails (do
      if mode = .oncePerModule then store module analysed
      return analysed) r error t := by
    simp only [store]
    split <;> simp only [fails_bind, fails_edit, fails_pure, and_false, exists_false, or_false,
      not_false_iff]
  unfold settle
  rw [fails_bind, fails_tryCatch (by intro crash; rfl)]
  simp only [setStatus, fails_bind, fails_edit, fails_throw, false_or]
  constructor
  · rintro (⟨bare, r, failed, _, _, marked, rfl, rfl⟩ | ⟨analysed, r, -, failed⟩)
    · exact ⟨r, failed, marked⟩
    · exact absurd failed (storing analysed r)
  · rintro ⟨r, failed, marked⟩
    exact .inl ⟨error, r, failed, (), t, marked, rfl, rfl⟩

/-- An analysis that fails leaves its module marked. It has failed in the imports, or in one of the
visits of the expressions. -/
theorem fails_stages (failed : Fails (moduleWalk registry mode module ast) s error t) :
    ∃ r, Gives (setStatus module .failed) r () t ∧
      ((∃ m begun, s.tree.module module = .ok m ∧ Gives (setStatus module .analysed) s () begun ∧
          Fails (Walk.resolveImports module) begun error r) ∨
        ∃ context start, Begins registry module s context start ∧
          Fails (Plan.each context Expr.slot ast.expressions).run start error r) := by
  rw [moduleWalk_eq_settle] at failed
  simp only [setStatus, fails_bind, fails_ask, fails_edit, false_or, gives_ask] at failed
  obtain ⟨m, _, ⟨found, rfl⟩, _, begun, marked, failed⟩ := failed
  obtain ⟨r, failed, ended⟩ := fails_settle.mp failed
  refine ⟨r, ended, ?_⟩
  unfold walkModule at failed
  simp only [fails_bind, fails_pure, and_false, exists_false, or_false] at failed
  rcases failed with refused | ⟨_, start, resolved, failed⟩
  · exact .inl ⟨m, begun, found, marked, refused⟩
  · refine .inr ⟨_, start, ⟨m, found, rfl, gives_bind.mpr ⟨_, begun, marked, resolved⟩⟩, ?_⟩
    rwa [Plan.run_each]

/-- Where the imports fail, nothing is visited. -/
theorem not_begins_of_fails {begun : AnalysisState} (marked : Gives (setStatus module .analysed) s () begun)
    (refused : Fails (Walk.resolveImports module) begun error t) (context : Context)
    (start : AnalysisState) : ¬ Begins registry module s context start := by
  rintro ⟨m, -, -, given⟩
  obtain ⟨_, begun', marked', resolved⟩ := gives_bind.mp given
  obtain ⟨-, rfl⟩ := Gives.unique marked marked'
  exact refused.not_gives resolved

theorem fails_cases (failed : Fails (moduleWalk registry mode module ast) s error t) :
    ∃ r, Gives (setStatus module .failed) r () t ∧
      ((∀ context start, ¬ Begins registry module s context start) ∨
        ∃ context start, Begins registry module s context start ∧
          Fails (Plan.each context Expr.slot ast.expressions).run start error r) := by
  obtain ⟨r, ended, ⟨m, begun, -, marked, refused⟩ | visited⟩ := fails_stages failed
  · exact ⟨r, ended, .inl (not_begins_of_fails marked refused)⟩
  · exact ⟨r, ended, .inr visited⟩

/-- In an analysis that fails, a visit completes or fails with the same error. -/
theorem Visited.ends (visited : Visited registry module ast s u)
    (failed : Fails (moduleWalk registry mode module ast) s error t) :
    u.Completes ∨ u.Fails error := by
  obtain ⟨context, start, top, begins, first, reached⟩ := visited
  obtain ⟨r, -, none | ⟨context', start', begins', failed⟩⟩ := fails_cases failed
  · exact absurd begins (none _ _)
  obtain ⟨rfl, rfl⟩ := begins.unique begins'
  rcases (Plan.enters_of_fails failed).ends first with completes | broken
  · exact .inl (completes.of_reaches reached)
  · exact broken.of_reaches reached

/-- A visit fails just if the walk breaks off within it. -/
theorem Visited.fails_iff (visited : Visited registry module ast s u)
    (failed : Fails (moduleWalk registry mode module ast) s error t) :
    u.Fails error ↔ ∃ w, u.Reaches w ∧ w.BreaksOff error := by
  constructor
  · exact Visit.exists_breaksOff
  · rintro ⟨w, reached, breaks⟩
    exact (visited.ends failed).resolve_left (breaks.1.not_completes_around reached)

/-- An analysis that fails after its imports have been resolved breaks off at one visit. -/
theorem exists_breaksOff (failed : Fails (moduleWalk registry mode module ast) s error t)
    {context : Context} {start : AnalysisState} (begins : Begins registry module s context start) :
    ∃ w, Visited registry module ast s w ∧ w.BreaksOff error := by
  obtain ⟨r, -, none | ⟨context', start', begins', failed⟩⟩ := fails_cases failed
  · exact absurd begins (none _ _)
  obtain ⟨top, first, broken⟩ := Plan.each_enters_of_fails failed
  obtain ⟨w, reached, breaks⟩ := Visit.exists_breaksOff broken
  exact ⟨w, ⟨context', start', top, begins', first, reached⟩, breaks⟩

theorem breaksOff_unique (failed : Fails (moduleWalk registry mode module ast) s error t)
    (visited : Visited registry module ast s u) (visited' : Visited registry module ast s w)
    (breaks : u.BreaksOff error) (breaks' : w.BreaksOff error) : u = w := by
  obtain ⟨context, start, top, begins, first, reached⟩ := visited
  obtain ⟨_, _, top', begins', first', reached'⟩ := visited'
  obtain ⟨rfl, rfl⟩ := begins.unique begins'
  obtain ⟨r, -, none | ⟨_, _, begins'', failed⟩⟩ := fails_cases failed
  · exact absurd begins (none _ _)
  obtain ⟨rfl, rfl⟩ := begins.unique begins''
  have once := Plan.enters_of_fails failed
  have stays := breaks.1.not_completes_around reached
  obtain rfl := once.unique first first' stays (breaks'.1.not_completes_around reached')
  exact Visit.breaksOff_unique ((once.ends first).resolve_left stays) reached reached' breaks breaks'

end Analysis
end ShellSema
