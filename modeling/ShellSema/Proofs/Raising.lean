import ShellSema.Proofs.Arriving
import ShellSema.Proofs.ParameterLists

/-!
# What nodes raise

An error of the script is raised by an action that belongs to a node itself, not to the walks over its
subexpressions. Each kind of nodes raises some causes only, and leaves the place of the error open, but
for a struct that has two fields of one name.
-/
namespace ShellSema

/-- The kinds of nodes that raise an error for this cause and leave its place open. Imports are refused
before anything is visited, a second field of one name has a place of its own, and what stands to the
right of a pipe is refused whatever its kind. -/
@[simp] def ErrorCause.raisers : ErrorCause → List String
  | .notFound _ => ["new", "type", "variable", "call"]
  | .moduleNotFound _ | .accessDenied .. | .argumentCount .. => ["new", "call"]
  | .invalidAssignment _ | .invalidRedirection _ => ["binary"]
  | .misplacedDefault | .misplacedVariadic | .nonLiteralDefault => ["function", "struct"]
  | .invalidNumber _ => ["literal"]
  | .closureExpected | .closureUnexpected _ | .closureCallUnexpected => ["call"]
  | .environmentDestructure => ["let"]
  | .privateImport _ | .missingImport _ | .duplicateField .. | .callExpectedAfterPipe => []

/-- Nodes of this kind raise the error and leave its place open. -/
def AnalysisError.RaisedBy (name : String) (bare : AnalysisError) : Prop :=
  bare.span = none ∧ name ∈ bare.cause.raisers

variable {α β : Type} {Q : AnalysisError → Prop}

/-! ### Actions -/

/-- If an error ends the action, it is as described. -/
def Throws (Q : AnalysisError → Prop) (action : Walk α) : Prop :=
  ∀ s bare t, Fails action s bare t → Q bare

section Actions

variable {action : Walk α} {next : α → Walk β}

theorem Unfailing.throws (unfailing : Unfailing action) : Throws Q action := by
  intro s bare t failed
  have arrives := unfailing s
  unfold Arrives at arrives
  rw [show runFrom action s = (.error (.failed bare), t) from failed] at arrives
  exact arrives.elim

theorem throws_pure (a : α) : Throws Q (pure a : Walk α) := unfailing_pure.throws

theorem throws_ask {question : ScopeTree → Except ScopeTree.Fault α} :
    Throws Q (Walk.ask question) :=
  unfailing_ask.throws

theorem throws_fail {cause : ErrorCause} (described : Q { cause }) :
    Throws Q (Walk.fail cause : Walk α) := by
  intro s bare t failed
  obtain ⟨rfl, -⟩ := fails_throw.mp failed
  exact described

theorem throws_bind (first : Throws Q action) (rest : ∀ a, Throws Q (next a)) :
    Throws Q (action >>= next) := by
  intro s bare t failed
  rcases fails_bind.mp failed with failed | ⟨a, r, -, failed⟩
  · exact first s bare t failed
  · exact rest a r bare t failed

/-- A check that may be refused. -/
theorem throws_ite {check : Prop} [Decidable check] {other : Walk α} (yes : Throws Q action)
    (no : Throws Q other) : Throws Q (if check then action else other) := by
  split
  · exact yes
  · exact no

theorem unfailing_forM {action : α → Walk PUnit} (xs : List α) (each : ∀ x, Unfailing (action x)) :
    Unfailing (xs.forM action) := by
  induction xs with
  | nil => exact unfailing_pure
  | cons x xs ih =>
    rw [List.forM_eq_forM, List.forM_cons]
    exact unfailing_bind (each x) fun _ => ih

theorem unfailing_note {span : Span} {category : SemanticCategory} :
    Unfailing (Walk.note span category) :=
  unfailing_modify

theorem unfailing_noteAll (path : List Token) (category : SemanticCategory) :
    Unfailing (path.forM fun segment => Walk.note segment.span category) :=
  unfailing_forM path fun _ => unfailing_note

theorem unfailing_noteCall {name : Token} {path : List Token} {callee : Callee} :
    Unfailing (Walk.noteCall name path callee) :=
  unfailing_bind (unfailing_noteAll path .module) fun _ => unfailing_note

theorem unfailing_noteConstruction {name : Token} {path : List Token} :
    Unfailing (Walk.noteConstruction name path) :=
  unfailing_bind (unfailing_noteAll path .module) fun _ => unfailing_note

theorem unfailing_blockScope {e : Expr} : Unfailing (Walk.blockScope e) := by
  unfold Walk.blockScope
  split
  · exact unfailing_pure
  · exact unfailing_crash

theorem unfailing_attachedCall {e : Expr} : Unfailing (Walk.attachedCall e) := by
  unfold Walk.attachedCall
  split
  · exact unfailing_pure
  · exact unfailing_crash

theorem unfailing_declare {scope : ScopeId} {category : SemanticCategory} {name : Token} :
    Unfailing (Walk.declare scope category name) :=
  unfailing_bind unfailing_edit fun _ => unfailing_note

theorem unfailing_bindName {context : Context} {name : Token} :
    Unfailing (Walk.bind context name) := by
  unfold Walk.bind
  split
  · exact unfailing_note
  · exact unfailing_declare

theorem unfailing_declareOption {scope : ScopeId} {category : SemanticCategory}
    {name : Option Token} : Unfailing (name.forM (Walk.declare scope category)) := by
  cases name with
  | none => exact unfailing_pure
  | some name => exact unfailing_declare

theorem unfailing_declareParameters {scope : ScopeId} {parameters : List Parameter}
    {takesClosure : Bool} : Unfailing (Walk.declareParameters scope parameters takesClosure) := by
  refine unfailing_bind (unfailing_forM parameters fun _ => unfailing_edit) fun _ => ?_
  split
  · exact unfailing_edit
  · exact unfailing_pure

theorem unfailing_currentModule {context : Context} : Unfailing (Walk.currentModule context) :=
  unfailing_bind unfailing_ask fun _ => unfailing_pure

theorem unfailing_functionContext {context : Context} {id : FunctionId} {module : ModuleId} :
    Unfailing (Walk.functionContext context id module) :=
  unfailing_bind unfailing_ask fun _ => unfailing_pure

theorem unfailing_registerFunction {access : Access} {name : Token} {parameters : List Parameter}
    {module : ModuleId} {takesClosure : Bool} {id : FunctionId} :
    Unfailing (Walk.registerFunction access name parameters module takesClosure id) :=
  unfailing_bind unfailing_get fun _ => unfailing_edit

theorem unfailing_enterClosure {context : Context} {scope : ScopeId} {parameters : List Token}
    {captured : NameSet} : Unfailing (Walk.enterClosure context scope parameters captured) := by
  refine unfailing_bind ?_ fun _ => unfailing_bind ?_ fun _ => unfailing_pure
  · exact unfailing_bind unfailing_get fun _ => fun _ => trivial
  · exact unfailing_forM parameters fun _ => unfailing_declare

theorem unfailing_impliedNames {attached : Call} : Unfailing (Walk.impliedNames attached) := by
  unfold Walk.impliedNames
  split
  · exact unfailing_pure
  split
  · exact unfailing_bind unfailing_ask fun _ => unfailing_pure
  · exact unfailing_pure

theorem unfailing_expandReference {id : ClosureId} {attached : Call} {scope : ScopeId}
    {parameters : List Token} {body : Expr} :
    Unfailing (Walk.expandReference id attached scope parameters body) := by
  unfold Walk.expandReference
  split
  · exact unfailing_pure
  · refine unfailing_bind unfailing_impliedNames fun names => ?_
    refine unfailing_bind (unfailing_forM _ fun _ => unfailing_edit) fun _ => ?_
    exact unfailing_bind unfailing_modify fun _ => unfailing_pure

theorem unfailing_ownerWithin (steps : Nat) (enclosing : Option Enclosing) :
    Unfailing (Walk.ownerWithin steps enclosing) := by
  induction steps generalizing enclosing with
  | zero =>
    match enclosing with
    | none | some (.function _) => exact unfailing_pure
    | some (.closure _) => exact unfailing_crash
  | succ steps ih =>
    match enclosing with
    | none | some (.function _) => exact unfailing_pure
    | some (.closure _) => exact unfailing_bind unfailing_frame fun _ => ih _

end Actions

/-! ### Actions that raise an error -/

section Raising

variable {context : Context} {name : Token}

theorem throws_checkCount {function : String} {arity : Arity} {isReference : Bool} {actual : Nat}
    (described : ∀ cause : ErrorCause, cause.raisers = ["new", "call"] → Q { cause }) :
    Throws Q (Walk.checkCount function arity isReference actual) :=
  throws_ite (throws_pure _) (throws_fail (described _ rfl))

theorem throws_typeUse : Throws (AnalysisError.RaisedBy "type") (Walk.typeUse context name) := by
  refine throws_bind ?_ fun _ => throws_bind unfailing_note.throws fun _ => throws_pure _
  unfold Walk.typeTarget
  split
  · exact throws_pure _
  · refine throws_bind unfailing_currentModule.throws fun _ => throws_bind throws_ask fun found => ?_
    cases found with
    | none => exact throws_fail ⟨rfl, by simp⟩
    | some id => exact throws_pure _

theorem throws_variableUse :
    Throws (AnalysisError.RaisedBy "variable") (Walk.variableUse context name) := by
  unfold Walk.variableUse
  split
  · exact throws_bind unfailing_note.throws fun _ => throws_pure _
  refine throws_bind throws_ask fun visible => ?_
  have found : Throws (AnalysisError.RaisedBy "variable") (do
      let isCaptured ← Walk.captureName context name.text
      Walk.note name.span .variableName
      return ExprKind.variableRef name (some context.scope) isCaptured) :=
    throws_bind unfailing_captureName.throws fun _ =>
      throws_bind unfailing_note.throws fun _ => throws_pure _
  dsimp only
  split
  · exact throws_bind (throws_fail ⟨rfl, by simp⟩) fun _ => found
  · exact found

theorem throws_literal {span : Span} {token : Token} :
    Throws (AnalysisError.RaisedBy "literal") (Walk.literal context span token) := by
  unfold Walk.literal
  split
  · exact throws_bind unfailing_note.throws fun _ => throws_pure _
  · exact throws_bind unfailing_note.throws fun _ => throws_pure _
  · exact throws_fail ⟨rfl, by simp⟩

/-- An error for a cause that constructions raise. -/
theorem throws_new {cause : ErrorCause} (raises : "new" ∈ cause.raisers) :
    Throws (AnalysisError.RaisedBy "new") (Walk.fail cause : Walk α) :=
  throws_fail ⟨rfl, raises⟩

theorem throws_standardStruct {struct : String} {path : List String} {actual : Nat} :
    Throws (AnalysisError.RaisedBy "new") (Walk.standardStruct context struct path actual) := by
  unfold Walk.standardStruct
  split
  · exact throws_new (by simp)
  split
  · exact throws_new (by simp)
  · exact throws_bind (throws_checkCount fun cause same => ⟨rfl, by rw [same]; simp⟩) fun _ =>
      throws_pure _

theorem throws_userStruct {current module : ModuleId} {struct : String} {actual : Nat} :
    Throws (AnalysisError.RaisedBy "new") (Walk.userStruct current module struct actual) := by
  refine throws_bind throws_ask fun found => ?_
  cases found with
  | none => exact throws_new (by simp)
  | some id =>
    refine throws_bind throws_ask fun struct => ?_
    have counted : Throws (AnalysisError.RaisedBy "new") (do
        Walk.checkCount struct.name (.ofParameters struct.parameters) false actual
        return StructTarget.user id) :=
      throws_bind (throws_checkCount fun cause same => ⟨rfl, by rw [same]; simp⟩) fun _ => throws_pure _
    dsimp only
    split
    · exact throws_bind (throws_new (by simp)) fun _ => counted
    · exact counted

theorem throws_structTarget {struct : String} {path : List String} {actual : Nat} :
    Throws (AnalysisError.RaisedBy "new") (Walk.structTarget context struct path actual) := by
  refine throws_bind unfailing_currentModule.throws fun current => throws_bind throws_ask fun found => ?_
  cases found with
  | none => exact throws_standardStruct
  | some module => exact throws_userStruct

/-- An error for a cause that calls raise. -/
theorem throws_call {cause : ErrorCause} (raises : "call" ∈ cause.raisers) :
    Throws (AnalysisError.RaisedBy "call") (Walk.fail cause : Walk α) :=
  throws_fail ⟨rfl, raises⟩

theorem throws_closureProvider :
    Throws (AnalysisError.RaisedBy "call") (Walk.closureProvider context) := by
  refine throws_bind unfailing_get.throws fun state => ?_
  refine throws_bind (unfailing_ownerWithin _ _).throws fun owner => ?_
  cases owner with
  | none => exact throws_call (by simp)
  | some provider =>
    refine throws_bind unfailing_get.throws fun state => ?_
    split
    · split
      · refine throws_bind unfailing_modify.throws fun _ => ?_
        refine throws_bind unfailing_modify.throws fun _ => ?_
        exact throws_bind unfailing_edit.throws fun _ => throws_pure _
      · exact throws_pure _
    · exact throws_call (by simp)

theorem throws_standardCallee {function : String} {path : List String} :
    Throws (AnalysisError.RaisedBy "call") (Walk.standardCallee context function path) := by
  unfold Walk.standardCallee
  split
  · exact throws_pure _
  · exact throws_ite (throws_call (by simp)) (throws_pure _)

theorem throws_userCallee {function : String} {path : List String} :
    Throws (AnalysisError.RaisedBy "call") (Walk.userCallee context function path) := by
  refine throws_bind unfailing_currentModule.throws fun current => throws_bind throws_ask fun found => ?_
  cases found with
  | none => exact throws_call (by simp)
  | some module =>
    refine throws_bind throws_ask fun found => ?_
    cases found with
    | none => exact throws_pure _
    | some id =>
      refine throws_bind throws_ask fun function => ?_
      dsimp only
      split
      · exact throws_bind (throws_call (by simp)) fun _ => throws_pure _
      · exact throws_pure _

theorem throws_callee {function : String} {path : List String} :
    Throws (AnalysisError.RaisedBy "call") (Walk.callee context function path) := by
  unfold Walk.callee
  split
  · exact throws_pure _
  · exact throws_bind throws_closureProvider fun _ => throws_pure _
  · exact throws_pure _
  · exact throws_pure _
  · refine throws_bind throws_standardCallee fun found => ?_
    cases found with
    | some function => exact throws_pure _
    | none =>
      refine throws_bind throws_userCallee fun found => ?_
      cases found <;> exact throws_pure _

theorem throws_checkClosure {callee : Callee} {hasClosure : Bool} :
    Throws (AnalysisError.RaisedBy "call") (Walk.checkClosure callee hasClosure) := by
  have asked : Unfailing (Walk.takesClosure callee) := by
    unfold Walk.takesClosure
    split
    · exact unfailing_pure
    · exact unfailing_bind unfailing_ask fun _ => unfailing_pure
    · exact unfailing_pure
  refine throws_bind asked.throws fun wanted => ?_
  have missing : Throws (AnalysisError.RaisedBy "call")
      (if !hasClosure && wanted then Walk.fail .closureExpected else pure () : Walk Unit) :=
    throws_ite (throws_call (by simp)) (throws_pure _)
  dsimp only
  split
  · exact throws_bind (throws_call (by simp)) fun _ => missing
  · exact missing

theorem throws_checkArguments {callee : Callee} {isReference : Bool} {actual : Nat} :
    Throws (AnalysisError.RaisedBy "call") (Walk.checkArguments callee isReference actual) := by
  have counted (function : String) (arity : Arity) :
      Throws (AnalysisError.RaisedBy "call") (Walk.checkCount function arity isReference actual) :=
    throws_checkCount fun cause same => ⟨rfl, by rw [same]; simp⟩
  unfold Walk.checkArguments
  split
  · exact counted _ _
  · exact throws_bind throws_ask fun _ => counted _ _
  · exact throws_pure _

theorem throws_redirect {op : BinaryOp} {redirection : Redirection} {left : Expr} :
    Throws (AnalysisError.RaisedBy "binary") (Walk.redirect op redirection left) := by
  unfold Walk.redirect
  split
  · exact throws_pure _
  · exact throws_ite (throws_pure _) (throws_fail ⟨rfl, by simp⟩)

theorem throws_checkTarget {left : Expr} :
    Throws (AnalysisError.RaisedBy "binary") (Walk.checkTarget left) := by
  unfold Walk.checkTarget
  split
  · exact throws_pure _
  · exact throws_pure _
  · exact throws_pure _
  · exact throws_fail ⟨rfl, by simp⟩
  · exact throws_fail ⟨rfl, by simp⟩

theorem throws_checkBinding {names : List Token} :
    Throws (AnalysisError.RaisedBy "let") (Walk.checkBinding names) :=
  throws_ite (throws_fail ⟨rfl, by simp⟩) (throws_pure _)

end Raising

/-! ### Plans -/

namespace Plan

/-- The plan comes to an action of its own that raises the error, past visits that have completed. -/
def Raises : {α : Type} → Plan α → AnalysisState → AnalysisError → Prop
  | _, .done _, _, _ => False
  | _, .act action next, s, bare =>
    (∃ t, Fails action s bare t) ∨ ∃ b t, Gives action s b t ∧ (next b).Raises t bare
  | _, .visit context slot e next, s, bare =>
    ∃ r t, Gives (Walk.expr context slot e) s r t ∧ (next r).Raises t bare
  | _, .guarded _ inner next, s, bare =>
    inner.Raises s bare ∨ ∃ b t, Gives inner.run s b t ∧ (next b).Raises t bare

variable {s t : AnalysisState} {bare error : AnalysisError}

@[simp] theorem raises_pure {a : α} : (pure a : Plan α).Raises s bare ↔ False := Iff.rfl

@[simp] theorem raises_lift {action : Walk α} :
    (liftM action : Plan α).Raises s bare ↔ ∃ t, Fails action s bare t := by
  constructor
  · rintro (failed | ⟨_, _, _, impossible⟩)
    · exact failed
    · exact impossible.elim
  · exact .inl

@[simp] theorem raises_enter {context : Context} {slot : Slot} {e : Expr} :
    (enter context slot e).Raises s bare ↔ False := by
  constructor
  · rintro ⟨_, _, _, impossible⟩
    exact impossible
  · exact False.elim

@[simp] theorem raises_guard {id : FunctionId} {inner : Plan α} :
    (guard id inner).Raises s bare ↔ inner.Raises s bare := by
  constructor
  · rintro (raised | ⟨_, _, _, impossible⟩)
    · exact raised
    · exact impossible.elim
  · exact .inl

@[simp] theorem raises_bind {p : Plan α} {next : α → Plan β} :
    (p >>= next).Raises s bare ↔
      p.Raises s bare ∨ ∃ a t, Gives p.run s a t ∧ (next a).Raises t bare := by
  change (p.bind next).Raises s bare ↔ _
  induction p generalizing s with
  | done a =>
    constructor
    · exact fun raised => .inr ⟨a, s, by simp [run], raised⟩
    · rintro (impossible | ⟨_, _, gives, raised⟩)
      · exact impossible.elim
      · obtain ⟨rfl, rfl⟩ := gives_pure.mp gives
        exact raised
  | act action rest ih =>
    simp only [bind, run, Raises, exists_gives_bind, ih, and_or_left, exists_or, or_assoc]
  | visit context slot e rest ih =>
    simp only [bind, run, Raises, exists_gives_bind, ih, and_or_left, exists_or]
  | guarded id inner rest _ ih =>
    simp only [bind, run, Raises, exists_gives_bind, gives_orFailFunction, ih, and_or_left,
      exists_or, or_assoc]

/-- A plan that raises an error gives no result. -/
theorem Raises.not_gives {p : Plan α} (raised : p.Raises s bare) {a : α} :
    ¬ Gives p.run s a t := by
  -- Up to the step that raises the error the two runs are the same.
  induction p generalizing s t with
  | done b => exact raised.elim
  | act action next ih =>
    intro given
    obtain ⟨b, r, first, rest⟩ := gives_bind.mp given
    rcases raised with ⟨t, failed⟩ | ⟨b', r', first', raised⟩
    · exact failed.not_gives first
    · obtain ⟨rfl, rfl⟩ := first.unique first'
      exact ih b raised rest
  | visit context slot e next ih =>
    intro given
    obtain ⟨b, r, first, rest⟩ := gives_bind.mp given
    obtain ⟨b', r', first', raised⟩ := raised
    obtain ⟨rfl, rfl⟩ := first.unique first'
    exact ih b raised rest
  | guarded id inner next innerIh ih =>
    intro given
    obtain ⟨b, r, first, rest⟩ := gives_bind.mp given
    have first := gives_orFailFunction.mp first
    rcases raised with raised | ⟨b', r', first', raised⟩
    · exact innerIh raised first
    · obtain ⟨rfl, rfl⟩ := first.unique first'
      exact ih b raised rest

/-- It raises no other error. -/
theorem Raises.unique {p : Plan α} {other : AnalysisError} (one : p.Raises s bare)
    (another : p.Raises s other) : bare = other := by
  -- Both raise at the first step that fails, and what comes before it has one outcome.
  induction p generalizing s with
  | done b => exact one.elim
  | act action next ih =>
    rcases one with ⟨t, failed⟩ | ⟨b, r, given, one⟩
    · rcases another with ⟨t', failed'⟩ | ⟨b', r', given', -⟩
      · exact (failed.unique failed').1
      · exact (failed.not_gives given').elim
    · rcases another with ⟨t', failed'⟩ | ⟨b', r', given', another⟩
      · exact (failed'.not_gives given).elim
      · obtain ⟨rfl, rfl⟩ := given.unique given'
        exact ih b one another
  | visit context slot e next ih =>
    obtain ⟨b, r, given, one⟩ := one
    obtain ⟨b', r', given', another⟩ := another
    obtain ⟨rfl, rfl⟩ := given.unique given'
    exact ih b one another
  | guarded id inner next innerIh ih =>
    rcases one with one | ⟨b, r, given, one⟩
    · rcases another with another | ⟨b', r', given', -⟩
      · exact innerIh one another
      · exact (one.not_gives given').elim
    · rcases another with another | ⟨b', r', given', another⟩
      · exact (another.not_gives given).elim
      · obtain ⟨rfl, rfl⟩ := given.unique given'
        exact ih b one another

/-- A plan that fails raises the error itself, or one of its visits fails with it. -/
theorem raises_or_enters {p : Plan α} (failed : Fails p.run s error t) :
    p.Raises s error ∨ ∃ v, p.Enters s v ∧ v.Fails error := by
  -- An error comes from an action of the plan itself or from one of its visits.
  induction p generalizing s t with
  | done a => exact (fails_pure.mp failed).elim
  | act action next ih =>
    rcases fails_bind.mp failed with here | ⟨b, r, given, failed⟩
    · exact .inl (.inl ⟨t, here⟩)
    · rcases ih b failed with raised | ⟨v, entered, broken⟩
      · exact .inl (.inr ⟨b, r, given, raised⟩)
      · exact .inr ⟨v, ⟨b, r, given, entered⟩, broken⟩
  | visit context slot e next ih =>
    rcases fails_bind.mp failed with here | ⟨r, u, given, failed⟩
    · exact .inr ⟨⟨context, slot, e, s⟩, .inl rfl, (Visit.fails_of_expr here).1⟩
    · rcases ih r failed with raised | ⟨v, entered, broken⟩
      · exact .inl ⟨r, u, given, raised⟩
      · exact .inr ⟨v, .inr ⟨r, u, given, entered⟩, broken⟩
  | guarded id inner next innerIh ih =>
    rcases fails_bind.mp failed with here | ⟨b, r, given, failed⟩
    · obtain ⟨r, here, -⟩ := fails_orFailFunction.mp here
      rcases innerIh here with raised | ⟨v, entered, broken⟩
      · exact .inl (.inl raised)
      · exact .inr ⟨v, .inl entered, broken⟩
    · have given := gives_orFailFunction.mp given
      rcases ih b failed with raised | ⟨v, entered, broken⟩
      · exact .inl (.inr ⟨b, r, given, raised⟩)
      · exact .inr ⟨v, .inr ⟨b, r, given, entered⟩, broken⟩

/-- If the plan raises an error, it is as described. -/
def Throws (Q : AnalysisError → Prop) (p : Plan α) : Prop := ∀ s bare, p.Raises s bare → Q bare

theorem throws_done (a : α) : (pure a : Plan α).Throws Q := nofun

theorem throws_enter {context : Context} {slot : Slot} {e : Expr} :
    (enter context slot e).Throws Q :=
  fun _ _ raised => (raises_enter.mp raised).elim

theorem throws_then {p : Plan α} {next : α → Plan β} (first : p.Throws Q)
    (rest : ∀ a, (next a).Throws Q) : (p >>= next).Throws Q := by
  intro s bare raised
  rcases raises_bind.mp raised with raised | ⟨a, t, -, raised⟩
  · exact first s bare raised
  · exact rest a t bare raised

theorem throws_act {action : Walk α} {next : α → Plan β} (first : ShellSema.Throws Q action)
    (rest : ∀ a, (next a).Throws Q) : (liftM action >>= next).Throws Q := by
  refine throws_then (fun s bare raised => ?_) rest
  obtain ⟨t, failed⟩ := raises_lift.mp raised
  exact first s bare t failed

/-! ### Lists -/

variable {context : Context}

theorem throws_each (slot : Expr → Slot) (es : List Expr) : (each context slot es).Throws Q := by
  induction es with
  | nil => exact throws_done _
  | cons e es ih => exact throws_then throws_enter fun _ => throws_then ih fun _ => throws_done _

theorem throws_option (isRoot : Option Bool) (e : Option Expr) :
    (option context isRoot e).Throws Q := by
  cases e with
  | none => exact throws_done _
  | some e => exact throws_then throws_enter fun _ => throws_done _

theorem throws_pairs (entries : List (Expr × Expr)) : (pairs context entries).Throws Q := by
  induction entries with
  | nil => exact throws_done _
  | cons entry entries ih =>
    refine throws_then throws_enter fun _ => throws_then throws_enter fun _ => ?_
    exact throws_then ih fun _ => throws_done _

theorem throws_environmentValues (entries : List (String × Expr)) :
    (environmentValues context entries).Throws Q := by
  induction entries with
  | nil => exact throws_done _
  | cons entry entries ih =>
    exact throws_then throws_enter fun _ => throws_then ih fun _ => throws_done _

/-- A parameter list is refused for its form. -/
theorem throws_parameterList
    (described : ∀ cause : ErrorCause, cause.raisers = ["function", "struct"] → Q { cause })
    (seenDefault : Bool) (parameters : List Parameter) :
    (parameterList context seenDefault parameters).Throws Q := by
  induction parameters generalizing seenDefault with
  | nil => exact throws_done _
  | cons parameter rest ih =>
    obtain ⟨name, default?, isVariadic⟩ := parameter
    refine throws_act unfailing_note.throws fun _ => throws_act ?_ fun _ => ?_
    · exact throws_ite (throws_fail (described _ rfl)) (throws_pure _)
    cases default? with
    | none =>
      refine throws_act (throws_ite (throws_fail (described _ rfl)) (throws_pure _)) fun _ => ?_
      exact throws_then (ih seenDefault) fun _ => throws_done _
    | some value =>
      refine throws_act (throws_ite (throws_fail (described _ rfl)) (throws_pure _)) fun _ => ?_
      exact throws_then throws_enter fun _ => throws_then (ih true) fun _ => throws_done _

theorem throws_catchList (isRoot : Bool) (catches : List Catch) :
    (catchList context isRoot catches).Throws Q := by
  induction catches with
  | nil => exact throws_done _
  | cons clause rest ih =>
    obtain ⟨identifier, typeRef, body⟩ := clause
    refine throws_then (throws_option _ _) fun _ => throws_act unfailing_blockScope.throws fun _ => ?_
    refine throws_act unfailing_declareOption.throws fun _ => throws_then throws_enter fun _ => ?_
    exact throws_then ih fun _ => throws_done _

theorem throws_functionDecl (parameters : List Parameter) (body : Expr) (module : ModuleId)
    (takesClosure : Bool) (id : FunctionId) :
    (functionDecl context parameters body module takesClosure id).Throws
      (AnalysisError.RaisedBy "function") := by
  intro s bare raised
  refine (?_ : Plan.Throws _ _) s bare (raises_guard.mp raised)
  refine throws_then (throws_parameterList (fun cause same => ⟨rfl, by rw [same]; simp⟩) _ _) fun _ => ?_
  refine throws_act unfailing_blockScope.throws fun _ => ?_
  refine throws_act unfailing_declareParameters.throws fun _ => ?_
  refine throws_act unfailing_functionContext.throws fun _ => ?_
  exact throws_then throws_enter fun _ => throws_done _

/-! ### Nodes -/

/-- What nodes raise, they leave without a place, unless they are structs. -/
theorem throws_node (slot : Slot) (span : Span) {kind : ExprKind} (other : kind.name ≠ "struct") :
    (node context slot span kind).Throws (AnalysisError.RaisedBy kind.name) := by
  cases kind
  -- In each case the actions raise what the kind of the node may raise, and the visits raise
  -- nothing that counts as its own.
  case structDecl => exact absurd rfl other
  case moduleDecl access name body =>
    refine throws_act unfailing_note.throws fun _ => throws_act unfailing_blockScope.throws fun _ => ?_
    exact throws_then throws_enter fun _ => throws_done _
  case functionDecl access name parameters body module takesClosure id =>
    refine throws_act throws_ask fun _ => ?_
    dsimp only
    split
    · exact throws_done _
    refine throws_act unfailing_note.throws fun _ => throws_act unfailing_modify.throws fun _ => ?_
    refine throws_then (throws_functionDecl _ _ _ _ _) fun _ => ?_
    exact throws_act unfailing_registerFunction.throws fun _ => throws_done _
  case letIn identifiers value scope =>
    refine throws_act throws_checkBinding fun _ => throws_then throws_enter fun _ => ?_
    exact throws_act (unfailing_forM _ fun _ => unfailing_bindName).throws fun _ => throws_done _
  case construct name path arguments target =>
    refine throws_act throws_structTarget fun _ => ?_
    refine throws_act unfailing_noteConstruction.throws fun _ => ?_
    exact throws_then (throws_each _ _) fun _ => throws_done _
  case ifElse condition thenBranch elseBranch =>
    refine throws_then throws_enter fun _ => throws_then throws_enter fun _ => ?_
    exact throws_then (throws_option _ _) fun _ => throws_done _
  case forEach identifiers value body =>
    refine throws_then throws_enter fun _ => throws_act unfailing_blockScope.throws fun _ => ?_
    refine throws_act (unfailing_forM _ fun _ => unfailing_declare).throws fun _ => ?_
    exact throws_then throws_enter fun _ => throws_done _
  case whileDo condition body =>
    refine throws_then throws_enter fun _ => throws_act unfailing_blockScope.throws fun _ => ?_
    exact throws_then throws_enter fun _ => throws_done _
  case sequence form items => exact throws_then (throws_each _ _) fun _ => throws_done _
  case dictionary entries => exact throws_then (throws_pairs _) fun _ => throws_done _
  case block expressions role scope => exact throws_then (throws_each _ _) fun _ => throws_done _
  case keyword token value =>
    refine throws_act unfailing_note.throws fun _ => ?_
    exact throws_then (throws_option _ _) fun _ => throws_done _
  case binary left op right =>
    simp only [node]
    cases op.redirection? with
    | some redirection =>
      refine throws_then throws_enter fun _ => throws_act throws_redirect fun _ => ?_
      exact throws_enter
    | none =>
      refine throws_act (throws_ite throws_checkTarget (throws_pure _)) fun _ => ?_
      refine throws_then throws_enter fun _ => throws_then throws_enter fun _ => throws_done _
  case unary op value => exact throws_then throws_enter fun _ => throws_done _
  case fieldAccess object field value =>
    refine throws_then throws_enter fun _ => ?_
    exact throws_act unfailing_note.throws fun _ => throws_done _
  case range lower upper inclusive =>
    refine throws_then (throws_option _ _) fun _ => throws_then (throws_option _ _) fun _ => ?_
    exact throws_done _
  case indexer value index =>
    exact throws_then throws_enter fun _ => throws_then throws_enter fun _ => throws_done _
  case typeRef name target => exact throws_act throws_typeUse fun _ => throws_done _
  case variableRef name scope isCaptured => exact throws_act throws_variableUse fun _ => throws_done _
  case call made =>
    rw [node_call]
    refine throws_act throws_callee fun callee => throws_act unfailing_noteCall.throws fun _ => ?_
    refine throws_then (throws_each _ _) fun _ => throws_act throws_checkClosure fun _ => ?_
    refine throws_act throws_checkArguments fun _ => ?_
    exact throws_then (throws_environmentValues _) fun _ => throws_done _
  case literal token value => exact throws_act throws_literal fun _ => throws_done _
  case closure attached parameters body captured id =>
    refine throws_then throws_enter fun _ => throws_act unfailing_attachedCall.throws fun _ => ?_
    refine throws_act unfailing_blockScope.throws fun _ => ?_
    refine throws_act unfailing_enterClosure.throws fun _ => throws_then throws_enter fun _ => ?_
    refine throws_act unfailing_propagateCaptures.throws fun _ => ?_
    refine throws_act unfailing_expandReference.throws fun _ => ?_
    exact throws_act unfailing_frame.throws fun _ => throws_done _
  case tryCatch body catches =>
    refine throws_act unfailing_blockScope.throws fun _ => throws_then throws_enter fun _ => ?_
    exact throws_then (throws_catchList _ _) fun _ => throws_done _

end Plan
end ShellSema
