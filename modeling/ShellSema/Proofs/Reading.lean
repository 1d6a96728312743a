import ShellSema.Proofs.Visits

/-!
# Actions that only read

Most actions of the walk look something up or check something. They leave the state as it is, also
when they halt.
-/
namespace ShellSema

variable {α β : Type}

/-- The action only reads the state. -/
def Unchanging (action : Walk α) : Prop := Keeps Eq action

theorem Unchanging.keeps {R : AnalysisState → AnalysisState → Prop} {action : Walk α}
    (unchanging : Unchanging action) (refl : ∀ s, R s s) : Keeps R action := by
  intro s
  rw [← unchanging s]
  exact refl s

theorem Unchanging.of_gives {action : Walk α} (unchanging : Unchanging action)
    {s t : AnalysisState} {a : α} (given : Gives action s a t) : t = s :=
  (Keeps.of_gives unchanging given).symm

theorem unchanging_pure {a : α} : Unchanging (pure a : Walk α) := fun _ => rfl

theorem unchanging_fail {cause : ErrorCause} : Unchanging (Walk.fail cause : Walk α) := fun _ => rfl

theorem unchanging_failAt {cause : ErrorCause} {span : Span} :
    Unchanging (Walk.failAt cause span : Walk α) := fun _ => rfl

theorem unchanging_crash {crash : Crash} : Unchanging (Walk.crash crash : Walk α) := fun _ => rfl

theorem unchanging_check {refused : Prop} [Decidable refused] {cause : ErrorCause} :
    Unchanging (if refused then Walk.fail cause else pure () : Walk Unit) := by
  split
  · exact unchanging_fail
  · exact unchanging_pure

theorem unchanging_checkVariadic {isVariadic : Bool} {rest : List Parameter} :
    Unchanging (Plan.checkVariadic isVariadic rest) := unchanging_check

theorem unchanging_bind {action : Walk α} {next : α → Walk β} (first : Unchanging action)
    (rest : ∀ a, Unchanging (next a)) : Unchanging (action >>= next) :=
  keeps_bind (R := Eq) (fun _ _ _ => Eq.trans) first rest

theorem runFrom_ask (question : ScopeTree → Except ScopeTree.Fault α)
    (s : AnalysisState) :
    runFrom (Walk.ask question) s =
      ((question s.tree).mapError fun fault => .crashed (.fault fault), s) := by
  simp only [Walk.ask, runFrom_bind, runFrom_get]
  cases question s.tree <;> rfl

theorem unchanging_ask {question : ScopeTree → Except ScopeTree.Fault α} :
    Unchanging (Walk.ask question) := by
  refine unchanging_bind (fun _ => rfl) fun state => ?_
  cases question state.tree with
  | ok answer => exact unchanging_pure
  | error fault => exact unchanging_crash

theorem unchanging_frame {id : ClosureId} : Unchanging (Walk.frame id) := by
  refine unchanging_bind (fun _ => rfl) fun state => ?_
  cases state.closures[id.index]? with
  | some frame => exact unchanging_pure
  | none => exact unchanging_crash

theorem unchanging_blockScope {e : Expr} : Unchanging (Walk.blockScope e) := by
  unfold Walk.blockScope
  cases e.blockScope? with
  | some scope => exact unchanging_pure
  | none => exact unchanging_crash

theorem unchanging_currentModule {context : Context} : Unchanging (Walk.currentModule context) :=
  unchanging_bind unchanging_ask fun _ => unchanging_pure

theorem unchanging_checkBinding {names : List Token} : Unchanging (Walk.checkBinding names) := by
  unfold Walk.checkBinding
  split
  · exact unchanging_fail
  · exact unchanging_pure

theorem unchanging_checkCount {name : String} {arity : Arity} {isReference : Bool} {actual : Nat} :
    Unchanging (Walk.checkCount name arity isReference actual) := by
  unfold Walk.checkCount
  split
  · exact unchanging_pure
  · exact unchanging_fail

theorem unchanging_checkFields {struct : Token} {fields : List Parameter} :
    Unchanging (Walk.checkFields struct fields) := by
  unfold Walk.checkFields
  split
  · exact unchanging_failAt
  · exact unchanging_pure

theorem unchanging_checkTarget {e : Expr} : Unchanging (Walk.checkTarget e) := by
  unfold Walk.checkTarget
  split
  all_goals first
    | exact unchanging_pure
    | exact unchanging_fail

theorem unchanging_checkAssign {op : BinaryOp} {left : Expr} :
    Unchanging (if op = .assign then Walk.checkTarget left else return () : Walk Unit) := by
  split
  · exact unchanging_checkTarget
  · exact unchanging_pure

theorem unchanging_redirect {op : BinaryOp} {redirection : Redirection} {left : Expr} :
    Unchanging (Walk.redirect op redirection left) := by
  unfold Walk.redirect
  split
  · exact unchanging_pure
  · split
    · exact unchanging_pure
    · exact unchanging_fail

theorem unchanging_attachedCall {e : Expr} : Unchanging (Walk.attachedCall e) := by
  unfold Walk.attachedCall
  split
  · exact unchanging_pure
  · exact unchanging_crash

theorem unchanging_functionContext {context : Context} {id : FunctionId} {module : ModuleId} :
    Unchanging (Walk.functionContext context id module) :=
  unchanging_bind unchanging_ask fun _ => unchanging_pure

theorem unchanging_takesClosure {callee : Callee} : Unchanging (Walk.takesClosure callee) := by
  cases callee
  case user id => exact unchanging_bind unchanging_ask fun _ => unchanging_pure
  all_goals exact unchanging_pure

theorem unchanging_checkClosure {callee : Callee} {hasClosure : Bool} :
    Unchanging (Walk.checkClosure callee hasClosure) := by
  refine unchanging_bind unchanging_takesClosure fun wanted => ?_
  cases hasClosure <;> cases wanted
  all_goals first
    | exact unchanging_pure
    | exact unchanging_fail

theorem unchanging_checkArguments {callee : Callee} {isReference : Bool} {actual : Nat} :
    Unchanging (Walk.checkArguments callee isReference actual) := by
  cases callee
  case user id =>
    exact unchanging_bind unchanging_ask fun _ => unchanging_checkCount
  case standard f => exact unchanging_checkCount
  all_goals exact unchanging_pure

theorem unchanging_userStruct {current module : ModuleId} {name : String} {actual : Nat} :
    Unchanging (Walk.userStruct current module name actual) := by
  refine unchanging_bind unchanging_ask fun found => ?_
  cases found with
  | none => exact unchanging_fail
  | some id =>
    refine unchanging_bind unchanging_ask fun struct => ?_
    dsimp only
    split
    · exact unchanging_fail
    · exact unchanging_bind unchanging_checkCount fun _ => unchanging_pure

theorem unchanging_standardStruct {context : Context} {name : String} {path : List String}
    {actual : Nat} : Unchanging (Walk.standardStruct context name path actual) := by
  unfold Walk.standardStruct
  split
  · exact unchanging_fail
  · split
    · exact unchanging_fail
    · exact unchanging_bind unchanging_checkCount fun _ => unchanging_pure

theorem unchanging_structTarget {context : Context} {name : String} {path : List String}
    {actual : Nat} : Unchanging (Walk.structTarget context name path actual) := by
  refine unchanging_bind unchanging_currentModule fun current => ?_
  refine unchanging_bind unchanging_ask fun found => ?_
  cases found with
  | none => exact unchanging_standardStruct
  | some module => exact unchanging_userStruct

theorem unchanging_typeTarget {context : Context} {name : String} :
    Unchanging (Walk.typeTarget context name) := by
  unfold Walk.typeTarget
  split
  · exact unchanging_pure
  · refine unchanging_bind unchanging_currentModule fun current => ?_
    refine unchanging_bind unchanging_ask fun found => ?_
    cases found with
    | none => exact unchanging_fail
    | some id => exact unchanging_pure

theorem unchanging_ownerWithin {steps : Nat} {owner : Option Enclosing} :
    Unchanging (Walk.ownerWithin steps owner) := by
  induction steps generalizing owner with
  | zero => rcases owner with _ | (_ | _) <;> exact fun _ => rfl
  | succ steps ih =>
    rcases owner with _ | (_ | id)
    · exact unchanging_pure
    · exact unchanging_pure
    · exact unchanging_bind unchanging_frame fun _ => ih

theorem unchanging_standardCallee {context : Context} {name : String} {path : List String} :
    Unchanging (Walk.standardCallee context name path) := by
  unfold Walk.standardCallee
  split
  · exact unchanging_pure
  · split
    · exact unchanging_fail
    · exact unchanging_pure

theorem unchanging_userCallee {context : Context} {name : String} {path : List String} :
    Unchanging (Walk.userCallee context name path) := by
  refine unchanging_bind unchanging_currentModule fun current => ?_
  refine unchanging_bind unchanging_ask fun found => ?_
  cases found with
  | none => exact unchanging_fail
  | some module =>
    refine unchanging_bind unchanging_ask fun found => ?_
    cases found with
    | none => exact unchanging_pure
    | some id =>
      refine unchanging_bind unchanging_ask fun function => ?_
      dsimp only
      split
      · exact unchanging_fail
      · exact unchanging_pure

theorem unchanging_ordinaryCallee {context : Context} {name : String} {path : List String} :
    Unchanging (Walk.ordinaryCallee context name path) := by
  refine unchanging_bind unchanging_standardCallee fun found => ?_
  cases found with
  | some f => exact unchanging_pure
  | none =>
    refine unchanging_bind unchanging_userCallee fun found => ?_
    cases found <;> exact unchanging_pure

theorem unchanging_filterM {names : List String} {test : String → Walk Bool}
    (each : ∀ name, Unchanging (test name)) : Unchanging (names.filterM test) := by
  have filtered (kept : List String) : Unchanging (names.filterAuxM test kept) := by
    induction names generalizing kept with
    | nil => exact unchanging_pure
    | cons name names ih =>
      rw [List.filterAuxM]
      refine unchanging_bind (each name) fun passed => ?_
      exact ih _
  exact unchanging_bind (filtered []) fun _ => unchanging_pure

theorem unchanging_reachesOut {inner outer : ClosureFrame} {outside : ScopeId} {name : String} :
    Unchanging (Walk.reachesOut inner outer outside name) := by
  refine unchanging_bind unchanging_ask fun _ => ?_
  split
  · exact unchanging_pure
  split
  · exact unchanging_pure
  refine unchanging_bind unchanging_ask fun _ => ?_
  split
  · exact unchanging_pure
  · exact unchanging_bind unchanging_ask fun _ => unchanging_pure

theorem unchanging_capturedFrom {context : Context} {frame : ClosureFrame} {name : String} :
    Unchanging (Walk.capturedFrom context frame name) := by
  refine unchanging_bind unchanging_ask fun scope => ?_
  cases scope.parent with
  | none => exact unchanging_pure
  | some outside =>
    refine unchanging_bind unchanging_ask fun found => ?_
    cases found with
    | none => exact unchanging_pure
    | some declaring =>
      refine unchanging_bind unchanging_ask fun _ => ?_
      split <;> exact unchanging_pure

theorem unchanging_impliedNames {attached : Call} : Unchanging (Walk.impliedNames attached) := by
  unfold Walk.impliedNames
  split
  · exact unchanging_pure
  · split
    · exact unchanging_bind unchanging_ask fun _ => unchanging_pure
    · exact unchanging_pure

end ShellSema
