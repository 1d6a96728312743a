import ShellSema.Proofs.Counts
import ShellSema.Proofs.Repeating

/-!
# The same answers again

What the first of two walks looks up on its way, the second one finds at the place to which the first
one has come: the same modules and functions, and the same structs with the same fields. So every check
that the first walk passes, the second one passes.
-/
namespace ShellSema

/-! ### Answers -/

namespace ScopeTree.Recalls

variable {tree later : ScopeTree} (recalls : tree.Recalls later)

include recalls

theorem function {id : FunctionId} {f : ScriptFunction} (found : tree.function id = .ok f) :
    ∃ f', later.function id = .ok f' ∧ f'.signature = f.signature := by
  have shown : later.functionSignature? id = some f.signature := by
    rw [recalls.signatures, functionSignature?, function_eq_ok.mp found, Option.map_some]
  obtain ⟨f', found', same⟩ := Option.map_eq_some_iff.mp shown
  exact ⟨f', function_eq_ok.mpr found', same⟩

theorem struct {id : StructId} {struct : ScriptStruct} (found : tree.struct id = .ok struct) :
    ∃ struct', later.struct id = .ok struct' ∧ struct'.signature = struct.signature := by
  have shown : tree.structSignature? id = some struct.signature := by
    rw [structSignature?, struct_eq_ok.mp found, Option.map_some]
  obtain ⟨struct', found', same⟩ := Option.map_eq_some_iff.mp (recalls.fields id _ shown)
  exact ⟨struct', struct_eq_ok.mpr found', same⟩

end ScopeTree.Recalls

section Rereading

variable {run : Rerun} {spot : Spot} {α : Type}

theorem Repeating.recalls {s s' : AnalysisState} (repeating : Repeating run spot s s') :
    s.tree.Recalls s'.tree :=
  repeating.resembles.recalls repeating.passes.recalls

/-- An action that has no regard to the state gives the same again. -/
theorem rereads_of_blind {action : Walk α}
    (blind : ∀ s s' a, Gives action s a s → Gives action s' a s') :
    Rereads run spot action action (· = ·) :=
  fun s s' a _ given => arrives_of_gives (blind s s' a given) ⟨rfl, rfl⟩

/-- Nothing is given after an error of the script. -/
theorem rereads_fail {β : Type} {cause : ErrorCause} {action : Walk β} {alike : α → β → Prop} :
    Rereads run spot (Walk.fail cause) action alike :=
  rereads_of_halts fun _ _ _ given => (gives_fail.mp given).elim

theorem rereads_check {refused : Prop} [Decidable refused] {cause : ErrorCause} :
    Rereads run spot (if refused then Walk.fail cause else pure ())
      (if refused then Walk.fail cause else pure ()) (· = ·) := by
  split
  · exact rereads_fail
  · exact rereads_pure rfl

theorem rereads_checkVariadic (isVariadic : Bool) (rest : List Parameter) :
    Rereads run spot (Plan.checkVariadic isVariadic rest) (Plan.checkVariadic isVariadic rest) (· = ·) :=
  rereads_check

theorem rereads_checkBinding (names : List Token) :
    Rereads run spot (Walk.checkBinding names) (Walk.checkBinding names) (· = ·) :=
  rereads_check

theorem rereads_blockScope (e : Expr) :
    Rereads run spot (Walk.blockScope e) (Walk.blockScope e) (· = ·) := by
  apply rereads_of_blind
  intro s s' scope given
  exact gives_blockScope.mpr ⟨(gives_blockScope.mp given).1, rfl⟩

theorem rereads_checkAssign (op : BinaryOp) (left : Expr) :
    Rereads run spot (if op = .assign then Walk.checkTarget left else return ())
      (if op = .assign then Walk.checkTarget left else return ()) (· = ·) := by
  unfold Walk.checkTarget
  split
  · split
    all_goals first
      | exact rereads_pure rfl
      | exact rereads_fail
  · exact rereads_pure rfl

/-- Fields have different names in the source and in what is made of it. -/
theorem rereads_checkFields {tree : ScopeTree} {around : Option ScopeId} (struct : Token)
    {fields fields' : List Parameter}
    (same : outlineParameters tree around fields' = outlineParameters tree around fields) :
    Rereads run spot (Walk.checkFields struct fields) (Walk.checkFields struct fields')
      fun _ _ => True := by
  intro s s' _ _ given
  unfold Walk.checkFields at given ⊢
  cases repeated : firstRepeated? [] fields with
  | some field =>
    rw [repeated] at given
    exact (gives_failAt.mp given).elim
  | none =>
    have shown : firstRepeated? [] (outlineParameters tree around fields) = none :=
      (firstRepeated?_outlineParameters [] fields).mpr repeated
    rw [← same] at shown
    have again : firstRepeated? [] fields' = none :=
      (firstRepeated?_outlineParameters [] fields').mp shown
    rw [again]
    exact arrives_pure ⟨trivial, rfl⟩

/-! ### Modules -/

theorem rereads_currentModule (context : Context) :
    Rereads run spot (Walk.currentModule context) (Walk.currentModule context) (· = ·) := by
  have inside : Rereads run spot (Walk.ask (·.scope context.scope)) (Walk.ask (·.scope context.scope))
      fun scope scope' => scope'.module = scope.module := by
    apply rereads_ask
    intro s s' scope repeating found
    have belongs : s'.tree.moduleOf? context.scope = s.tree.moduleOf? context.scope := by
      rw [repeating.resembles.belongs, repeating.passes.onward.places.belongs]
    have there : s'.tree.moduleOf? context.scope = some scope.module := by
      rw [belongs, ScopeTree.moduleOf?, ScopeTree.scope_eq_ok.mp found, Option.map_some]
    obtain ⟨scope', found', same⟩ := Option.map_eq_some_iff.mp there
    exact ⟨scope', ScopeTree.scope_eq_ok.mpr found', same⟩
  apply rereads_bind unchanging_ask inside
  exact fun scope scope' same => rereads_pure same.symm

theorem rereads_findModule (current : ModuleId) (path : List String) :
    Rereads run spot (Walk.ask (·.findModule current path true))
      (Walk.ask (·.findModule current path true)) (· = ·) := by
  apply rereads_ask
  intro s s' found repeating answered
  exact ⟨found, by rw [repeating.recalls.findModule_eq, answered], rfl⟩

/-! ### Structs -/

/-- The second walk may find a struct where the first one has found none. -/
theorem rereads_findStruct (module : ModuleId) (name : String) :
    Rereads run spot (Walk.ask (·.findStruct module name true))
      (Walk.ask (·.findStruct module name true)) fun found found' =>
        ∀ id, found = some id → found' = some id := by
  apply rereads_ask
  intro s s' found repeating answered
  cases found with
  | none =>
    rcases repeating.recalls.module_cases module with ⟨missing, -⟩ | ⟨m, m', -, there, -⟩
    · unfold ScopeTree.findStruct at answered
      rw [missing] at answered
      cases answered
    · unfold ScopeTree.findStruct
      rw [there]
      exact ⟨_, rfl, nofun⟩
  | some id => exact ⟨some id, repeating.recalls.findStruct_eq answered, fun _ same => same⟩

theorem rereads_struct (id : StructId) :
    Rereads run spot (Walk.ask (·.struct id)) (Walk.ask (·.struct id)) fun struct struct' =>
      struct'.signature = struct.signature := by
  apply rereads_ask
  exact fun s s' struct repeating found => repeating.recalls.struct found

theorem rereads_checkCount (name name' : String) (arity : Arity) (isReference : Bool) (actual : Nat) :
    Rereads run spot (Walk.checkCount name arity isReference actual)
      (Walk.checkCount name' arity isReference actual) fun _ _ => True := by
  intro s s' _ _ given
  obtain ⟨accepted, -⟩ := gives_checkCount.mp given
  exact arrives_of_gives (a := ()) (gives_checkCount.mpr ⟨accepted, rfl⟩) ⟨trivial, rfl⟩

theorem rereads_userStruct (current module : ModuleId) (name : String) (actual : Nat) :
    Rereads run spot (Walk.userStruct current module name actual)
      (Walk.userStruct current module name actual) (· = ·) := by
  apply rereads_bind unchanging_ask (rereads_findStruct module name)
  intro found found' again
  cases found with
  | none => exact rereads_fail
  | some id =>
    obtain rfl := again id rfl
    apply rereads_bind unchanging_ask (rereads_struct id)
    intro struct struct' same
    injection same with name access home parameters
    dsimp only
    rw [access, home, arity_of_shapes parameters]
    split
    · exact rereads_fail
    · apply rereads_bind unchanging_checkCount (rereads_checkCount _ _ _ _ _)
      exact fun _ _ _ => rereads_pure rfl

theorem rereads_standardStruct (context : Context) (name : String) (path : List String) (actual : Nat) :
    Rereads run spot (Walk.standardStruct context name path actual)
      (Walk.standardStruct context name path actual) (· = ·) := by
  unfold Walk.standardStruct
  split
  · exact rereads_fail
  split
  · exact rereads_fail
  · apply rereads_bind unchanging_checkCount (rereads_checkCount _ _ _ _ _)
    exact fun _ _ _ => rereads_pure rfl

theorem rereads_structTarget (context : Context) (name : String) (path : List String) (actual : Nat) :
    Rereads run spot (Walk.structTarget context name path actual)
      (Walk.structTarget context name path actual) (· = ·) := by
  apply rereads_bind unchanging_currentModule (rereads_currentModule context)
  rintro current _ rfl
  apply rereads_bind unchanging_ask (rereads_findModule current path)
  rintro found _ rfl
  cases found with
  | some module => exact rereads_userStruct current module name actual
  | none => exact rereads_standardStruct context name path actual

theorem rereads_typeTarget (context : Context) (name : String) :
    Rereads run spot (Walk.typeTarget context name) (Walk.typeTarget context name) (· = ·) := by
  unfold Walk.typeTarget
  split
  · exact rereads_pure rfl
  apply rereads_bind unchanging_currentModule (rereads_currentModule context)
  rintro current _ rfl
  apply rereads_bind unchanging_ask (rereads_findStruct current name)
  intro found found' again
  cases found with
  | none => exact rereads_fail
  | some id =>
    obtain rfl := again id rfl
    exact rereads_pure rfl

/-! ### Functions -/

theorem rereads_findFunction (module : ModuleId) (name : String) :
    Rereads run spot (Walk.ask (·.findFunction module name true))
      (Walk.ask (·.findFunction module name true)) (· = ·) := by
  apply rereads_ask
  intro s s' found repeating answered
  exact ⟨found, by rw [repeating.recalls.findFunction_eq, answered], rfl⟩

theorem rereads_function (id : FunctionId) :
    Rereads run spot (Walk.ask (·.function id)) (Walk.ask (·.function id)) fun f f' =>
      f'.signature = f.signature := by
  apply rereads_ask
  exact fun s s' f repeating found => repeating.recalls.function found

theorem rereads_standardCallee (context : Context) (name : String) (path : List String) :
    Rereads run spot (Walk.standardCallee context name path) (Walk.standardCallee context name path)
      (· = ·) := by
  unfold Walk.standardCallee
  split
  · exact rereads_pure rfl
  split
  · exact rereads_fail
  · exact rereads_pure rfl

theorem rereads_userCallee (context : Context) (name : String) (path : List String) :
    Rereads run spot (Walk.userCallee context name path) (Walk.userCallee context name path) (· = ·) := by
  apply rereads_bind unchanging_currentModule (rereads_currentModule context)
  rintro current _ rfl
  apply rereads_bind unchanging_ask (rereads_findModule current path)
  rintro found _ rfl
  cases found with
  | none => exact rereads_fail
  | some module =>
    apply rereads_bind unchanging_ask (rereads_findFunction module name)
    rintro found _ rfl
    cases found with
    | none => exact rereads_pure rfl
    | some id =>
      apply rereads_bind unchanging_ask (rereads_function id)
      intro f f' same
      injection same with _ access home
      dsimp only
      -- Of the function only its access and its module are read here, and both are part of its
      -- signature.
      rw [access, home]
      split
      · exact rereads_fail
      · exact rereads_pure rfl

theorem rereads_ordinaryCallee (context : Context) (name : String) (path : List String) :
    Rereads run spot (Walk.ordinaryCallee context name path) (Walk.ordinaryCallee context name path)
      (· = ·) := by
  apply rereads_bind unchanging_standardCallee (rereads_standardCallee context name path)
  rintro found _ rfl
  cases found with
  | some f => exact rereads_pure rfl
  | none =>
    apply rereads_bind unchanging_userCallee (rereads_userCallee context name path)
    rintro found _ rfl
    cases found <;> exact rereads_pure rfl

/-! ### Checks of calls -/

theorem rereads_takesClosure (callee : Callee) :
    Rereads run spot (Walk.takesClosure callee) (Walk.takesClosure callee) (· = ·) := by
  cases callee
  case user id =>
    apply rereads_bind unchanging_ask (rereads_function id)
    intro f f' same
    injection same with _ _ _ takes
    exact rereads_pure takes.symm
  all_goals exact rereads_pure rfl

theorem rereads_checkClosure (callee : Callee) (hasClosure : Bool) :
    Rereads run spot (Walk.checkClosure callee hasClosure) (Walk.checkClosure callee hasClosure)
      (· = ·) := by
  apply rereads_bind unchanging_takesClosure (rereads_takesClosure callee)
  rintro wanted _ rfl
  cases hasClosure <;> cases wanted
  all_goals first
    | exact rereads_pure rfl
    | exact rereads_fail

theorem rereads_checkArguments (callee : Callee) (isReference : Bool) (actual : Nat) :
    Rereads run spot (Walk.checkArguments callee isReference actual)
      (Walk.checkArguments callee isReference actual) fun _ _ => True := by
  cases callee
  case standard f => exact rereads_checkCount _ _ _ _ _
  case user id =>
    apply rereads_bind unchanging_ask (rereads_function id)
    intro f f' same
    injection same with _ _ _ _ parameters
    rw [arity_of_shapes parameters]
    exact rereads_checkCount _ _ _ _ _
  all_goals exact rereads_pure trivial

/-! ### Calls that something is attached to -/

section Attaching

variable {tree : ScopeTree} {around : Option ScopeId}

theorem rereads_redirect (op : BinaryOp) (redirection : Redirection) {left left' : Expr}
    (same : left'.outline tree around = left.outline tree around) :
    Rereads run spot (Walk.redirect op redirection left) (Walk.redirect op redirection left')
      fun r r' => r'.outline tree around = r.outline tree around := by
  have program : left'.isProgramCall = left.isProgramCall := by
    simpa using congrArg Expr.isProgramCall same
  unfold Walk.redirect
  rw [program]
  split
  · apply rereads_pure
    rw [Expr.outline_mapCall (fun made => by cases made; rfl),
      Expr.outline_mapCall (fun made => by cases made; rfl), same]
  split
  · exact rereads_pure same
  · exact rereads_fail

theorem rereads_attachedCall {e e' : Expr} (same : e'.outline tree around = e.outline tree around) :
    Rereads run spot (Walk.attachedCall e) (Walk.attachedCall e') fun made made' =>
      outlineCall tree around made' = outlineCall tree around made := by
  intro s s' made _ given
  obtain ⟨found, -⟩ := gives_attachedCall.mp given
  have shown : e'.call?.map (outlineCall tree around) = some (outlineCall tree around made) := by
    rw [← Expr.outline_call?, same, Expr.outline_call?, found, Option.map_some]
  obtain ⟨made', found', alike⟩ := Option.map_eq_some_iff.mp shown
  exact arrives_of_gives (gives_attachedCall.mpr ⟨found', rfl⟩) ⟨alike, rfl⟩

/-- The made-up parameters of a bare reference depend on what the call is found to be. -/
theorem rereads_impliedNames {attached attached' : Call}
    (same : outlineCall tree around attached' = outlineCall tree around attached) :
    Rereads run spot (Walk.impliedNames attached) (Walk.impliedNames attached') (· = ·) := by
  have findings : attached'.findings = attached.findings := by
    simpa using congrArg Call.findings same
  unfold Walk.impliedNames
  rw [findings]
  split
  · exact rereads_pure rfl
  split
  next id _ =>
    apply rereads_bind unchanging_ask (rereads_function id)
    intro f f' same
    injection same with _ _ _ _ parameters
    exact rereads_pure (names_of_shapes parameters).symm
  · exact rereads_pure rfl

end Attaching
end Rereading
end ShellSema
