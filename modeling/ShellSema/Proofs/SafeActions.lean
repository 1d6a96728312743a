import ShellSema.Analysis.Walk
import ShellSema.Proofs.Plan
import ShellSema.Proofs.Safety

/-!
# The actions of the walk do not crash

Each action that the walk takes at a node is safe from a sound state that knows where the walk
stands.
-/
namespace ShellSema

variable {base : ScopeTree} {s : AnalysisState}

/-! ### Notes and checks -/

theorem safely_note (sound : Sound base s) (span : Span) (category : SemanticCategory) :
    Safely base (Walk.note span category) s fun _ _ => True :=
  (safely_modify sound rfl rfl).mono fun _ _ _ => trivial

theorem safely_noteAll (sound : Sound base s) (path : List Token) (category : SemanticCategory) :
    Safely base (path.forM fun segment => Walk.note segment.span category) s fun _ _ => True :=
  safely_forM sound path fun _ _ _ continues => safely_note continues.sound _ _

theorem safely_noteCall (sound : Sound base s) (name : Token) (path : List Token)
    (callee : Callee) : Safely base (Walk.noteCall name path callee) s fun _ _ => True :=
  (safely_noteAll sound path .module).bind fun _ _ continues _ => safely_note continues.sound _ _

theorem safely_noteConstruction (sound : Sound base s) (name : Token) (path : List Token) :
    Safely base (Walk.noteConstruction name path) s fun _ _ => True :=
  (safely_noteAll sound path .module).bind fun _ _ continues _ => safely_note continues.sound _ _

theorem safely_check (sound : Sound base s) {refused : Prop} [Decidable refused]
    {cause : ErrorCause} :
    Safely base (if refused then Walk.fail cause else pure () : Walk Unit) s fun _ t => t = s := by
  split
  · exact safely_fail sound
  · exact safely_pure sound rfl

theorem safely_checkCount (sound : Sound base s) {name : String} {arity : Arity}
    {isReference : Bool} {actual : Nat} :
    Safely base (Walk.checkCount name arity isReference actual) s fun _ t => t = s := by
  unfold Walk.checkCount
  split
  · exact safely_pure sound rfl
  · exact safely_fail sound

theorem safely_checkFields (sound : Sound base s) {struct : Token} {fields : List Parameter} :
    Safely base (Walk.checkFields struct fields) s fun _ _ => True := by
  unfold Walk.checkFields
  split
  · exact safely_failAt sound
  · exact safely_pure sound trivial

theorem safely_checkTarget (sound : Sound base s) {left : Expr} :
    Safely base (Walk.checkTarget left) s fun _ _ => True := by
  unfold Walk.checkTarget
  split
  all_goals first
    | exact safely_pure sound trivial
    | exact safely_fail sound

theorem safely_redirect (sound : Sound base s) {op : BinaryOp} {redirection : Redirection}
    {left : Expr} : Safely base (Walk.redirect op redirection left) s fun _ _ => True := by
  unfold Walk.redirect
  split
  · exact safely_pure sound trivial
  split
  · exact safely_pure sound trivial
  · exact safely_fail sound

theorem safely_blockScope (sound : Sound base s) {e : Expr} (block : e.isBlock = true) :
    Safely base (Walk.blockScope e) s fun scope t => e.blockScope? = some scope ∧ t = s := by
  obtain ⟨scope, found⟩ := Option.isSome_iff_exists.mp block
  simp only [Walk.blockScope, found]
  exact safely_pure sound ⟨rfl, rfl⟩

theorem safely_attachedCall (sound : Sound base s) {e : Expr} {made : Call}
    (found : e.call? = some made) :
    Safely base (Walk.attachedCall e) s fun given _ => given = made := by
  simp only [Walk.attachedCall, found]
  exact safely_pure sound rfl

theorem safely_literal (sound : Sound base s) {context : Context} {span : Span} {token : Token} :
    Safely base (Walk.literal context span token) s fun _ _ => True := by
  unfold Walk.literal
  split
  · exact (safely_note sound _ _).bind fun _ _ continues _ => safely_pure continues.sound trivial
  · exact (safely_note sound _ _).bind fun _ _ continues _ => safely_pure continues.sound trivial
  · exact safely_fail sound

/-! ### Declarations -/

theorem safely_declare (sound : Sound base s) {scope : ScopeId} (known : base.hasScope scope = true)
    (category : SemanticCategory) (name : Token) :
    Safely base (Walk.declare scope category name) s fun _ _ => True :=
  (safely_addVariable sound known name.text).bind fun _ _ continues _ =>
    safely_note continues.sound _ _

theorem safely_declareAll (sound : Sound base s) {scope : ScopeId}
    (known : base.hasScope scope = true) (category : SemanticCategory) (names : List Token) :
    Safely base (names.forM (Walk.declare scope category)) s fun _ _ => True :=
  safely_forM sound names fun _ _ _ continues => safely_declare continues.sound known _ _

theorem safely_declareOption (sound : Sound base s) {scope : ScopeId}
    (known : base.hasScope scope = true) (category : SemanticCategory) (name : Option Token) :
    Safely base (name.forM (Walk.declare scope category)) s fun _ _ => True := by
  cases name with
  | none => exact safely_pure sound trivial
  | some name => exact safely_declare sound known category name

theorem safely_bindAll (sound : Sound base s) {context : Context} (known : context.Known base s)
    (names : List Token) : Safely base (names.forM (Walk.bind context)) s fun _ _ => True := by
  refine safely_forM sound names fun name _ t continues => ?_
  unfold Walk.bind
  split
  · exact safely_note continues.sound _ _
  · exact safely_declare continues.sound known.scope _ _

theorem safely_declareParameters (sound : Sound base s) {scope : ScopeId}
    (known : base.hasScope scope = true) (parameters : List Parameter) (takesClosure : Bool) :
    Safely base (Walk.declareParameters scope parameters takesClosure) s fun _ _ => True := by
  refine Safely.bind (P := fun _ _ => True) ?_ fun _ t continues _ => ?_
  · exact safely_forM sound parameters fun _ _ _ continues =>
      safely_addVariable continues.sound known _
  · split
    · exact safely_addVariable continues.sound known _
    · exact safely_pure continues.sound trivial

theorem safely_functionContext (sound : Sound base s) (context : Context) (id : FunctionId)
    {module : ModuleId} (known : base.hasModule module = true) :
    Safely base (Walk.functionContext context id module) s fun inner t => inner.Known base t := by
  refine (safely_ask sound (sound.fits.module_answers known)).bind ?_
  rintro m t continues ⟨knows, same⟩
  subst same
  refine safely_pure continues.sound ⟨?_, by simp⟩
  exact (continues.sound.fits.hasScope _).symm.trans knows.scope

theorem safely_registerAnalysed (sound : Sound base s) {access : Access} {name : Token}
    {parameters : List Parameter} {module : ModuleId} {takesClosure : Bool} {id : FunctionId}
    (known : base.hasFunction id = true) (module_known : base.hasModule module = true) :
    Safely base (Walk.registerFunction access name parameters module takesClosure id) s
      fun _ _ => True :=
  (safely_get sound).bind fun _ _ continues _ =>
    safely_registerFunction continues.sound known module_known

/-! ### Names of types, structs and functions -/

theorem safely_currentModule (sound : Sound base s) {context : Context}
    (known : context.Known base s) :
    Safely base (Walk.currentModule context) s fun module t =>
      base.hasModule module = true ∧ t = s := by
  refine (safely_ask sound (sound.fits.scope_answers known.scope)).bind ?_
  rintro scope t continues ⟨holds, same⟩
  subst same
  exact safely_pure continues.sound ⟨holds.1, rfl⟩

theorem safely_typeUse (sound : Sound base s) {context : Context} (known : context.Known base s)
    (name : Token) : Safely base (Walk.typeUse context name) s fun _ _ => True := by
  refine Safely.bind (P := fun _ _ => True) ?_ fun _ t continues _ => ?_
  · unfold Walk.typeTarget
    split
    · exact safely_pure sound trivial
    refine (safely_currentModule sound known).bind ?_
    rintro current t continues ⟨module, same⟩
    subst same
    refine (safely_ask continues.sound (continues.sound.fits.findStruct_answers module _ _)).bind ?_
    rintro found t' later -
    cases found with
    | none => exact safely_fail later.sound
    | some id => exact safely_pure later.sound trivial
  · exact (safely_note continues.sound _ _).bind fun _ _ later _ => safely_pure later.sound trivial

theorem safely_userStruct (sound : Sound base s) {current module : ModuleId}
    (known : base.hasModule module = true) (name : String) (actual : Nat) :
    Safely base (Walk.userStruct current module name actual) s fun _ _ => True := by
  refine (safely_ask sound (sound.fits.findStruct_answers known name true)).bind ?_
  rintro found t continues ⟨exists_, same⟩
  subst same
  cases found with
  | none => exact safely_fail continues.sound
  | some id =>
    refine (safely_ask continues.sound (ScopeTree.struct_answers (exists_ id rfl))).bind ?_
    rintro struct u later -
    dsimp only
    split
    · exact safely_fail later.sound
    · exact (safely_checkCount later.sound).bind fun _ _ last _ => safely_pure last.sound trivial

theorem safely_standardStruct (sound : Sound base s) (context : Context) (name : String)
    (path : List String) (actual : Nat) :
    Safely base (Walk.standardStruct context name path actual) s fun _ _ => True := by
  unfold Walk.standardStruct
  split
  · exact safely_fail sound
  split
  · exact safely_fail sound
  · exact (safely_checkCount sound).bind fun _ _ continues _ => safely_pure continues.sound trivial

theorem safely_structTarget (sound : Sound base s) {context : Context}
    (known : context.Known base s) (name : String) (path : List String) (actual : Nat) :
    Safely base (Walk.structTarget context name path actual) s fun _ _ => True := by
  refine (safely_currentModule sound known).bind ?_
  rintro current t continues ⟨module, same⟩
  subst same
  refine (safely_ask continues.sound (continues.sound.fits.findModule_answers module path
    true)).bind ?_
  rintro found u later ⟨origin, -⟩
  cases found with
  | none => exact safely_standardStruct later.sound context name path actual
  | some id => exact safely_userStruct later.sound (origin id rfl) name actual

/-! ### Callees -/

/-- A function of the script that is called is an entry of the tree. -/
def Callee.Known (base : ScopeTree) (callee : Callee) : Prop :=
  ∀ id, callee = .user id → base.hasFunction id = true

theorem safely_userCallee (sound : Sound base s) {context : Context}
    (known : context.Known base s) (name : String) (path : List String) :
    Safely base (Walk.userCallee context name path) s fun found _ =>
      ∀ id, found = some id → base.hasFunction id = true := by
  refine (safely_currentModule sound known).bind ?_
  rintro current t continues ⟨module, same⟩
  subst same
  refine (safely_ask continues.sound (continues.sound.fits.findModule_answers module path
    true)).bind ?_
  rintro found u later ⟨origin, -⟩
  cases found with
  | none => exact safely_fail later.sound
  | some id =>
    refine (safely_ask later.sound (later.sound.fits.findFunction_answers (origin id rfl) name
      true)).bind ?_
    rintro found v next ⟨function, -⟩
    cases found with
    | none => exact safely_pure next.sound (by simp)
    -- The function is in the tree, so it can be asked for its access.
    | some f =>
      have here := function f rfl
      refine (safely_ask next.sound (next.sound.fits.function_answers here)).bind ?_
      rintro _ w last -
      dsimp only
      split
      · exact safely_fail last.sound
      · exact safely_pure last.sound (by rintro _ ⟨⟩; exact here)

theorem safely_ordinaryCallee (sound : Sound base s) {context : Context}
    (known : context.Known base s) (name : String) (path : List String) :
    Safely base (Walk.ordinaryCallee context name path) s fun callee _ => callee.Known base := by
  have standard : Safely base (Walk.standardCallee context name path) s fun _ t => t = s := by
    unfold Walk.standardCallee
    split
    · exact safely_pure sound rfl
    split
    · exact safely_fail sound
    · exact safely_pure sound rfl
  refine standard.bind ?_
  rintro found t continues same
  subst same
  cases found with
  | some f => exact safely_pure continues.sound (by simp [Callee.Known])
  | none =>
    refine (safely_userCallee continues.sound known name path).bind fun found u later user => ?_
    cases found with
    | none => exact safely_pure later.sound (by simp [Callee.Known])
    | some id => exact safely_pure later.sound (by rintro _ ⟨⟩; exact user id rfl)

/-! ### Frames -/

theorem safely_frame (sound : Sound base s) {id : ClosureId} (known : id.index < s.closures.size) :
    Safely base (Walk.frame id) s fun frame t =>
      s.closures[id.index]? = some frame ∧ t = s := by
  have found := Array.getElem?_eq_getElem known
  have ended : runFrom (Walk.frame id) s = (.ok s.closures[id.index], s) := by
    simp [Walk.frame, runFrom_bind, found]
  unfold Safely
  rw [ended]
  exact ⟨sound.continues, found, rfl⟩

/-- What a closure captures and its parameters may change, not its place. -/
theorem safely_changeFrame (sound : Sound base s) (id : ClosureId)
    {change : ClosureFrame → ClosureFrame}
    (bodyScope : ∀ frame, (change frame).bodyScope = frame.bodyScope)
    (owner : ∀ frame, (change frame).owner = frame.owner) :
    Safely base (Walk.changeFrame id change) s fun _ t => t.tree = s.tree := by
  -- A frame keeps its body and its owner, so nothing that is asked of frames is changed.
  have before (index : Nat) (frame : ClosureFrame)
      (found : (s.closures.modify id.index change)[index]? = some frame) :
      ∃ old, s.closures[index]? = some old ∧ frame.bodyScope = old.bodyScope ∧
        frame.owner = old.owner := by
    rw [Array.getElem?_modify] at found
    split at found
    · obtain ⟨old, there, rfl⟩ := Option.map_eq_some_iff.mp found
      exact ⟨old, there, bodyScope old, owner old⟩
    · exact ⟨frame, found, rfl, rfl⟩
  refine ⟨⟨⟨sound.fits, fun index frame found => ?_, fun index frame found inner same => ?_⟩, ?_⟩,
    rfl⟩
  · obtain ⟨old, there, body, -⟩ := before index frame found
    rw [body]
    exact sound.bodies index old there
  · obtain ⟨old, there, -, owned⟩ := before index frame found
    exact sound.owners index old there inner (owned ▸ same)
  · simp

/-- The way out of a closure ends, since every frame belongs to one before it. -/
theorem safely_ownerWithin (sound : Sound base s) {steps : Nat} {owner : Option Enclosing}
    (inside : ∀ id, owner = some (.closure id) → id.index < s.closures.size ∧ id.index < steps) :
    Safely base (Walk.ownerWithin steps owner) s fun _ t => t = s := by
  induction steps generalizing owner with
  | zero =>
    rcases owner with _ | (_ | id)
    · exact safely_pure sound rfl
    · exact safely_pure sound rfl
    · exact absurd (inside id rfl).2 (Nat.not_lt_zero _)
  | succ steps ih =>
    rcases owner with _ | (_ | id)
    · exact safely_pure sound rfl
    · exact safely_pure sound rfl
    · refine (safely_frame sound (inside id rfl).1).bind ?_
      rintro frame t continues ⟨found, same⟩
      subst same
      refine ih fun outer owned => ?_
      have before := sound.owners _ _ found outer owned
      have bound := inside id rfl
      omega

theorem safely_closureProvider (sound : Sound base s) {context : Context}
    (known : context.Known base s) :
    Safely base (Walk.closureProvider context) s fun _ _ => True := by
  refine (safely_get sound).bind ?_
  rintro _ t continues ⟨rfl, rfl⟩
  refine (safely_ownerWithin continues.sound fun id inside => ?_).bind ?_
  -- The owner is searched outwards with one step for each frame, which is enough.
  · exact ⟨known.enclosing id inside, Nat.lt_succ_of_lt (known.enclosing id inside)⟩
  rintro found u later same
  subst same
  cases found with
  | none => exact safely_fail later.sound
  | some provider =>
    refine (safely_get later.sound).bind ?_
    rintro _ v next ⟨rfl, rfl⟩
    split
    · split
      next nearest _ =>
        refine (safely_modify next.sound (by rfl) (by rfl)).bind fun _ w noted _ => ?_
        refine (safely_changeFrame noted.sound nearest (by simp) (by simp)).bind ?_
        rintro _ x captured -
        exact (safely_capture captured.sound known.scope _).returning
      next => exact safely_pure next.sound trivial
    · exact safely_fail next.sound

theorem safely_callee (sound : Sound base s) {context : Context} (known : context.Known base s)
    (name : String) (path : List String) :
    Safely base (Walk.callee context name path) s fun callee _ => callee.Known base := by
  unfold Walk.callee
  split
  · exact safely_pure sound (by simp [Callee.Known])
  · refine (safely_closureProvider sound known).bind fun _ _ continues _ => ?_
    exact safely_pure continues.sound (by simp [Callee.Known])
  · exact safely_pure sound (by simp [Callee.Known])
  · exact safely_pure sound (by simp [Callee.Known])
  · exact safely_ordinaryCallee sound known name path

theorem safely_takesClosure (sound : Sound base s) {callee : Callee} (known : callee.Known base) :
    Safely base (Walk.takesClosure callee) s fun _ t => t = s := by
  cases callee
  case user id =>
    refine (safely_ask sound (sound.fits.function_answers (known id rfl))).bind ?_
    rintro _ t continues ⟨-, same⟩
    exact safely_pure continues.sound same
  all_goals exact safely_pure sound rfl

theorem safely_checkClosure (sound : Sound base s) {callee : Callee} (known : callee.Known base)
    (hasClosure : Bool) : Safely base (Walk.checkClosure callee hasClosure) s fun _ t => t = s := by
  refine (safely_takesClosure sound known).bind ?_
  rintro wanted t continues same
  subst same
  cases hasClosure <;> cases wanted
  all_goals first
    | exact safely_pure continues.sound rfl
    | exact safely_fail continues.sound

theorem safely_checkArguments (sound : Sound base s) {callee : Callee} (known : callee.Known base)
    (isReference : Bool) (actual : Nat) :
    Safely base (Walk.checkArguments callee isReference actual) s fun _ t => t = s := by
  cases callee
  case user id =>
    refine (safely_ask sound (sound.fits.function_answers (known id rfl))).bind ?_
    rintro f t continues ⟨-, same⟩
    subst same
    exact safely_checkCount continues.sound
  case standard f => exact safely_checkCount sound
  all_goals exact safely_pure sound rfl

/-! ### Variables and captures -/

/-- The scope around the body of a closure is a scope of the tree. -/
theorem safely_bodyScope (sound : Sound base s) {index : Nat} {frame : ClosureFrame}
    (found : s.closures[index]? = some frame) :
    Safely base (Walk.ask (·.scope frame.bodyScope)) s fun scope t =>
      (∀ parent, scope.parent = some parent → base.hasScope parent = true) ∧ t = s :=
  (safely_ask sound (sound.fits.scope_answers (sound.bodies index frame found))).mono
    fun _ _ holds => ⟨holds.1.2, holds.2⟩

theorem safely_capturedFrom (sound : Sound base s) {context : Context}
    (known : context.Known base s) {index : Nat} {frame : ClosureFrame}
    (found : s.closures[index]? = some frame) (name : String) :
    Safely base (Walk.capturedFrom context frame name) s fun declaring _ =>
      ∀ scope, declaring = some scope → base.hasScope scope = true := by
  refine (safely_bodyScope sound found).bind ?_
  rintro scope t continues ⟨around, same⟩
  subst same
  cases outward : scope.parent with
  | none => exact safely_pure continues.sound (by simp)
  | some outside =>
    have answers := continues.sound.fits.declaringScope_answers (around outside outward) name
    refine (safely_ask continues.sound answers).bind ?_
    rintro declaring u later ⟨declared, -⟩
    cases declaring with
    | none => exact safely_pure later.sound (by simp)
    | some scope =>
      -- The search between the use and the body goes outwards from a scope of the tree.
      have between := later.sound.fits.declaredBetween_answers known.scope name frame.bodyScope
      refine (safely_ask later.sound between).bind ?_
      rintro again v next -
      split
      · exact safely_pure next.sound (by simp)
      · exact safely_pure next.sound (by rintro _ ⟨⟩; exact declared scope rfl)

theorem safely_captureName (sound : Sound base s) {context : Context}
    (known : context.Known base s) (name : String) :
    Safely base (Walk.captureName context name) s fun _ _ => True := by
  unfold Walk.captureName
  split
  next id inside =>
    refine (safely_frame sound (known.enclosing id inside)).bind ?_
    rintro frame t continues ⟨found, same⟩
    subst same
    refine (safely_capturedFrom continues.sound known found name).bind fun declaring u later
      declared => ?_
    cases declaring with
    | none => exact safely_pure later.sound trivial
    | some scope =>
      refine (safely_changeFrame later.sound id (by simp) (by simp)).bind
        fun _ v captured _ => ?_
      refine (safely_captureHere captured.sound (declared scope rfl) name).bind fun _ w marked _ =>
        ?_
      exact safely_pure marked.sound trivial
  next => exact safely_pure sound trivial

theorem safely_variableUse (sound : Sound base s) {context : Context}
    (known : context.Known base s) (name : Token) :
    Safely base (Walk.variableUse context name) s fun _ _ => True := by
  unfold Walk.variableUse
  split
  · exact (safely_note sound _ _).bind fun _ _ continues _ => safely_pure continues.sound trivial
  refine (safely_ask sound (sound.fits.isVisible_answers known.scope name.text)).bind ?_
  rintro visible t continues -
  dsimp only
  split
  · exact safely_fail continues.sound
  refine (safely_captureName continues.sound (known.after continues) _).bind fun _ u later _ => ?_
  exact (safely_note later.sound _ _).bind fun _ _ last _ => safely_pure last.sound trivial

/-! ### Closures -/

/-- The frame of a closure is in place from when it is entered. -/
theorem safely_enterClosure (sound : Sound base s) {context : Context}
    (known : context.Known base s) {bodyScope : ScopeId}
    (body : base.hasScope bodyScope = true) (parameters : List Token) (captured : NameSet) :
    Safely base (Walk.enterClosure context bodyScope parameters captured) s fun id t =>
      id.index < t.closures.size := by
  have opened : Safely base (Walk.openFrame ⟨bodyScope, parameters.map Token.text, captured,
      context.enclosing⟩) s fun id t => id.index < t.closures.size := by
    refine ⟨⟨⟨sound.fits, fun index frame found => ?_, fun index frame found id owned => ?_⟩, ?_⟩, ?_⟩
    · rw [Array.getElem?_push] at found
      split at found
      · cases found
        exact body
      · exact sound.bodies index frame found
    · rw [Array.getElem?_push] at found
      split at found
      next last =>
        cases found
        rw [last]
        exact known.enclosing id owned
      · exact sound.owners index frame found id owned
    · simp
    -- The handle may wrap round, and then it names one of the older frames.
    · have wrapped : (UInt32.ofNat s.closures.size).toNat ≤ s.closures.size := Nat.mod_le _ _
      simpa [ClosureId.index] using Nat.lt_succ_of_le wrapped
  refine opened.bind fun id t continues inside => ?_
  refine (safely_declareAll continues.sound body .parameter parameters).bind fun _ u later _ => ?_
  exact safely_pure later.sound (Nat.lt_of_lt_of_le inside later.frames)

theorem safely_reachesOut (sound : Sound base s) {inner outer : ClosureFrame}
    (innerBody : base.hasScope inner.bodyScope = true)
    (outerBody : base.hasScope outer.bodyScope = true) {outside : ScopeId}
    (around : base.hasScope outside = true) (name : String) :
    Safely base (Walk.reachesOut inner outer outside name) s fun _ _ => True := by
  refine (safely_ask sound (sound.fits.isVisible_answers outerBody name)).bind ?_
  rintro visible t continues -
  split
  · exact safely_pure continues.sound trivial
  split
  · exact safely_pure continues.sound trivial
  refine (safely_ask continues.sound
    (continues.sound.fits.declaresHere_answers innerBody name)).bind ?_
  rintro own u later -
  split
  · exact safely_pure later.sound trivial
  refine (safely_ask later.sound (later.sound.fits.declaredBetween_answers around name
    outer.bodyScope)).bind ?_
  rintro between v last -
  exact safely_pure last.sound trivial

theorem safely_filterM (sound : Sound base s) {names : List String} {test : String → Walk Bool}
    (each : ∀ name t, Continues base s t → Safely base (test name) t fun _ _ => True) :
    Safely base (names.filterM test) s fun _ _ => True := by
  have filtered (kept : List String) :
      Safely base (names.filterAuxM test kept) s fun _ _ => True := by
    induction names generalizing s kept with
    | nil => exact safely_pure sound trivial
    | cons name names ih =>
      rw [List.filterAuxM]
      refine (each name s sound.continues).bind fun passed t continues _ => ?_
      exact ih continues.sound (fun name u later => each name u (continues.trans later)) _
  exact (filtered []).bind fun _ _ continues _ => safely_pure continues.sound trivial

theorem safely_propagateCaptures (sound : Sound base s) {inner : ClosureId}
    (inside : inner.index < s.closures.size) {context : Context} (known : context.Known base s) :
    Safely base (Walk.propagateCaptures inner context.enclosing) s fun _ _ => True := by
  unfold Walk.propagateCaptures
  split
  next outer enclosed =>
    refine (safely_frame sound inside).bind ?_
    rintro innerFrame t continues ⟨innerFound, rfl⟩
    refine (safely_frame continues.sound (known.enclosing outer enclosed)).bind ?_
    rintro outerFrame u later ⟨outerFound, rfl⟩
    refine (safely_bodyScope later.sound innerFound).bind ?_
    rintro scope v next ⟨around, rfl⟩
    cases outward : scope.parent with
    | none => exact safely_pure next.sound trivial
    | some outside =>
      -- The bodies of both frames are scopes of the tree, and so is what lies right outside of the
      -- inner one.
      have innerBody := next.sound.bodies _ _ innerFound
      have outerBody := next.sound.bodies _ _ outerFound
      refine (safely_filterM next.sound fun name w there => ?_).bind fun names w filtered _ => ?_
      · exact safely_reachesOut there.sound innerBody outerBody (around outside outward) name
      · exact (safely_changeFrame filtered.sound outer (by simp) (by simp)).mono
          fun _ _ _ => trivial
  next => exact safely_pure sound trivial

theorem safely_expandReference (sound : Sound base s) (id : ClosureId) {attached : Call}
    (called : ∀ id, attached.findings.function = some id → base.hasFunction id = true)
    {bodyScope : ScopeId} (known : base.hasScope bodyScope = true) (parameters : List Token)
    (body : Expr) :
    Safely base (Walk.expandReference id attached bodyScope parameters body) s fun _ _ => True := by
  unfold Walk.expandReference
  split
  · exact safely_pure sound trivial
  next e made _ =>
    -- The function that the attached call has found is in the tree.
    have implied : Safely base (Walk.impliedNames attached) s fun _ _ => True := by
      unfold Walk.impliedNames
      split
      · exact safely_pure sound trivial
      split
      next id found =>
        exact (safely_ask sound (sound.fits.function_answers (called id found))).returning
      · exact safely_pure sound trivial
    refine implied.bind fun names t continues _ => ?_
    refine (safely_forM continues.sound _ fun parameter _ u later =>
      safely_addVariable later.sound known _).bind fun _ u declared _ => ?_
    exact (safely_changeFrame declared.sound id (by simp) (by simp)).returning

end ShellSema
