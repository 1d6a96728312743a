import ShellSema.Proofs.Closed

/-!
# Actions that do not crash

From a sound state an action ends in one of three ways. It goes on from a sound state, it halts
with an error of the script in a tree that is still closed, or the store of structs is full. The
judgement `Safely` says so, and is put together along an action.
-/
namespace ShellSema

variable {α β : Type} {base : ScopeTree}

/-- The tree is closed, and each frame belongs to a scope of it and to a frame before it. -/
structure Sound (base : ScopeTree) (s : AnalysisState) : Prop where
  fits : ScopeTree.Fits base s.tree
  bodies : ∀ (index : Nat) (frame : ClosureFrame), s.closures[index]? = some frame →
    base.hasScope frame.bodyScope = true
  owners : ∀ (index : Nat) (frame : ClosureFrame), s.closures[index]? = some frame →
    ∀ id, frame.owner = some (.closure id) → id.index < index

/-- The analysis goes on: the state is sound, and no frame is lost. -/
structure Continues (base : ScopeTree) (s t : AnalysisState) : Prop where
  sound : Sound base t
  frames : s.closures.size ≤ t.closures.size

/-- Where the analysis stands is known to the state. -/
structure Context.Known (base : ScopeTree) (s : AnalysisState) (context : Context) : Prop where
  scope : base.hasScope context.scope = true
  enclosing : ∀ id, context.enclosing = some (.closure id) → id.index < s.closures.size

/-- The action does not crash, and what it gives is as wanted. Only a full store makes it halt for
another reason than an error of the script. -/
def Safely (base : ScopeTree) (action : Walk α) (s : AnalysisState)
    (wanted : α → AnalysisState → Prop) : Prop :=
  match runFrom action s with
  | (.ok a, t) => Continues base s t ∧ wanted a t
  | (.error (.failed _), t) => ScopeTree.Fits base t.tree
  | (.error (.crashed _), t) => 2 ^ 32 ≤ t.tree.structs.size

theorem Sound.continues {s : AnalysisState} (sound : Sound base s) : Continues base s s :=
  ⟨sound, Nat.le_refl _⟩

theorem Continues.trans {r s t : AnalysisState} (first : Continues base r s)
    (second : Continues base s t) : Continues base r t :=
  ⟨second.sound, Nat.le_trans first.frames second.frames⟩

theorem Context.Known.after {s t : AnalysisState} {context : Context}
    (known : context.Known base s) (continues : Continues base s t) : context.Known base t :=
  ⟨known.scope, fun id inside => Nat.lt_of_lt_of_le (known.enclosing id inside) continues.frames⟩

/-! ### Putting actions together -/

section Combining

variable {s : AnalysisState} {P : α → AnalysisState → Prop} {Q : β → AnalysisState → Prop}

theorem safely_pure (sound : Sound base s) {a : α} (holds : P a s) :
    Safely base (pure a) s P :=
  ⟨sound.continues, holds⟩

theorem safely_fail (sound : Sound base s) {cause : ErrorCause} :
    Safely base (Walk.fail cause : Walk α) s P :=
  sound.fits

theorem safely_failAt (sound : Sound base s) {cause : ErrorCause} {span : Span} :
    Safely base (Walk.failAt cause span : Walk α) s P :=
  sound.fits

theorem Safely.bind {action : Walk α} {next : α → Walk β} (first : Safely base action s P)
    (rest : ∀ a t, Continues base s t → P a t → Safely base (next a) t Q) :
    Safely base (action >>= next) s Q := by
  unfold Safely at *
  rw [runFrom_bind]
  rcases ended : runFrom action s with ⟨(_ | _) | a, t⟩
  · simpa [ended] using first
  · simpa [ended] using first
  · simp only [ended] at first ⊢
    have after := rest a t first.1 first.2
    split at after
    · exact ⟨first.1.trans after.1, after.2⟩
    · exact after
    · exact after

/-- An action and a result made of what it gives. -/
theorem Safely.returning {action : Walk α} {result : α → β} (safely : Safely base action s P) :
    Safely base (action >>= fun a => pure (result a)) s fun _ _ => True :=
  safely.bind fun _ _ continues _ => safely_pure continues.sound trivial

theorem Safely.mono {action : Walk α} {P' : α → AnalysisState → Prop}
    (safely : Safely base action s P) (weaker : ∀ a t, P a t → P' a t) :
    Safely base action s P' := by
  unfold Safely at *
  split at safely
  · exact ⟨safely.1, weaker _ _ safely.2⟩
  · exact safely
  · exact safely

theorem safely_get (sound : Sound base s) : Safely base get s fun r t => r = s ∧ t = s :=
  ⟨sound.continues, rfl, rfl⟩

theorem safely_ask (sound : Sound base s) {question : ScopeTree → Except ScopeTree.Fault α}
    {wanted : α → Prop} (answers : Answers (question s.tree) wanted) :
    Safely base (Walk.ask question) s fun a t => wanted a ∧ t = s := by
  obtain ⟨a, answered, holds⟩ := answers
  have ended : runFrom (Walk.ask question) s = (.ok a, s) := by
    simp [Walk.ask, runFrom_bind, answered]
  unfold Safely
  rw [ended]
  exact ⟨sound.continues, holds, rfl⟩

/-- A change that leaves the tree and the frames alone. -/
theorem safely_modify (sound : Sound base s) {change : AnalysisState → AnalysisState}
    (tree : (change s).tree = s.tree) (closures : (change s).closures = s.closures) :
    Safely base (modify change) s fun _ t => t = change s := by
  refine ⟨⟨⟨?_, ?_, ?_⟩, ?_⟩, rfl⟩
  · rw [tree]
    exact sound.fits
  · rw [closures]
    exact sound.bodies
  · rw [closures]
    exact sound.owners
  · exact Nat.le_of_eq (congrArg Array.size closures.symm)

theorem safely_forM (sound : Sound base s) {action : α → Walk PUnit} (xs : List α)
    (each : ∀ x ∈ xs, ∀ t, Continues base s t → Safely base (action x) t fun _ _ => True) :
    Safely base (xs.forM action) s fun _ _ => True := by
  induction xs generalizing s with
  | nil => exact safely_pure sound trivial
  | cons x xs ih =>
    rw [List.forM_eq_forM, List.forM_cons]
    refine (each x (by simp) s sound.continues).bind fun _ t continues _ => ?_
    exact ih continues.sound fun y member u later => each y (by simp [member]) u (continues.trans later)

end Combining

/-! ### Edits -/

section Edits

variable {s : AnalysisState}

/-- An edit that is carried out and leaves a fitting tree. -/
theorem safely_edit (sound : Sound base s) {change : ScopeTree.Edit α} {a : α} {tree : ScopeTree}
    (ended : runFrom change s.tree = (.ok a, tree)) (fits : ScopeTree.Fits base tree) :
    Safely base (Walk.edit change) s fun given t => given = a ∧ t.tree = tree := by
  unfold Safely
  rw [runFrom_edit, ended]
  exact ⟨⟨⟨fits, sound.bodies, sound.owners⟩, Nat.le_refl _⟩, rfl, rfl⟩

theorem safely_changeScope (sound : Sound base s) {id : ScopeId}
    (known : base.hasScope id = true) {change : Scope → Scope}
    (parent : ∀ scope, (change scope).parent = scope.parent)
    (module : ∀ scope, (change scope).module = scope.module) :
    Safely base (Walk.edit (ScopeTree.Edit.changeScope id change)) s fun _ _ => True := by
  refine (safely_edit sound (a := ()) ?_ (sound.fits.modifyScope id.index parent module)).mono
    fun _ _ _ => trivial
  rw [ScopeTree.Edit.runFrom_changeScope, sound.fits.hasScope, if_pos known]

theorem safely_addVariable (sound : Sound base s) {scope : ScopeId}
    (known : base.hasScope scope = true) (name : String) :
    Safely base (Walk.edit (ScopeTree.Edit.addVariable scope name)) s fun _ _ => True :=
  safely_changeScope sound known (fun _ => rfl) fun _ => rfl

theorem safely_captureHere (sound : Sound base s) {scope : ScopeId}
    (known : base.hasScope scope = true) (name : String) :
    Safely base (Walk.edit (ScopeTree.Edit.captureHere scope name)) s fun _ _ => True :=
  safely_changeScope sound known (fun _ => rfl) fun _ => rfl

theorem safely_capture (sound : Sound base s) {scope : ScopeId}
    (known : base.hasScope scope = true) (name : String) :
    Safely base (Walk.edit (ScopeTree.Edit.capture scope name)) s fun _ _ => True := by
  simp only [ScopeTree.Edit.capture, edit_bind, edit_ask]
  refine (safely_ask sound (sound.fits.declaringScope_answers known name)).bind ?_
  rintro found t continues ⟨declared, -⟩
  cases found with
  | none =>
    rw [edit_pure]
    exact safely_pure continues.sound trivial
  | some declaring =>
    rw [edit_bind]
    refine (safely_captureHere continues.sound (declared declaring rfl) name).bind ?_
    rintro _ u later -
    rw [edit_pure]
    exact safely_pure later.sound trivial

theorem safely_changeModule (sound : Sound base s) {id : ModuleId}
    (known : base.hasModule id = true) {change : ScriptModule → ScriptModule}
    (knows : ∀ m, s.tree.Knows m → s.tree.Knows (change m)) :
    Safely base (Walk.edit (ScopeTree.Edit.changeModule id change)) s fun _ t =>
      t.tree.structs = s.tree.structs := by
  refine (safely_edit sound (a := ()) ?_ (sound.fits.modifyModule id.index knows)).mono
    fun _ _ ended => by rw [ended.2]
  rw [ScopeTree.Edit.runFrom_changeModule, sound.fits.hasModule, if_pos known]

theorem safely_changeFunction (sound : Sound base s) {id : FunctionId}
    (known : base.hasFunction id = true) {change : ScriptFunction → ScriptFunction}
    (module : ∀ f, base.hasModule f.module = true → base.hasModule (change f).module = true) :
    Safely base (Walk.edit (ScopeTree.Edit.changeFunction id change)) s fun _ _ => True := by
  have module' (f : ScriptFunction) (before : s.tree.hasModule f.module = true) :
      s.tree.hasModule (change f).module = true := by
    rw [sound.fits.hasModule] at before ⊢
    exact module f before
  refine (safely_edit sound (a := ()) ?_ (sound.fits.modifyFunction id.index module')).mono
    fun _ _ _ => trivial
  rw [ScopeTree.Edit.runFrom_changeFunction, sound.fits.hasFunction, if_pos known]

/-- A function is entered in a module only if the tree has both. -/
theorem safely_registerFunction (sound : Sound base s) {id : FunctionId} {f : ScriptFunction}
    (known : base.hasFunction id = true) (module : base.hasModule f.module = true) :
    Safely base (Walk.edit (ScopeTree.Edit.registerFunction id f)) s fun _ _ => True := by
  rw [ScopeTree.Edit.registerFunction, edit_bind]
  refine (safely_changeFunction sound known fun _ _ => module).bind fun _ t continues _ => ?_
  refine (safely_changeModule continues.sound module fun m knows => ?_).mono fun _ _ _ => trivial
  obtain ⟨own, imported⟩ := List.forall_mem_append.mp knows.functions
  have known' : t.tree.hasFunction id = true := (continues.sound.fits.hasFunction id).trans known
  exact { knows with functions :=
    List.forall_mem_append.mpr ⟨Table.forall_mem_values_insert own known', imported⟩ }

theorem safely_changeStruct (sound : Sound base s) {id : StructId}
    (known : s.tree.hasStruct id = true) {change : ScriptStruct → ScriptStruct} :
    Safely base (Walk.edit (ScopeTree.Edit.changeStruct id change)) s fun _ _ => True := by
  refine (safely_edit (a := ()) sound ?_ (sound.fits.changeStructs
    (s.tree.structs.modify id.index change) (by simp))).mono fun _ _ _ => trivial
  rw [ScopeTree.Edit.runFrom_changeStruct, if_pos known]

/-- A module may name what has just been stored. -/
private theorem knows_new_struct {tree : ScopeTree} {m : ScriptModule} {id : StructId}
    (knows : tree.Knows m) (known : tree.hasStruct id = true) (name : String) :
    tree.Knows { m with structs := m.structs.insert name id } := by
  obtain ⟨own, imported⟩ := List.forall_mem_append.mp knows.structs
  exact { knows with structs :=
    List.forall_mem_append.mpr ⟨Table.forall_mem_values_insert own known, imported⟩ }

/-- A full store of structs takes no further one. -/
theorem runFrom_declareStruct_full {s : AnalysisState} (full : 2 ^ 32 ≤ s.tree.structs.size)
    (struct : ScriptStruct) : runFrom (Walk.edit (ScopeTree.Edit.declareStruct struct)) s =
      (.error (.crashed (.fault .storeFull)), s) := by
  rw [runFrom_edit, ScopeTree.Edit.runFrom_declareStruct, if_neg (Nat.not_lt.mpr full)]

/-- A struct is declared, unless the store of structs is full. -/
theorem safely_declareStruct (sound : Sound base s) {struct : ScriptStruct}
    (module : base.hasModule struct.module = true) :
    Safely base (Walk.edit (ScopeTree.Edit.declareStruct struct)) s fun _ _ => True := by
  by_cases room : s.tree.structs.size < 2 ^ 32
  -- With room in the store the struct gets a handle of its own, and its module can be told of it.
  · have stored : ScopeTree.Fits base { s.tree with structs := s.tree.structs.push struct } :=
      sound.fits.changeStructs _ (by simp)
    have number : (UInt32.ofNat s.tree.structs.size).toNat = s.tree.structs.size :=
      Nat.mod_eq_of_lt room
    have there : ScopeTree.hasStruct { s.tree with structs := s.tree.structs.push struct }
        ⟨UInt32.ofNat s.tree.structs.size⟩ = true := by
      simp [ScopeTree.hasStruct, StructId.index, number]
    have entered := stored.modifyModule struct.module.index fun m knows =>
      knows_new_struct knows there struct.name
    refine (safely_edit (a := ⟨UInt32.ofNat s.tree.structs.size⟩) sound ?_ entered).mono
      fun _ _ _ => trivial
    rw [ScopeTree.Edit.runFrom_declareStruct, if_pos room, ScopeTree.Edit.runFrom_changeModule,
      stored.hasModule, if_pos module]
  · have full := Nat.le_of_not_lt room
    unfold Safely
    rw [runFrom_declareStruct_full full]
    exact full

theorem safely_registerStruct (sound : Sound base s) {struct : ScriptStruct}
    (module : base.hasModule struct.module = true) :
    Safely base (Walk.edit (ScopeTree.Edit.registerStruct struct)) s fun _ _ => True := by
  simp only [ScopeTree.Edit.registerStruct, edit_bind, edit_ask]
  refine (safely_ask sound (sound.fits.module_answers module)).bind ?_
  rintro m t continues ⟨knows, same⟩
  subst same
  cases found : m.structs.get? struct.name with
  | none => exact safely_declareStruct continues.sound module
  | some id =>
    have known : t.tree.hasStruct id = true :=
      knows.structs id (List.mem_append_left _ (Table.mem_values_of_get? found))
    simp only [edit_bind, edit_pure]
    exact (safely_changeStruct continues.sound known).returning

/-- An error of the script may be noted in the tree before it halts the analysis. -/
theorem safely_onError {action : Walk α} {P : α → AnalysisState → Prop}
    (cleanup : ScopeTree.Edit Unit) (safely : Safely base action s P)
    (cleans : ∀ t : AnalysisState, ScopeTree.Fits base t.tree →
      ∃ tree, runFrom cleanup t.tree = (.ok (), tree) ∧ ScopeTree.Fits base tree) :
    Safely base (tryCatch action fun
      | .failed error => do
        Walk.edit cleanup
        throw (.failed error)
      | .crashed crash => throw (.crashed crash)) s P := by
  unfold Safely at *
  simp only [runFrom_tryCatch]
  rcases ended : runFrom action s with ⟨(error | crash) | a, t⟩
  · simp only [ended] at safely
    obtain ⟨tree, cleaned, fits⟩ := cleans t safely
    simp only [runFrom_bind, runFrom_edit, cleaned, runFrom_throw]
    exact fits
  · simpa [ended] using safely
  · simpa [ended] using safely

end Edits
end ShellSema
