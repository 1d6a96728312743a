import ShellSema.Proofs.Arriving
import ShellSema.Proofs.Capturing
import ShellSema.Proofs.Onward
import ShellSema.Proofs.Outlines

/-!
# The same walk again

A walk over a tree is made again, over the tree of scopes that the first walk has left. What the first
walk finds at one of its moments, the second one finds at the corresponding moment: the tree that the
first walk has in the end recalls what there was before, and the second walk does not change it any
more, apart from marks on variables. So the actions of the second walk follow those of the first one,
and only what stands in functions is left out, as they have been met.
-/
namespace ShellSema

/-- The first of two walks: the tree of scopes from which it starts, the state in which it ends, and
which tokens may be noted by it and not by the second one. -/
structure Rerun where
  base : ScopeTree
  last : AnalysisState
  skipped : SemanticToken → Prop

namespace Rerun

variable (run : Rerun)

/-- The first walk comes through a state on its way to its end. -/
structure Passes (s : AnalysisState) : Prop where
  onward : Onward s run.last
  registered : run.base.Registered s.tree
  recalls : s.tree.Recalls run.last.tree

/-- The second walk has noted what the first one has, in the same order, but for what it may leave
out. -/
def NotesMore (s s' : AnalysisState) : Prop :=
  ∃ noted noted' inside, s.tokens = some noted ∧ s'.tokens = some noted' ∧
    noted'.toList.Sublist noted.toList ∧ noted.toList.Perm (noted'.toList ++ inside) ∧
    ∀ token ∈ inside, run.skipped token

variable {run} {s t s' t' : AnalysisState}

theorem Passes.imports (passes : run.Passes s) (module : ModuleId) (name : String) :
    run.base.structImported? module name = run.last.tree.structImported? module name := by
  rw [passes.recalls.structImported?, passes.registered.structImported?]

/-- The walk goes on to a state in which more may be registered. -/
theorem Passes.on (passes : run.Passes s) (registered : run.base.Registered t.tree)
    (registers : s.tree.Registers run.last.tree t.tree) (onward : Onward t run.last) :
    run.Passes t where
  onward
  registered
  recalls := passes.recalls.registers passes.registered registered registers onward.names.named

/-- The walk goes on and registers nothing. -/
theorem Passes.still (passes : run.Passes s) (same : SameSymbols s t) (onward : Onward t run.last) :
    run.Passes t := by
  apply passes.on _ (.of_same same.modules same.structs) onward
  apply passes.registered.of_same same.modules same.structs
  · unfold ScopeTree.functionSignature?
    rw [same.functions]
  · unfold ScopeTree.statusOf?
    rw [same.functions]
    exact fun _ => .rfl

theorem NotesMore.of_same (notes : run.NotesMore s s') (first : t.tokens = s.tokens)
    (second : t'.tokens = s'.tokens) : run.NotesMore t t' := by
  unfold NotesMore
  rw [first, second]
  exact notes

theorem NotesMore.note (notes : run.NotesMore s s') (token : SemanticToken)
    (first : t.tokens = s.tokens.map (·.push token))
    (second : t'.tokens = s'.tokens.map (·.push token)) : run.NotesMore t t' := by
  obtain ⟨noted, noted', inside, found, found', ordered, perm, skipped⟩ := notes
  refine ⟨noted.push token, noted'.push token, inside, ?_, ?_, ?_, ?_, skipped⟩
  · rw [first, found, Option.map_some]
  · rw [second, found', Option.map_some]
  · rw [Array.toList_push, Array.toList_push]
    exact ordered.append_right [token]
  · rw [Array.toList_push, Array.toList_push, List.append_assoc]
    have pushed : (noted.toList ++ [token]).Perm (noted'.toList ++ (inside ++ [token])) := by
      rw [← List.append_assoc]
      exact perm.append_right _
    exact pushed.trans (List.perm_append_comm.append_left _)

/-- What the first walk notes alone has to be such that the second one may leave it out. -/
theorem NotesMore.skip (notes : run.NotesMore s s') {noted : Array SemanticToken}
    {more : List SemanticToken} (before : s.tokens = some noted)
    (after : t.tokens = some (noted ++ more.toArray))
    (skipped : ∀ token ∈ more, run.skipped token) : run.NotesMore t s' := by
  obtain ⟨_, noted', inside, found, found', ordered, perm, skipped'⟩ := notes
  rw [before] at found
  cases found
  refine ⟨_, noted', inside ++ more, after, found', ?_, ?_, ?_⟩
  · rw [Array.toList_append]
    exact ordered.trans (List.sublist_append_left _ _)
  · rw [Array.toList_append, ← List.append_assoc]
    exact perm.append_right _
  · intro token member
    exact (List.mem_append.mp member).elim (skipped' token) (skipped token)

end Rerun

/-- The second walk is at the place to which the first one has come. -/
structure Repeating (run : Rerun) (spot : Spot) (s s' : AnalysisState) : Prop where
  passes : run.Passes s
  resembles : run.last.tree.Resembles s'.tree
  linked : Linked s.closures s'.closures spot
  fewer : s'.closures.size ≤ s.closures.size
  noted : run.NotesMore s s'

/-- The second action follows the first one: where that gives something, this one gives something
alike, and the walks are at one place again. -/
structure Follows (run : Rerun) (spot : Spot) {α β : Type} (action : Walk α) (action' : Walk β)
    (alike : α → β → Prop) : Prop where
  onward : Keeps Onward action
  arrives : ∀ s s' a t, Repeating run spot s s' → Gives action s a t → Onward t run.last →
    Arrives action' s' fun a' t' => alike a a' ∧ Repeating run spot t t'

/-- The actions only read, and the second one finds something alike. -/
def Rereads (run : Rerun) (spot : Spot) {α β : Type} (action : Walk α) (action' : Walk β)
    (alike : α → β → Prop) : Prop :=
  ∀ s s' a, Repeating run spot s s' → Gives action s a s →
    Arrives action' s' fun a' t' => alike a a' ∧ t' = s'

section Combining

variable {run : Rerun} {spot : Spot} {α β γ δ : Type} {alike : α → β → Prop}
  {alike' : γ → δ → Prop}

theorem onward_calm : Calm Onward (Permit.onScopes fun _ => True) := onward_preserved.toCalm

theorem follows_pure {a : α} {b : β} (same : alike a b) : Follows run spot (pure a) (pure b) alike where
  onward := keeps_pure onward_calm.refl a
  arrives := by
    intro s s' _ t repeating given _
    obtain ⟨rfl, rfl⟩ := gives_pure.mp given
    exact arrives_pure ⟨same, repeating⟩

/-- Nothing has to follow an action that halts. -/
theorem follows_of_halts {action : Walk α} {action' : Walk β} (onward : Keeps Onward action)
    (halts : ∀ s a t, ¬ Gives action s a t) : Follows run spot action action' alike :=
  ⟨onward, fun s _ a t _ given => (halts s a t given).elim⟩

/-- What comes next has to follow what is given before, and whatever is alike. -/
theorem follows_bind_of_gives {action : Walk α} {action' : Walk β} {next : α → Walk γ}
    {next' : β → Walk δ} (first : Follows run spot action action' alike)
    (goes : ∀ a, Keeps Onward (next a))
    (rest : ∀ a b s t, Gives action s a t → alike a b → Follows run spot (next a) (next' b) alike') :
    Follows run spot (action >>= next) (action' >>= next') alike' where
  onward := keeps_bind onward_calm.trans first.onward goes
  arrives := by
    intro s s' c u repeating given onward
    obtain ⟨a, t, given, given'⟩ := gives_bind.mp given
    have between : Onward t u := (goes a).of_gives given'
    have reached := first.arrives s s' a t repeating given (onward_calm.trans _ _ _ between onward)
    apply reached.bind
    rintro b t' - ⟨same, repeating'⟩
    exact (rest a b s t given same).arrives t t' c u repeating' given' onward

theorem follows_bind {alike : α → α → Prop} {action action' : Walk α} {next : α → Walk γ}
    {next' : α → Walk δ} (first : Follows run spot action action' alike) (refl : ∀ a, alike a a)
    (rest : ∀ a a', alike a a' → Follows run spot (next a) (next' a') alike') :
    Follows run spot (action >>= next) (action' >>= next') alike' :=
  follows_bind_of_gives first (fun a => (rest a a (refl a)).onward) fun a a' _ _ _ => rest a a'

theorem follows_forM {action action' : α → Walk PUnit} (xs : List α)
    (each : ∀ x ∈ xs, Follows run spot (action x) (action' x) fun _ _ => True) :
    Follows run spot (xs.forM action) (xs.forM action') fun _ _ => True := by
  induction xs with
  | nil => exact follows_pure trivial
  | cons x xs ih =>
    simp only [List.forM_eq_forM, List.forM_cons]
    apply follows_bind (each x List.mem_cons_self) fun _ => trivial
    exact fun _ _ _ => ih fun y member => each y (List.mem_cons_of_mem x member)

theorem Rereads.follows {action : Walk α} {action' : Walk β}
    (rereads : Rereads run spot action action' alike) (unchanging : Unchanging action) :
    Follows run spot action action' alike where
  onward := onward_calm.keeps_unchanging unchanging
  arrives s s' a t repeating given _ := by
    obtain rfl := unchanging.of_gives given
    apply (rereads t s' a repeating given).mono
    rintro a' t' - ⟨same, rfl⟩
    exact ⟨same, repeating⟩

theorem rereads_pure {a : α} {b : β} (same : alike a b) :
    Rereads run spot (pure a) (pure b) alike := by
  intro s s' _ _ given
  obtain ⟨rfl, -⟩ := gives_pure.mp given
  exact arrives_pure ⟨same, rfl⟩

theorem rereads_of_halts {action : Walk α} {action' : Walk β} (halts : ∀ s a t, ¬ Gives action s a t) :
    Rereads run spot action action' alike :=
  fun s _ a _ given => (halts s a s given).elim

theorem rereads_bind {action : Walk α} {action' : Walk β} {next : α → Walk γ} {next' : β → Walk δ}
    (unchanging : Unchanging action) (first : Rereads run spot action action' alike)
    (rest : ∀ a b, alike a b → Rereads run spot (next a) (next' b) alike') :
    Rereads run spot (action >>= next) (action' >>= next') alike' := by
  intro s s' c repeating given
  obtain ⟨a, t, given, given'⟩ := gives_bind.mp given
  obtain rfl := unchanging.of_gives given
  apply (first t s' a repeating given).bind
  rintro b t' - ⟨same, rfl⟩
  exact rest a b same t t' c repeating given'

/-- What the tree of the first walk answers, the tree of the second one answers alike. -/
theorem rereads_ask {question : ScopeTree → Except ScopeTree.Fault α}
    {question' : ScopeTree → Except ScopeTree.Fault β}
    (answers : ∀ s s' a, Repeating run spot s s' → question s.tree = .ok a →
      ∃ b, question' s'.tree = .ok b ∧ alike a b) :
    Rereads run spot (Walk.ask question) (Walk.ask question') alike := by
  intro s s' a repeating given
  obtain ⟨b, answered, same⟩ := answers s s' a repeating (gives_ask.mp given).1
  exact arrives_ask answered ⟨same, rfl⟩

end Combining

/-! ### Actions that change the state -/

section Changes

variable {run : Rerun} {spot : Spot} {s t s' t' : AnalysisState}

theorem sameSymbols_preserved : Preserved SameSymbols Permit.noSymbols := by
  apply preserved_of_sameSymbols
  · exact fun r s t first rest => ⟨rest.scopes.trans first.scopes, rest.count.trans first.count,
      rest.modules.trans first.modules, rest.functions.trans first.functions,
      rest.structs.trans first.structs⟩
  · exact fun _ _ => id
  · exact fun _ _ _ _ _ _ impossible => impossible.elim
  · exact fun _ _ _ _ impossible => impossible.elim
  · exact fun _ _ _ _ _ impossible => impossible.elim

/-- Both walks note a token. -/
theorem follows_note (span : Span) (category : SemanticCategory) :
    Follows run spot (Walk.note span category) (Walk.note span category) fun _ _ => True where
  onward := onward_calm.keeps_note span category
  arrives := by
    intro s s' _ t repeating given onward
    have symbols : SameSymbols s t := (sameSymbols_preserved.keeps_note span category).of_gives given
    have passes := repeating.passes.still symbols onward
    obtain rfl := gives_modify.mp given
    have given' : Gives (Walk.note span category) s' () _ := gives_modify.mpr rfl
    apply arrives_of_gives given'
    exact ⟨trivial, { repeating with passes, noted := repeating.noted.note ⟨span, category⟩ rfl rfl }⟩

theorem follows_noteAll (path : List Token) (category : SemanticCategory) :
    Follows run spot (path.forM fun segment => Walk.note segment.span category)
      (path.forM fun segment => Walk.note segment.span category) fun _ _ => True :=
  follows_forM path fun _ _ => follows_note _ _

/-- The first walk declares a name, and the second one finds it declared. -/
theorem follows_addVariable (scope : ScopeId) (name : String) :
    Follows run spot (Walk.edit (ScopeTree.Edit.addVariable scope name))
      (Walk.edit (ScopeTree.Edit.addVariable scope name)) fun _ _ => True where
  onward := onward_calm.declare scope name trivial
  arrives := by
    intro s s' _ t repeating given onward
    have symbols : SameSymbols s t := (sameSymbols_preserved.declare scope name trivial).of_gives given
    have lasting := onward.grows.tree.declared _ _ (declares_of_addVariable given)
    have declared := (repeating.resembles.declares_iff scope name).mpr lasting
    have nothing := ScopeTree.runFrom_addVariable declared
    obtain ⟨tree, -, rfl⟩ := gives_edit.mp given
    apply arrives_of_gives (gives_edit.mpr ⟨s'.tree, nothing, rfl⟩)
    exact ⟨trivial, { repeating with passes := repeating.passes.still symbols onward }⟩

theorem follows_declare (scope : ScopeId) (category : SemanticCategory) (name : Token) :
    Follows run spot (Walk.declare scope category name) (Walk.declare scope category name)
      fun _ _ => True := by
  apply follows_bind (follows_addVariable scope name.text) fun _ => trivial
  exact fun _ _ _ => follows_note name.span category

theorem follows_declareAll (scope : ScopeId) (category : SemanticCategory) (names : List Token) :
    Follows run spot (names.forM (Walk.declare scope category))
      (names.forM (Walk.declare scope category)) fun _ _ => True :=
  follows_forM names fun name _ => follows_declare scope category name

theorem follows_declareOption (scope : ScopeId) (category : SemanticCategory) (name : Option Token) :
    Follows run spot (name.forM (Walk.declare scope category))
      (name.forM (Walk.declare scope category)) fun _ _ => True := by
  cases name with
  | none => exact follows_pure trivial
  | some name => exact follows_declare scope category name

/-- What is bound by a `let` does not depend on what is around it. -/
theorem follows_bindAll (context : Context) (enclosing : Option Enclosing) (names : List Token) :
    Follows run spot (names.forM (Walk.bind context))
      (names.forM (Walk.bind { context with enclosing })) fun _ _ => True := by
  apply follows_forM
  intro name _
  unfold Walk.bind
  split
  · exact follows_note _ _
  · exact follows_declare _ _ _

/-- A struct that the first walk registers stays as it is when the second one registers it. -/
theorem follows_registerStruct {access : Access} {name : Token} {declared parameters parameters' :
    List Parameter} {module : ModuleId}
    (lasts : run.base.KeepsStruct run.last.tree ⟨name.text, access, module, shapesOf declared⟩)
    (gone : GoneOver declared parameters) (shapes' : shapesOf parameters' = shapesOf declared) :
    Follows run spot
      (Walk.edit (ScopeTree.Edit.registerStruct { name := name.text, access, module, parameters }))
      (Walk.edit (ScopeTree.Edit.registerStruct
        { name := name.text, access, module, parameters := parameters' })) fun _ _ => True where
  onward := onward_calm.registerStruct access name parameters module trivial
  arrives := by
    intro s s' id t repeating given onward
    have kept := registers_registering repeating.passes.imports
    obtain ⟨registered, registers⟩ := kept.struct access name declared module parameters s id t lasts
      gone given repeating.passes.registered
    have passes := repeating.passes.on registered registers onward
    obtain ⟨lasting, named, shown⟩ := lasts.lasting
    apply unfailing_edit.arrives
    intro id' t' given'
    -- The first walk has declared the struct by its end, so the second one finds it and replaces it
    -- by its like.
    have named' : s'.tree.structNamed? module name.text = some lasting := by
      rw [ScopeTree.structNamed?, repeating.resembles.modules]
      exact named
    have tree := tree_of_edit given'
    rw [ScopeTree.Edit.state_registerStruct named'] at tree
    have resembles : run.last.tree.Resembles t'.tree := by
      rw [tree]
      apply repeating.resembles.replaceStruct
      rw [shown, ScriptStruct.signature, shapes']
    obtain ⟨_, -, rfl⟩ := gives_edit.mp given
    obtain ⟨_, -, rfl⟩ := gives_edit.mp given'
    exact ⟨trivial, { repeating with passes, resembles }⟩

end Changes

/-! ### Captured names -/

section Capturing

variable {run : Rerun} {spot : Spot} {s t s' t' : AnalysisState}

/-- Between the states, names may have come to be captured, and nothing else has changed. -/
structure Quiet (s t : AnalysisState) : Prop where
  onward : Onward s t
  symbols : SameSymbols s t
  grows : Grows (fun _ => False) s t
  count : t.closures.size = s.closures.size

/-- An action is quiet if it needs no more than that names may be captured. -/
theorem quiet_of_settled {α : Type} {action : Walk α}
    (keeps : ∀ (R : AnalysisState → AnalysisState → Prop) may, Settled R may → Keeps R action) :
    Keeps Quiet action := by
  intro s
  constructor
  · exact keeps _ _ onward_preserved.toSettled s
  · exact keeps _ _ sameSymbols_preserved.toSettled s
  · exact keeps _ _ (grows_preserved fun _ => False).toSettled s
  · exact keeps _ _ sameCount_settled s

/-- The walks stay together if nothing happens in them but that names are captured. -/
theorem Repeating.quiet (repeating : Repeating run spot s s') (first : Quiet s t)
    (second : Quiet s' t') (tokens : t.tokens = s.tokens) (tokens' : t'.tokens = s'.tokens)
    (onward : Onward t run.last) : Repeating run spot t t' where
  passes := repeating.passes.still first.symbols onward
  resembles := repeating.resembles.grown second.symbols second.grows
  linked := repeating.linked.kept first.onward.framesStay second.onward.framesStay
  fewer := by
    rw [first.count, second.count]
    exact repeating.fewer
  noted := repeating.noted.of_same tokens tokens'

theorem follows_of_quiet {α β : Type} {action : Walk α} {action' : Walk β}
    (first : Keeps Quiet action) (second : Keeps Quiet action') (silent : Silent action)
    (silent' : Silent action') (unfailing : Unfailing action') :
    Follows run spot action action' fun _ _ => True where
  onward s := (first s).onward
  arrives := by
    intro s s' _ t repeating given onward
    apply unfailing.arrives
    intro _ t' given'
    exact ⟨trivial, repeating.quiet (first.of_gives given) (second.of_gives given')
      (silent.of_gives given) (silent'.of_gives given') onward⟩

theorem quiet_captureName (context : Context) (name : String) :
    Keeps Quiet (Walk.captureName context name) :=
  quiet_of_settled fun _ _ settled => settled.keeps_captureName context name

/-- A variable that is seen is captured if no scope up to the body of the closure declares it. -/
theorem captured_of_unshadowed {context : Context} {name : String} {isCaptured : Bool}
    {id : ClosureId} {frame : ClosureFrame}
    (given : Gives (Walk.captureName context name) s isCaptured t)
    (enclosing : context.enclosing = some (.closure id))
    (framed : s.closures[id.index]? = some frame)
    (visible : s.tree.isVisible context.scope name = .ok true)
    (absent : s.tree.declaredBetween name context.scope frame.bodyScope = .ok false) :
    isCaptured = true := by
  unfold ScopeTree.isVisible at visible
  cases searched : s.tree.declaringScope context.scope name with
  | error fault => rw [searched] at visible; cases visible
  | ok found =>
  rw [searched, ok_bind] at visible
  obtain ⟨declaring, rfl⟩ := Option.isSome_iff_exists.mp (Except.ok.inj visible)
  -- The scope that declares it lies outside of the body.
  obtain ⟨declares, inside⟩ := ScopeTree.declares_of_declaringWithin searched
  have around := ScopeTree.around_of_declaredWithin absent inside declares
  obtain ⟨outside, parent, outward⟩ := Relation.TransGen.head'_iff.mp around
  rcases captureName_cases given with ⟨-, -, nothing⟩ | ⟨-, -, -, captured, -⟩
  case inr => exact captured
  obtain ⟨frame', framed', from_⟩ := nothing id enclosing
  obtain rfl := Option.some.inj (framed.symm.trans framed')
  rcases capturedFrom_cases from_ with ⟨outermost, -⟩ | ⟨outside', answer, parent', answered, rest⟩
  · rw [parent] at outermost
    cases outermost
  obtain rfl := Option.some.inj (parent.symm.trans parent')
  rcases rest with ⟨unseen, -⟩ | ⟨_, between, -, searched, same⟩
  · exact absurd unseen (ScopeTree.declaringWithin_ne_none answered outward declares)
  · rw [absent] at searched
    cases searched
    cases same

/-- Outside of closures nothing is captured. -/
theorem captured_of_outermost {context : Context} {name : String} {isCaptured : Bool}
    (given : Gives (Walk.captureName context name) s isCaptured t)
    (outermost : context.enclosing = none) : isCaptured = false := by
  rcases captureName_cases given with ⟨same, -⟩ | ⟨id, -, -, -, enclosing, -⟩
  · exact same
  · rw [outermost] at enclosing
    cases enclosing

/-- What the first walk sees, the second one sees. -/
theorem Repeating.isVisible {scope : ScopeId} {name : String} (repeating : Repeating run spot s s')
    (visible : s.tree.isVisible scope name = .ok true) : s'.tree.isVisible scope name = .ok true := by
  have onward := repeating.passes.onward
  rw [repeating.resembles.isVisible_eq]
  unfold ScopeTree.isVisible ScopeTree.declaringScope at visible ⊢
  rw [onward.places.count]
  cases searched : s.tree.declaringWithin name (s.tree.scopes.size + 1) scope with
  | error fault => rw [searched] at visible; cases visible
  | ok found =>
    rw [searched, ok_bind] at visible
    obtain ⟨declaring, rfl⟩ := Option.isSome_iff_exists.mp (Except.ok.inj visible)
    obtain ⟨declaring', found'⟩ := onward.grows.tree.declaringWithin onward.places.belongs searched
    rw [found']
    rfl

/-- In both walks a variable is captured, unless one has come to be declared between it and the body of
the closure. -/
theorem Repeating.captured_alike {context : Context} {name : String} {isCaptured isCaptured' : Bool}
    (repeating : Repeating run spot s s') (enclosing : context.enclosing = spot.first)
    (visible : s.tree.isVisible context.scope name = .ok true)
    (visible' : s'.tree.isVisible context.scope name = .ok true)
    (given : Gives (Walk.captureName context name) s isCaptured t)
    (given' : Gives (Walk.captureName { context with enclosing := spot.second } name) s' isCaptured' t') :
    (isCaptured' && run.last.tree.unshadowed spot.around (some context.scope) name) =
      (isCaptured && run.last.tree.unshadowed spot.around (some context.scope) name) := by
  have onward := repeating.passes.onward
  cases shown : run.last.tree.unshadowed spot.around (some context.scope) name with
  | false => rw [Bool.and_false, Bool.and_false]
  | true =>
    have linked := repeating.linked
    cases linked with
    | outermost =>
      rw [captured_of_outermost given enclosing, captured_of_outermost given' rfl]
    | @closure id id' frame frame' around found found' body outside =>
      have absent := ScopeTree.unshadowed_iff.mp shown
      -- What is not declared there in the end has not been declared there before.
      have before : s.tree.declaredBetween name context.scope frame.bodyScope = .ok false := by
        unfold ScopeTree.declaredBetween at absent ⊢
        rw [← onward.places.count]
        exact onward.grows.tree.declaredWithin onward.places.belongs absent
      have after : s'.tree.declaredBetween name context.scope frame'.bodyScope = .ok false := by
        rw [body, repeating.resembles.declaredBetween_eq]
        exact absent
      rw [captured_of_unshadowed given enclosing found visible before,
        captured_of_unshadowed given' rfl found' visible' after]

theorem follows_variableUse {context : Context} (enclosing : context.enclosing = spot.first)
    (name : Token) :
    Follows run spot (Walk.variableUse context name)
      (Walk.variableUse { context with enclosing := spot.second } name) fun kind kind' =>
        kind'.outline run.last.tree spot.around = kind.outline run.last.tree spot.around where
  onward := onward_preserved.toSettled.keeps_variableUse context name
  arrives := by
    intro s s' kind t repeating given onward
    rcases gives_variableUse.mp given with ⟨environment, rfl, noted⟩ |
      ⟨script, visible, isCaptured, u, rfl, caught, noted⟩
    · unfold Walk.variableUse
      rw [if_pos environment]
      apply ((follows_note _ _).arrives s s' () t repeating noted onward).bind
      rintro _ _ - ⟨-, repeating'⟩
      exact arrives_pure ⟨rfl, repeating'⟩
    -- What the first walk sees the second one sees, so neither refuses the name.
    · have visible' := repeating.isVisible visible
      have between : Onward u t := (onward_calm.keeps_note _ _).of_gives noted
      unfold Walk.variableUse
      rw [if_neg (by simp [script])]
      apply (arrives_ask visible' ⟨rfl, rfl⟩ : Arrives _ s' fun a t => a = true ∧ t = s').bind
      rintro _ _ - ⟨rfl, rfl⟩
      rw [if_neg (by simp)]
      apply (unfailing_captureName.arrives fun _ _ _ => trivial : Arrives _ _ fun _ _ => True).bind
      intro isCaptured' v' caught' _
      have same := repeating.captured_alike enclosing visible visible' caught caught'
      have repeating' : Repeating run spot u v' :=
        repeating.quiet ((quiet_captureName _ _).of_gives caught)
          ((quiet_captureName _ _).of_gives caught') ((silent_captureName _ _).of_gives caught)
          ((silent_captureName _ _).of_gives caught') (onward_calm.trans _ _ _ between onward)
      apply ((follows_note _ _).arrives u v' () t repeating' noted onward).bind
      rintro _ _ - ⟨-, repeating''⟩
      apply arrives_pure
      simp only [ExprKind.outline, same]
      exact ⟨trivial, repeating''⟩

end Capturing
end ShellSema
