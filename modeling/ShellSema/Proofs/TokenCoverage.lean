import ShellSema.Proofs.Leaves
import ShellSema.Proofs.Noting

/-!
# Semantic tokens cover the source

The semantic tokens of a module stand where the tokens of its source stand: every token of the source
is noted once, whatever it turned out to be, and what the analysis makes up is not noted. They come in
the order of the source.
-/
namespace ShellSema

/-! ### The walk over an expression -/

/-- At a function that has not been met, its own tokens are noted and what its parts are worth. -/
theorem Plan.noted_of_function {worth : Expr → Multiset Span} {context : Context} {slot : Slot}
    {span : Span} {access : Access} {name : Token} {parameters : List Parameter} {body r : Expr}
    {module : ModuleId} {takesClosure : Bool} {id : FunctionId} {s t : AnalysisState}
    (pending : ∀ f, s.tree.function id = .ok f → ¬ f.status ≠ .pending)
    (given : Gives (node context slot span
      (.functionDecl access name parameters body module takesClosure id)).run s r t)
    (visits : ∀ v r t, (node context slot span
        (.functionDecl access name parameters body module takesClosure id)).Enters s v →
      v.Gives r t → t.noted? = v.before.noted?.map (· + worth v.source)) :
    t.noted? = s.noted?.map (· + (places (name :: parameters.map (·.name)) +
      ((parameters.flatMap Parameter.children ++ [body]).map worth).sum)) := by
  simp only [node, enters_bind, enters_lift, false_or, run_bind, run_lift] at given visits
  obtain ⟨f, _, asked, rest⟩ := gives_bind.mp given
  obtain ⟨found, rfl⟩ := gives_ask.mp asked
  rw [if_neg (pending f found)] at rest
  have noted := (notes_unmet ..).of_gives rest fun v r' t' entered left =>
    visits v r' t' ⟨f, _, asked, by rwa [if_neg (pending f found)]⟩ left
  simpa [add_assoc] using noted

/-- A function that has been met notes nothing, and any other one its own tokens and what its parts are
worth. -/
theorem Plan.noted_within_function {worth : Expr → Multiset Span} {context : Context} {slot : Slot}
    {span : Span} {access : Access} {name : Token} {parameters : List Parameter} {body r : Expr}
    {module : ModuleId} {takesClosure : Bool} {id : FunctionId} {s t : AnalysisState}
    (given : Gives (node context slot span
      (.functionDecl access name parameters body module takesClosure id)).run s r t)
    (visits : ∀ v r t, (node context slot span
        (.functionDecl access name parameters body module takesClosure id)).Enters s v →
      v.Gives r t → ∃ own ≤ worth v.source, t.noted? = v.before.noted?.map (· + own)) :
    ∃ own ≤ places (name :: parameters.map (·.name)) +
        ((parameters.flatMap Parameter.children ++ [body]).map worth).sum,
      t.noted? = s.noted?.map (· + own) := by
  simp only [node, enters_bind, enters_lift, false_or, run_bind, run_lift] at given visits
  obtain ⟨f, _, asked, rest⟩ := gives_bind.mp given
  obtain ⟨found, rfl⟩ := gives_ask.mp asked
  by_cases met : f.status ≠ .pending
  · rw [if_pos met] at rest
    obtain ⟨-, rfl⟩ := gives_pure.mp rest
    exact ⟨0, Multiset.zero_le _, by simp⟩
  · rw [if_neg met] at rest
    have noted := (notes_unmet ..).at_most rest fun v r' t' entered left =>
      visits v r' t' ⟨f, _, asked, by rwa [if_neg met]⟩ left
    simpa [add_assoc] using noted

namespace Visit

variable {v : Visit}

/-- A walk that does not halt notes each token of its tree once, if no function in it has been met
before and nothing is piped into its calls. -/
theorem noted_of_gives {r : Expr} {t : AnalysisState} (fresh : v.Fresh)
    (unpiped : ∀ n ∈ v.source.nodes, ∀ made, n.kind = .call made → made.piped = none)
    (given : v.Gives r t) : t.noted? = v.before.noted?.map (· + places v.source.tokens) := by
  induction source : v.source using Expr.induction generalizing v r t with
  | inherited e ih =>
    subst source
    have visits (w : Visit) (r : Expr) (t : AnalysisState) (entered : v.Enters w)
        (left : w.Gives r t) : t.noted? = w.before.noted?.map (· + places w.source.tokens) := by
      have child := mem_children_of_enters entered
      refine ih w.source child (fresh.enters entered) (fun n inside => ?_) left rfl
      exact unpiped n (Expr.mem_nodes_of_child child inside)
    obtain ⟨admitted, made, carried, -⟩ := gives_iff.mp given
    rw [Expr.tokens_eq, places_append, places_flatMap]
    by_cases function : v.source.kindName = "function"
    · obtain ⟨access, name, parameters, body, module, takesClosure, id, kind⟩ :=
        Expr.function_of_kindName function
      simp only [plan, kind] at carried
      simp only [Expr.children, kind]
      refine Plan.noted_of_function (fun f found met => ?_) carried fun w r t entered left =>
        visits w r t ⟨admitted, ?_⟩ left
      · exact fresh.not_skips ⟨_, _, _, _, _, _, _, f, kind, found, met⟩
      · rwa [plan, kind]
    · have notes : v.plan.Notes (places ·.tokens) _ := Plan.notes_node v.context v.slot v.source.span
        function fun made kind => unpiped v.source v.source.mem_nodes_self made kind
      exact notes.of_gives carried fun w r t entered left => visits w r t ⟨admitted, entered⟩ left

/-- Whatever has been met before, a walk that does not halt notes each token of its tree once at most. -/
theorem noted_at_most {r : Expr} {t : AnalysisState} (given : v.Gives r t) :
    ∃ own ≤ places v.source.tokens, t.noted? = v.before.noted?.map (· + own) := by
  induction source : v.source using Expr.induction generalizing v r t with
  | inherited e ih =>
    subst source
    have visits (w : Visit) (r : Expr) (t : AnalysisState) (entered : v.Enters w)
        (left : w.Gives r t) : ∃ own ≤ places w.source.tokens, t.noted? = w.before.noted?.map (· + own) :=
      ih w.source (mem_children_of_enters entered) left rfl
    obtain ⟨admitted, made, carried, -⟩ := gives_iff.mp given
    rw [Expr.tokens_eq, places_append, places_flatMap]
    -- Whether a function has been met before is read off the state, so it has a rule of its own.
    by_cases function : v.source.kindName = "function"
    · obtain ⟨access, name, parameters, body, module, takesClosure, id, kind⟩ :=
        Expr.function_of_kindName function
      simp only [plan, kind] at carried
      simp only [Expr.children, kind]
      refine Plan.noted_within_function carried fun w r t entered left => visits w r t ⟨admitted, ?_⟩ left
      rwa [plan, kind]
    · obtain ⟨spans, less, notes⟩ : ∃ spans ≤ _, v.plan.Notes (places ·.tokens) spans :=
        Plan.notes_node_within v.context v.slot v.source.span function
      obtain ⟨own, within, noted⟩ := Plan.Notes.at_most notes carried fun w r t entered left =>
        visits w r t ⟨admitted, entered⟩ left
      exact ⟨own, within.trans less, noted⟩

end Visit

/-! ### The order of semantic tokens -/

namespace SemanticToken

/-- The first token starts before the second, or they start together and the first ends no later. -/
def Precedes (a b : SemanticToken) : Prop :=
  a.span.start.offset < b.span.start.offset ∨
    a.span.start.offset = b.span.start.offset ∧ a.span.stop.offset ≤ b.span.stop.offset

theorem notAfter_iff {a b : SemanticToken} : a.notAfter b = true ↔ a.Precedes b := by
  simp [notAfter, Precedes]

theorem Precedes.trans {a b c : SemanticToken} (first : a.Precedes b) (rest : b.Precedes c) :
    a.Precedes c := by
  rcases first with first | ⟨same, first⟩ <;> rcases rest with rest | ⟨same', rest⟩
  · exact .inl (UInt64.lt_trans first rest)
  · exact .inl (same' ▸ first)
  · exact .inl (same ▸ rest)
  · exact .inr ⟨same.trans same', UInt64.le_trans first rest⟩

theorem precedes_total (a b : SemanticToken) : a.Precedes b ∨ b.Precedes a := by
  by_cases less : a.span.start.offset < b.span.start.offset
  · exact .inl (.inl less)
  by_cases more : b.span.start.offset < a.span.start.offset
  · exact .inr (.inl more)
  have same : a.span.start.offset = b.span.start.offset :=
    UInt64.le_antisymm (UInt64.not_lt.mp more) (UInt64.not_lt.mp less)
  rcases UInt64.le_total a.span.stop.offset b.span.stop.offset with less | more
  · exact .inl (.inr ⟨same, less⟩)
  · exact .inr (.inr ⟨same.symm, more⟩)

theorem sorted_ordered (tokens : List SemanticToken) : (sorted tokens).Pairwise Precedes := by
  have transitive (a b c : SemanticToken) (first : a.notAfter b) (rest : b.notAfter c) :
      a.notAfter c := by
    rw [notAfter_iff] at first rest ⊢
    exact first.trans rest
  have total (a b : SemanticToken) : a.notAfter b || b.notAfter a := by
    simpa [notAfter_iff] using precedes_total a b
  exact (List.pairwise_mergeSort transitive total tokens).imp notAfter_iff.mp

end SemanticToken

/-! ### The semantic tokens of a module -/

namespace Analysis

variable {registry : Registry} {module : ModuleId} {ast : Ast}

theorem silent_resolveImports (module : ModuleId) : Silent (Walk.resolveImports module) :=
  keeps_resolveImports (fun _ => rfl) (fun _ _ _ one two => two.trans one) fun change _ =>
    silent_edit (ScopeTree.Edit.changeModule module change)

/-- What an analysis that succeeds has noted. -/
theorem noted_of_moduleWalk {s t : AnalysisState} {analysed : Ast}
    (unpiped : ∀ n ∈ ast.nodes, ∀ made, n.kind = .call made → made.piped = none)
    (once : ast.functionIds.Nodup) (awaits : s.tree.Awaits ast.functionIds)
    (given : Gives (moduleWalk registry .overwrite module ast) s analysed t) :
    t.noted? = s.noted?.map (· + places ast.tokens) := by
  obtain ⟨context, start, u, begins, walked, last⟩ := begins_of_gives given
  obtain ⟨-, rfl⟩ := gives_pure.mp last
  have quiet : start.tokens = s.tokens :=
    begins.keeps (fun _ _ _ one two => two.trans one) (silent_edit _) (silent_resolveImports module)
  have notes : (Plan.each context Expr.slot ast.expressions).Notes (places ·.tokens) _ :=
    Plan.notes_each ..
  have noted := notes.of_gives walked fun v r t' entered left => by
    have visited : Visited registry module ast s v := ⟨context, start, v, begins, entered, .refl⟩
    refine Visit.noted_of_gives (visited.fresh once awaits) (fun n inside => ?_) left
    have member := (Plan.follows_each ..).mem_of_enters entered
    exact unpiped n (Ast.mem_nodes.mpr ⟨v.source, member, inside⟩)
  rw [noted, Ast.tokens_eq, places_flatMap]
  simp [AnalysisState.noted?, quiet]

/-- The semantic tokens are what the analysis has noted, sorted. -/
theorem semanticTokens_result {tree : ScopeTree} {analysed : Ast} {t : AnalysisState}
    (given : Gives (moduleWalk registry .overwrite module ast) { tree, tokens := some #[] } analysed
      t) :
    (semanticTokens registry tree module ast).result =
      .ok (SemanticToken.sorted (t.tokens.getD #[]).toList) := by
  have ended : (moduleWalk registry .overwrite module ast).run { tree, tokens := some #[] } =
      (.ok analysed, t) := given
  simp [semanticTokens, ended, Except.map]

theorem gives_of_semanticTokens {tree : ScopeTree} {tokens : List SemanticToken}
    (given : (semanticTokens registry tree module ast).result = .ok tokens) :
    ∃ analysed t, Gives (moduleWalk registry .overwrite module ast) { tree, tokens := some #[] }
      analysed t := by
  unfold semanticTokens at given
  rcases ended : (moduleWalk registry .overwrite module ast).run { tree, tokens := some #[] } with
    ⟨_ | analysed, t⟩
  · simp [ended, Except.map] at given
  · exact ⟨analysed, t, ended⟩

/-- If a module is analysed for its semantic tokens and no error is found, the tokens stand exactly
where the tokens of its source stand, and they come in the order of the source. Nothing is piped into
a call beforehand, and no function is declared twice or has been met before. -/
theorem semanticTokens_cover (registry : Registry) (tree : ScopeTree) (module : ModuleId) {ast : Ast}
    {tokens : List SemanticToken}
    (unpiped : ∀ n ∈ ast.nodes, ∀ made, n.kind = .call made → made.piped = none)
    (once : ast.functionIds.Nodup) (awaits : tree.Awaits ast.functionIds)
    (given : (semanticTokens registry tree module ast).result = .ok tokens) :
    (tokens.map (·.span)).Perm (ast.tokens.map (·.span)) ∧
      tokens.Pairwise SemanticToken.Precedes := by
  obtain ⟨analysed, t, walked⟩ := gives_of_semanticTokens given
  have noted := noted_of_moduleWalk unpiped once awaits walked
  rw [semanticTokens_result walked, Except.ok.injEq] at given
  subst given
  constructor
  · cases kept : t.tokens with
    | none => simp [AnalysisState.noted?, kept] at noted
    | some array =>
      have same : (array.toList.map (·.span)).Perm (ast.tokens.map (·.span)) := by
        simpa [AnalysisState.noted?, kept, places] using noted
      exact ((List.mergeSort_perm _ _).map _).trans same
  · exact SemanticToken.sorted_ordered _

/-- A token that stands at an offset of the source. -/
def tokenAt (offset : UInt64) (text : String) (kind : TokenKind := .identifier) : Token :=
  ⟨kind, text, ⟨{ offset }, { offset := offset + UInt64.ofNat text.length }⟩⟩

/-- A script whose tokens are noted in another order than that of the source: a name is bound after its
value, and a field is noted after its object. A shell fragment is piped into a program in a function,
and a closure refers to a function by its name alone. -/
def coloured : Ast :=
  ⟨[.fresh (.letIn [tokenAt 4 "x"] (.fresh (.literal (tokenAt 8 "1" .integer) none)) none),
    .fresh (.functionDecl .restricted (tokenAt 13 "f") [⟨tokenAt 15 "p", none, false⟩]
      (Build.blockOf .function ⟨1⟩ [
        Build.pipe (.fresh (.literal (tokenAt 20 "$:ls" .shellFragment) none))
          (.fresh (.call (.plain (tokenAt 27 "grep") [] [.fresh (.variableRef (tokenAt 32 "p") none
            false)])))])
      ⟨0⟩ false ⟨0⟩),
    .fresh (.closure (.fresh (.call (.plain (tokenAt 37 "reduce") [] [.fresh (.fieldAccess
        (.fresh (.variableRef (tokenAt 44 "x") none false)) (tokenAt 46 "y") none)]))) []
      (Build.block ⟨2⟩ [.fresh (.call { Call.plain (tokenAt 51 "len") [] [] with
        mode := { isReference := true } })]) {} none)]⟩

def colouredScopes : ScopeTree :=
  { ScopeTree.ofRoot "main" with
    scopes := #[⟨none, ⟨0⟩, {}⟩, ⟨some ⟨0⟩, ⟨0⟩, {}⟩, ⟨some ⟨0⟩, ⟨0⟩, {}⟩]
    functions := #[{ name := "f", access := .restricted, module := ⟨0⟩ }] }

/-- What stands at the places of that script, in the order in which it is noted. -/
def colours : List (UInt64 × String) :=
  [(8, "number"), (4, "variable"), (13, "function"), (15, "parameter"), (20, "program"),
    (27, "program"), (32, "variable"), (37, "std_function"), (44, "variable"), (46, "property"),
    (51, "std_function")]

def colour (token : SemanticToken) : UInt64 × String :=
  (token.span.start.offset, token.category.tag)

/-- The tokens of that script are those of its source, in their order. -/
theorem semanticTokens_cover_coloured :
    ∃ tokens, (semanticTokens (Standard.registerGlobals {}).toRegistry colouredScopes ⟨0⟩
        coloured).result = .ok tokens ∧
      (tokens.map colour).Perm colours ∧
      (tokens.map (·.span)).Perm (coloured.tokens.map (·.span)) ∧
      tokens.Pairwise SemanticToken.Precedes := by
  have ends : endsWith (moduleWalk (Standard.registerGlobals {}).toRegistry .overwrite ⟨0⟩ coloured)
      { tree := colouredScopes, tokens := some #[] } (fun _ t =>
        decide ((t.tokens.getD #[]).toList.map colour = colours)) = true := by
    decide +kernel
  have unpiped : (coloured.nodes.any isPiped) = false := by decide +kernel
  have declared : coloured.functionIds = [⟨0⟩] := by decide +kernel
  have awaits : colouredScopes.Awaits coloured.functionIds := by decide +kernel
  obtain ⟨analysed, t, ended, noted⟩ := gives_of_endsWith ends
  have result := semanticTokens_result ended
  refine ⟨_, result, ?_, ?_⟩
  · rw [← of_decide_eq_true noted]
    exact (List.mergeSort_perm _ _).map _
  refine semanticTokens_cover _ _ _ (fun n inside made kind => ?_) (by simp [declared]) awaits result
  have checked := List.any_eq_false.mp unpiped n inside
  simpa [isPiped, kind] using checked

end Analysis
end ShellSema
