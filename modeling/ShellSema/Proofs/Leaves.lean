import ShellSema.Library.Standard
import ShellSema.Proofs.Moments
import ShellSema.Syntax.Build

/-!
# The words of a script stay in their order

The words that a script is made of are the tokens of its literals, variables and type names. A walk
moves the left side of a pipe into a call, and makes two arguments of a shell fragment, but whoever
reads the tree that comes out meets the same words in the same order. Only the arguments that are
made up for bare references come in between.
-/
namespace ShellSema

/-! ### Words -/

/-- The word at a literal, a variable or a type name. -/
def Expr.word? (e : Expr) : Option Token :=
  match e.kind with
  | .literal token _ => some token
  | .variableRef name _ _ => some name
  | .typeRef name _ => some name
  | _ => none

/-- The words of a tree, in the order in which its nodes are met. -/
def Expr.words (e : Expr) : List Token := e.nodes.filterMap Expr.word?

def Ast.words (ast : Ast) : List Token := ast.nodes.filterMap Expr.word?

/-- The words that a literal is given as: a shell fragment is given as the arguments of `bash`. -/
def Token.givenAs (token : Token) : List Token :=
  match token.meaning with
  | .shellFragment code =>
    [⟨.singleQuoted, "-c", token.span⟩, ⟨.singleQuoted, code, token.span⟩]
  | _ => [token]

/-- The words that a node itself is given as. -/
def Expr.givenAs (e : Expr) : List Token :=
  match e.kind with
  | .literal token _ => token.givenAs
  | _ => e.word?.toList

/-- The words of a tree, each literal as it is given. -/
def Expr.given (e : Expr) : List Token := e.nodes.flatMap Expr.givenAs

def Ast.given (ast : Ast) : List Token := ast.nodes.flatMap Expr.givenAs

/-- A word of an analysed tree, which is written in the script or made up. -/
structure Word where
  token : Token
  isMadeUp : Bool
deriving DecidableEq, Repr

/-- The words that are written in the script. -/
def writtenOf (words : List Word) : List Token :=
  (words.filter fun word => !word.isMadeUp).map Word.token

theorem Expr.words_eq (e : Expr) : e.words = e.word?.toList ++ e.children.flatMap Expr.words := by
  unfold words
  rw [Expr.nodes_eq, List.filterMap_cons, List.filterMap_flatMap]
  cases e.word? <;> rfl

theorem Expr.given_eq (e : Expr) : e.given = e.givenAs ++ e.children.flatMap Expr.given := by
  unfold given
  rw [Expr.nodes_eq, List.flatMap_cons, List.flatMap_assoc]

theorem Ast.words_eq (ast : Ast) : ast.words = ast.expressions.flatMap Expr.words := by
  rw [words, Ast.nodes, nodesOfAll_eq, List.filterMap_flatMap]
  rfl

theorem Ast.given_eq (ast : Ast) : ast.given = ast.expressions.flatMap Expr.given := by
  rw [given, Ast.nodes, nodesOfAll_eq, List.flatMap_assoc]
  rfl

theorem writtenOf_append (first rest : List Word) :
    writtenOf (first ++ rest) = writtenOf first ++ writtenOf rest := by
  simp [writtenOf]

/-! ### Reading an analysed tree -/

/-- The visit gives a closure on a call. The walk over the body has left the first body, and the
second one stands in the closure. -/
structure Visit.Closes (v : Visit) (r call body body' : Expr) (parameters : List Token)
    (id : ClosureId) (scope : ScopeId) : Prop where
  given : ∃ t, v.Gives r t
  walked : ∃ attached written block captured old,
    v.source.kind = .closure attached written block captured old ∧
      block.blockScope? = some scope ∧
      v.Part { v.context with enclosing := some (.closure id) } block body
  kind : ∃ captured, r.kind = .closure call parameters body' captured (some id)

theorem Visit.Closes.kindName {v : Visit} {r call body body' : Expr} {parameters : List Token}
    {id : ClosureId} {scope : ScopeId} (closes : v.Closes r call body body' parameters id scope) :
    r.kindName = "closure" := by
  obtain ⟨captured, kind⟩ := closes.kind
  simp [Expr.kindName, ExprKind.name, kind]

/-- The words that are met in an analysed tree, in their order. Made up are those before the
arguments of a call that was a bare reference when the walk over the body of a closure left it. -/
inductive Expr.Reads (visited : Visit → Prop) : Expr → List Word → Prop where
  | node {r : Expr} {parts : List (List Word)} (other : r.kindName ≠ "closure")
      (children : List.Forall₂ (Reads visited) r.children parts) :
      Reads visited r (r.word?.toList.map (⟨·, false⟩) ++ parts.flatten)
  | closure {v : Visit} {r call body : Expr} {parameters : List Token} {id : ClosureId}
      {scope : ScopeId} {first last : List Word} (reached : visited v)
      (closes : v.Closes r call body body parameters id scope)
      (plain : Walk.reference? body = none) (called : Reads visited call first)
      (inside : Reads visited body last) : Reads visited r (first ++ last)
  | expanded {v : Visit} {r call body e : Expr} {reference : Call} {parameters : List Token}
      {id : ClosureId} {scope : ScopeId} {first : List Word} {before after : List (List Word)}
      (reached : visited v)
      (closes : v.Closes r call body (Walk.replaceOnly body
        { e with kind := .call (Walk.expandedCall id scope parameters reference) }) parameters id
        scope)
      (bare : Walk.reference? body = some (e, reference)) (called : Reads visited call first)
      (piped : List.Forall₂ (Reads visited) reference.piped.toList before)
      (others : List.Forall₂ (Reads visited)
        (reference.arguments ++ reference.environment.map Prod.snd) after) :
      Reads visited r
        (first ++ (before.flatten ++ (parameters.map (⟨·, true⟩) ++ after.flatten)))

/-! ### All words are read -/

theorem Expr.words_implied (id : ClosureId) (scope : ScopeId) (parameter : Token) :
    (Walk.impliedArgument id scope parameter).words = [parameter] := by
  rw [words_eq]
  rfl

/-- The words of a body after a reference in it is expanded. -/
theorem Expr.words_expanded {body e : Expr} {reference : Call} (id : ClosureId) (scope : ScopeId)
    (parameters : List Token) (bare : Walk.reference? body = some (e, reference)) :
    (Walk.replaceOnly body
      { e with kind := .call (Walk.expandedCall id scope parameters reference) }).words =
      reference.piped.toList.flatMap words ++ (parameters ++
        (reference.arguments ++ reference.environment.map Prod.snd).flatMap words) := by
  obtain ⟨⟨role, blockScope, block⟩, -, -⟩ := reference?_eq_some bare
  have implied : (parameters.map (Walk.impliedArgument id scope)).flatMap words = parameters := by
    rw [List.flatMap_map]
    simp [words_implied]
  rw [words_eq]
  simp only [Walk.replaceOnly, block, word?, children, ExprKind.children, Option.toList_none,
    List.nil_append, List.flatMap_cons, List.flatMap_nil, List.append_nil]
  rw [words_eq]
  simp only [word?, children, ExprKind.children, Call.children, Walk.expandedCall,
    Option.toList_none, List.nil_append, List.flatMap_append, List.append_assoc, implied]

/-- The parts of the reference are below the body that it is expanded in. -/
theorem Expr.length_nodes_expanded {body e c : Expr} {reference : Call} (id : ClosureId)
    (scope : ScopeId) (parameters : List Token)
    (bare : Walk.reference? body = some (e, reference)) (part : c ∈ reference.children) :
    c.nodes.length < (Walk.replaceOnly body
      { e with kind := .call (Walk.expandedCall id scope parameters reference) }).nodes.length := by
  obtain ⟨⟨role, blockScope, block⟩, -, -⟩ := reference?_eq_some bare
  have inner : c.nodes.length < (Expr.nodes
      { e with kind := .call (Walk.expandedCall id scope parameters reference) }).length := by
    apply Expr.length_nodes_lt
    simp only [Call.children, List.mem_append] at part
    simp only [children, ExprKind.children, Call.children, Walk.expandedCall, List.mem_append]
    tauto
  refine Nat.lt_trans inner (Expr.length_nodes_lt ?_)
  simp [Walk.replaceOnly, block, children, ExprKind.children]

/-- No word of the tree is left out, and no other word is read. -/
theorem Expr.Reads.words {visited : Visit → Prop} {e : Expr} {words : List Word}
    (reads : e.Reads visited words) : words.map Word.token = e.words := by
  -- The parts of an expanded reference are no children of the closure, so the induction is on the size.
  induction size : e.nodes.length using Nat.strongRecOn generalizing e words with
  | ind n ih =>
    subst size
    have each {es : List Expr} {parts : List (List Word)}
        (smaller : ∀ c ∈ es, c.nodes.length < e.nodes.length)
        (read : List.Forall₂ (Reads visited) es parts) :
        parts.flatten.map Word.token = es.flatMap Expr.words := by
      induction read with
      | nil => rfl
      | @cons c part cs parts first _ others =>
        have here := ih _ (smaller c List.mem_cons_self) first rfl
        have there := others fun c member => smaller c (List.mem_cons_of_mem _ member)
        simp [here, there]
    cases reads with
    | node other children =>
      have below := each (fun c child => Expr.length_nodes_lt child) children
      rw [Expr.words_eq, List.map_append, below, List.map_map]
      congr 1
      cases e.word? <;> rfl
    | @closure v _ call body parameters id scope first last reached closes plain called inside =>
      obtain ⟨captured, kind⟩ := closes.kind
      have children : e.children = [call, body] := by simp [Expr.children, ExprKind.children, kind]
      have words : e.words = call.words ++ body.words := by
        rw [Expr.words_eq, children]
        simp [word?, kind]
      have smaller (c : Expr) (child : c ∈ [call, body]) : c.nodes.length < e.nodes.length :=
        Expr.length_nodes_lt (children ▸ child)
      rw [List.map_append, ih _ (smaller call (by simp)) called rfl,
        ih _ (smaller body (by simp)) inside rfl, words]
    | @expanded v _ call body c reference parameters id scope first before after reached closes bare
        called piped others =>
      obtain ⟨captured, kind⟩ := closes.kind
      have children : e.children = [call, Walk.replaceOnly body
          { c with kind := .call (Walk.expandedCall id scope parameters reference) }] := by
        simp [Expr.children, ExprKind.children, kind]
      have words : e.words = call.words ++ (Walk.replaceOnly body
          { c with kind := .call (Walk.expandedCall id scope parameters reference) }).words := by
        rw [Expr.words_eq, children]
        simp [word?, kind]
      -- They are below the body all the same.
      have smaller (part : Expr) (member : part ∈ reference.children) :
          part.nodes.length < e.nodes.length :=
        Nat.lt_trans (Expr.length_nodes_expanded id scope parameters bare member)
          (Expr.length_nodes_lt (by simp [children]))
      have here := ih _ (Expr.length_nodes_lt (by simp [children])) called rfl
      have ahead := each (fun part member => smaller part (by simp [Call.children, member])) piped
      have behind := each (fun part member => smaller part (by
        simp only [Call.children, List.append_assoc]
        exact List.mem_append_right _ member)) others
      rw [words, Expr.words_expanded id scope parameters bare]
      simp [here, ahead, behind, Function.comp_def]

/-! ### What visits make of words -/

theorem Expr.word?_mapCall (change : Call → Call) (e : Expr) : (e.mapCall change).word? = e.word? := by
  unfold mapCall
  split
  next made kind => simp [word?, kind]
  next => rfl

/-- A literal, a variable and a type name keep their word, and no other node gets one. -/
theorem Visit.word?_of_gives {v : Visit} {r : Expr} {t : AnalysisState} (given : v.Gives r t)
    (pipe : v.source.isPipe = false) (literal : v.source.kindName ≠ "literal") :
    r.word?.toList = v.source.givenAs := by
  -- Only these three kinds have a word of their own.
  have silent {e : Expr} (other : e.kindName ∉ ["literal", "variable", "type"]) : e.word? = none := by
    unfold Expr.word?
    split
    all_goals
      next kind => first
        | rfl
        | simp [Expr.kindName, ExprKind.name, kind] at other
  cases kind : v.source.kind
  case literal => simp [Expr.kindName, ExprKind.name, kind] at literal
  case variableRef name old flag =>
    obtain ⟨scope, isCaptured, same⟩ := gives_variableUse_kind (variable_of_gives kind given)
    simp [Expr.word?, Expr.givenAs, kind, same]
  case typeRef name old =>
    obtain ⟨target, -, -, same⟩ := typeRef_of_gives kind given
    simp [Expr.word?, Expr.givenAs, kind, same]
  case' sequence form items => cases form
  all_goals
    have named : v.source.kindName ∉ ["literal", "variable", "type"] := by
      simp [Expr.kindName, ExprKind.name, Sequence.name, kind]
    have same : r.word? = none := silent (kindName_of_gives given pipe literal ▸ named)
    rw [same]
    simp [Expr.givenAs, Expr.word?, kind]

section Reading

variable {visited : Visit → Prop}

theorem words_of_parts {es : List Expr} {parts : List (List Word)}
    (all : List.Forall₂ (Expr.Reads visited) es parts) :
    parts.flatten.map Word.token = es.flatMap Expr.words := by
  induction all with
  | nil => rfl
  | cons reads _ ih => rw [List.flatten_cons, List.map_append, reads.words, ih, List.flatMap_cons]

theorem Expr.Reads.mapCall {change : Call → Call} (only : Call.OnlyMode change) {e : Expr}
    {words : List Word} (reads : e.Reads visited words) : (e.mapCall change).Reads visited words := by
  by_cases call : e.kindName = "call"
  · cases reads with
    | node other children =>
      rw [← Expr.word?_mapCall change e]
      refine .node ?_ (Expr.children_mapCall only e ▸ children)
      rwa [Expr.kindName_mapCall]
    | closure _ closes => exact absurd (call.symm.trans closes.kindName) (by decide)
    | expanded _ closes => exact absurd (call.symm.trans closes.kindName) (by decide)
  · rwa [Expr.mapCall_of_name call]

/-- The words that are read in the expression and were written in the script. -/
def Expr.Tells (visited : Visit → Prop) (e : Expr) (words : List Token) : Prop :=
  ∃ read, e.Reads visited read ∧ writtenOf read = words

/-- The written words of expressions, one after the other. -/
def TellsAll (visited : Visit → Prop) (es : List Expr) (words : List Token) : Prop :=
  ∃ parts, List.Forall₂ (Expr.Reads visited) es parts ∧ writtenOf parts.flatten = words

theorem tellsAll_nil : TellsAll visited [] [] := ⟨[], .nil, rfl⟩

theorem tellsAll_cons {e : Expr} {es : List Expr} {first rest : List Token}
    (here : e.Tells visited first) (others : TellsAll visited es rest) :
    TellsAll visited (e :: es) (first ++ rest) := by
  obtain ⟨read, reads, rfl⟩ := here
  obtain ⟨parts, all, rfl⟩ := others
  exact ⟨read :: parts, .cons reads all, by rw [List.flatten_cons, writtenOf_append]⟩

theorem tellsAll_append {es fs : List Expr} {first rest : List Token}
    (ahead : TellsAll visited es first) (behind : TellsAll visited fs rest) :
    TellsAll visited (es ++ fs) (first ++ rest) := by
  obtain ⟨parts, all, rfl⟩ := ahead
  obtain ⟨parts', all', rfl⟩ := behind
  exact ⟨parts ++ parts', List.rel_append all all', by rw [List.flatten_append, writtenOf_append]⟩

theorem tellsAll_of_forall₂ {R : Expr → Expr → Prop} {es rs : List Expr}
    (related : List.Forall₂ R es rs) (each : ∀ e r, R e r → r.Tells visited e.given) :
    TellsAll visited rs (es.flatMap Expr.given) := by
  induction related with
  | nil => exact tellsAll_nil
  | cons first _ ih => exact tellsAll_cons (each _ _ first) ih

theorem tellsAll_map {change : Call → Call} (only : Call.OnlyMode change) {es : List Expr}
    {words : List Token} (tells : TellsAll visited es words) :
    TellsAll visited (es.map (Expr.mapCall change)) words := by
  obtain ⟨parts, all, rfl⟩ := tells
  refine ⟨parts, ?_, rfl⟩
  rw [List.forall₂_map_left_iff]
  exact all.imp fun _ _ reads => reads.mapCall only

/-- A node other than a closure tells its own word, and then what its parts tell. -/
theorem tells_node {r : Expr} {words : List Token} (other : r.kindName ≠ "closure")
    (parts : TellsAll visited r.children words) : r.Tells visited (r.word?.toList ++ words) := by
  obtain ⟨parts, all, rfl⟩ := parts
  refine ⟨_, .node other all, ?_⟩
  rw [writtenOf_append]
  congr 1
  cases r.word? <;> rfl

theorem tells_leaf {r : Expr} (other : r.kindName ≠ "closure") (leaf : r.children = []) :
    r.Tells visited r.word?.toList := by
  have none : TellsAll visited r.children [] := leaf ▸ tellsAll_nil
  exact List.append_nil r.word?.toList ▸ tells_node other none

/-- The left side of a pipe comes first, whether a program reads it or it is an argument. -/
theorem tellsAll_placePiped {callee : Callee} {piped : Option Expr} {arguments : List Expr}
    {left words : List Token} (attached : TellsAll visited piped.toList left)
    (rest : TellsAll visited arguments words) :
    TellsAll visited ((Walk.placePiped callee piped arguments).2.toList ++
      Walk.holdProcesses callee (Walk.placePiped callee piped arguments).1) (left ++ words) := by
  have held {es : List Expr} {words : List Token} (tells : TellsAll visited es words) :
      TellsAll visited (Walk.holdProcesses callee es) words := by
    obtain ⟨change, only, same⟩ := Walk.holdProcesses_eq callee es
    rw [same]
    exact tellsAll_map only tells
  cases piped with
  -- How a process is run is told to calls only, and no word changes by it.
  | none => exact tellsAll_append attached (held rest)
  | some e =>
    obtain ⟨change, only, same⟩ := Walk.tellReader_eq callee e
    have told : TellsAll visited [Walk.tellReader callee e] left := by
      have changed := tellsAll_map only attached
      rw [same]
      exact changed
    simp only [Walk.placePiped]
    split
    · exact tellsAll_append told (held rest)
    · exact held (tellsAll_append told rest)

/-- A node other than a closure is read with its parts. -/
theorem Expr.Reads.parts {e : Expr} {words : List Word} (reads : e.Reads visited words)
    (other : e.kindName ≠ "closure") (silent : e.word? = none) :
    ∃ parts, List.Forall₂ (Reads visited) e.children parts ∧ words = parts.flatten := by
  cases reads with
  | node _ all => exact ⟨_, all, by simp [silent]⟩
  | closure _ closes => exact absurd closes.kindName other
  | expanded _ closes => exact absurd closes.kindName other

/-- What is read of a body that is a bare reference is read of the parts of the reference. -/
theorem Expr.Reads.of_reference {body e : Expr} {reference : Call} {words : List Word}
    (bare : Walk.reference? body = some (e, reference)) (reads : body.Reads visited words) :
    ∃ before after, List.Forall₂ (Reads visited) reference.piped.toList before ∧
      List.Forall₂ (Reads visited) (reference.arguments ++ reference.environment.map Prod.snd) after ∧
      words = before.flatten ++ after.flatten := by
  obtain ⟨⟨role, scope, block⟩, kind, -⟩ := reference?_eq_some bare
  have only : body.children = [e] := by simp [Expr.children, ExprKind.children, block]
  have split : e.children =
      reference.piped.toList ++ (reference.arguments ++ reference.environment.map Prod.snd) := by
    simp [Expr.children, ExprKind.children, kind, Call.children]
  obtain ⟨_, all, rfl⟩ :=
    reads.parts (by simp [kindName, ExprKind.name, block]) (by simp [word?, block])
  rw [only] at all
  obtain ⟨read, _, inside, nothing, rfl⟩ := List.forall₂_cons_left_iff.mp all
  cases List.forall₂_nil_left_iff.mp nothing
  obtain ⟨parts, each, rfl⟩ :=
    inside.parts (by simp [kindName, ExprKind.name, kind]) (by simp [word?, kind])
  rw [split] at each
  -- What is piped comes first among the parts, and the arguments that are made up go in after it.
  have ahead := List.forall₂_take reference.piped.toList.length each
  have behind := List.forall₂_drop reference.piped.toList.length each
  rw [List.take_left] at ahead
  rw [List.drop_left] at behind
  refine ⟨_, _, ahead, behind, ?_⟩
  rw [← List.flatten_append, List.take_append_drop, List.flatten_cons, List.flatten_nil,
    List.append_nil]

theorem writtenOf_madeUp (parameters : List Token) :
    writtenOf (parameters.map (⟨·, true⟩)) = [] := by
  simp [writtenOf, List.filter_map, Function.comp_def]

/-- A closure tells the words of its call and then those of its body, as it was before a bare
reference in it was expanded. -/
theorem tells_closure {v : Visit} (reached : visited v) {r attached block call body body' : Expr}
    {written parameters parameters' : List Token} {captured captured' : NameSet}
    {old : Option ClosureId} {made : Call} {id : ClosureId} {scope : ScopeId} {s t : AnalysisState}
    (given : v.Gives r t) (source : v.source.kind = .closure attached written block captured old)
    (found : block.blockScope? = some scope)
    (walked : v.Part { v.context with enclosing := some (.closure id) } block body)
    (expanded : Gives (Walk.expandReference id made scope parameters body) s (parameters', body') t)
    (kind : r.kind = .closure call parameters' body' captured' (some id)) {first last : List Token}
    (called : call.Tells visited first) (inside : body.Tells visited last) :
    r.Tells visited (first ++ last) := by
  have closes : v.Closes r call body body' parameters' id scope :=
    ⟨⟨t, given⟩, ⟨attached, written, block, captured, old, source, found, walked⟩, captured', kind⟩
  obtain ⟨read, reads, rfl⟩ := called
  obtain ⟨read', reads', rfl⟩ := inside
  unfold Walk.expandReference at expanded
  split at expanded
  next plain =>
    obtain ⟨same, -⟩ := gives_pure.mp expanded
    obtain ⟨-, rfl⟩ := Prod.mk.inj same
    exact ⟨_, .closure reached closes plain reads reads', writtenOf_append _ _⟩
  next e reference bare =>
    simp only [gives_bind, gives_pure] at expanded
    obtain ⟨names, _, -, _, _, -, _, _, -, same, -⟩ := expanded
    obtain ⟨rfl, rfl⟩ := Prod.mk.inj same
    obtain ⟨before, after, piped, others, rfl⟩ := reads'.of_reference bare
    -- What is made up in between has not been written.
    refine ⟨_, .expanded reached closes bare reads piped others, ?_⟩
    simp only [writtenOf_append, writtenOf_madeUp, List.nil_append]

/-- The result of a visit tells the words of what is attached to its source, and then those of the
source. -/
theorem tells_of_gives (inner : ∀ v w, visited v → v.Enters w → visited w)
    (met : ∀ v, visited v → ¬ v.Skips)
    (unpiped : ∀ v made, visited v → v.source.kind = .call made → made.piped = none) {v : Visit}
    (reached : visited v) {left : List Token} (attached : TellsAll visited v.slot.piped.toList left)
    {r : Expr} {t : AnalysisState} (given : v.Gives r t) :
    r.Tells visited (left ++ v.source.given) := by
  induction same : v.source using Expr.induction generalizing v left r t with
  | inherited e ih =>
    subst same
    have passes {context : Context} {slot : Slot} {e r : Expr} {left : List Token}
        (passes : v.Passes context slot e r) (attached : TellsAll visited slot.piped.toList left) :
        r.Tells visited (left ++ e.given) := by
      obtain ⟨before, after, entered, given⟩ := passes
      exact ih e (Visit.mem_children_of_enters entered) (inner v _ reached entered) attached given rfl
    have part {context : Context} {e r : Expr} (part : v.Part context e r) :
        r.Tells visited e.given := by
      obtain ⟨slot, plain, passed⟩ := part
      have nothing : TellsAll visited slot.piped.toList [] := by
        rw [show slot.piped = none by simp [Slot.piped, plain]]
        exact tellsAll_nil
      exact passes passed nothing
    -- Nothing is attached to a node that is no call and no closure.
    have alone (call : v.source.kindName ≠ "call") (closure : v.source.kindName ≠ "closure") :
        left = [] := by
      have unpiped : v.slot.piped = none := by
        simp [Slot.piped, Visit.detached_of_gives given call closure]
      rw [unpiped] at attached
      obtain ⟨parts, all, rfl⟩ := attached
      cases all
      rfl
    rw [Expr.given_eq v.source]
    cases Visit.course_of_gives given with
    | pipe source redirects first redirected rest =>
      have none := alone (by simp [Expr.kindName, ExprKind.name, source])
        (by simp [Expr.kindName, ExprKind.name, source])
      obtain ⟨change, only, rfl⟩ := Walk.redirect_eq redirected
      -- The right side tells the words of the left side, which is attached to it.
      have told := tellsAll_map only (tellsAll_cons (part first) tellsAll_nil)
      have whole := passes rest told
      simpa [none, Expr.givenAs, Expr.word?, source, Expr.children, ExprKind.children] using whole
    | @call written callee arguments environment source argumentParts valueParts kind =>
      have told : TellsAll visited arguments (written.arguments.flatMap Expr.given) :=
        tellsAll_of_forall₂ argumentParts fun _ _ => part
      -- What is attached comes before the arguments, whether it becomes the first or is piped.
      have parts : TellsAll visited r.children (left ++ written.arguments.flatMap Expr.given ++
          (written.environment.map Prod.snd).flatMap Expr.given) := by
        simp only [Expr.children, ExprKind.children, kind, Call.children]
        exact tellsAll_append (tellsAll_placePiped attached told)
          (tellsAll_of_forall₂ valueParts fun _ _ => part)
      have whole := tells_node (by simp [Expr.kindName, ExprKind.name, kind]) parts
      simpa [Expr.givenAs, Expr.word?, source, kind, Expr.children, ExprKind.children,
        Call.children, unpiped v written reached source] using whole
    | constant source means kind =>
      have none := alone (by simp [Expr.kindName, ExprKind.name, source])
        (by simp [Expr.kindName, ExprKind.name, source])
      have whole : r.Tells visited r.word?.toList :=
        tells_leaf (by simp [Expr.kindName, ExprKind.name, kind])
          (by simp [Expr.children, ExprKind.children, kind])
      simpa [none, Expr.givenAs, Token.givenAs, means, Expr.word?, source, kind, Expr.children,
        ExprKind.children] using whole
    | @fragment token code old source means kind =>
      have none := alone (by simp [Expr.kindName, ExprKind.name, source])
        (by simp [Expr.kindName, ExprKind.name, source])
      -- The two arguments are results of no visit.
      have argument (text : String) :
          (fragmentArgument v.context token v.source.span text).Tells visited
            [⟨.singleQuoted, text, token.span⟩] :=
        tells_leaf (by simp [Expr.kindName, ExprKind.name, fragmentArgument]) rfl
      have parts : TellsAll visited r.children ([⟨.singleQuoted, "-c", token.span⟩] ++
          ([⟨.singleQuoted, code, token.span⟩] ++ [])) := by
        simp only [Expr.children, ExprKind.children, kind, Call.children, fragmentCall, Call.plain]
        exact tellsAll_cons (argument "-c") (tellsAll_cons (argument code) tellsAll_nil)
      have whole := tells_node (by simp [Expr.kindName, ExprKind.name, kind]) parts
      simpa [none, Expr.givenAs, Token.givenAs, means, Expr.word?, source, kind, Expr.children,
        ExprKind.children] using whole
    | closure source called isCall block walked expanded kind =>
      -- The call takes what is attached to the closure.
      have whole := tells_closure reached given source block walked expanded kind
        (passes called attached) (part walked)
      simpa [Expr.givenAs, Expr.word?, source, Expr.children, ExprKind.children] using whole
    | skipped skips kind => exact absurd skips (met v reached)
    | parts named pipe call literal closure met inner =>
      have whole := tells_node (named ▸ closure) (tellsAll_of_forall₂ inner fun e r inner => by
        obtain ⟨context, -, inner⟩ := inner
        exact part inner)
      rwa [Visit.word?_of_gives given pipe literal, ← List.nil_append (_ ++ _),
        ← alone call closure] at whole

end Reading

/-! ### Analysed trees -/

namespace Analysis

variable {registry : Registry} {mode : AnalysisMode} {module : ModuleId} {ast analysed : Ast}
  {s t : AnalysisState}

/-- The analysed tree has the words of the script in their order, and between them only those that
are made up for bare references in the bodies of closures. A shell fragment is given as the two
arguments of the call that it becomes. This is so if nothing is piped into a call beforehand, and no
function is declared twice or has been met before. -/
theorem words_of_analysed
    (unpiped : ∀ n ∈ ast.nodes, ∀ made, n.kind = .call made → made.piped = none)
    (once : ast.functionIds.Nodup) (awaits : s.tree.Awaits ast.functionIds)
    (given : Gives (moduleWalk registry mode module ast) s analysed t) :
    ∃ parts, List.Forall₂ (Expr.Reads (Visited registry module ast s)) analysed.expressions parts ∧
      parts.flatten.map Word.token = analysed.words ∧ writtenOf parts.flatten = ast.given := by
  obtain ⟨context, start, u, begins, walked, -⟩ := begins_of_gives given
  -- Nothing is attached to the expressions of a script, so each tells its own words.
  have yields : (Plan.each context Expr.slot ast.expressions).Yields
      (fun _ slot e r => slot.attachment = none → r.Tells (Visited registry module ast s) e.given)
      start fun results => TellsAll (Visited registry module ast s) results
        (ast.expressions.flatMap Expr.given) := by
    refine (Plan.yields_each _ Expr.slot ast.expressions fun _ => rfl).mono fun results parts => ?_
    exact tellsAll_of_forall₂ parts fun _ _ ⟨_, plain, tells⟩ => tells plain
  have tells : TellsAll (Visited registry module ast s) analysed.expressions
      (ast.expressions.flatMap Expr.given) := by
    refine yields.of_gives ?_ walked
    intro v r t' entered left plain
    have visited : Visited registry module ast s v := ⟨context, start, v, begins, entered, .refl⟩
    have nothing : TellsAll (Visited registry module ast s) v.slot.piped.toList [] := by
      rw [show v.slot.piped = none by simp [Slot.piped, plain]]
      exact tellsAll_nil
    refine tells_of_gives (fun _ _ => Visited.enters) ?_ ?_ visited nothing left
    · exact fun _ visited => (visited.fresh once awaits).not_skips
    · intro w made visited kind
      exact unpiped w.source (visited.course given).1 made kind
  obtain ⟨parts, all, written⟩ := tells
  refine ⟨parts, all, ?_, ?_⟩
  · rw [Ast.words_eq]
    exact words_of_parts all
  · rw [written, Ast.given_eq]

/-- A script in which a function pipes a shell fragment through two programs, and a variable is piped
into a bare reference. -/
def pipes : Ast :=
  ⟨[Build.letIn ["x"] (Build.string "a"),
    Build.function { name := "f", access := .restricted, module := ⟨0⟩ } ⟨0⟩
      (Build.blockOf .function ⟨1⟩ [
        Build.pipe (Build.pipe (Build.literal .shellFragment "$:ls") (Build.call "sort" []))
          (Build.call "grep" [Build.string "b"])]),
    Build.closure (Build.call "reduce" [Build.list []]) []
      (Build.block ⟨2⟩ [Build.pipe (Build.variableRef "x") (Build.reference [] "len")])]⟩

def pipesScopes : ScopeTree :=
  { ScopeTree.ofRoot "main" with
    scopes := #[⟨none, ⟨0⟩, {}⟩, ⟨some ⟨0⟩, ⟨0⟩, {}⟩, ⟨some ⟨0⟩, ⟨0⟩, {}⟩]
    functions := #[{ name := "f", access := .restricted, module := ⟨0⟩ }] }

/-- A call that gets something from a pipe. -/
def isPiped (n : Expr) : Bool :=
  match n.kind with
  | .call made => made.piped.isSome
  | _ => false

/-- The words of that script, with two that are made up for the reference. -/
theorem words_of_analysed_pipes :
    ∃ analysed t, Gives (moduleWalk (Standard.registerGlobals {}).toRegistry .overwrite ⟨0⟩ pipes)
        { tree := pipesScopes } analysed t ∧
      analysed.words.map Token.text = ["a", "-c", "ls", "b", "'0", "'1", "x"] ∧
      ∃ parts, List.Forall₂ (Expr.Reads (Visited (Standard.registerGlobals {}).toRegistry ⟨0⟩ pipes
          { tree := pipesScopes })) analysed.expressions parts ∧
        parts.flatten.map Word.token = analysed.words ∧ writtenOf parts.flatten = pipes.given := by
  have ends : endsWith (moduleWalk (Standard.registerGlobals {}).toRegistry .overwrite ⟨0⟩ pipes)
      { tree := pipesScopes } (fun analysed _ =>
        decide (analysed.words.map Token.text = ["a", "-c", "ls", "b", "'0", "'1", "x"])) = true := by
    decide +kernel
  -- What the theorem asks of the source can be decided.
  have unpiped : (pipes.nodes.any isPiped) = false := by decide +kernel
  have declared : pipes.functionIds = [⟨0⟩] := by decide +kernel
  have pending : pipesScopes.statusOf? ⟨0⟩ = some .pending := by decide +kernel
  obtain ⟨analysed, t, ended, words⟩ := gives_of_endsWith ends
  refine ⟨analysed, t, ended, of_decide_eq_true words, words_of_analysed ?_ ?_ ?_ ended⟩
  · intro n inside made kind
    have checked := List.any_eq_false.mp unpiped n inside
    simpa [isPiped, kind] using checked
  · simp [declared]
  · intro id member status found
    rw [declared, List.mem_singleton] at member
    subst member
    exact Option.some.inj (found.symm.trans pending)

end Analysis
end ShellSema
