import ShellSema.Proofs.Capturing
import ShellSema.Proofs.Counts
import ShellSema.Proofs.Moments

/-!
# What closures capture

A closure has to capture every name that its body uses and that is declared outside of it, also if
the use stands in a closure within that body. A use is captured by the closure right around it, and
each closure that ends hands its captures on to the closure around it. It does not hand on a name
that its body has come to declare in the meantime: then the closures further out miss the name.
-/
namespace ShellSema

/-- The names that a closure captures. -/
def Expr.captured? (e : Expr) : Option NameSet :=
  match e.kind with
  | .closure _ _ _ captured _ => some captured
  | _ => none

/-- The name of a variable that is used. -/
def Expr.usedName? (e : Expr) : Option Token :=
  match e.kind with
  | .variableRef name _ _ => some name
  | _ => none

theorem Expr.kind_of_usedName? {e : Expr} {name : Token} (used : e.usedName? = some name) :
    ∃ scope flag, e.kind = .variableRef name scope flag := by
  unfold usedName? at used
  split at used
  next other scope flag kind =>
    cases used
    exact ⟨scope, flag, kind⟩
  next => cases used

theorem Expr.kindName_of_usedName? {e : Expr} (unused : e.usedName? = none) :
    e.kindName ≠ "variable" := by
  intro named
  obtain ⟨name, scope, isCaptured, kind⟩ := variable_of_kindName named
  simp [usedName?, kind] at unused

/-! ### Uses within closures -/

namespace Visit

variable {v w u : Visit} {base : ScopeTree} {id : ClosureId} {body d : ScopeId}

/-- No closure between the two visits comes to declare the name in the scope of its body. -/
def Undeclared (v u : Visit) (name : String) : Prop :=
  ∀ k b, v.Holds k → k.EntersBody b → b.Holds u → ∀ scope r t,
    b.source.blockScope? = some scope → b.Gives r t → ¬ t.tree.Declares scope name

theorem grows_to_end (path : v.Holds u) {r : Expr} {t : AnalysisState} (given : v.Gives r t) :
    Grows (fun _ => True) u.before t := by
  induction path using Relation.ReflTransGen.head_induction_on generalizing r t with
  | refl => exact grows_of_gives given
  | head step _ ih =>
    obtain ⟨r', t', left⟩ := gives_of_enters step.1 given
    exact Grows.trans _ _ _ (ih left) (grows_of_leaves step.1 left given)

/-- A closure that is gone over within the body of another one hands on what it captures, if its
body does not declare the name in the end. -/
theorem captures_of_closure (inBody : v.InBody base id body)
    (around : base.Around body d) {attached block : Expr} {parameters : List Token}
    {captured : NameSet} {old : Option ClosureId}
    (source : v.source.kind = .closure attached parameters block captured old) {scope : ScopeId}
    {inner : ClosureId} {opened walked handed : AnalysisState} {block' : Expr}
    (entered : v.Enters (v.bodyVisit block inner opened))
    (opens : v.Opens attached block parameters captured scope inner opened)
    (visited : (v.bodyVisit block inner opened).Gives block' walked)
    (passed : ShellSema.Gives (Walk.propagateCaptures inner v.context.enclosing) walked () handed)
    (room : walked.closures.size ≤ 2 ^ 32) (path : (v.bodyVisit block inner opened).Holds u)
    {name : String} (inside : base.Inside u.context.scope scope)
    (declares : u.before.tree.Declares d name)
    (absent : ∀ between, base.Inside u.context.scope between → base.Around between d →
      ¬ u.before.tree.Declares between name)
    (caught : ∃ frame, walked.closures[inner.index]? = some frame ∧ name ∈ frame.captured)
    (fresh : ¬ walked.tree.Declares scope name) :
    ∃ frame, handed.closures[id.index]? = some frame ∧ name ∈ frame.captured := by
  have opening : Grows (fun _ => True) v.before opened := (grows_of_enters entered).2.2
  have walking : Grows (fun _ => True) opened walked := grows_of_gives visited
  have whole : Grows (fun _ => True) v.before walked := Grows.trans _ _ _ opening walking
  have reaching : Grows (fun _ => True) opened u.before := grows_along path
  have ending : Grows (fun _ => True) u.before walked := grows_to_end path visited
  have links : walked.tree.parentScope? = base.parentScope? :=
    whole.tree.parents.trans inBody.links
  have sameInside : walked.tree.Inside = base.Inside := ScopeTree.inside_congr links
  -- The closure stands in a scope within the outer body, and its own body right within that scope.
  obtain ⟨innerBody, parent⟩ :=
    inBody.opens source opens (Nat.le_trans walking.frames.size_le room)
  obtain ⟨within, apart⟩ : base.Inside v.context.scope body ∧
      ∀ scope, base.Inside v.context.scope scope → base.Inside scope body →
        scope ∉ v.source.blockScopes := by
    cases inBody.stands with
    | body kind _ => rw [source] at kind; cases kind
    | within within _ apart => exact ⟨within, apart⟩
  -- The frames of both closures are what they were, apart from what they capture.
  obtain ⟨innerFrame, innerFound, captures⟩ := caught
  have innerScope : innerFrame.bodyScope = scope := by
    obtain ⟨frame, found, same, -⟩ := innerBody.frame
    obtain ⟨frame', found', same', -⟩ := walking.frames _ _ found
    rw [innerFound] at found'
    cases found'
    exact same'.trans same
  obtain ⟨frame, found, same, declared⟩ := inBody.frame
  obtain ⟨outerFrame, outerFound, same', -⟩ := whole.frames _ _ found
  have outerScope : outerFrame.bodyScope = body := same'.trans same
  have free : name ∉ outerFrame.parameters := by
    have firm : Firm v.before walked :=
      Firm.trans _ _ _ (firm_of_enters entered) (firm_of_gives visited)
    obtain ⟨frame', found', parameters⟩ := firm.2 room _ _ found
    rw [outerFound] at found'
    cases found'
    rw [parameters]
    intro member
    have early : u.before.tree.Declares body name :=
      reaching.tree.declared _ _ (opening.tree.declared _ _ (declared name member))
    exact absent body (inside.trans (.head parent within)) around early
  -- Between the closure and the outer body, the walk over the inner body declares nothing.
  have quiet : ∀ between, base.Inside v.context.scope between → base.Inside between body →
      ¬ walked.tree.Declares between name := by
    intro between above below later
    have isBlock : block.isBlock = true := by
      obtain ⟨_, _, _, found, _⟩ := opens
      exact Expr.isBlock_of_blockScope? found
    have child : block ∈ v.source.children := by
      simp [Expr.children, ExprKind.children, source]
    have outside : between ∉ block.blockScopes := fun member =>
      apart between above below ((Expr.blockScopes_sublist child).subset member)
    have grown : Grows (· ∈ block.blockScopes) opened walked :=
      grows_of_block (v := v.bodyVisit block inner opened) isBlock visited
    have early : u.before.tree.Declares between name :=
      reaching.tree.declared _ _ (grown.tree.still _ _ outside later)
    exact absent between (inside.trans (.head parent above)) (below.around around) early
  rw [inBody.enclosing] at passed
  apply captures_of_propagateCaptures passed innerFound outerFound captures
  · rw [links, innerScope]
    exact parent
  · rw [sameInside, outerScope]
    exact around.inside
  · exact ending.tree.declared _ _ declares
  · exact free
  · rwa [innerScope]
  · rwa [sameInside, outerScope]
  · rwa [sameInside, outerScope]

/-- At the place, the closure right around it captures the name from the scope, which marks it. -/
def Catches (u : Visit) (base : ScopeTree) (d : ScopeId) (name : String) : Prop :=
  ∀ (id : ClosureId) body r t, u.InBody base id body → base.Around body d → u.Gives r t →
    base.Inside u.context.scope body ∧ t.tree.Marks d name ∧
      ∃ frame, t.closures[id.index]? = some frame ∧ name ∈ frame.captured

/-- A name that is captured somewhere within the body of a closure and declared outside of it is
captured by the closure, unless a closure in between comes to declare it. -/
theorem captures_of_catches (acyclic : base.ScopesAcyclic) (path : v.Holds u) {name : String}
    (caught : u.Catches base d name)
    (innermost : u.before.tree.declaringScope u.context.scope name = .ok (some d))
    (inBody : v.InBody base id body) (around : base.Around body d) {r : Expr} {t : AnalysisState}
    (given : v.Gives r t) (room : t.closures.size ≤ 2 ^ 32) :
    base.Inside u.context.scope body ∧ t.tree.Marks d name ∧
      (v.Undeclared u name →
        ∃ frame, t.closures[id.index]? = some frame ∧ name ∈ frame.captured) := by
  induction path using Relation.ReflTransGen.head_induction_on generalizing id body r t with
  | refl =>
    obtain ⟨inside, marks, captured⟩ := caught id body r t inBody around given
    exact ⟨inside, marks, fun _ => captured⟩
  | @head v w step rest ih =>
    obtain ⟨entered, function⟩ := step
    -- In the same closure, what is captured at the end of the visit is still captured later.
    have within (same : w.context.enclosing = v.context.enclosing) : base.Inside u.context.scope
        body ∧ t.tree.Marks d name ∧ (v.Undeclared u name →
          ∃ frame, t.closures[id.index]? = some frame ∧ name ∈ frame.captured) := by
      obtain ⟨r', t', left⟩ := gives_of_enters entered given
      have later : Grows (fun _ => True) t' t := grows_of_leaves entered left given
      have room' : t'.closures.size ≤ 2 ^ 32 := Nat.le_trans later.frames.size_le room
      have before : w.before.closures.size ≤ 2 ^ 32 :=
        Nat.le_trans (grows_of_gives left).frames.size_le room'
      have inBody' := inBody.enters acyclic entered function same before
      obtain ⟨inside, marks, captured⟩ := ih inBody' around left room'
      refine ⟨inside, later.tree.marked _ _ marks, fun undeclared => ?_⟩
      obtain ⟨frame, found, member⟩ := captured fun k b reached =>
        undeclared k b (.head ⟨entered, function⟩ reached)
      obtain ⟨frame', found', -, more⟩ := later.frames _ _ found
      exact ⟨frame', found', more _ member⟩
    by_cases other : v.source.kindName ≠ "closure"
    · apply within
      obtain ⟨-, places, -⟩ := grows_of_enters entered
      cases kind : v.source.kind with
      | functionDecl => simp [Expr.kindName, ExprKind.name, kind] at function
      | closure => simp [Expr.kindName, ExprKind.name, kind] at other
      | _ => rw [kind] at places; rw [places]
    obtain ⟨attached, parameters, block, captured, old, source⟩ :=
      Expr.closure_of_kindName (not_not.mp other)
    rcases closure_enters source entered with rfl | ⟨inner, id', opened, opens, rfl⟩
    · exact within rfl
    -- A closure within the closure: what it captures is handed on at its end.
    obtain ⟨_, _, _, block', walked, handed, made, parameters', block'', frame, call, opens', visited,
      passed, expanded, -, -⟩ := closure_of_gives source given
    obtain ⟨rfl, rfl, rfl⟩ := opens.unique opens'
    have expanding : Grows (fun _ => True) handed t :=
      ((grows_preserved fun _ => True).expand _ _ _ _ _ trivial).of_gives expanded
    have passing : Grows (fun _ => True) walked handed :=
      ((grows_preserved fun _ => True).toSettled.keeps_propagateCaptures _ _).of_gives passed
    have later : Grows (fun _ => True) walked t := Grows.trans _ _ _ passing expanding
    have walking : Grows (fun _ => True) opened walked := grows_of_gives visited
    have room' : walked.closures.size ≤ 2 ^ 32 := Nat.le_trans later.frames.size_le room
    obtain ⟨inBody', parent⟩ :=
      inBody.opens source opens (Nat.le_trans walking.frames.size_le room')
    have inside : base.Inside v.context.scope body := by
      cases inBody.stands with
      | body kind _ => rw [source] at kind; cases kind
      | within inside _ _ => exact inside
    have nested : base.Inside inner body := .head parent inside
    obtain ⟨inside', marks, captured'⟩ := ih inBody' (nested.around around) visited room'
    refine ⟨inside'.trans nested, later.tree.marked _ _ marks, fun undeclared => ?_⟩
    have entering : v.EntersBody (v.bodyVisit block id' opened) :=
      ⟨entered, attached, parameters, block, captured, old, id', opened, source, rfl⟩
    have fresh : ¬ walked.tree.Declares inner name := by
      obtain ⟨_, _, _, found, _⟩ := opens
      exact undeclared _ _ .refl entering rest inner block' walked found visited
    have caught := captured' fun k b reached =>
      undeclared k b (.head ⟨entered, function⟩ reached)
    have links : u.before.tree.parentScope? = base.parentScope? :=
      (grows_along rest).tree.parents.trans inBody'.links
    obtain ⟨declares, -⟩ := ScopeTree.declares_of_declaringWithin innermost
    have absent : ∀ between, base.Inside u.context.scope between → base.Around between d →
        ¬ u.before.tree.Declares between name := by
      rw [← ScopeTree.inside_congr links, ← ScopeTree.around_congr links]
      intro between below above
      refine ScopeTree.not_declares_of_declaringWithin ?_ innermost below above
      rw [ScopeTree.ScopesAcyclic, ScopeTree.around_congr links]
      exact acyclic
    obtain ⟨frame', found, member⟩ := captures_of_closure inBody around source entered opens
      visited passed room' rest inside' declares absent caught fresh
    obtain ⟨frame'', found', -, more⟩ := expanding.frames _ _ found
    exact ⟨frame'', found', more _ member⟩

/-- The use of a variable that is declared outside of the closure around is such a place. -/
theorem catches_of_variable (acyclic : base.ScopesAcyclic) {name : Token} {scope : Option ScopeId}
    {flag : Bool} (use : u.source.kind = .variableRef name scope flag)
    (script : name.isEnvironmentName = false)
    (innermost : u.before.tree.declaringScope u.context.scope name.text = .ok (some d)) :
    u.Catches base d name.text := by
  intro id body r t inBody around given
  have sameInside : u.before.tree.Inside = base.Inside := ScopeTree.inside_congr inBody.links
  have sameAround : u.before.tree.Around = base.Around := ScopeTree.around_congr inBody.links
  obtain ⟨frame, found, same, -⟩ := inBody.frame
  cases inBody.stands with
  | body kind _ => rw [use] at kind; cases kind
  | within inside _ _ =>
    obtain ⟨-, made, carried, -⟩ := gives_iff.mp given
    simp only [plan, use, Plan.node, Plan.run_bind, Plan.run_lift, Plan.run_pure, gives_bind,
      gives_pure] at carried
    obtain ⟨kind, _, used, -, rfl⟩ := carried
    have captured := captures_of_variableUse used script inBody.enclosing found
      (by rw [ScopeTree.ScopesAcyclic, sameAround]; exact acyclic)
      (by rw [sameInside, same]; exact inside) (by rw [sameAround, same]; exact around) innermost
    exact ⟨inside, captured⟩

/-- A name that is used within the body of a closure and declared outside of it is marked as
captured, and the closure captures it, unless a closure in between comes to declare it. -/
theorem captures_of_holds (acyclic : base.ScopesAcyclic) (path : v.Holds u) {name : Token}
    {scope : Option ScopeId} {flag : Bool} (use : u.source.kind = .variableRef name scope flag)
    (script : name.isEnvironmentName = false)
    (innermost : u.before.tree.declaringScope u.context.scope name.text = .ok (some d))
    (inBody : v.InBody base id body) (around : base.Around body d) {r : Expr} {t : AnalysisState}
    (given : v.Gives r t) (room : t.closures.size ≤ 2 ^ 32) :
    base.Inside u.context.scope body ∧ t.tree.Marks d name.text ∧
      (v.Undeclared u name.text →
        ∃ frame, t.closures[id.index]? = some frame ∧ name.text ∈ frame.captured) :=
  captures_of_catches acyclic path (catches_of_variable acyclic use script innermost) innermost inBody
    around given room

/-! ### Names that are not handed on -/

/-- The visit of a closure leaves its body in the first state, and in the second one the captures of
the closure are handed on. -/
def Ends (v : Visit) (id : ClosureId) (walked handed : AnalysisState) : Prop :=
  ∃ attached parameters body captured old scope opened body',
    v.source.kind = .closure attached parameters body captured old ∧
      v.Opens attached body parameters captured scope id opened ∧
      (v.bodyVisit body id opened).Gives body' walked ∧
      ShellSema.Gives (Walk.propagateCaptures id v.context.enclosing) walked () handed

/-- The closure captures the name, but does not hand it on to the closure around it. -/
def Drops (v : Visit) (name : String) : Prop :=
  ∃ inner outer walked handed innerFrame outerFrame outerFrame',
    v.Ends inner walked handed ∧ v.context.enclosing = some (.closure outer) ∧
      walked.closures[inner.index]? = some innerFrame ∧ name ∈ innerFrame.captured ∧
      walked.closures[outer.index]? = some outerFrame ∧
      handed.closures[outer.index]? = some outerFrame' ∧
      (name ∈ outerFrame'.captured → name ∈ outerFrame.captured)

/-- The analysed form of the closure captures the name. -/
def Captures (v : Visit) (name : String) : Prop :=
  ∃ r t, v.Gives r t ∧ ∃ captured, r.captured? = some captured ∧ name ∈ captured

theorem length_nodes_of_holds (path : v.Holds u) :
    u.source.nodes.length ≤ v.source.nodes.length := by
  induction path with
  | refl => exact Nat.le_refl _
  | tail _ step ih =>
    have smaller := Expr.length_nodes_lt (grows_of_enters step.1).1
    omega

/-- If closures in between come to declare the name, there is an innermost one that does. -/
theorem innermost_of_declared {name : String} (declared : ¬ v.Undeclared u name) :
    ∃ k b scope r t, v.Holds k ∧ k.EntersBody b ∧ b.Holds u ∧ b.source.blockScope? = some scope ∧
      b.Gives r t ∧ t.tree.Declares scope name ∧ b.Undeclared u name := by
  -- The body found need not be the innermost one, so the search goes on below it. What is searched
  -- gets smaller, though it is no part of the source by the constructors.
  induction size : v.source.nodes.length using Nat.strongRecOn generalizing v with
  | ind n ih =>
    subst size
    obtain ⟨k, b, reached, body, path, scope, r, t, found, given, declares⟩ :
        ∃ k b, v.Holds k ∧ k.EntersBody b ∧ b.Holds u ∧ ∃ scope r t,
          b.source.blockScope? = some scope ∧ b.Gives r t ∧ t.tree.Declares scope name := by
      by_contra none
      refine declared fun k b reached body path scope r t found given declares => none ?_
      exact ⟨k, b, reached, body, path, scope, r, t, found, given, declares⟩
    by_cases further : b.Undeclared u name
    · exact ⟨k, b, scope, r, t, reached, body, path, found, given, declares, further⟩
    · have smaller := Expr.length_nodes_lt (grows_of_enters body.1).1
      have within := length_nodes_of_holds reached
      obtain ⟨k', b', scope', r', t', reached', rest⟩ := ih _ (by omega) further rfl
      refine ⟨k', b', scope', r', t', ?_, rest⟩
      obtain ⟨entered, attached, parameters, block, captured, old, id, opened, source, -⟩ := body
      have step : k.Enters b ∧ k.source.kindName ≠ "function" :=
        ⟨entered, by simp [Expr.kindName, ExprKind.name, source]⟩
      exact (reached.tail step).trans reached'

/-- Of the visits that a closure enters, that of its body is the one to which nothing is attached. -/
theorem entersBody_of_slot (entered : v.Enters w) (closure : v.source.kindName = "closure")
    (slot : w.slot.attachment = none) : v.EntersBody w := by
  obtain ⟨attached, parameters, block, captured, old, source⟩ := Expr.closure_of_kindName closure
  refine ⟨entered, attached, parameters, block, captured, old, ?_⟩
  rcases closure_enters source entered with rfl | ⟨scope, id, opened, -, same⟩
  · cases slot
  · exact ⟨id, opened, source, same⟩

/-- The end of a closure whose body has been gone over. -/
theorem ends_of_entersBody (body : v.EntersBody w) (enclosing : w.context.enclosing = some (.closure id))
    {r r' : Expr} {t t' : AnalysisState} (left : w.Gives r t) (given : v.Gives r' t') :
    ∃ handed frame attached parameters block, v.Ends id t handed ∧
      Grows (fun _ => True) handed t' ∧ t'.closures[id.index]? = some frame ∧
      r'.kind = .closure attached parameters block frame.captured (some id) := by
  obtain ⟨entered, attached, parameters, block, captured, old, id', opened, source, rfl⟩ := body
  obtain ⟨scope, inner, opened', block', walked, handed, made, parameters', block'', frame, call,
    opens, visited, passed, expanded, found, result⟩ := closure_of_gives source given
  have opens' : ∃ scope', v.Opens attached block parameters captured scope' id' opened := by
    -- A closure enters its attached call or its body. Only the call gets an attachment.
    rcases closure_enters source entered with other | ⟨scope', id'', opened'', opens', same⟩
    · have slots := congrArg (fun v => v.slot.attachment) other
      cases slots
    · obtain ⟨rfl, rfl⟩ : id' = id'' ∧ opened = opened'' := by
        simpa [bodyVisit] using same
      exact ⟨scope', opens'⟩
  obtain ⟨scope', opens'⟩ := opens'
  obtain ⟨rfl, rfl, rfl⟩ := opens.unique opens'
  obtain ⟨rfl, rfl⟩ := Gives.unique visited left
  obtain rfl : inner = id := by simpa [bodyVisit] using enclosing
  refine ⟨handed, frame, call, parameters', block'', ?_, ?_, found, result⟩
  · exact ⟨attached, parameters, block, captured, old, scope, opened', block', source, opens, visited,
      passed⟩
  · exact ((grows_preserved fun _ => True).expand _ _ _ _ _ trivial).of_gives expanded

theorem Ends.grows {walked handed : AnalysisState} (ends : v.Ends id walked handed) :
    Grows (fun _ => True) walked handed := by
  obtain ⟨_, _, _, _, _, _, _, _, _, _, _, passed⟩ := ends
  exact ((grows_preserved fun _ => True).toSettled.keeps_propagateCaptures _ _).of_gives passed

/-- What a closure captures at the end of its body, its analysed form captures. -/
theorem captures_of_frame (body : v.EntersBody w) (enclosing : w.context.enclosing = some (.closure id))
    {r r' : Expr} {t t' : AnalysisState} (left : w.Gives r t) (given : v.Gives r' t') {name : String}
    (caught : ∃ frame, t.closures[id.index]? = some frame ∧ name ∈ frame.captured) :
    v.Captures name := by
  obtain ⟨handed, frame', attached, parameters, block, ends, later, found', result⟩ :=
    ends_of_entersBody body enclosing left given
  obtain ⟨frame, found, member⟩ := caught
  obtain ⟨frame'', found'', -, more⟩ := (ends.grows.frames.trans later.frames) _ _ found
  rw [found'] at found''
  cases found''
  exact ⟨r', t', given, frame'.captured, by simp [Expr.captured?, result], more _ member⟩

/-- A closure that captures a name, and whose body comes to declare it, does not hand it on. -/
theorem drops_of_declares (body : v.EntersBody w) {scope : ScopeId}
    (inBody : w.InBody base id scope) {outer : ClosureId}
    (around : v.context.enclosing = some (.closure outer)) {r r' : Expr} {t t' : AnalysisState}
    (left : w.Gives r t) (given : v.Gives r' t') {name : String}
    (caught : ∃ frame, t.closures[id.index]? = some frame ∧ name ∈ frame.captured)
    (declares : t.tree.Declares scope name) : v.Drops name := by
  obtain ⟨handed, -, -, -, -, ends, -, -, -⟩ :=
    ends_of_entersBody body inBody.enclosing left given
  obtain ⟨frame, found, member⟩ := caught
  -- A frame keeps its body, so the frame at the end of the body is that of its start.
  have place : frame.bodyScope = scope := by
    obtain ⟨frame', found', same, -⟩ := inBody.frame
    obtain ⟨frame'', found'', same', -⟩ := (grows_of_gives left).frames _ _ found'
    rw [found] at found''
    cases found''
    exact same'.trans same
  obtain ⟨attached, parameters, block, captured, old, scope', opened, block', source, opens, visited,
    passed⟩ := ends
  rw [around] at passed
  obtain ⟨outerFrame, outerFrame', outerFound, outerFound', same⟩ :=
    captured_of_propagateCaptures passed found (place ▸ declares)
  refine ⟨id, outer, t, handed, frame, outerFrame, outerFrame', ?_, around, found, member,
    outerFound, outerFound', same⟩
  exact ⟨attached, parameters, block, captured, old, scope', opened, block', source, opens, visited,
    by rw [around]; exact passed⟩

end Visit

/-! ### Uses within modules -/

namespace Analysis

variable {registry : Registry} {mode : AnalysisMode} {module : ModuleId} {ast analysed : Ast}
  {s t : AnalysisState} {c b u : Visit}

/-- What is visited in an analysed module stands as it does in the tree. -/
theorem Visited.nested (nested : ast.ProperlyNested s.tree module)
    (visited : Visited registry module ast s c) : ∃ outer, c.source.Nested s.tree outer := by
  have member := visited.mem_nodes
  obtain ⟨_, _, _, ⟨m, known, -⟩, -⟩ := visited
  obtain ⟨e, listed, inside⟩ := Ast.mem_nodes.mp member
  exact (nested.nested m known e listed).of_mem_nodes inside

/-- The body of a closure in an analysed module stands as its block does in the tree. -/
theorem Visited.inBody (nested : ast.ProperlyNested s.tree module)
    (given : Gives (moduleWalk registry mode module ast) s analysed t)
    (room : t.closures.size ≤ 2 ^ 32) (visited : Visited registry module ast s c)
    (body : c.EntersBody b) :
    ∃ id scope r t', b.InBody s.tree id scope ∧ b.source.blockScope? = some scope ∧ b.Gives r t' ∧
      Grows (fun _ => True) t' t := by
  obtain ⟨entered, attached, parameters, block, captured, old, id, opened, source, rfl⟩ := body
  obtain ⟨member, before, -⟩ := visited.course given
  obtain ⟨-, opening, r, t', left, after⟩ := (visited.enters entered).course given
  rcases Visit.closure_enters source entered with other | ⟨scope, id', opened', opens, same⟩
  · -- The walk over the attached call knows that it is one, that over the body is no such walk.
    have slots := congrArg (fun v => v.slot.attachment) other
    cases slots
  obtain ⟨rfl, rfl⟩ : id = id' ∧ opened = opened' := by
    simpa [Visit.bodyVisit] using same
  have found : block.blockScope? = some scope := by
    obtain ⟨_, _, _, found, _⟩ := opens
    exact found
  have walking : Grows (fun _ => True) opened t' := Visit.grows_of_gives left
  have room' : opened.closures.size ≤ 2 ^ 32 :=
    Nat.le_trans (Grows.trans _ _ _ walking after).frames.size_le room
  obtain ⟨outer, stands⟩ := visited.nested nested
  have own : c.source.blockScopes.Nodup :=
    ((Ast.nodes_sublist member).filterMap _).nodup nested.own
  have modules : c.source.DeclaresNoModule :=
    nested.closures _ member (by simp [Expr.kindName, ExprKind.name, source])
  obtain ⟨inBody, -⟩ :=
    Visit.inBody_of_opens before.tree.parents source stands own modules opens room'
  exact ⟨id, scope, r, t', inBody, found, left, after⟩

theorem Visited.along (visited : Visited registry module ast s c) (path : c.Holds u) :
    Visited registry module ast s u := by
  induction path with
  | refl => exact visited
  | tail _ step ih => exact ih.enters step.1

/-- A variable that is used in the body of a closure and declared around that body ends up marked as
captured. The closure captures its name if no closure on the way to the use comes to declare it;
otherwise one of these captures the name and drops it at its end. -/
theorem captures_of_use (nested : ast.ProperlyNested s.tree module)
    (given : Gives (moduleWalk registry mode module ast) s analysed t)
    (room : t.closures.size ≤ 2 ^ 32) (visited : Visited registry module ast s c)
    (body : c.EntersBody b) (path : b.Holds u) {name : Token} {place : Option ScopeId} {flag : Bool}
    (use : u.source.kind = .variableRef name place flag) (script : name.isEnvironmentName = false)
    {d scope : ScopeId}
    (innermost : u.before.tree.declaringScope u.context.scope name.text = .ok (some d))
    (block : b.source.blockScope? = some scope) (below : s.tree.Around scope d) :
    t.tree.Marks d name.text ∧ (b.Undeclared u name.text → c.Captures name.text) ∧
      (¬ b.Undeclared u name.text → ∃ k, b.Holds k ∧ k.Holds u ∧ k.Drops name.text) := by
  obtain ⟨id, scope', r, t', inBody, found, left, after⟩ := visited.inBody nested given room body
  obtain rfl : scope = scope' := Option.some.inj (block.symm.trans found)
  have room' : t'.closures.size ≤ 2 ^ 32 := Nat.le_trans after.frames.size_le room
  obtain ⟨-, marks, captured⟩ := Visit.captures_of_holds nested.acyclic path use script innermost
    inBody below left room'
  refine ⟨after.tree.marked _ _ marks, fun undeclared => ?_, fun declared => ?_⟩
  · obtain ⟨-, -, r', t'', whole, -⟩ := visited.course given
    exact Visit.captures_of_frame body inBody.enclosing left whole (captured undeclared)
  · obtain ⟨k, b', inner, r', t'', reached, body', path', block', left', declares, undeclared⟩ :=
      Visit.innermost_of_declared declared
    have visited' : Visited registry module ast s k := (visited.enters body.1).along reached
    obtain ⟨id', inner', _, _, inBody', found', left'', after'⟩ :=
      visited'.inBody nested given room body'
    obtain rfl : inner = inner' := Option.some.inj (block'.symm.trans found')
    obtain ⟨rfl, rfl⟩ := Gives.unique left' left''
    have room'' : t''.closures.size ≤ 2 ^ 32 := Nat.le_trans after'.frames.size_le room
    -- The closure stands in the outer body, so its own body lies below the scope as well.
    have early : b'.before.closures.size ≤ 2 ^ 32 :=
      Nat.le_trans (Visit.grows_of_gives left').frames.size_le room''
    obtain ⟨outer, scope', around, inside⟩ := inBody.along nested.acyclic reached
      (Nat.le_trans (Visit.grows_of_enters body'.1).2.2.frames.size_le early)
    have function : k.source.kindName ≠ "function" := by
      obtain ⟨-, _, _, _, _, _, _, _, source, -⟩ := body'
      simp [Expr.kindName, ExprKind.name, source]
    obtain ⟨id'', inner'', inBody'', inside'⟩ := around.step nested.acyclic body'.1 function early
    obtain ⟨rfl, rfl⟩ := inBody'.unique inBody''
    have lies : s.tree.Inside inner scope := inside'.trans inside
    obtain ⟨-, -, captured'⟩ := Visit.captures_of_holds nested.acyclic path' use script innermost
      inBody' (lies.around below) left' room''
    obtain ⟨-, -, r₂, t₂, whole, -⟩ := visited'.course given
    have drops := Visit.drops_of_declares body' inBody' around.enclosing left' whole
      (captured' undeclared) declares
    exact ⟨k, reached, .head ⟨body'.1, function⟩ path', drops⟩

/-- A closure in a closure uses `x` from outside of both, and then declares an `x` of its own. -/
def redeclared : Ast :=
  ⟨[Build.letIn ["x"] (Build.integer "1"),
    Build.closure (Build.call "reduce" [Build.list []]) [] (Build.block ⟨1⟩
      [Build.closure (Build.call "reduce" [Build.list []]) [] (Build.block ⟨2⟩
        [Build.variableRef "x", Build.letIn ["x"] (Build.integer "2")])])]⟩

def redeclaredScopes : ScopeTree :=
  { ScopeTree.ofRoot "main" with
    scopes := #[⟨none, ⟨0⟩, {}⟩, ⟨some ⟨0⟩, ⟨0⟩, {}⟩, ⟨some ⟨1⟩, ⟨0⟩, {}⟩] }

theorem redeclaredScopes_parent {id parent : ScopeId}
    (step : redeclaredScopes.parentScope? id = some parent) : parent.index + 1 = id.index := by
  obtain ⟨scope, found, outward⟩ := Option.bind_eq_some_iff.mp step
  rcases place : id.index with _ | _ | _ | index <;> rw [place] at found <;> cases found
  · cases outward
  · cases outward
    rfl
  · cases outward
    rfl

theorem nested_reduce {tree : ScopeTree} (outer : ScopeId) (body : Expr)
    (inside : body.Nested tree outer) :
    (Build.closure (Build.call "reduce" [Build.list []]) [] body).Nested tree outer := by
  have list : (Build.list []).Nested tree outer := .leaf rfl rfl
  refine .other rfl fun c child => ?_
  rcases List.mem_pair.mp child with rfl | rfl
  · refine .other rfl fun c child => ?_
    rw [List.mem_singleton.mp child]
    exact list
  · exact inside

theorem properlyNested_redeclared : redeclared.ProperlyNested redeclaredScopes ⟨0⟩ := by
  refine ⟨?_, ?_, by decide, by unfold Expr.DeclaresNoModule; decide⟩
  · apply ScopeTree.scopesAcyclic_of_descending
    intro id parent step
    have := redeclaredScopes_parent step
    omega
  · intro m found e member
    cases found
    -- Numbers and bindings stand in any scope; only the two closures have blocks.
    have number (scope : ScopeId) (text : String) :
        (Build.integer text).Nested redeclaredScopes scope := .leaf rfl rfl
    have binding (scope : ScopeId) (text : String) :
        (Build.letIn ["x"] (Build.integer text)).Nested redeclaredScopes scope := by
      refine .other rfl fun c child => ?_
      rw [List.mem_singleton.mp child]
      exact number scope text
    rcases List.mem_pair.mp member with rfl | rfl
    · exact binding _ "1"
    · refine nested_reduce _ _ (.block rfl rfl fun c child => ?_)
      rw [List.mem_singleton.mp child]
      refine nested_reduce _ _ (.block rfl rfl fun c child => ?_)
      rcases List.mem_pair.mp child with rfl | rfl
      · exact .leaf rfl rfl
      · exact binding _ "2"

/-- The visits of the outer closure, its body, and the use of `x` in the inner one. -/
theorem visits_redeclared :
    ∃ analysed t c b u place flag,
      Gives (moduleWalk globalsOnly .overwrite ⟨0⟩ redeclared) { tree := redeclaredScopes }
        analysed t ∧ t.closures.size ≤ 2 ^ 32 ∧
      Visited globalsOnly ⟨0⟩ redeclared { tree := redeclaredScopes } c ∧ c.EntersBody b ∧
      b.Holds u ∧ u.source.kind = .variableRef (Build.name "x") place flag ∧
      u.before.tree.declaringScope u.context.scope "x" = .ok (some ⟨0⟩) ∧
      b.source.blockScope? = some ⟨1⟩ ∧ ¬ c.Captures "x" := by
  -- The outer closure with its body, and in that body the closure in which the name is used.
  have found : ((visits globalsOnly ⟨0⟩ redeclared { tree := redeclaredScopes }).any fun c =>
      c.source.kindName = "closure" &&
      (runFrom (Walk.expr c.context c.slot c.source) c.before).1.toOption.bind Expr.captured? =
        some {} &&
      c.visits.any fun b => b.slot.attachment.isNone && b.source.blockScope? = some ⟨1⟩ &&
        b.visits.any fun k => k.source.kindName = "closure" &&
          k.visits.any fun b' => b'.source.blockScope? = some ⟨2⟩ && b'.visits.any fun u =>
            u.source.usedName? = some (Build.name "x") &&
            (u.before.tree.declaringScope u.context.scope "x").toOption = some (some ⟨0⟩)) = true := by
    decide +kernel
  have ends : endsWith (moduleWalk globalsOnly .overwrite ⟨0⟩ redeclared) { tree := redeclaredScopes }
      (fun _ t => t.closures.size == 2) = true := by decide +kernel
  obtain ⟨analysed, t, given, two⟩ := gives_of_endsWith ends
  simp only [List.any_eq_true, Bool.and_eq_true, decide_eq_true_eq] at found
  obtain ⟨c, first, ⟨closure, captured⟩, b, entered, ⟨slot, block⟩, k, entered', closure', b',
    entered'', block', u, entered₃, used, declaring⟩ := found
  obtain ⟨place, flag, use⟩ := Expr.kind_of_usedName? used
  have size : t.closures.size = 2 := eq_of_beq two
  have entersBody : c.EntersBody b :=
    Visit.entersBody_of_slot (Visit.enters_of_mem_visits entered) closure
      (Option.isNone_iff_eq_none.mp slot)
  refine ⟨analysed, t, c, b, u, place, flag, given, by omega, visited_of_mem_visits first,
    entersBody, ?_, use, ?_, block, ?_⟩
  · have outer := Expr.kindName_of_blockScope? block
    have inner := Expr.kindName_of_blockScope? block'
    refine .head ⟨Visit.enters_of_mem_visits entered', by simp [outer]⟩ ?_
    refine .head ⟨Visit.enters_of_mem_visits entered'', by simp [closure']⟩ ?_
    exact .single ⟨Visit.enters_of_mem_visits entered₃, by simp [inner]⟩
  · exact ok_of_toOption declaring
  · rintro ⟨r, t', visited, names, listed, member⟩
    have result : runFrom (Walk.expr c.context c.slot c.source) c.before = (.ok r, t') := visited
    rw [result] at captured
    have empty : names = {} := Option.some.inj (listed.symm.trans captured)
    subst empty
    exact absurd member (by decide)

/-- The outer closure does not capture `x`. -/
theorem use_not_captured :
    ∃ analysed t c b u place flag,
      redeclared.ProperlyNested redeclaredScopes ⟨0⟩ ∧
      Gives (moduleWalk globalsOnly .overwrite ⟨0⟩ redeclared) { tree := redeclaredScopes }
        analysed t ∧ t.closures.size ≤ 2 ^ 32 ∧
      Visited globalsOnly ⟨0⟩ redeclared { tree := redeclaredScopes } c ∧ c.EntersBody b ∧
      b.Holds u ∧ u.source.kind = .variableRef (Build.name "x") place flag ∧
      (Build.name "x").isEnvironmentName = false ∧
      u.before.tree.declaringScope u.context.scope "x" = .ok (some ⟨0⟩) ∧
      b.source.blockScope? = some ⟨1⟩ ∧ redeclaredScopes.Around ⟨1⟩ ⟨0⟩ ∧ ¬ c.Captures "x" := by
  obtain ⟨analysed, t, c, b, u, place, flag, given, room, visited, body, path, use, declaring, block,
    missing⟩ := visits_redeclared
  exact ⟨analysed, t, c, b, u, place, flag, properlyNested_redeclared, given, room, visited, body, path,
    use, by decide, declaring, block, .single rfl, missing⟩

/-- The variable is marked nevertheless, and a closure in between drops the name. -/
theorem captures_of_use_redeclared :
    ∃ analysed t c b u, Gives (moduleWalk globalsOnly .overwrite ⟨0⟩ redeclared)
        { tree := redeclaredScopes } analysed t ∧
      Visited globalsOnly ⟨0⟩ redeclared { tree := redeclaredScopes } c ∧ c.EntersBody b ∧
      b.Holds u ∧ t.tree.Marks ⟨0⟩ "x" ∧
      (b.Undeclared u "x" → c.Captures "x") ∧
      (¬ b.Undeclared u "x" → ∃ k, b.Holds k ∧ k.Holds u ∧ k.Drops "x") := by
  obtain ⟨analysed, t, c, b, u, place, flag, given, room, visited, body, path, use, declaring, block,
    -⟩ := visits_redeclared
  refine ⟨analysed, t, c, b, u, given, visited, body, path, ?_⟩
  exact captures_of_use properlyNested_redeclared given room visited body path use (by decide)
    declaring block (.single rfl)

end Analysis
end ShellSema
