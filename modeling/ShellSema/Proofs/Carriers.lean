import ShellSema.Proofs.CaptureSources
import ShellSema.Proofs.ClosureOwners

/-!
# Calls of the closure of a function

In the body of a function that takes a closure, `closure` calls it. Within another closure, such a
call needs the variable that holds the closure: the closure around the call captures it, and the
function is noted as one whose closure is used in another one. It is noted in no other way.
-/
namespace ShellSema

/-! ### Finding the provider -/

/-- A call of a closure is accepted if the function around it takes one. Within a closure, the call
captures the variable that holds it. -/
theorem closureProvider_cases {context : Context} {provider : FunctionId} {s t : AnalysisState}
    (given : Gives (Walk.closureProvider context) s provider t) :
    Gives (Walk.ownerWithin (s.closures.size + 1) context.enclosing) s (some provider) s ∧
      s.closureSupport.lookup provider = some true ∧
      ((∀ id, context.enclosing ≠ some (.closure id)) ∧ t = s ∨
        ∃ id tree declaring, context.enclosing = some (.closure id) ∧
          Gives (ScopeTree.Edit.capture context.scope closureCarrier) s.tree declaring tree ∧
          t = { s with
            tree
            carrierCaptured := provider :: s.carrierCaptured
            closures := s.closures.modify id.index fun frame =>
              { frame with captured := frame.captured.insert closureCarrier } }) := by
  simp only [Walk.closureProvider, gives_bind, gives_get] at given
  obtain ⟨_, s, ⟨rfl, rfl⟩, owner, r, owned, given⟩ := given
  have same := unchanging_ownerWithin.of_gives owned
  subst same
  cases owner with
  | none => exact (gives_fail.mp given).elim
  | some found =>
    simp only [gives_bind, gives_get] at given
    obtain ⟨_, r, ⟨rfl, rfl⟩, given⟩ := given
    -- Without a declared support for closures there is no provider.
    split at given
    next supported =>
      have support : r.closureSupport.lookup found = some true := by
        cases known : r.closureSupport.lookup found with
        | none => simp [known] at supported
        | some takesClosure => simpa [known] using supported
      split at given
      next id enclosing =>
        simp only [gives_bind, gives_modify, gives_pure, Walk.changeFrame] at given
        obtain ⟨_, _, rfl, _, _, rfl, declaring, _, captured, rfl, rfl⟩ := given
        obtain ⟨tree, edited, rfl⟩ := gives_edit.mp captured
        exact ⟨owned, support, .inr ⟨id, tree, declaring, enclosing, edited, rfl⟩⟩
      next outside =>
        obtain ⟨rfl, rfl⟩ := gives_pure.mp given
        exact ⟨owned, support, .inl ⟨fun id => outside id, rfl⟩⟩
    next => exact (gives_fail.mp given).elim

/-- What is called is the closure of a function only if that function has been found as its
provider. -/
theorem provider_of_callee {context : Context} {name : String} {path : List String}
    {provider : FunctionId} {s t : AnalysisState}
    (given : Gives (Walk.callee context name path) s (.closure provider) t) :
    Gives (Walk.closureProvider context) s provider t := by
  cases foundBy_of_callee given with
  | closure _ provided => exact provided
  | reserved _ settled => exact absurd rfl (settled provider)

/-- To find what is called notes nothing of a function, or that its closure is called within another
closure. -/
theorem carriers_of_callee {context : Context} {name : String} {path : List String} {callee : Callee}
    {s t : AnalysisState} (given : Gives (Walk.callee context name path) s callee t) :
    t.carrierCaptured = s.carrierCaptured ∨
      ∃ provider id, callee = .closure provider ∧ context.enclosing = some (.closure id) ∧
        t.carrierCaptured = provider :: s.carrierCaptured := by
  cases foundBy_of_callee given with
  | @closure provider _ _ provided =>
    obtain ⟨-, -, ⟨-, rfl⟩ | ⟨id, tree, declaring, enclosing, -, rfl⟩⟩ :=
      closureProvider_cases provided
    · exact .inl rfl
    · exact .inr ⟨provider, id, rfl, enclosing, rfl⟩
  | _ => exact .inl rfl

/-! ### What is noted of closures -/

/-- What has been noted in the first state is noted in the second one. -/
def CarriersGrow (s t : AnalysisState) : Prop :=
  ∀ id ∈ s.carrierCaptured, id ∈ t.carrierCaptured

/-- If only functions that have been met were noted in the first state, this goes for the second one. -/
def CarriersMet (s t : AnalysisState) : Prop :=
  (∀ id ∈ s.carrierCaptured, (s.closureSupport.lookup id).isSome = true) →
    ∀ id ∈ t.carrierCaptured, (t.closureSupport.lookup id).isSome = true

/-- What is noted of the function in the second state has been noted in the first one. -/
def CarriedBefore (id : FunctionId) (s t : AnalysisState) : Prop :=
  id ∈ t.carrierCaptured → id ∈ s.carrierCaptured

theorem carriersGrow_preserved : Preserved CarriersGrow (Permit.onScopes fun _ => True) := by
  apply preserved_of_notes
  · exact fun s id noted => noted
  · exact fun r s t first rest id noted => rest id (first id noted)
  · intro s t _ same id noted
    rwa [same]
  · exact fun s _ _ _ _ _ _ id noted => noted
  · exact fun s provider _ id noted => List.mem_cons_of_mem _ noted

theorem carriersMet_of_same (s t : AnalysisState) (support : t.closureSupport = s.closureSupport)
    (carriers : t.carrierCaptured = s.carrierCaptured) : CarriersMet s t := by
  intro met
  rwa [support, carriers]

theorem carriersMet_preserved : Preserved CarriersMet (Permit.onScopes fun _ => True) := by
  apply preserved_of_notes _ _ carriersMet_of_same
  · intro s access name module takesClosure new _ met id noted
    rw [List.lookup_cons]
    split
    · rfl
    · exact met id noted
  · intro s provider supported met id noted
    rcases List.mem_cons.mp noted with rfl | before
    · change (s.closureSupport.lookup id).isSome = true
      cases known : s.closureSupport.lookup id with
      | none => simp [known] at supported
      | some takesClosure => rfl
    · exact met id before
  · exact fun s met => met
  · exact fun r s t first rest met => rest (first met)

theorem carriedBefore_settled (id : FunctionId) :
    Settled (CarriedBefore id) (Permit.onScopes fun _ => True) := by
  apply settled_of_notes
  · exact fun s noted => noted
  · exact fun r s t first rest noted => first (rest noted)
  · intro s t _ same noted
    rwa [← same]
  · exact fun s _ _ _ _ _ _ noted => noted

/-! ### Calls -/

/-- The function whose closure an analysed call calls. -/
def Expr.closureProvider? (e : Expr) : Option FunctionId :=
  match e.kind with
  | .call made => made.findings.closureProvider
  | _ => none

namespace Visit

variable {v w u : Visit} {provider : FunctionId} {written : Call} {callee : Callee} {r : Expr}
  {found t : AnalysisState}

/-- The visit is one of a call that is accepted as that of the closure of the function. -/
def CallsClosureOf (u : Visit) (provider : FunctionId) : Prop :=
  ∃ written made r t, u.source.kind = .call written ∧ u.Gives r t ∧ r.kind = .call made ∧
    made.findings.closureProvider = some provider

theorem callsClosure_of_result (call : u.source.kindName = "call") (given : u.Gives r t)
    (provides : r.closureProvider? = some provider) : u.CallsClosureOf provider := by
  obtain ⟨written, source⟩ := Expr.call_of_kindName call
  unfold Expr.closureProvider? at provides
  split at provides
  next made kind => exact ⟨written, made, r, t, source, given, kind, provides⟩
  next => cases provides

theorem CallsClosureOf.kindName (calls : u.CallsClosureOf provider) : u.source.kindName = "call" := by
  obtain ⟨written, _, _, _, source, -⟩ := calls
  simp [Expr.kindName, ExprKind.name, source]

/-- The search for what a call calls. -/
def Finds (u : Visit) (written : Call) (callee : Callee) (found : AnalysisState) : Prop :=
  ShellSema.Gives (Walk.callee u.context written.name.text (written.path.map Token.text)) u.before
    callee found

/-- A call finds its callee first, and then does the rest. -/
theorem finds_of_gives (source : u.source.kind = .call written) (given : u.Gives r t) :
    ∃ callee found node, u.Finds written callee found ∧
      ShellSema.Gives (Plan.called u.context u.slot u.source.span written callee).run found node t ∧
      r = { node with enclosing := u.context.enclosing } := by
  obtain ⟨-, node, carried, same⟩ := gives_iff.mp given
  rw [plan, source, Plan.node_call, Plan.run_bind, Plan.run_lift] at carried
  obtain ⟨callee, found, called, rest⟩ := gives_bind.mp carried
  exact ⟨callee, found, node, called, rest, same⟩

/-- What is visited after the callee has been found is visited by the call. -/
theorem enters_of_called (source : u.source.kind = .call written) (given : u.Gives r t)
    (finds : u.Finds written callee found)
    (entered : (Plan.called u.context u.slot u.source.span written callee).Enters found w) :
    u.Enters w := by
  refine ⟨(gives_iff.mp given).1, ?_⟩
  rw [plan, source, Plan.node_call, Plan.enters_bind, Plan.run_lift]
  exact .inr ⟨callee, found, finds, entered⟩

/-- What a walk keeps is kept from the time at which the callee has been found. -/
theorem keeps_after_finding {R : AnalysisState → AnalysisState → Prop}
    (kept : Preserved R (Permit.onScopes fun _ => True)) (source : u.source.kind = .call written)
    (given : u.Gives r t) (finds : u.Finds written callee found) : R found t := by
  obtain ⟨callee', found', node, finds', rest, -⟩ := finds_of_gives source given
  obtain ⟨rfl, rfl⟩ := ShellSema.Gives.unique finds finds'
  have within : (Plan.called u.context u.slot u.source.span written callee).Within R
      fun _ _ _ => True :=
    Plan.within_called kept.toCalm (fun _ _ => trivial) _ _ written callee
  refine within.of_gives kept.refl kept.trans (fun v r t _ given => ?_) rest
  exact (kept.keeps_expr v.source.permitted_everywhere (.inl trivial)).of_gives given

/-- A call of a closure has found its provider. -/
theorem CallsClosureOf.finds (calls : u.CallsClosureOf provider) :
    ∃ written r t found, u.source.kind = .call written ∧ u.Gives r t ∧
      u.Finds written (.closure provider) found := by
  obtain ⟨written, made, r, t, source, given, kind, provides⟩ := calls
  obtain ⟨made', callee, bound, kind', binds, findings, -⟩ := call_of_gives source given
  rw [kind] at kind'
  cases kind'
  rw [findings] at provides
  obtain ⟨written', found, noted, arguments, source', called, -, -⟩ := binds
  rw [source] at source'
  cases source'
  refine ⟨written, r, t, found, source, given, ?_⟩
  cases callee
  case closure other =>
    cases provides
    exact called
  all_goals cases provides

theorem callsClosure_of_finds (source : u.source.kind = .call written) (given : u.Gives r t)
    (finds : u.Finds written (.closure provider) found) : u.CallsClosureOf provider := by
  obtain ⟨made, callee, bound, kind, binds, findings, -⟩ := call_of_gives source given
  obtain ⟨written', found', noted, arguments, source', called, -, -⟩ := binds
  rw [source] at source'
  cases source'
  obtain ⟨rfl, -⟩ := ShellSema.Gives.unique finds called
  exact ⟨written, made, r, t, source, given, kind, by rw [findings]; rfl⟩

/-- The closure that is called is that of the function around the call, which takes one. -/
theorem CallsClosureOf.owned (calls : u.CallsClosureOf provider) :
    u.before.closureSupport.lookup provider = some true ∧
      ∀ owner, u.OwnedBy owner → owner = some provider := by
  obtain ⟨written, r, t, found, -, -, finds⟩ := calls.finds
  obtain ⟨owned, support, -⟩ := closureProvider_cases (provider_of_callee finds)
  exact ⟨support, fun owner owns => (owns.eq_of_gives owned).symm⟩

/-- A call of a closure that stands in another closure is noted. -/
theorem CallsClosureOf.noted (calls : u.CallsClosureOf provider) {id : ClosureId}
    (inside : u.context.enclosing = some (.closure id)) (given : u.Gives r t) :
    provider ∈ t.carrierCaptured := by
  obtain ⟨written, r', t', found, source, given', finds⟩ := calls.finds
  apply keeps_after_finding carriersGrow_preserved source given finds
  obtain ⟨-, -, ⟨outside, -⟩ | ⟨_, _, _, -, -, rfl⟩⟩ := closureProvider_cases (provider_of_callee finds)
  · exact absurd inside (outside id)
  · exact List.mem_cons_self

/-- Such a call marks the variable by whose name it goes, and the closure around it captures the name. -/
theorem CallsClosureOf.catches (calls : u.CallsClosureOf provider) {base : ScopeTree} {d : ScopeId}
    (innermost : u.before.tree.declaringScope u.context.scope closureCarrier = .ok (some d)) :
    u.Catches base d closureCarrier := by
  intro id body r t inBody around given
  obtain ⟨written, r', t', found, source, given', finds⟩ := calls.finds
  obtain ⟨rfl, rfl⟩ := Gives.unique given given'
  have inside : base.Inside u.context.scope body := by
    cases inBody.stands with
    | body kind _ => rw [source] at kind; cases kind
    | within inside _ _ => exact inside
  -- The callee is found before the arguments are gone over, so what it captures stays captured.
  have later : Grows (fun _ => True) found t :=
    keeps_after_finding (grows_preserved _) source given finds
  obtain ⟨-, -, ⟨outside, -⟩ | ⟨id', tree, declaring, enclosing, captured, rfl⟩⟩ :=
    closureProvider_cases (provider_of_callee finds)
  · exact absurd inBody.enclosing (outside id)
  obtain rfl : id = id' := by simpa [inBody.enclosing] using enclosing
  obtain ⟨frame, entered, -⟩ := inBody.frame
  refine ⟨inside, later.tree.marked _ _ ?_, ?_⟩
  · obtain ⟨answer, tree', asked, marked⟩ := gives_bind.mp captured
    have answered : runFrom _ u.before.tree = (.ok answer, tree') := asked
    rw [ScopeTree.Edit.runFrom_ask, innermost] at answered
    cases answered
    obtain ⟨_, _, marked, last⟩ := gives_bind.mp marked
    obtain ⟨-, rfl⟩ := gives_pure.mp last
    have declares := (ScopeTree.declares_of_declaringWithin innermost).1
    have marks := marks_of_captureHere (gives_edit.mpr ⟨tree, marked, rfl⟩) declares
    exact marks
  · obtain ⟨frame', there, -, more⟩ := later.frames id.index
      { frame with captured := frame.captured.insert closureCarrier }
      (getElem?_modify_self entered _)
    exact ⟨frame', there, more _ (NameSet.mem_insert.mpr (.inl rfl))⟩

/-- A function that is newly noted has its closure called within another closure. -/
theorem exists_calling (given : v.Gives r t) (before : provider ∉ v.before.carrierCaptured)
    (after : provider ∈ t.carrierCaptured) :
    ∃ u, v.Reaches u ∧ u.CallsClosureOf provider ∧
      ∃ id, u.context.enclosing = some (.closure id) := by
  induction same : v.source using Expr.induction generalizing v r t with
  | inherited e ih =>
    subst same
    have settled := carriedBefore_settled provider
    -- It comes to be noted in the course of a visit, unless the node itself is such a call.
    have below {w : Visit} {r' : Expr} {t' : AnalysisState} (entered : v.Enters w)
        (left : w.Gives r' t') (before : provider ∉ w.before.carrierCaptured)
        (after : provider ∈ t'.carrierCaptured) : ∃ u, v.Reaches u ∧ u.CallsClosureOf provider ∧
          ∃ id, u.context.enclosing = some (.closure id) := by
      obtain ⟨u, reached, found⟩ :=
        ih w.source (mem_children_of_enters entered) left before after rfl
      exact ⟨u, .head entered reached, found⟩
    obtain ⟨admitted, node, carried, -⟩ := gives_iff.mp given
    cases kind : v.source.kind
    case call written =>
      obtain ⟨callee, found, node, finds, rest, -⟩ := finds_of_gives kind given
      by_cases noted : provider ∈ found.carrierCaptured
      · rcases carriers_of_callee finds with same | ⟨other, id, rfl, inside, same⟩
        · exact absurd (same ▸ noted) before
        · rw [same] at noted
          obtain rfl := (List.mem_cons.mp noted).resolve_right before
          exact ⟨v, .refl, callsClosure_of_finds kind given finds, id, inside⟩
      · have within : (Plan.called v.context v.slot v.source.span written callee).Within
            (CarriedBefore provider) fun _ _ _ => True :=
          Plan.within_called settled.toCalm (fun _ _ => trivial) _ _ written callee
        obtain ⟨w, r', t', entered, left, before', after'⟩ := within.exists_causing rest noted after
        exact below (enters_of_called kind given finds entered) left before' after'
    all_goals
      have within : v.plan.Within (CarriedBefore provider)
          (Standing (Permit.onScopes fun _ => True) v.source.kind v.context) := by
        have here := v.source.permitted_everywhere.here
        by_cases closure : v.source.kindName = "closure"
        · apply Plan.within_closure settled _ _ here (.inl trivial) closure
          · exact fun context scope parameters captured allowed => settled.keeps_enterClosure
              (fun _ _ noted => noted) context (fun _ _ => settled.declare _ _ allowed) captured
          · exact fun id attached scope parameters body allowed => settled.keeps_expandReference
              (fun _ _ _ noted => noted) id attached (fun _ => settled.declare _ _ allowed) parameters body
        · refine Plan.within_calm settled.toCalm here (.inl trivial) ?_ ?_ closure
          · exact fun name _ _ _ => settled.keeps_variableUse v.context name
          · intro made other
            rw [kind] at other
            cases other
      obtain ⟨w, r', t', entered, left, before', after'⟩ := within.exists_causing carried before after
      exact below ⟨admitted, entered⟩ left before' after'

end Visit
end ShellSema
