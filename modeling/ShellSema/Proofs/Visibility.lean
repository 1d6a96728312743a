import ShellSema.Proofs.Counts
import ShellSema.Proofs.Lookups
import ShellSema.Proofs.Pending

/-!
# What analysed trees may name

Each call, construction and type name is bound to a symbol that may be used where it stands. This is
so in the tree that comes out, since what is bound in a visit stays where it was: only closures and
pipes change calls later on, and they leave the callee as it is.
-/
namespace ShellSema

section Binding

variable {base : ScopeTree} {v : Visit} {r : Expr} {t : AnalysisState}

theorem Expr.visible_of_name {tree : ScopeTree} {current : ModuleId} {e : Expr}
    (call : e.kindName ≠ "call") (construct : e.kindName ≠ "new") (typeRef : e.kindName ≠ "type") :
    e.Visible tree current := by
  unfold Expr.Visible
  split
  next kind => simp [kindName, ExprKind.name, kind] at call
  next kind => simp [kindName, ExprKind.name, kind] at construct
  next kind => simp [kindName, ExprKind.name, kind] at typeRef
  next => trivial

/-- What is seen from the module of a visit is seen from the place of the visit. -/
theorem Expr.visibleAt_of_seen (linked : ScopeTree.Linked base v.before.tree)
    (seen : ∃ current, v.before.tree.moduleOf? v.context.scope = some current ∧
      r.Visible base current) : r.VisibleAt base v.context.scope := by
  obtain ⟨current, belongs, visible⟩ := seen
  intro other place
  rw [linked.scopes, place] at belongs
  cases belongs
  exact visible

/-- A call is bound to a function that may be used there. -/
theorem Visit.visible_call (linked : ScopeTree.Linked base v.before.tree) {written : Call}
    (source : v.source.kind = .call written) (given : v.Gives r t) :
    r.VisibleAt base v.context.scope := by
  obtain ⟨made, callee, bound, kind, ⟨written', found, -, -, source', called, -, -⟩, findings, -, -, -⟩ :=
    call_of_gives source given
  cases callee with
  | user id =>
    obtain ⟨current, belongs, sees⟩ := sees_of_callee linked called
    apply Expr.visibleAt_of_seen linked
    refine ⟨current, belongs, ?_⟩
    simp only [Expr.Visible, kind, findings, Callee.findings]
    rintro _ ⟨⟩
    exact sees
  | _ => simp [Expr.VisibleAt, Expr.Visible, kind, findings, Callee.findings]

/-- A construction is bound to a struct that may be used there. -/
theorem Visit.visible_construct (linked : ScopeTree.Linked base v.before.tree) {name : Token}
    {path : List Token} {arguments : List Expr} {old : Option StructTarget}
    (source : v.source.kind = .construct name path arguments old) (given : v.Gives r t) :
    r.VisibleAt base v.context.scope := by
  obtain ⟨arguments', target, found, kind, looked, -⟩ := construct_of_gives source given
  cases target with
  | user id =>
    obtain ⟨current, belongs, sees⟩ := sees_of_structTarget linked looked
    apply Expr.visibleAt_of_seen linked
    refine ⟨current, belongs, ?_⟩
    simp only [Expr.Visible, kind]
    rintro _ ⟨⟩
    exact sees
  | standard struct => simp [Expr.VisibleAt, Expr.Visible, kind]

/-- A type name is bound to a struct that may be used there. -/
theorem Visit.visible_typeRef (linked : ScopeTree.Linked base v.before.tree) {name : Token}
    {old : Option TypeTarget} (source : v.source.kind = .typeRef name old) (given : v.Gives r t) :
    r.VisibleAt base v.context.scope := by
  obtain ⟨target, found, looked, kind⟩ := typeRef_of_gives source given
  cases target with
  | struct id =>
    obtain ⟨current, belongs, sees⟩ := sees_of_typeTarget linked looked
    apply Expr.visibleAt_of_seen linked
    refine ⟨current, belongs, ?_⟩
    simp only [Expr.Visible, kind]
    rintro _ ⟨⟩
    exact sees
  | standard type => simp [Expr.VisibleAt, Expr.Visible, kind]

/-- A literal names no function of the script. A shell fragment becomes a call of a program. -/
theorem Visit.visible_literal {token : Token} {old : Option Constant}
    (source : v.source.kind = .literal token old) (given : v.Gives r t) :
    r.VisibleAt base v.context.scope := by
  rcases literal_of_gives source given with ⟨_, -, kind⟩ | ⟨_, -, kind⟩
  · simp [Expr.VisibleAt, Expr.Visible, kind]
  · simp [Expr.VisibleAt, Expr.Visible, kind, fragmentCall, Call.plain]

/-- What a visit makes of its own accord names what may be used there. -/
theorem Visit.visible_of_gives (linked : ScopeTree.Linked base v.before.tree)
    (given : v.Gives r t) (pipe : v.source.isPipe = false) : r.VisibleAt base v.context.scope := by
  cases kind : v.source.kind
  case call => exact visible_call linked kind given
  case construct => exact visible_construct linked kind given
  case typeRef => exact visible_typeRef linked kind given
  case literal => exact visible_literal kind given
  case' sequence form items => cases form
  all_goals
    have named : v.source.kindName ≠ "literal" ∧ v.source.kindName ≠ "call" ∧
        v.source.kindName ≠ "new" ∧ v.source.kindName ≠ "type" := by
      simp [Expr.kindName, ExprKind.name, Sequence.name, kind]
    have same := kindName_of_gives given pipe named.1
    exact fun _ _ =>
      Expr.visible_of_name (same ▸ named.2.1) (same ▸ named.2.2.1) (same ▸ named.2.2.2)

end Binding

/-- Nothing that may not be used comes into a tree in another way. -/
theorem spreads_visible {base : ScopeTree} {visited : Visit → Prop}
    (linked : ∀ v, visited v → ScopeTree.Linked base v.before.tree)
    (met : ∀ v, visited v → ¬ v.Skips) :
    Spreads visited (fun _ => False) fun place e => e.VisibleAt base place where
  ending _ := False.elim
  made v r t reached given pipe := v.visible_of_gives (linked v reached) given pipe
  -- How a call is made does not change what it calls.
  mode _ e change only visible := by
    intro current belongs
    have visible := visible current belongs
    unfold Expr.mapCall
    split
    next made kind =>
      obtain ⟨mode, changed, -⟩ := only made
      simp only [Expr.Visible, kind, changed] at visible ⊢
      exact visible
    next => exact visible
  block _ e block := by
    obtain ⟨scope, found⟩ := Option.isSome_iff_exists.mp block
    obtain ⟨expressions, role, kind⟩ := Expr.kind_of_blockScope? found
    simp [Expr.VisibleAt, Expr.Visible, kind]
  implied _ _ _ _ _ _ _ _ _ _ _ _ _ _ _ _ _ _ _ := fun _ _ => trivial
  fragment _ _ _ _ _ := fun _ _ => trivial
  -- The call that a reference expands to calls what the reference names.
  expanded _ _ _ e _ reference _ _ _ _ _ _ _ _ visible kind _ := by
    intro current belongs
    have visible := visible current belongs
    simp only [Expr.Visible, kind, Walk.expandedCall] at visible ⊢
    exact visible
  skipped v _ _ reached skips := absurd skips (met v reached)

end ShellSema
