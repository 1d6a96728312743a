import ShellSema.Syntax.Nodes

/-!
# Reasoning about trees

An expression is analysed after its subexpressions are, so statements about expressions are proved
from statements about their subexpressions, whatever the kind of the expression.
-/
namespace ShellSema

theorem Expr.length_nodes_lt {c e : Expr} (child : c ∈ e.children) :
    c.nodes.length < e.nodes.length := by
  rw [e.nodes_eq, List.length_cons]
  exact Nat.lt_succ_of_le (List.sublist_flatten_of_mem (List.mem_map_of_mem child)).length_le

/-- What an expression inherits from its subexpressions holds of all expressions. -/
@[elab_as_elim]
theorem Expr.induction {motive : Expr → Prop}
    (inherited : ∀ e, (∀ c ∈ e.children, motive c) → motive e) (e : Expr) : motive e :=
  inherited e fun c _child => Expr.induction inherited c
termination_by e.nodes.length
decreasing_by exact Expr.length_nodes_lt _child

theorem Expr.mem_nodes {n e : Expr} : n ∈ e.nodes ↔ n = e ∨ ∃ c ∈ e.children, n ∈ c.nodes := by
  rw [e.nodes_eq, List.mem_cons, List.mem_flatMap]

theorem Expr.mem_nodes_self (e : Expr) : e ∈ e.nodes := Expr.mem_nodes.mpr (.inl rfl)

theorem Expr.mem_nodes_of_child {n c e : Expr} (child : c ∈ e.children) (inside : n ∈ c.nodes) :
    n ∈ e.nodes :=
  Expr.mem_nodes.mpr (.inr ⟨c, child, inside⟩)

theorem Expr.nodes_sublist {c e : Expr} (child : c ∈ e.children) : c.nodes.Sublist e.nodes := by
  rw [Expr.nodes_eq e]
  apply List.Sublist.cons
  rw [List.flatMap_def]
  exact List.sublist_flatten_of_mem (List.mem_map_of_mem child)

/-- The nodes below a node follow each other as they do in the whole tree. -/
theorem Expr.nodes_sublist_of_mem {n e : Expr} (inside : n ∈ e.nodes) : n.nodes.Sublist e.nodes := by
  induction e using Expr.induction with
  | inherited e ih =>
    rcases Expr.mem_nodes.mp inside with rfl | ⟨c, child, deeper⟩
    · exact List.Sublist.refl _
    · exact (ih c child deeper).trans (Expr.nodes_sublist child)

theorem Ast.mem_nodes {n : Expr} {ast : Ast} :
    n ∈ ast.nodes ↔ ∃ e ∈ ast.expressions, n ∈ e.nodes := by
  rw [Ast.nodes, nodesOfAll_eq]
  exact List.mem_flatMap

theorem Ast.nodes_sublist {n : Expr} {ast : Ast} (inside : n ∈ ast.nodes) :
    n.nodes.Sublist ast.nodes := by
  obtain ⟨e, member, within⟩ := Ast.mem_nodes.mp inside
  rw [Ast.nodes, nodesOfAll_eq]
  have whole : e.nodes.Sublist (ast.expressions.flatMap Expr.nodes) := by
    rw [List.flatMap_def]
    exact List.sublist_flatten_of_mem (List.mem_map_of_mem member)
  exact (Expr.nodes_sublist_of_mem within).trans whole

/-! ### Blocks -/

theorem Expr.kind_of_blockScope? {e : Expr} {scope : ScopeId} (found : e.blockScope? = some scope) :
    ∃ expressions role, e.kind = .block expressions role scope := by
  unfold blockScope? at found
  split at found
  next expressions role scope' kind =>
    cases found
    exact ⟨expressions, role, kind⟩
  next => cases found

theorem Expr.kindName_of_blockScope? {e : Expr} {scope : ScopeId}
    (found : e.blockScope? = some scope) : e.kindName = "block" := by
  obtain ⟨expressions, role, kind⟩ := kind_of_blockScope? found
  rw [kindName, kind]
  rfl

theorem Expr.isBlock_of_blockScope? {e : Expr} {scope : ScopeId}
    (found : e.blockScope? = some scope) : e.isBlock = true := by
  simp [Expr.isBlock, found]

/-! ### Kinds by their names -/

theorem Expr.function_of_kindName {e : Expr} (named : e.kindName = "function") :
    ∃ access name parameters body module takesClosure id,
      e.kind = .functionDecl access name parameters body module takesClosure id := by
  cases kind : e.kind with
  | functionDecl access name parameters body module takesClosure id =>
    exact ⟨access, name, parameters, body, module, takesClosure, id, rfl⟩
  | sequence form => cases form <;> simp [kindName, ExprKind.name, kind, Sequence.name] at named
  | _ => simp [kindName, ExprKind.name, kind] at named

theorem Expr.struct_of_kindName {e : Expr} (named : e.kindName = "struct") :
    ∃ access name parameters module, e.kind = .structDecl access name parameters module := by
  cases kind : e.kind with
  | structDecl access name parameters module => exact ⟨access, name, parameters, module, rfl⟩
  | sequence form => cases form <;> simp [kindName, ExprKind.name, kind, Sequence.name] at named
  | _ => simp [kindName, ExprKind.name, kind] at named

theorem Expr.variable_of_kindName {e : Expr} (named : e.kindName = "variable") :
    ∃ name scope isCaptured, e.kind = .variableRef name scope isCaptured := by
  cases kind : e.kind with
  | variableRef name scope isCaptured => exact ⟨name, scope, isCaptured, rfl⟩
  | sequence form => cases form <;> simp [kindName, ExprKind.name, kind, Sequence.name] at named
  | _ => simp [kindName, ExprKind.name, kind] at named

theorem Expr.call_of_kindName {e : Expr} (named : e.kindName = "call") :
    ∃ written, e.kind = .call written := by
  cases kind : e.kind with
  | call written => exact ⟨written, rfl⟩
  | sequence form => cases form <;> simp [kindName, ExprKind.name, kind, Sequence.name] at named
  | _ => simp [kindName, ExprKind.name, kind] at named

theorem Expr.closure_of_kindName {e : Expr} (named : e.kindName = "closure") :
    ∃ attached parameters body captured id,
      e.kind = .closure attached parameters body captured id := by
  cases kind : e.kind with
  | closure attached parameters body captured id =>
    exact ⟨attached, parameters, body, captured, id, rfl⟩
  | sequence form => cases form <;> simp [kindName, ExprKind.name, kind, Sequence.name] at named
  | _ => simp [kindName, ExprKind.name, kind] at named

end ShellSema
