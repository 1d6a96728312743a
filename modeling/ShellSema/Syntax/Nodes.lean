import ShellSema.Syntax.Basic

/-!
# All nodes of a tree

`Expr.nodes` lists an expression and everything below it, each node before its subexpressions and
these in source order. `Expr.nodes_eq` says so in terms of `Expr.children`.
-/
namespace ShellSema

mutual
def Expr.nodes : Expr → List Expr
  | ⟨kind, span, isRoot, enclosing⟩ => ⟨kind, span, isRoot, enclosing⟩ :: kind.nodes

/-- The nodes below a node of this kind. -/
def ExprKind.nodes : ExprKind → List Expr
  | .moduleDecl _ _ body => body.nodes
  | .structDecl _ _ parameters _ => nodesOfParameters parameters
  | .functionDecl _ _ parameters body _ _ _ => nodesOfParameters parameters ++ body.nodes
  | .letIn _ value _ => value.nodes
  | .construct _ _ arguments _ => nodesOfAll arguments
  | .ifElse condition thenBranch elseBranch =>
    condition.nodes ++ thenBranch.nodes ++ nodesOfOption elseBranch
  | .forEach _ value body => value.nodes ++ body.nodes
  | .whileDo condition body => condition.nodes ++ body.nodes
  | .sequence _ items => nodesOfAll items
  | .dictionary entries => nodesOfEntries entries
  | .block expressions _ _ => nodesOfAll expressions
  | .keyword _ value => nodesOfOption value
  | .binary left _ right => left.nodes ++ right.nodes
  | .unary _ value => value.nodes
  | .fieldAccess object _ _ => object.nodes
  | .range lower upper _ => nodesOfOption lower ++ nodesOfOption upper
  | .indexer value index => value.nodes ++ index.nodes
  | .typeRef .. => []
  | .variableRef .. => []
  | .literal .. => []
  | .call made => nodesOfCall made
  | .closure attached _ body _ _ => attached.nodes ++ body.nodes
  | .tryCatch body catches => body.nodes ++ nodesOfCatches catches

def nodesOfCall : Call → List Expr
  | ⟨_, _, arguments, piped, environment, _, _⟩ =>
    nodesOfOption piped ++ nodesOfAll arguments ++ nodesOfEnvironment environment

def nodesOfAll : List Expr → List Expr
  | [] => []
  | e :: es => e.nodes ++ nodesOfAll es

def nodesOfOption : Option Expr → List Expr
  | none => []
  | some e => e.nodes

def nodesOfEntries : List (Expr × Expr) → List Expr
  | [] => []
  | (key, value) :: entries => key.nodes ++ value.nodes ++ nodesOfEntries entries

def nodesOfEnvironment : List (String × Expr) → List Expr
  | [] => []
  | (_, value) :: entries => value.nodes ++ nodesOfEnvironment entries

def nodesOfParameters : List Parameter → List Expr
  | [] => []
  | ⟨_, default?, _⟩ :: parameters => nodesOfOption default? ++ nodesOfParameters parameters

def nodesOfCatches : List Catch → List Expr
  | [] => []
  | ⟨_, typeRef, body⟩ :: catches => nodesOfOption typeRef ++ body.nodes ++ nodesOfCatches catches
end

theorem nodesOfAll_eq (es : List Expr) : nodesOfAll es = es.flatMap Expr.nodes := by
  induction es with
  | nil => rfl
  | cons e es ih => simp [nodesOfAll, ih]

theorem nodesOfOption_eq (e : Option Expr) : nodesOfOption e = e.toList.flatMap Expr.nodes := by
  cases e <;> simp [nodesOfOption]

theorem nodesOfEntries_eq (entries : List (Expr × Expr)) :
    nodesOfEntries entries =
      (entries.flatMap fun entry => [entry.1, entry.2]).flatMap Expr.nodes := by
  induction entries with
  | nil => rfl
  | cons entry entries ih => simp [nodesOfEntries, ih]

theorem nodesOfEnvironment_eq (entries : List (String × Expr)) :
    nodesOfEnvironment entries = (entries.map Prod.snd).flatMap Expr.nodes := by
  induction entries with
  | nil => rfl
  | cons entry entries ih => simp [nodesOfEnvironment, ih]

theorem nodesOfParameters_eq (parameters : List Parameter) :
    nodesOfParameters parameters = (parameters.flatMap Parameter.children).flatMap Expr.nodes := by
  induction parameters with
  | nil => rfl
  | cons parameter parameters ih =>
    obtain ⟨_, _, _⟩ := parameter
    simp [nodesOfParameters, nodesOfOption_eq, Parameter.children, ih]

theorem nodesOfCatches_eq (catches : List Catch) :
    nodesOfCatches catches = (catches.flatMap Catch.children).flatMap Expr.nodes := by
  induction catches with
  | nil => rfl
  | cons clause catches ih =>
    obtain ⟨_, _, _⟩ := clause
    simp [nodesOfCatches, nodesOfOption_eq, Catch.children, ih]

theorem ExprKind.nodes_eq (kind : ExprKind) : kind.nodes = kind.children.flatMap Expr.nodes := by
  cases kind
  case call made =>
    obtain ⟨_, _, _, _, _, _, _⟩ := made
    simp [ExprKind.nodes, ExprKind.children, nodesOfCall, Call.children, nodesOfAll_eq,
      nodesOfOption_eq, nodesOfEnvironment_eq]
  all_goals
    simp [ExprKind.nodes, ExprKind.children, nodesOfAll_eq, nodesOfOption_eq, nodesOfEntries_eq,
      nodesOfParameters_eq, nodesOfCatches_eq]

/-- Every node comes before what is below it. -/
theorem Expr.nodes_eq (e : Expr) : e.nodes = e :: e.children.flatMap Expr.nodes := by
  cases e
  simp [Expr.nodes, Expr.children, ExprKind.nodes_eq]

/-- All nodes of a source file. -/
def Ast.nodes (ast : Ast) : List Expr := nodesOfAll ast.expressions

end ShellSema
