import ShellSema.Scope.Tree
import ShellSema.Syntax.Nodes

/-!
# Units of analysis

A unit is a tree of scopes together with the syntax trees to analyse. `AnalysisUnit.problem?` finds
the first reason why a unit is not fit for analysis: a handle that leads nowhere, a body that is no
block, or a closure that is attached to something other than a call.
-/
namespace ShellSema

/-- A module and the tree of its source file. -/
structure ModuleTree where
  module : ModuleId
  ast : Ast

structure AnalysisUnit where
  scopes : ScopeTree
  modules : List ModuleTree := []

/-! ### What can be wrong -/

/-- What is wrong with one node of a tree. -/
inductive NodeProblem where
  | closureOnOther (span : Span) (kind : String)
  | bodyNotBlock (owner : String) (span : Span) (kind : String)
  | unknownBlockScope (span : Span) (scope : ScopeId)
  | undeclaredFunction (name : String) (id : FunctionId)
  | functionModule (name : String)
  | structModule (name : String)
deriving DecidableEq, Repr

inductive UnitProblem where
  | noRoot
  | moduleScope (module : String) (scope : ScopeId)
  | moduleSymbol (module : String)
  | importOrigin (name : String) (origin : ModuleId)
  | scopeLink (scope : Nat)
  | functionModule (name : String) (module : ModuleId)
  | listedModule (module : ModuleId)
  | node (module : String) (problem : NodeProblem)
deriving DecidableEq, Repr

def NodeProblem.message : NodeProblem → String
  | .closureOnOther span kind =>
    "closure at " ++ span.render ++ " is attached to a " ++ kind ++ ", expected a call"
  | .bodyNotBlock owner span kind =>
    owner ++ " at " ++ span.render ++ " has a " ++ kind ++ " body, expected a block"
  | .unknownBlockScope span scope =>
    "block at " ++ span.render ++ " uses unknown scope " ++ toString scope.index
  | .undeclaredFunction name id =>
    "function '" ++ name ++ "' has no declaration (id " ++ toString id.index ++ ")"
  | .functionModule name => "function '" ++ name ++ "' names unknown module"
  | .structModule name => "struct '" ++ name ++ "' names unknown module"

def UnitProblem.message : UnitProblem → String
  | .noRoot => "scope tree has no root module"
  | .moduleScope module scope =>
    "module '" ++ module ++ "' points at unknown scope " ++ toString scope.index
  | .moduleSymbol module => "module '" ++ module ++ "' refers to an unknown symbol"
  | .importOrigin name origin =>
    "import of '" ++ name ++ "' names unknown module " ++ toString origin.index
  | .scopeLink scope => "scope " ++ toString scope ++ " links to an unknown module or scope"
  | .functionModule name module =>
    "function '" ++ name ++ "' names unknown module " ++ toString module.index
  | .listedModule module => "unit lists unknown module " ++ toString module.index
  | .node module problem => "module " ++ module ++ ": " ++ problem.message

/-! ### Scopes and modules -/

namespace ScopeTree

/-- Whether every symbol that a module names exists. -/
def symbolsExist (tree : ScopeTree) (m : ScriptModule) : Bool :=
  (m.functions.values ++ m.importedFunctions.values).all tree.hasFunction &&
    (m.structs.values ++ m.importedStructs.values).all tree.hasStruct &&
    (m.submodules.values ++ m.importedModules.values ++ m.parent.toList).all tree.hasModule

def moduleProblem? (tree : ScopeTree) (m : ScriptModule) : Option UnitProblem :=
  if !tree.hasScope m.scope then some (.moduleScope m.name m.scope)
  else if !tree.symbolsExist m then some (.moduleSymbol m.name)
  else
    (m.importQueue.find? fun queued => !tree.hasModule queued.origin).map fun queued =>
      .importOrigin queued.token.text queued.origin

def scopeProblem? (tree : ScopeTree) (scope : Scope) (index : Nat) : Option UnitProblem :=
  if tree.hasModule scope.module && scope.parent.toList.all tree.hasScope then none
  else some (.scopeLink index)

def functionProblem? (tree : ScopeTree) (f : ScriptFunction) : Option UnitProblem :=
  if tree.hasModule f.module then none else some (.functionModule f.name f.module)

/-- The first problem of the tree itself. -/
def problem? (tree : ScopeTree) : Option UnitProblem :=
  if !tree.hasModule root then some .noRoot
  else
    (tree.modules.toList.findSome? tree.moduleProblem?).or <|
      (tree.scopes.toList.zipIdx.findSome? fun entry => tree.scopeProblem? entry.1 entry.2).or <|
        tree.functions.toList.findSome? tree.functionProblem?

end ScopeTree

/-! ### Syntax trees -/

/-- The places of a node that have to hold a block. -/
def ExprKind.bodies : ExprKind → List Expr
  | .moduleDecl _ _ body => [body]
  | .functionDecl _ _ _ body _ _ _ => [body]
  | .forEach _ _ body => [body]
  | .whileDo _ body => [body]
  | .tryCatch body catches => body :: catches.map Catch.body
  | .closure _ _ body _ _ => [body]
  | _ => []

def Expr.bodyProblem? (e : Expr) : Option NodeProblem :=
  (e.kind.bodies.find? fun body => !body.isBlock).map fun body =>
    .bodyNotBlock e.kindName e.span body.kindName

/-- The first problem in the shape of a node. -/
def Expr.shapeProblem? (e : Expr) : Option NodeProblem :=
  match e.kind with
  | .closure attached _ _ _ _ =>
    if attached.isCall then e.bodyProblem? else some (.closureOnOther e.span attached.kindName)
  | _ => e.bodyProblem?

/-- The first handle of a node that leads nowhere. -/
def ScopeTree.handleProblem? (tree : ScopeTree) (e : Expr) : Option NodeProblem :=
  match e.kind with
  | .block _ _ scope => if tree.hasScope scope then none else some (.unknownBlockScope e.span scope)
  | .functionDecl _ name _ _ module _ id =>
    if !tree.hasFunction id then some (.undeclaredFunction name.text id)
    else if !tree.hasModule module then some (.functionModule name.text)
    else none
  | .structDecl _ name _ module =>
    if tree.hasModule module then none else some (.structModule name.text)
  | _ => none

def ScopeTree.nodeProblem? (tree : ScopeTree) (e : Expr) : Option NodeProblem :=
  e.shapeProblem?.or (tree.handleProblem? e)

/-- The first problem of a listed module: the module itself, then the nodes of its tree. -/
def ScopeTree.listedProblem? (tree : ScopeTree) (listed : ModuleTree) : Option UnitProblem :=
  match tree.module listed.module with
  | .error _ => some (.listedModule listed.module)
  | .ok module => (listed.ast.nodes.findSome? tree.nodeProblem?).map (.node module.name)

/-- The first problem of a unit. -/
def AnalysisUnit.problem? (unit : AnalysisUnit) : Option UnitProblem :=
  unit.scopes.problem?.or (unit.modules.findSome? unit.scopes.listedProblem?)

end ShellSema
