import ShellSema.Analysis.Imports
import ShellSema.Analysis.Walk

/-!
# Analysing a module

An analysis of a module resolves its imports and goes over its tree. The tree of scopes that comes
out holds what was declared and found, also when the analysis halts.
-/
namespace ShellSema

/-- What to do with a module that has been analysed before. -/
inductive AnalysisMode where
  /-- Give back the tree that the analysis left. -/
  | oncePerModule
  /-- Analyse the given tree in any case. -/
  | overwrite
deriving DecidableEq, Repr, Inhabited

/-- The end of an analysis: a result or a halt, and the tree of scopes. -/
structure Outcome (α : Type) where
  result : Except Halt α
  tree : ScopeTree

namespace Analysis

/-- Resolve the imports of a module and go over its expressions. -/
def walkModule (context : Context) (module : ModuleId) (ast : Ast) : Walk Ast := do
  Walk.resolveImports module
  return ⟨← Walk.exprs context ast.expressions⟩

def setStatus (module : ModuleId) (status : Status) : Walk Unit :=
  Walk.edit (ScopeTree.Edit.changeModule module fun m => { m with status })

def store (module : ModuleId) (ast : Ast) : Walk Unit :=
  Walk.edit (ScopeTree.Edit.changeModule module fun m => { m with stored := some ast })

/-- Analyse a module. It counts as analysed from the start, and as failed if the script has an
error; the tree is stored if later requests may ask for it. -/
def moduleWalk (registry : Registry) (mode : AnalysisMode) (module : ModuleId) (ast : Ast) :
    Walk Ast := do
  let scope := (← Walk.ask (·.module module)).scope
  -- Whatever happens, the module is not pending from here on.
  setStatus module .analysed
  let analysed ← tryCatch (walkModule { registry, scope, enclosing := none } module ast) fun
    | .failed error => do
      setStatus module .failed
      throw (.failed error)
    | .crashed crash => throw (.crashed crash)
  if mode = .oncePerModule then store module analysed
  return analysed

/-- The tree that an earlier analysis left, if it is to be used. -/
def stored? (tree : ScopeTree) (mode : AnalysisMode) (module : ModuleId) :
    Except ScopeTree.Fault (Option Ast) := do
  if mode = .overwrite then return none
  let m ← tree.module module
  return if m.status = .analysed then m.stored else none

/-- Analyse a module, or give back what an earlier analysis left. -/
def analyze (registry : Registry) (mode : AnalysisMode) (tree : ScopeTree) (module : ModuleId)
    (ast : Ast) : Outcome Ast :=
  match stored? tree mode module with
  | .error fault => ⟨.error (.crashed (.fault fault)), tree⟩
  | .ok (some stored) => ⟨.ok stored, tree⟩
  | .ok none =>
    let (result, state) := (moduleWalk registry mode module ast).run { tree }
    ⟨result, state.tree⟩

/-- The semantic tokens of a module, in the order of the source. -/
def semanticTokens (registry : Registry) (tree : ScopeTree) (module : ModuleId) (ast : Ast) :
    Outcome (List SemanticToken) :=
  let (result, state) :=
    (moduleWalk registry .overwrite module ast).run { tree, tokens := some #[] }
  ⟨result.map fun _ => SemanticToken.sorted (state.tokens.getD #[]).toList, state.tree⟩

end Analysis
end ShellSema
