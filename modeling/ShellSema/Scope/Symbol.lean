import ShellSema.Table
import ShellSema.Syntax.Basic

/-!
# Scopes, modules and the symbols they declare
-/
namespace ShellSema

/-- How far the analysis of a module or function has come. -/
inductive Status where
  | pending
  | analysed
  | failed
deriving DecidableEq, Repr, Inhabited

/-- A variable. One that a closure captures has to outlive its scope. -/
structure Variable where
  name : String
  isCaptured : Bool := false
deriving DecidableEq, Repr, Inhabited

/-- The variable that holds the closure passed to a function. -/
def closureCarrier : String := "closure"

/-- A lexical scope. Only the root scope of a module has no parent. -/
structure Scope where
  parent : Option ScopeId
  module : ModuleId
  locals : Table Variable := {}

/-- The variables that a scope declares, by name. -/
def Scope.variables (scope : Scope) : Table Variable := scope.locals

/-- A function that a script declares. -/
structure ScriptFunction where
  name : String
  access : Access := .restricted
  module : ModuleId
  parameters : List Parameter := []
  takesClosure : Bool := false
  /-- The passed closure is used from within another closure. -/
  carrierCaptured : Bool := false
  status : Status := .pending

/-- A struct that a script declares. -/
structure ScriptStruct where
  name : String
  access : Access := .restricted
  module : ModuleId
  parameters : List Parameter := []

/-! ### Parameter lists -/

/-- Whether the last parameter takes any number of arguments. -/
def endsVariadic (parameters : List Parameter) : Bool :=
  match parameters.getLast? with
  | some last => last.isVariadic
  | none => false

/-- A parameter that each call has to give an argument for. -/
def Parameter.isRequired (p : Parameter) : Bool := p.default?.isNone && !p.isVariadic

def minArguments (parameters : List Parameter) : Nat := parameters.countP Parameter.isRequired

/-- The greatest number of arguments, if there is one. -/
def maxArguments? (parameters : List Parameter) : Option Nat :=
  if endsVariadic parameters then none else some parameters.length

/-! ### Modules -/

/-- A name that a module imports. What it stands for is found out in the analysis. -/
structure QueuedImport where
  origin : ModuleId
  token : Token
deriving DecidableEq, Repr

/-- A module: its place in the tree of modules, its root scope, the names it declares and imports,
and the tree that its last analysis left. -/
structure ScriptModule where
  name : String
  access : Access := .restricted
  parent : Option ModuleId := none
  scope : ScopeId
  submodules : Table ModuleId := {}
  importedModules : Table ModuleId := {}
  functions : Table FunctionId := {}
  importedFunctions : Table FunctionId := {}
  structs : Table StructId := {}
  importedStructs : Table StructId := {}
  importQueue : List QueuedImport := []
  status : Status := .pending
  stored : Option Ast := none

/-- Look a name up among what a module declares, then, if wanted, among what it imports. -/
def lookupDeclared {α : Type} (own imported : Table α) (name : String) (inImports : Bool) :
    Option α :=
  (own.get? name).or (if inImports then imported.get? name else none)

namespace ScriptModule

def function? (m : ScriptModule) (name : String) (inImports : Bool) : Option FunctionId :=
  lookupDeclared m.functions m.importedFunctions name inImports

def struct? (m : ScriptModule) (name : String) (inImports : Bool) : Option StructId :=
  lookupDeclared m.structs m.importedStructs name inImports

def submodule? (m : ScriptModule) (name : String) (inImports : Bool) : Option ModuleId :=
  lookupDeclared m.submodules m.importedModules name inImports

def importFunction (m : ScriptModule) (name : String) (id : FunctionId) : ScriptModule :=
  { m with importedFunctions := m.importedFunctions.insert name id }

def importStruct (m : ScriptModule) (name : String) (id : StructId) : ScriptModule :=
  { m with importedStructs := m.importedStructs.insert name id }

def importModule (m : ScriptModule) (name : String) (id : ModuleId) : ScriptModule :=
  { m with importedModules := m.importedModules.insert name id }

end ScriptModule
end ShellSema
