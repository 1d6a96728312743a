/-!
# Handles

Scopes, modules, functions and structs stand in numbered stores, closures are numbered as the
analysis enters them, and all are referred to by number.
-/
namespace ShellSema

structure ScopeId where
  number : UInt32
deriving DecidableEq, Repr, Inhabited

structure ModuleId where
  number : UInt32
deriving DecidableEq, Repr, Inhabited

structure FunctionId where
  number : UInt32
deriving DecidableEq, Repr, Inhabited

structure StructId where
  number : UInt32
deriving DecidableEq, Repr, Inhabited

structure ClosureId where
  number : UInt32
deriving DecidableEq, Repr, Inhabited

def ScopeId.index (id : ScopeId) : Nat := id.number.toNat
def ModuleId.index (id : ModuleId) : Nat := id.number.toNat
def FunctionId.index (id : FunctionId) : Nat := id.number.toNat
def StructId.index (id : StructId) : Nat := id.number.toNat
def ClosureId.index (id : ClosureId) : Nat := id.number.toNat

/-- The function or closure that lies around a piece of code. -/
inductive Enclosing where
  | function (id : FunctionId)
  | closure (id : ClosureId)
deriving DecidableEq, Repr, Inhabited

end ShellSema
