import ShellSema.Table
import ShellSema.Signature

/-!
# Tables of signatures

A `Bindings` holds the functions, structs and types of a library by module, and answers as a
registry. Its modules do not nest.
-/
namespace ShellSema

structure LibraryModule where
  functions : Table StandardFunction := {}
  structs : Table StandardStruct := {}

structure Bindings where
  globals : Table StandardFunction := {}
  modules : Table LibraryModule := {}
  types : List String := []

namespace LibraryModule

/-- Enter functions and structs; one that comes later replaces one of the same name. -/
def extend (m : LibraryModule) (name : String) (functions : List StandardFunction)
    (structs : List StandardStruct) : LibraryModule :=
  { functions := functions.foldl (fun table f => table.insert f.name (f.inModule name)) m.functions
    structs := structs.foldl (fun table s => table.insert s.name { s with module := name })
      m.structs }

end LibraryModule

namespace Bindings

def registerGlobals (bindings : Bindings) (functions : List StandardFunction) : Bindings :=
  { bindings with
    globals := functions.foldl (fun table f => table.insert f.name f) bindings.globals }

/-- Enter a module, or add to one that is there. -/
def registerModule (bindings : Bindings) (name : String) (functions : List StandardFunction)
    (structs : List StandardStruct) : Bindings :=
  { bindings with
    modules := bindings.modules.insert name
      (((bindings.modules.get? name).getD {}).extend name functions structs) }

/-- A function of a module, or a global one for the empty path. -/
def function? (bindings : Bindings) (name : String) : List String → Option StandardFunction
  | [] => bindings.globals.get? name
  | [module] => (bindings.modules.get? module).bind fun m => m.functions.get? name
  | _ => none

def struct? (bindings : Bindings) (name module : String) : Option StandardStruct :=
  (bindings.modules.get? module).bind fun m => m.structs.get? name

def hasModule (bindings : Bindings) : List String → Bool
  | [module] => bindings.modules.contains module
  | _ => false

def type? (bindings : Bindings) (name : String) : Option String :=
  if bindings.types.contains name then some name else none

/-- The names of the modules in ascending order. -/
def moduleNames (bindings : Bindings) : List String :=
  bindings.modules.keys.mergeSort fun a b => a ≤ b

def toRegistry (bindings : Bindings) : Registry :=
  { function? := bindings.function?
    struct? := bindings.struct?
    hasModule := bindings.hasModule
    type? := bindings.type? }

end Bindings
end ShellSema
