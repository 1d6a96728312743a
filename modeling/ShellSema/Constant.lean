import ShellSema.Handle
import ShellSema.Number.Decimal

/-!
# Constants

The values that literals denote.
-/
namespace ShellSema

/-- What a type name stands for: a type of the standard library, or a struct. -/
inductive TypeTarget where
  | standard (name : String)
  | struct (id : StructId)
deriving DecidableEq, Repr, Inhabited

inductive Constant where
  | nil
  | boolean (value : Bool)
  | integer (value : Int64)
  | float (value : Binary64)
  | string (value : String) (isBareWord : Bool)
  | type (target : TypeTarget)
deriving DecidableEq, Repr, Inhabited

namespace Constant

def ofText (value : String) : Constant := .string value false

def ofBareWord (value : String) : Constant := .string value true

def text? : Constant → Option String
  | .string value _ => some value
  | _ => none

def typeName : Constant → String
  | .nil => "Nil"
  | .boolean _ => "Boolean"
  | .integer _ => "Integer"
  | .float _ => "Float"
  | .string _ _ => "String"
  | .type _ => "Type"

def render : Constant → String
  | .nil => "nil"
  | .boolean true => "true"
  | .boolean false => "false"
  | .integer value => toString value.toInt
  | .float value => value.render
  | .string value _ => value
  | .type (.standard name) => name
  | .type (.struct id) => "struct#" ++ toString id.index

end Constant
end ShellSema
