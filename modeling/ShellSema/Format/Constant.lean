import ShellSema.Constant
import ShellSema.Format.Source

/-!
# Constants in unit files
-/
namespace ShellSema

def TypeTarget.toJson : TypeTarget → Json
  | .standard name => .variant "Std" (.object [("name", .string name)])
  | .struct id => .variant "Struct" id.toJson

def TypeTarget.ofJson? (json : Json) : Option TypeTarget := do
  match ← json.alternative? with
  | ("Std", some payload) =>
    let record ← payload.record? ["name"]
    return .standard (← record.required "name" Json.string?)
  | ("Struct", some payload) => return .struct (← StructId.ofJson? payload)
  | _ => none

namespace Constant

def toJson : Constant → Json
  | .nil => .string "Nil"
  | .boolean value => .variant "Boolean" (.bool value)
  | .integer value => .variant "Integer" (.integer value.toInt)
  | .float value => .variant "Float" (.float value)
  | .string value isBareWord =>
    .variant "String" (.object [("value", .string value), ("is_text_argument", .bool isBareWord)])
  | .type target => .variant "Type" target.toJson

def ofJson? (json : Json) : Option Constant := do
  match ← json.alternative? with
  | ("Nil", payload) => if Json.carriesNothing payload then some .nil else none
  | ("Boolean", some payload) => return .boolean (← payload.bool?)
  | ("Integer", some payload) => return .integer (← payload.int64?)
  | ("Float", some payload) => return .float (← payload.float?)
  | ("String", some payload) =>
    let record ← payload.record? ["value", "is_text_argument"]
    return .string (← record.required "value" Json.string?)
      (← record.optional "is_text_argument" Json.bool? false)
  | ("Type", some payload) => return .type (← TypeTarget.ofJson? payload)
  | _ => none

end Constant
end ShellSema
