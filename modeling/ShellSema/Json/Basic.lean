import ShellSema.Number.Binary64

/-!
# JSON values

A value keeps what its readers tell apart: whole numbers of at most 64 bits from other numbers,
the order of members, and members of one name. A text may hold a value that no reader may use,
such as half of a surrogate pair; it stays in the tree as `unusable` and fails whoever asks for it.
-/
namespace ShellSema

/-- A number of a JSON text. -/
inductive Json.Number where
  | integer (value : Int)
  | float (value : Binary64)
deriving DecidableEq, Repr

inductive Json where
  | null
  | bool (value : Bool)
  | number (value : Json.Number)
  | string (value : String)
  | array (items : List Json)
  | object (members : List (String × Json))
  | unusable
deriving Repr, Inhabited

namespace Json

def integer (value : Int) : Json := .number (.integer value)

def natural (value : Nat) : Json := .integer value

def float (value : Binary64) : Json := .number (.float value)

def strings (values : List String) : Json := .array (values.map .string)

/-- An absent value is written as null. -/
def option {α : Type} (encode : α → Json) : Option α → Json
  | none => .null
  | some value => encode value

/-- An object with one member, the form of a named alternative that carries a value. -/
def variant (name : String) (payload : Json) : Json := .object [(name, payload)]

def isNull : Json → Bool
  | .null => true
  | _ => false

mutual
/-- How deep arrays and objects nest. -/
def depth : Json → Nat
  | .array items => depthOfAll items + 1
  | .object members => depthOfMembers members + 1
  | _ => 0

def depthOfAll : List Json → Nat
  | [] => 0
  | item :: items => max (depth item) (depthOfAll items)

def depthOfMembers : List (String × Json) → Nat
  | [] => 0
  | (_, value) :: members => max (depth value) (depthOfMembers members)
end

end Json
end ShellSema
