import ShellSema.Json.Basic
import ShellSema.Table
import ShellSema.NameSet

/-!
# Reading values out of JSON

Records are objects, where unknown members are passed over and a known one may come once, or arrays
of their fields in order, where fields at the end may be missing. An alternative is a string with
its name, or an object with one member that carries a value.
-/
namespace ShellSema.Json

/-! ### Plain values -/

def bool? : Json → Option Bool
  | .bool value => some value
  | _ => none

def string? : Json → Option String
  | .string value => some value
  | _ => none

def integer? : Json → Option Int
  | .number (.integer value) => some value
  | _ => none

/-- A whole number below a bound. -/
def below? (bound : Nat) (json : Json) : Option Nat := do
  let value ← json.integer?
  if 0 ≤ value ∧ value < bound then some value.toNat else none

def word32? (json : Json) : Option UInt32 := (json.below? (2 ^ 32)).map UInt32.ofNat

def word64? (json : Json) : Option UInt64 := (json.below? (2 ^ 64)).map UInt64.ofNat

def int64? (json : Json) : Option Int64 := do
  let value ← json.integer?
  if -(2 ^ 63) ≤ value ∧ value < 2 ^ 63 then some (Int64.ofInt value) else none

/-- Any number; a whole one is rounded. -/
def float? : Json → Option Binary64
  | .number (.integer value) => some (Binary64.ofInt value)
  | .number (.float value) => some value
  | _ => none

/-! ### Containers -/

variable {α β : Type}

def list? (decode : Json → Option α) : Json → Option (List α)
  | .array items => items.mapM decode
  | _ => none

def pair? (first : Json → Option α) (second : Json → Option β) : Json → Option (α × β)
  | .array [a, b] => do return (← first a, ← second b)
  | _ => none

/-- An object from names to values, where the last of two members of one name counts. -/
def table? (decode : Json → Option α) : Json → Option (Table α)
  | .object members => do
    let pairs ← members.mapM fun member => do return (member.1, ← decode member.2)
    return Table.ofList pairs
  | _ => none

def ofTable (encode : α → Json) (table : Table α) : Json :=
  .object (table.entries.map fun entry => (entry.1, encode entry.2))

def nameSet? (json : Json) : Option NameSet := do
  return NameSet.ofList (← json.list? string?)

/-- Null stands for an absent value. -/
def option? (decode : Json → Option α) : Json → Option (Option α)
  | .null => some none
  | json => (decode json).map some

/-! ### Records -/

/-- The fields of a record that are given. -/
structure Record where
  fields : List (String × Json)

def record? (names : List String) : Json → Option Record
  | .object members =>
    let known := members.filter fun member => names.contains member.1
    if (known.map Prod.fst).Nodup then some ⟨known⟩ else none
  | .array items =>
    if items.length ≤ names.length then some ⟨names.zip items⟩ else none
  | _ => none

namespace Record

def required (record : Record) (name : String) (decode : Json → Option α) : Option α :=
  (record.fields.lookup name).bind decode

/-- A field that takes a default value when it is not given. -/
def optional (record : Record) (name : String) (decode : Json → Option α) (default : α) :
    Option α :=
  match record.fields.lookup name with
  | some json => decode json
  | none => some default

/-- A field that may be missing or null. -/
def nullable (record : Record) (name : String) (decode : Json → Option α) : Option (Option α) :=
  record.optional name (option? decode) none

end Record

/-! ### Alternatives -/

/-- The name of an alternative, and its value if it carries one. -/
def alternative? : Json → Option (String × Option Json)
  | .string name => some (name, none)
  | .object [(name, payload)] => some (name, some payload)
  | _ => none

/-- An alternative that carries nothing, or null. -/
def carriesNothing : Option Json → Bool
  | none => true
  | some json => json.isNull

/-- One of a list of values that are told apart by their names. -/
def choice? (choices : List α) (name : α → String) (json : Json) : Option α := do
  let (given, payload) ← json.alternative?
  if carriesNothing payload then choices.find? fun choice => name choice = given else none

end ShellSema.Json
