/-!
# TOML values and documents

A document grows statement by statement. How a table came to be decides what may be added to it:
a table is opened by one header only, an inline table is complete as it stands, and a dotted key
extends only tables that dotted keys made.
-/
namespace ShellSema.Toml

/-- How a table came to be. -/
inductive Origin where
  /-- Named on the way to another table in a header. -/
  | implied
  /-- Named on the way to a key. -/
  | dotted
  | header
  | inline
deriving DecidableEq, Repr

inductive Value where
  | string (value : String)
  /-- A number, boolean, date or time, as it is written. -/
  | scalar (text : String)
  | array (items : List Value)
  | table (origin : Origin) (entries : List (String × Value))
  /-- The tables that headers in double brackets open, one after the other. -/
  | tables (items : List (List (String × Value)))
deriving Repr, Inhabited

abbrev Entries := List (String × Value)

/-- Replace the value of a key that is there. -/
def replace (key : String) (value : Value) (entries : Entries) : Entries :=
  entries.map fun entry => if entry.1 = key then (key, value) else entry

/-- Go down along keys and change the table found there; tables that are missing are made. On the
way of a dotted key, tables that have a header are closed, but for the last one of an array. -/
def descend (dotted : Bool) (change : Origin → Entries → Option Entries) :
    List String → Origin → Entries → Option Entries
  | [], origin, entries => change origin entries
  | key :: path, _, entries =>
    match entries.lookup key with
    | none => do
      let origin := if dotted then .dotted else .implied
      let inner ← descend dotted change path origin []
      return entries ++ [(key, .table origin inner)]
    | some (.table origin inner) =>
      if origin = .inline ∨ (dotted ∧ origin = .header) then none
      else do
        let inner ← descend dotted change path origin inner
        return replace key (.table origin inner) entries
    | some (.tables items) =>
      match items.getLast? with
      | some last => do
        let last ← descend dotted change path .header last
        return replace key (.tables (items.dropLast ++ [last])) entries
      | none => none
    | some _ => none

/-- Give a key a value for the first time. The table of a dotted key is one that dotted keys made,
the table of a plain key is not. -/
def assignKey (path : List String) (key : String) (value : Value) (origin : Origin)
    (entries : Entries) : Option Entries :=
  descend true (fun origin entries =>
    if (origin = .dotted) ≠ (path ≠ []) then none
    else if (entries.lookup key).isSome then none
    else some (entries ++ [(key, value)])) path origin entries

/-- Open a table by its header: a new one, or one that other headers have implied. -/
def openTable (key : String) (_ : Origin) (entries : Entries) : Option Entries :=
  match entries.lookup key with
  | none => some (entries ++ [(key, .table .header [])])
  | some (.table .implied inner) => some (replace key (.table .header inner) entries)
  | some _ => none

/-- Open the next table of an array of tables. -/
def openItem (key : String) (_ : Origin) (entries : Entries) : Option Entries :=
  match entries.lookup key with
  | none => some (entries ++ [(key, .tables [[]])])
  | some (.tables items) => some (replace key (.tables (items ++ [[]])) entries)
  | some _ => none

/-- A line of a document. Paths are given as the keys before the last one, and that one. -/
inductive Statement where
  | table (path : List String) (key : String)
  | item (path : List String) (key : String)
  | assign (path : List String) (key : String) (value : Value)

/-- A document so far, and the table that its last header opened. -/
structure Document where
  entries : Entries := []
  current : List String := []

def Document.add? (document : Document) : Statement → Option Document
  | .table path key => do
    return ⟨← descend false (openTable key) path .header document.entries, path ++ [key]⟩
  | .item path key => do
    return ⟨← descend false (openItem key) path .header document.entries, path ++ [key]⟩
  | .assign path key value => do
    let entries ← descend false (assignKey path key value) document.current .header document.entries
    return { document with entries }

end ShellSema.Toml
