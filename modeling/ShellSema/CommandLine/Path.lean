import ShellSema.Text.Parts

/-!
# Paths of files

Paths on the command line have to stay below where they start. A path is judged by its text alone;
no file is looked at.
-/
namespace ShellSema.CommandLine

/-- The parts of a path between slashes. -/
def segments (path : String) : List String :=
  (Text.slashParts path.toList).map String.ofList

/-- Whether no part of a path goes up. -/
def neverAscends (path : String) : Bool := !(segments path).contains ".."

/-- What is said about a path that goes up. -/
def ascentMessage : String :=
  "Parent directory components ('..') are not allowed in file paths."

/-- A path that may be used. -/
def allowed? (path : String) : Option String := if neverAscends path then some path else none

end ShellSema.CommandLine
