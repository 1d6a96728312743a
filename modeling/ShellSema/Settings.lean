import ShellSema.Analysis.Run
import ShellSema.Text.Blank
import ShellSema.Toml.Reader

/-!
# Settings

A settings file has two optional sections, for the analysis and for the log. Names that are not
known are refused.
-/
namespace ShellSema

structure Settings where
  mode : AnalysisMode := .oncePerModule
  logFilter : Option String := none
deriving DecidableEq, Repr

/-- The name of a mode in settings and on the command line. -/
def AnalysisMode.name : AnalysisMode → String
  | .oncePerModule => "once-per-module"
  | .overwrite => "overwrite"

def AnalysisMode.named? (name : String) : Option AnalysisMode :=
  [AnalysisMode.oncePerModule, .overwrite].find? fun mode => mode.name = name

namespace Settings

/-- An empty table or array, which a named alternative without a value may carry. -/
def carriesNothing : Toml.Value → Bool
  | .table _ entries => entries.isEmpty
  | .array items => items.isEmpty
  | .tables items => items.isEmpty
  | _ => false

def mode? : Toml.Value → Option AnalysisMode
  | .string name => AnalysisMode.named? name
  | .table _ [(name, payload)] => if carriesNothing payload then AnalysisMode.named? name else none
  | _ => none

def text? : Toml.Value → Option String
  | .string text => some text
  | _ => none

/-- A section with one field: a table with at most that key, or an array that starts with the
value of the field. -/
def section? {α : Type} (key : String) (decode : Toml.Value → Option α) :
    Toml.Value → Option (Option α)
  | .table _ [] => some none
  | .table _ [(name, value)] => if name = key then (decode value).map some else none
  | .array [] => some none
  | .array (value :: _) => (decode value).map some
  | .tables (first :: _) => (decode (.table .header first)).map some
  | _ => none

/-- Take a section of a settings file over. -/
def withSection? (settings : Settings) (entry : String × Toml.Value) : Option Settings :=
  match entry with
  | ("analysis", value) => do
    let mode ← section? "mode" mode? value
    return { settings with mode := mode.getD .oncePerModule }
  | ("log", value) => do
    let logFilter ← section? "filter" text? value
    return { settings with logFilter }
  | _ => none

/-- What is said about a settings file that is not in order. -/
def invalidMessage : String := "invalid configuration"

/-- The settings of a file's text, if it is in order. -/
def parse? (text : String) : Option Settings := do
  (← Toml.read? text).foldlM withSection? {}

/-! ### Choices -/

/-- A mode on the command line goes before the one in the settings. -/
def chooseMode (settings : Settings) (flag : Option AnalysisMode) : AnalysisMode :=
  flag.getD settings.mode

def defaultFilter : String := "warn"

/-- The first filter that is given, in the order of the flag, two variables of the environment and
the settings; without blanks at its ends, and the default one if nothing is left of it. -/
def chooseFilter (settings : Settings) (flag ownVariable sharedVariable : Option String) : String :=
  let given := flag.or (ownVariable.or (sharedVariable.or settings.logFilter))
  match given.map Text.trim with
  | some filter => if filter.isEmpty then defaultFilter else filter
  | none => defaultFilter

end Settings
end ShellSema
