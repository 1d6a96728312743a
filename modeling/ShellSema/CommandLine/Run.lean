import ShellSema.Analysis.Session
import ShellSema.CommandLine.Arguments
import ShellSema.CommandLine.Files
import ShellSema.Format.AnalysisUnit
import ShellSema.Library.Standard
import ShellSema.Scope.Label

/-!
# Running a command

A run reads the settings and the unit, and gives the text to print or the reason why there is none.
Nothing is printed by a run that fails.
-/
namespace ShellSema.CommandLine

/-- Why a run gives no text. -/
inductive Failure where
  | settingsUnreadable (path : String) (error : FileError)
  | settingsInvalid (path : String)
  | unitUnreadable (path : String) (error : FileError)
  | unitUnfit (path : String) (error : LoadError)
  | unknownModule (name : String)
  | noTree (label : String)
  | script (error : AnalysisError)
  | crashed (crash : Crash)
deriving DecidableEq

/-- The wording of a failure; a crash has none. -/
def Failure.message? : Failure → Option String
  | .settingsUnreadable path error =>
    some ("Failed to read config file '" ++ path ++ "': " ++ error.message)
  | .settingsInvalid path => some ("in config file '" ++ path ++ "': " ++ Settings.invalidMessage)
  | .unitUnreadable path error => some ("Failed to read file '" ++ path ++ "': " ++ error.message)
  | .unitUnfit path error => some ("in unit '" ++ path ++ "': " ++ error.message)
  | .unknownModule name => some ("unknown module '" ++ name ++ "'")
  | .noTree label => some ("unit has no tree for module '" ++ label ++ "'")
  | .script error => some error.message
  | .crashed _ => none

def Failure.ofHalt : Halt → Failure
  | .failed error => .script error
  | .crashed crash => .crashed crash

/-! ### Units -/

/-- A question to the tree; a handle that leads nowhere is a crash. -/
def ask {α : Type} (answer : Except ScopeTree.Fault α) : Except Failure α :=
  answer.mapError fun fault => .crashed (.fault fault)

/-- The unit with its trees analysed. -/
def analyzed (unit : AnalysisUnit) (mode : AnalysisMode) : Except Failure AnalysisUnit :=
  let session := Session.ofModules unit.scopes unit.modules
  let outcome := session.run Standard.bindings.toRegistry mode
  match outcome.result with
  | .ok modules => .ok { scopes := outcome.tree, modules }
  | .error halt => .error (.ofHalt halt)

/-- Texts, one on each line. -/
def lines (texts : List String) : String := String.join (texts.map (· ++ "\n"))

/-- One line for each module that was analysed. -/
def checkText (unit : AnalysisUnit) (mode : AnalysisMode) : Except Failure String := do
  let unit ← analyzed unit mode
  let labels ← unit.modules.mapM fun entry => ask (unit.scopes.label entry.module)
  return lines (labels.map ("ok " ++ ·))

/-- The analysed unit. -/
def dumpText (unit : AnalysisUnit) (mode : AnalysisMode) : Except Failure String := do
  return lines [(← analyzed unit mode).render]

/-- The module that is asked for: the root, unless another one is named. -/
def target (tree : ScopeTree) : Option String → Except Failure ModuleId
  | none => .ok ScopeTree.root
  | some name => do
    match ← ask (tree.writtenModule? name) with
    | some id => .ok id
    | none => .error (.unknownModule name)

/-- The semantic tokens of a module, after the analysis of the others. -/
def tokensText (unit : AnalysisUnit) (module : Option String) : Except Failure String := do
  let registry := Standard.bindings.toRegistry
  let target ← target unit.scopes module
  let (own, others) := unit.modules.partition (·.module = target)
  -- What the module imports has to be analysed before.
  let outcome := (Session.ofModules unit.scopes others).run registry .oncePerModule
  let _ ← outcome.result.mapError Failure.ofHalt
  match own.getLast? with
  | none => .error (.noTree (← ask (outcome.tree.label target)))
  | some entry =>
    let outcome := Analysis.semanticTokens registry outcome.tree target entry.ast
    let tokens ← outcome.result.mapError Failure.ofHalt
    return lines [(Json.array (tokens.map SemanticToken.toJson)).pretty]

/-! ### Files -/

/-- Where settings are looked for when no file is named. -/
def standardSettingsPath : String := "./shale.toml"

variable {m : Type → Type} [Monad m]

def readSettings (files : FileAccess m) (path : String) : m (Except Failure Settings) := do
  match ← files.read path with
  | .error error => return .error (.settingsUnreadable path error)
  | .ok text =>
    match Settings.parse? text with
    | some settings => return .ok settings
    | none => return .error (.settingsInvalid path)

/-- The settings of a named file, or of the standard one if there is such a file. -/
def settings (files : FileAccess m) : Option String → m (Except Failure Settings)
  | some path => readSettings files path
  | none => do
    if ← files.isFile standardSettingsPath then readSettings files standardSettingsPath
    else return .ok {}

def readUnit (files : FileAccess m) (path : String) : m (Except Failure AnalysisUnit) := do
  match ← files.read path with
  | .error error => return .error (.unitUnreadable path error)
  | .ok text => return (AnalysisUnit.load text).mapError (.unitUnfit path)

/-- Run a command under settings. -/
def Command.run (files : FileAccess m) (settings : Settings) :
    Command → m (Except Failure String)
  | .check path mode => do
    return (← readUnit files path) >>= (checkText · (settings.chooseMode mode))
  | .dump path mode => do
    return (← readUnit files path) >>= (dumpText · (settings.chooseMode mode))
  | .tokens path module => do return (← readUnit files path) >>= (tokensText · module)
  | .std => return .ok (lines Standard.bindings.moduleNames)

/-- Run what was asked for. The settings are read first, whatever the command. -/
def Invocation.run (files : FileAccess m) (invocation : Invocation) :
    m (Except Failure String) := do
  match ← settings files invocation.config with
  | .error failure => return .error failure
  | .ok settings => invocation.command.run files settings

end ShellSema.CommandLine
