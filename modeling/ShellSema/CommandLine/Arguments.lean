import ShellSema.CommandLine.Path
import ShellSema.Settings

/-!
# Arguments

The arguments of a run are a command with its options. Options that choose the settings and the log
may stand before the command or after it; what comes later goes first. Each option is given once on
each side.
-/
namespace ShellSema.CommandLine

/-- What to do. -/
inductive Command where
  | check (unit : String) (mode : Option AnalysisMode)
  | dump (unit : String) (mode : Option AnalysisMode)
  | tokens (unit : String) (module : Option String)
  | std
deriving DecidableEq, Repr

/-- A command, the settings file and the log filter. -/
structure Invocation where
  command : Command
  config : Option String
  log : Option String
deriving DecidableEq, Repr

/-- Why there is nothing to run: the arguments ask for help, or they are wrong. -/
inductive Dismissal where
  | explained
  | refused
deriving DecidableEq, Repr

def Dismissal.exitCode : Dismissal → Nat
  | .explained => 0
  | .refused => 2

/-! ### The looks of an argument -/

inductive Argument where
  | terminator
  | long (name : String) (value : Option String)
  | short (letter : Char)
  | plain (text : String)
deriving DecidableEq, Repr

/-- A long option is cut at its first equals sign. A single hyphen is plain. -/
def Argument.ofString (text : String) : Argument :=
  match text.toList with
  | ['-', '-'] => .terminator
  | '-' :: '-' :: cs =>
    let name := String.ofList (cs.takeWhile (· ≠ '='))
    match cs.dropWhile (· ≠ '=') with
    | [] => .long name none
    | _ :: value => .long name (some (String.ofList value))
  | '-' :: letter :: _ => .short letter
  | _ => .plain text

/-! ### Values that are given -/

/-- What a value is for. -/
inductive Field where
  | config
  | log
  | mode
  | module
  | unit
deriving DecidableEq, Repr

structure Given where
  config : Option String := none
  log : Option String := none
  mode : Option AnalysisMode := none
  module : Option String := none
  unit : Option String := none
deriving DecidableEq, Repr

/-- Take over a value that is not there yet. -/
def once {α : Type} (present value : Option α) : Except Dismissal (Option α) :=
  if present.isNone ∧ value.isSome then .ok value else .error .refused

/-- Take a value over. Files have to be allowed, and modes known. -/
def Given.put (given : Given) (field : Field) (text : String) : Except Dismissal Given := do
  match field with
  | .config => return { given with config := ← once given.config (allowed? text) }
  | .log => return { given with log := ← once given.log (some text) }
  | .mode => return { given with mode := ← once given.mode (AnalysisMode.named? text) }
  | .module => return { given with module := ← once given.module (some text) }
  | .unit => return { given with unit := ← once given.unit (allowed? text) }

/-! ### After the command -/

inductive Verb where
  | check
  | dump
  | tokens
  | std
deriving DecidableEq, Repr

namespace Verb

def name : Verb → String
  | .check => "check"
  | .dump => "dump"
  | .tokens => "tokens"
  | .std => "std"

def all : List Verb := [.check, .dump, .tokens, .std]

def named? (text : String) : Option Verb := all.find? (·.name = text)

/-- The options that a command takes besides those that any command takes. -/
def takes : Verb → Field → Bool
  | .check, .mode | .dump, .mode | .tokens, .module => true
  | .check, .unit | .dump, .unit | .tokens, .unit => true
  | _, .config | _, .log => true
  | _, _ => false

end Verb

/-- The field that an option fills. -/
def option? : String → Option Field
  | "config" => some .config
  | "log" => some .log
  | "mode" => some .mode
  | "module" => some .module
  | _ => none

/-- The field that an option of a command fills. -/
def Verb.option? (verb : Verb) (name : String) : Option Field :=
  (CommandLine.option? name).filter verb.takes

/-- Take over an argument that is no option. -/
def Verb.putPlain (verb : Verb) (given : Given) (text : String) : Except Dismissal Given :=
  if verb.takes .unit then given.put .unit text else .error .refused

/-- Read the arguments after a command. An option may be waiting for its value. -/
def Verb.read (verb : Verb) (given : Given) (waiting : Option Field) :
    List String → Except Dismissal Given
  | [] => if waiting.isNone then .ok given else .error .refused
  | argument :: rest =>
    match waiting, Argument.ofString argument with
    | some field, .plain text => do verb.read (← given.put field text) none rest
    | some _, _ => .error .refused
    | none, .plain text => do verb.read (← verb.putPlain given text) none rest
    -- After two hyphens, nothing is an option any more.
    | none, .terminator => rest.foldlM verb.putPlain given
    | none, .short letter => .error (if letter = 'h' then .explained else .refused)
    | none, .long "help" none => .error .explained
    | none, .long name value =>
      match verb.option? name, value with
      | none, _ => .error .refused
      | some field, none => verb.read given (some field) rest
      | some field, some text => do verb.read (← given.put field text) none rest

/-- The command, if what it needs is given. -/
def Verb.command (verb : Verb) (given : Given) : Except Dismissal Command :=
  match verb, given.unit with
  | .check, some unit => .ok (.check unit given.mode)
  | .dump, some unit => .ok (.dump unit given.mode)
  | .tokens, some unit => .ok (.tokens unit given.module)
  | .std, _ => .ok .std
  | _, none => .error .refused

/-! ### Before the command -/

/-- Help is given on every command, and on itself. -/
def explain : List String → Dismissal
  | [] => .explained
  | [topic] => if topic = "help" || (Verb.named? topic).isSome then .explained else .refused
  | _ => .refused

/-- Values before the command. The last one is judged only when something comes after it; a request
for help after the command is answered first. -/
structure Leading where
  given : Given := {}
  last : Option (Field × String) := none

def Leading.settle (leading : Leading) : Except Dismissal Given :=
  match leading.last with
  | some (field, text) => leading.given.put field text
  | none => .ok leading.given

/-- Read a command and all that comes after it. -/
def Leading.invoke (leading : Leading) (verb : Verb) (rest : List String) :
    Except Dismissal Invocation := do
  let given ← verb.read {} none rest
  let command ← verb.command given
  let before ← leading.settle
  return { command, config := given.config.or before.config, log := given.log.or before.log }

/-- Read arguments from the front. An option may be waiting for its value. -/
def Leading.read (leading : Leading) (waiting : Option Field) :
    List String → Except Dismissal Invocation
  | [] => .error .refused
  | argument :: rest =>
    match waiting, Argument.ofString argument with
    | some field, .plain text => read { leading with last := some (field, text) } none rest
    | some _, _ => .error .refused
    -- Values that are still to be judged do not matter to a request for help.
    | none, .plain "help" => .error (explain rest)
    | none, .plain name =>
      match Verb.named? name with
      | some verb => leading.invoke verb rest
      | none => .error .refused
    | none, .terminator => .error .refused
    | none, .short letter => do
      let _ ← leading.settle
      .error (if letter = 'h' || letter = 'V' then .explained else .refused)
    | none, .long name value => do
      let given ← leading.settle
      match option? name, value with
      | some .config, none => read { given } (some .config) rest
      | some .log, none => read { given } (some .log) rest
      | some .config, some text => read { given := ← given.put .config text } none rest
      | some .log, some text => read { given := ← given.put .log text } none rest
      | _, none => .error (if name = "help" || name = "version" then .explained else .refused)
      | _, some _ => .error .refused

/-- What some arguments ask for. -/
def Invocation.ofArguments (arguments : List String) : Except Dismissal Invocation :=
  Leading.read {} none arguments

end ShellSema.CommandLine
