import ShellSema.CommandLine.Run

/-!
# The program

Files are read from the system, texts go to the standard output, and what went wrong goes to the
standard error output. The exit code is 0 for a run that gives a text, 1 for one that fails, 2 for
arguments that are refused, and 101 for a crash.
-/
namespace ShellSema.CommandLine

/-- What the system says about a file. -/
def FileError.ofSystem : IO.Error → FileError
  | .noFileOrDirectory _ _ _ => .missing
  | .inappropriateType _ code details | .permissionDenied _ code details
  | .resourceExhausted _ code details | .invalidArgument _ code details =>
    if code = 20 then .notDirectory else if code = 21 then .isDirectory
    else if code = 36 then .nameTooLong
    else .other (details ++ " (os error " ++ toString code ++ ")")
  | error => .other (toString error)

def readFile (path : String) : IO (Except FileError String) := do
  if path.contains '\x00' then return .error .badName
  try
    match String.fromUTF8? (← IO.FS.readBinFile path) with
    | some text => return .ok text
    | none => return .error .notText
  catch error => return .error (.ofSystem error)

/-- Whether a path leads to a file, readable or not. -/
def isFile (path : String) : IO Bool := do
  match ← readFile path with
  | .error .missing | .error .notDirectory | .error .isDirectory | .error .nameTooLong
  | .error .badName => return false
  | _ => return true

def usage : String :=
  "Usage: shale [--config FILE] [--log FILTER] COMMAND\n\n" ++
    "  check UNIT [--mode MODE]     analyse every module of a unit, report the first error\n" ++
    "  dump UNIT [--mode MODE]      analyse a unit and print it as JSON\n" ++
    "  tokens UNIT [--module PATH]  print the semantic tokens of a module as JSON\n" ++
    "  std                          list the modules of the standard library\n\n" ++
    "MODE is once-per-module or overwrite.\n"

/-- Run what some arguments ask for, and give the exit code. -/
def runArguments (arguments : List String) : IO UInt32 := do
  match Invocation.ofArguments arguments with
  | .error dismissal =>
    match dismissal with
    | .explained => IO.print usage
    | .refused => IO.eprint usage
    return dismissal.exitCode.toUInt32
  | .ok invocation =>
    match ← invocation.run { isFile, read := readFile } with
    | .ok text =>
      IO.print text
      return 0
    | .error failure =>
      match failure.message? with
      | some message =>
        IO.eprintln ("Error: " ++ message)
        return 1
      | none =>
        IO.eprintln "The unit is not put together well."
        return 101

end ShellSema.CommandLine

def main (arguments : List String) : IO UInt32 := ShellSema.CommandLine.runArguments arguments
