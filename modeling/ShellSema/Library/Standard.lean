import ShellSema.Library.Bindings

/-!
# The standard library

Which functions, structs and types a script can use without declaring them.
-/
namespace ShellSema.Standard

open StandardFunction

/-- The functions that need no module path. -/
def globals : List StandardFunction :=
  [ variadic "print" 0,
    variadic "println" 0,
    fixed "error" 1 2,
    fixed "exit" 0 1,
    fixed "assert" 1 2,
    fixed "str" 1 1,
    fixed "int" 1 1,
    fixed "float" 1 1,
    fixed "bool" 1 1,
    fixed "type" 1 1,
    fixed "len" 1 1,
    fixed "range" 1 3,
    fixed "first" 1 1,
    fixed "last" 1 1,
    fixed "join" 1 2,
    fixed "split" 1 2,
    fixed "sort" 1 1,
    fixed "zip" 2 2,
    (fixed "each" 1 1).withClosure 1,
    (fixed "map" 1 1).withClosure 1,
    (fixed "filter" 1 1).withClosure 1,
    (fixed "all" 1 1).withClosure 1,
    (fixed "any" 1 1).withClosure 1,
    (fixed "reduce" 1 2).withClosure 2,
    (fixed "lines" 1 1).consumingPipe,
    (fixed "disposeAll" 1 1).consumingPipe,
    (fixed "time" 1 1).startingPipe,
    fixed "cd" 0 1,
    fixed "scriptPath" 0 0 ]

/-- Functions on texts. -/
def texts : List StandardFunction :=
  [ fixed "upper" 1 1,
    fixed "lower" 1 1,
    fixed "trim" 1 1,
    fixed "trimStart" 1 1,
    fixed "trimEnd" 1 1,
    fixed "split" 1 3,
    fixed "contains" 2 2,
    fixed "startsWith" 2 2,
    fixed "endsWith" 2 2,
    fixed "replace" 3 3,
    fixed "repeat" 2 2,
    fixed "isDigit" 1 1,
    fixed "isWhitespace" 1 1,
    (fixed "lines" 1 1).consumingPipe,
    variadic "format" 1 ]

/-- Functions on rows of values. -/
def iteration : List StandardFunction :=
  [ fixed "enumerate" 1 1,
    fixed "reverse" 1 1,
    fixed "take" 2 2,
    fixed "skip" 2 2,
    (fixed "collect" 1 1).consumingPipe,
    variadic "chain" 1,
    fixed "count" 1 1,
    (fixed "takeWhile" 1 1).withClosure 1,
    (fixed "skipWhile" 1 1).withClosure 1,
    (fixed "find" 1 1).withClosure 1,
    (fixed "sortBy" 1 1).withClosure 1,
    (fixed "groupBy" 1 1).withClosure 1 ]

/-- Functions on files and the terminal. -/
def files : List StandardFunction :=
  [ fixed "input" 0 1,
    fixed "read" 1 1,
    fixed "write" 2 2,
    fixed "append" 2 2,
    fixed "exists" 1 1,
    fixed "remove" 1 1,
    fixed "readLines" 1 1,
    (fixed "stream" 1 1).consumingPipe ]

/-- Functions on the environment of the process. -/
def environment : List StandardFunction :=
  [ fixed "get" 1 2,
    fixed "set" 2 2,
    fixed "unset" 1 1,
    fixed "vars" 0 0,
    fixed "args" 0 0,
    fixed "home" 0 0,
    fixed "cwd" 0 0 ]

/-- Functions on numbers. -/
def mathematics : List StandardFunction :=
  [ fixed "abs" 1 1,
    fixed "ceil" 1 1,
    fixed "floor" 1 1,
    fixed "round" 1 2,
    fixed "sqrt" 1 1,
    fixed "pow" 2 2,
    fixed "log" 1 2,
    variadic "min" 1,
    variadic "max" 1,
    fixed "random" 0 2 ]

/-- Functions on dates and times. -/
def dates : List StandardFunction :=
  [ fixed "now" 0 0,
    fixed "today" 0 0,
    fixed "parse" 1 2,
    fixed "format" 2 2,
    fixed "sleep" 1 1 ]

/-- A struct made from so many arguments. -/
def struct (name : String) (minArguments maxArguments : UInt64) : StandardStruct :=
  { name, module := "", minArguments, maxArguments }

def fileStructs : List StandardStruct := [struct "File" 1 2, struct "Path" 1 1]

/-- A date has up to six parts, from year to second; a duration has five, from days to
milliseconds. -/
def dateStructs : List StandardStruct := [struct "DateTime" 0 6, struct "Duration" 0 5]

/-- The names that can stand for types. -/
def types : List String :=
  ["Integer", "Float", "String", "Boolean", "Nil", "List", "Tuple", "Set", "Dictionary", "Range",
    "Type", "Pipe", "Error", "Function", "Struct"]

def registerGlobals (bindings : Bindings) : Bindings := bindings.registerGlobals globals

def registerModules (bindings : Bindings) : Bindings :=
  ((((((bindings.registerModule "str" texts []).registerModule "iter" iteration []).registerModule
    "io" files fileStructs).registerModule "env" environment []).registerModule
    "math" mathematics []).registerModule "datetime" dates dateStructs)

/-- The whole standard library. -/
def bindings : Bindings := { registerModules (registerGlobals {}) with types }

end ShellSema.Standard
