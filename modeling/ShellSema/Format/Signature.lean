import ShellSema.Signature
import ShellSema.Json.Record

/-!
# Signatures of the standard library in unit files
-/
namespace ShellSema

namespace StandardFunction

def toJson (f : StandardFunction) : Json :=
  .object [("name", .string f.name), ("module", .option .string f.module?),
    ("min_argument_count", .natural f.minArguments.toNat),
    ("max_argument_count", .natural f.maxArguments.toNat),
    ("variadic_start", .option (fun n => .natural n.toNat) f.variadicStart),
    ("has_closure", .bool f.takesClosure),
    ("closure_parameter_count", .option (fun n => .natural n.toNat) f.closureParameters),
    ("consumes_pipe", .bool f.consumesPipe), ("starts_pipe_manually", .bool f.startsPipe)]

def ofJson? (json : Json) : Option StandardFunction := do
  let record ← json.record? ["name", "module", "min_argument_count", "max_argument_count",
    "variadic_start", "has_closure", "closure_parameter_count", "consumes_pipe",
    "starts_pipe_manually"]
  return { name := ← record.required "name" Json.string?
           module? := ← record.nullable "module" Json.string?
           minArguments := ← record.required "min_argument_count" Json.word64?
           maxArguments := ← record.required "max_argument_count" Json.word64?
           variadicStart := ← record.nullable "variadic_start" Json.word64?
           takesClosure := ← record.optional "has_closure" Json.bool? false
           closureParameters := ← record.nullable "closure_parameter_count" Json.word64?
           consumesPipe := ← record.optional "consumes_pipe" Json.bool? false
           startsPipe := ← record.optional "starts_pipe_manually" Json.bool? false }

end StandardFunction

namespace StandardStruct

def toJson (s : StandardStruct) : Json :=
  .object [("name", .string s.name), ("module", .string s.module),
    ("min_argument_count", .natural s.minArguments.toNat),
    ("max_argument_count", .natural s.maxArguments.toNat),
    ("variadic_start", .option (fun n => .natural n.toNat) s.variadicStart)]

def ofJson? (json : Json) : Option StandardStruct := do
  let record ← json.record?
    ["name", "module", "min_argument_count", "max_argument_count", "variadic_start"]
  return { name := ← record.required "name" Json.string?
           module := ← record.required "module" Json.string?
           minArguments := ← record.required "min_argument_count" Json.word64?
           maxArguments := ← record.required "max_argument_count" Json.word64?
           variadicStart := ← record.nullable "variadic_start" Json.word64? }

end StandardStruct
end ShellSema
