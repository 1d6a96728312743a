import ShellSema.Syntax.Basic
import ShellSema.Format.Constant
import ShellSema.Format.Signature

/-!
# Expressions in unit files

An expression is a record whose kind is an alternative named after the construct. Reading goes as
deep as the JSON value nests.
-/
namespace ShellSema

/-! ### Vocabularies -/

namespace UnaryOp

def choices : List UnaryOp := [.not, .negate]

def tag : UnaryOp → String
  | .not => "Not"
  | .negate => "Negate"

def ofJson? : Json → Option UnaryOp := Json.choice? choices tag

end UnaryOp

namespace BinaryOp

def choices : List BinaryOp :=
  [.add, .sub, .mul, .div, .mod, .pow, .eq, .ne, .gt, .lt, .ge, .le, .member, .and, .or, .coalesce,
    .assign, .pipe, .pipeError, .pipeAll, .andThen, .orElse]

def tag : BinaryOp → String
  | .add => "Add"
  | .sub => "Sub"
  | .mul => "Mul"
  | .div => "Div"
  | .mod => "Mod"
  | .pow => "Pow"
  | .eq => "Eq"
  | .ne => "Ne"
  | .gt => "Gt"
  | .lt => "Lt"
  | .ge => "Ge"
  | .le => "Le"
  | .member => "In"
  | .and => "And"
  | .or => "Or"
  | .coalesce => "Coalescing"
  | .assign => "Equals"
  | .pipe => "Pipe"
  | .pipeError => "PipeErr"
  | .pipeAll => "PipeAll"
  | .andThen => "NonRedirectingAnd"
  | .orElse => "NonRedirectingOr"

def ofJson? : Json → Option BinaryOp := Json.choice? choices tag

end BinaryOp

namespace Redirection

def choices : List Redirection := [.none, .output, .error, .all]

def tag : Redirection → String
  | .none => "None"
  | .output => "Output"
  | .error => "Error"
  | .all => "All"

def ofJson? : Json → Option Redirection := Json.choice? choices tag

end Redirection

namespace Access

def tag : Access → String
  | .restricted => "Private"
  | .exported => "Public"

def ofJson? : Json → Option Access := Json.choice? [.restricted, .exported] tag

end Access

namespace CallType

def choices : List CallType :=
  [.builtinExec, .builtinClosure, .builtinCall, .builtinSource, .standard, .function, .program]

def tag : CallType → String
  | .builtinExec => "BuiltInExec"
  | .builtinClosure => "BuiltInClosure"
  | .builtinCall => "BuiltInCall"
  | .builtinSource => "BuiltInSource"
  | .standard => "StdFunction"
  | .function => "Function"
  | .program => "Program"

def toJson (type : CallType) : Json := .string type.tag

def ofJson? : Json → Option CallType := Json.choice? choices tag

end CallType

namespace CallStyle

def tag : CallStyle → String
  | .parenthesized => "Parenthesized"
  | .bareWords => "TextArguments"

def ofJson? : Json → Option CallStyle := Json.choice? [.parenthesized, .bareWords] tag

end CallStyle

namespace BlockRole

def choices : List BlockRole := [.other, .module, .function, .closure, .loop]

def tag : BlockRole → String
  | .other => "Other"
  | .module => "Module"
  | .function => "Function"
  | .closure => "Closure"
  | .loop => "Loop"

def ofJson? : Json → Option BlockRole := Json.choice? choices tag

end BlockRole

namespace Sequence

def choices : List Sequence := [.tuple, .list, .set, .interpolation]

def tag : Sequence → String
  | .tuple => "Tuple"
  | .list => "List"
  | .set => "Set"
  | .interpolation => "StringInterpolation"

end Sequence

namespace StructTarget

def toJson : StructTarget → Json
  | .user id => .variant "User" id.toJson
  | .standard struct => .variant "Std" struct.toJson

def ofJson? (json : Json) : Option StructTarget := do
  match ← json.alternative? with
  | ("User", some payload) => return .user (← StructId.ofJson? payload)
  | ("Std", some payload) => return .standard (← StandardStruct.ofJson? payload)
  | _ => none

end StructTarget

/-! ### Writing -/

def tokensToJson (tokens : List Token) : Json := .array (tokens.map Token.toJson)

mutual
def Expr.toJson : Expr → Json
  | ⟨kind, span, isRoot, enclosing⟩ =>
    .object ([("kind", kind.toJson), ("span", span.toJson), ("is_root", .bool isRoot)] ++
      (enclosing.map fun around => ("enclosing", around.toJson)).toList)

def ExprKind.toJson : ExprKind → Json
  | .moduleDecl access name body => .variant "Module" (.object
      [("access", .string access.tag), ("name", name.toJson), ("body", body.toJson)])
  | .structDecl access name parameters module => .variant "Struct" (.object
      [("access", .string access.tag), ("name", name.toJson),
        ("parameters", .array (parametersToJson parameters)), ("module", module.toJson)])
  | .functionDecl access name parameters body module takesClosure id =>
    .variant "Function" (.object
      [("access", .string access.tag), ("name", name.toJson),
        ("parameters", .array (parametersToJson parameters)), ("body", body.toJson),
        ("module", module.toJson), ("has_closure", .bool takesClosure), ("id", id.toJson)])
  | .letIn identifiers value scope => .variant "Let" (.object
      [("identifiers", tokensToJson identifiers), ("value", value.toJson),
        ("scope", .option ScopeId.toJson scope)])
  | .construct name path arguments target => .variant "Construct" (.object
      [("name", name.toJson), ("module_path", tokensToJson path),
        ("arguments", .array (exprsToJson arguments)),
        ("symbol", .option StructTarget.toJson target)])
  | .ifElse condition thenBranch elseBranch => .variant "If" (.object
      [("condition", condition.toJson), ("then_branch", thenBranch.toJson),
        ("else_branch", optionToJson elseBranch)])
  | .forEach identifiers value body => .variant "For" (.object
      [("identifiers", tokensToJson identifiers), ("value", value.toJson), ("body", body.toJson)])
  | .whileDo condition body => .variant "While" (.object
      [("condition", condition.toJson), ("body", body.toJson)])
  | .sequence form items => .variant form.tag (.array (exprsToJson items))
  | .dictionary entries => .variant "Dictionary" (.array (entriesToJson entries))
  | .block expressions role scope => .variant "Block" (.object
      [("expressions", .array (exprsToJson expressions)), ("parent_kind", .string role.tag),
        ("scope", scope.toJson)])
  | .keyword token value => .variant "Keyword" (.object
      [("keyword", token.toJson), ("value", optionToJson value)])
  | .binary left op right => .variant "Binary" (.object
      [("left", left.toJson), ("op", .string op.tag), ("right", right.toJson)])
  | .unary op value => .variant "Unary" (.object
      [("op", .string op.tag), ("value", value.toJson)])
  | .fieldAccess object field fieldValue => .variant "FieldAccess" (.object
      [("object", object.toJson), ("field", field.toJson),
        ("field_value", .option Constant.toJson fieldValue)])
  | .range lower upper inclusive => .variant "Range" (.object
      [("from", optionToJson lower), ("to", optionToJson upper), ("inclusive", .bool inclusive)])
  | .indexer value index => .variant "Indexer" (.object
      [("value", value.toJson), ("index", index.toJson)])
  | .typeRef name target => .variant "TypeRef" (.object
      [("name", name.toJson), ("resolved", .option TypeTarget.toJson target)])
  | .variableRef name scope isCaptured => .variant "Variable" (.object
      [("name", name.toJson), ("scope", .option ScopeId.toJson scope),
        ("is_captured", .bool isCaptured)])
  | .call made => .variant "Call" made.toJson
  | .literal token value => .variant "Literal" (.object
      [("token", token.toJson), ("value", .option Constant.toJson value)])
  | .closure attached parameters body captured id => .variant "Closure" (.object
      [("call", attached.toJson), ("parameters", tokensToJson parameters), ("body", body.toJson),
        ("captured", .strings captured.names), ("id", .option ClosureId.toJson id)])
  | .tryCatch body catches => .variant "Try" (.object
      [("body", body.toJson), ("catches", .array (catchesToJson catches))])

def Call.toJson : Call → Json
  | ⟨name, path, arguments, piped, environment, mode, findings⟩ => .object
      [("name", name.toJson), ("module_path", tokensToJson path),
        ("arguments", .array (exprsToJson arguments)), ("style", .string mode.style.tag),
        ("call_type", .option CallType.toJson findings.callType),
        ("std_function", .option StandardFunction.toJson findings.standard),
        ("function", .option FunctionId.toJson findings.function),
        ("piped_to_program", optionToJson piped),
        ("redirection", .string mode.redirection.tag),
        ("disable_redirection_buffering", .bool mode.unbuffered),
        ("automatic_start", .bool mode.startsItself),
        ("is_reference", .bool mode.isReference),
        ("environment_variables", .array (environmentToJson environment)),
        ("closure_provider", .option FunctionId.toJson findings.closureProvider),
        ("scope", .option ScopeId.toJson findings.scope)]

def optionToJson : Option Expr → Json
  | none => .null
  | some e => e.toJson

def exprsToJson : List Expr → List Json
  | [] => []
  | e :: es => e.toJson :: exprsToJson es

def entriesToJson : List (Expr × Expr) → List Json
  | [] => []
  | (key, value) :: entries => .array [key.toJson, value.toJson] :: entriesToJson entries

def environmentToJson : List (String × Expr) → List Json
  | [] => []
  | (name, value) :: entries => .array [.string name, value.toJson] :: environmentToJson entries

def parametersToJson : List Parameter → List Json
  | [] => []
  | ⟨name, default?, isVariadic⟩ :: parameters =>
    .object [("name", name.toJson), ("default_value", optionToJson default?),
      ("is_variadic", .bool isVariadic)] :: parametersToJson parameters

def catchesToJson : List Catch → List Json
  | [] => []
  | ⟨identifier, typeRef, body⟩ :: catches =>
    .object [("identifier", .option Token.toJson identifier),
      ("type_ref", optionToJson typeRef), ("body", body.toJson)] :: catchesToJson catches
end

def Ast.toJson (ast : Ast) : Json := .object [("expressions", .array (exprsToJson ast.expressions))]

/-! ### Reading

The readers of constructs take the reader of subexpressions as an argument. -/

def Parameter.read? (expr : Json → Option Expr) (json : Json) : Option Parameter := do
  let record ← json.record? ["name", "default_value", "is_variadic"]
  return { name := ← record.required "name" Token.ofJson?
           default? := ← record.nullable "default_value" expr
           isVariadic := ← record.optional "is_variadic" Json.bool? false }

def Catch.read? (expr : Json → Option Expr) (json : Json) : Option Catch := do
  let record ← json.record? ["identifier", "type_ref", "body"]
  return { identifier := ← record.nullable "identifier" Token.ofJson?
           typeRef := ← record.nullable "type_ref" expr
           body := ← record.required "body" expr }

def Call.read? (expr : Json → Option Expr) (json : Json) : Option Call := do
  let record ← json.record? ["name", "module_path", "arguments", "style", "call_type",
    "std_function", "function", "piped_to_program", "redirection",
    "disable_redirection_buffering", "automatic_start", "is_reference", "environment_variables",
    "closure_provider", "scope"]
  return { name := ← record.required "name" Token.ofJson?
           path := ← record.optional "module_path" (Json.list? Token.ofJson?) []
           arguments := ← record.optional "arguments" (Json.list? expr) []
           piped := ← record.nullable "piped_to_program" expr
           environment := ← record.optional "environment_variables"
             (Json.list? (Json.pair? Json.string? expr)) []
           mode :=
             { style := ← record.optional "style" CallStyle.ofJson? .parenthesized
               redirection := ← record.optional "redirection" Redirection.ofJson? .none
               unbuffered := ← record.optional "disable_redirection_buffering" Json.bool? false
               startsItself := ← record.optional "automatic_start" Json.bool? true
               isReference := ← record.optional "is_reference" Json.bool? false }
           findings :=
             { callType := ← record.nullable "call_type" CallType.ofJson?
               standard := ← record.nullable "std_function" StandardFunction.ofJson?
               function := ← record.nullable "function" FunctionId.ofJson?
               closureProvider := ← record.nullable "closure_provider" FunctionId.ofJson?
               scope := ← record.nullable "scope" ScopeId.ofJson? } }

def ExprKind.read? (expr : Json → Option Expr) (json : Json) : Option ExprKind := do
  let (name, payload) ← json.alternative?
  let payload ← payload
  match name with
  | "Module" =>
    let record ← payload.record? ["access", "name", "body"]
    return .moduleDecl (← record.required "access" Access.ofJson?)
      (← record.required "name" Token.ofJson?) (← record.required "body" expr)
  | "Struct" =>
    let record ← payload.record? ["access", "name", "parameters", "module"]
    return .structDecl (← record.required "access" Access.ofJson?)
      (← record.required "name" Token.ofJson?)
      (← record.required "parameters" (Json.list? (Parameter.read? expr)))
      (← record.required "module" ModuleId.ofJson?)
  | "Function" =>
    let record ← payload.record?
      ["access", "name", "parameters", "body", "module", "has_closure", "id"]
    return .functionDecl (← record.required "access" Access.ofJson?)
      (← record.required "name" Token.ofJson?)
      (← record.required "parameters" (Json.list? (Parameter.read? expr)))
      (← record.required "body" expr) (← record.required "module" ModuleId.ofJson?)
      (← record.optional "has_closure" Json.bool? false)
      (← record.required "id" FunctionId.ofJson?)
  | "Let" =>
    let record ← payload.record? ["identifiers", "value", "scope"]
    return .letIn (← record.required "identifiers" (Json.list? Token.ofJson?))
      (← record.required "value" expr) (← record.nullable "scope" ScopeId.ofJson?)
  | "Construct" =>
    let record ← payload.record? ["name", "module_path", "arguments", "symbol"]
    return .construct (← record.required "name" Token.ofJson?)
      (← record.optional "module_path" (Json.list? Token.ofJson?) [])
      (← record.optional "arguments" (Json.list? expr) [])
      (← record.nullable "symbol" StructTarget.ofJson?)
  | "If" =>
    let record ← payload.record? ["condition", "then_branch", "else_branch"]
    return .ifElse (← record.required "condition" expr) (← record.required "then_branch" expr)
      (← record.nullable "else_branch" expr)
  | "For" =>
    let record ← payload.record? ["identifiers", "value", "body"]
    return .forEach (← record.required "identifiers" (Json.list? Token.ofJson?))
      (← record.required "value" expr) (← record.required "body" expr)
  | "While" =>
    let record ← payload.record? ["condition", "body"]
    return .whileDo (← record.required "condition" expr) (← record.required "body" expr)
  | "Dictionary" => return .dictionary (← payload.list? (Json.pair? expr expr))
  | "Block" =>
    let record ← payload.record? ["expressions", "parent_kind", "scope"]
    return .block (← record.required "expressions" (Json.list? expr))
      (← record.optional "parent_kind" BlockRole.ofJson? .other)
      (← record.required "scope" ScopeId.ofJson?)
  | "Keyword" =>
    let record ← payload.record? ["keyword", "value"]
    return .keyword (← record.required "keyword" Token.ofJson?) (← record.nullable "value" expr)
  | "Binary" =>
    let record ← payload.record? ["left", "op", "right"]
    return .binary (← record.required "left" expr) (← record.required "op" BinaryOp.ofJson?)
      (← record.required "right" expr)
  | "Unary" =>
    let record ← payload.record? ["op", "value"]
    return .unary (← record.required "op" UnaryOp.ofJson?) (← record.required "value" expr)
  | "FieldAccess" =>
    let record ← payload.record? ["object", "field", "field_value"]
    return .fieldAccess (← record.required "object" expr)
      (← record.required "field" Token.ofJson?)
      (← record.nullable "field_value" Constant.ofJson?)
  | "Range" =>
    let record ← payload.record? ["from", "to", "inclusive"]
    return .range (← record.nullable "from" expr) (← record.nullable "to" expr)
      (← record.optional "inclusive" Json.bool? false)
  | "Indexer" =>
    let record ← payload.record? ["value", "index"]
    return .indexer (← record.required "value" expr) (← record.required "index" expr)
  | "TypeRef" =>
    let record ← payload.record? ["name", "resolved"]
    return .typeRef (← record.required "name" Token.ofJson?)
      (← record.nullable "resolved" TypeTarget.ofJson?)
  | "Variable" =>
    let record ← payload.record? ["name", "scope", "is_captured"]
    return .variableRef (← record.required "name" Token.ofJson?)
      (← record.nullable "scope" ScopeId.ofJson?)
      (← record.optional "is_captured" Json.bool? false)
  | "Call" => return .call (← Call.read? expr payload)
  | "Literal" =>
    let record ← payload.record? ["token", "value"]
    return .literal (← record.required "token" Token.ofJson?)
      (← record.nullable "value" Constant.ofJson?)
  | "Closure" =>
    let record ← payload.record? ["call", "parameters", "body", "captured", "id"]
    return .closure (← record.required "call" expr)
      (← record.optional "parameters" (Json.list? Token.ofJson?) [])
      (← record.required "body" expr) (← record.optional "captured" Json.nameSet? {})
      (← record.nullable "id" ClosureId.ofJson?)
  | "Try" =>
    let record ← payload.record? ["body", "catches"]
    return .tryCatch (← record.required "body" expr)
      (← record.optional "catches" (Json.list? (Catch.read? expr)) [])
  | _ =>
    let form ← Sequence.choices.find? fun form => form.tag = name
    return .sequence form (← payload.list? expr)

/-- Read an expression that nests at most so deep. -/
def Expr.readWithin? : Nat → Json → Option Expr
  | 0, _ => none
  | depth + 1, json => do
    let record ← json.record? ["kind", "span", "is_root", "enclosing"]
    return { kind := ← record.required "kind" (ExprKind.read? (Expr.readWithin? depth))
             span := ← record.optional "span" Span.ofJson? {}
             isRoot := ← record.optional "is_root" Json.bool? false
             enclosing := ← record.nullable "enclosing" Enclosing.ofJson? }

def Expr.ofJson? (json : Json) : Option Expr := Expr.readWithin? json.depth json

def Parameter.ofJson? : Json → Option Parameter := Parameter.read? Expr.ofJson?

def Ast.ofJson? (json : Json) : Option Ast := do
  let record ← json.record? ["expressions"]
  return ⟨← record.required "expressions" (Json.list? Expr.ofJson?)⟩

end ShellSema
