import ShellSema.Proofs.Decoding
import ShellSema.Proofs.Trees

/-!
# Expressions are decoded

A construct is decoded from what it is written as if its subexpressions are. What an expression is
written as nests deeper than what its subexpressions are written as, so the reader, which goes as deep as
the value nests, comes to all of them.
-/
namespace ShellSema

/-! ### Rows of expressions -/

theorem exprsToJson_eq (es : List Expr) : exprsToJson es = es.map Expr.toJson := by
  induction es with
  | nil => rfl
  | cons e es ih => rw [exprsToJson, ih, List.map_cons]

theorem optionToJson_eq (e : Option Expr) : optionToJson e = Json.option Expr.toJson e := by
  cases e <;> rfl

theorem entriesToJson_eq (entries : List (Expr × Expr)) :
    entriesToJson entries = entries.map fun entry => .array [entry.1.toJson, entry.2.toJson] := by
  induction entries with
  | nil => rfl
  | cons entry entries ih => rw [entriesToJson, ih, List.map_cons]

theorem environmentToJson_eq (entries : List (String × Expr)) :
    environmentToJson entries =
      entries.map fun entry => .array [.string entry.1, entry.2.toJson] := by
  induction entries with
  | nil => rfl
  | cons entry entries ih => rw [environmentToJson, ih, List.map_cons]

def Parameter.toJson (p : Parameter) : Json :=
  .object [("name", p.name.toJson), ("default_value", .option Expr.toJson p.default?),
    ("is_variadic", .bool p.isVariadic)]

theorem parametersToJson_eq (parameters : List Parameter) :
    parametersToJson parameters = parameters.map Parameter.toJson := by
  induction parameters with
  | nil => rfl
  | cons p parameters ih =>
    obtain ⟨name, default?, isVariadic⟩ := p
    rw [parametersToJson, ih, optionToJson_eq]
    rfl

def Catch.toJson (clause : Catch) : Json :=
  .object [("identifier", .option Token.toJson clause.identifier),
    ("type_ref", .option Expr.toJson clause.typeRef), ("body", clause.body.toJson)]

theorem catchesToJson_eq (catches : List Catch) : catchesToJson catches = catches.map Catch.toJson := by
  induction catches with
  | nil => rfl
  | cons clause catches ih =>
    obtain ⟨identifier, typeRef, body⟩ := clause
    rw [catchesToJson, ih, optionToJson_eq]
    rfl

@[simp] theorem Expr.isNull_toJson (e : Expr) : e.toJson.isNull = false := by
  cases e
  rfl

/-! ### Reading rows of expressions -/

section Reading

variable {expr : Json → Option Expr}

theorem list?_exprsToJson {es : List Expr} (reads : ∀ e ∈ es, expr e.toJson = some e) :
    Json.list? expr (.array (exprsToJson es)) = some es := by
  rw [exprsToJson_eq]
  exact Json.list?_map reads

theorem option?_exprToJson {e : Option Expr} (reads : ∀ c ∈ e, expr c.toJson = some c) :
    Json.option? expr (.option Expr.toJson e) = some e :=
  Json.option?_option fun c member => ⟨reads c member, c.isNull_toJson⟩

theorem list?_entriesToJson {entries : List (Expr × Expr)}
    (reads : ∀ entry ∈ entries,
      expr entry.1.toJson = some entry.1 ∧ expr entry.2.toJson = some entry.2) :
    Json.list? (Json.pair? expr expr) (.array (entriesToJson entries)) = some entries := by
  rw [entriesToJson_eq]
  refine Json.list?_map fun entry member => ?_
  simp [Json.pair?, reads entry member]

theorem list?_environmentToJson {entries : List (String × Expr)}
    (reads : ∀ entry ∈ entries, expr entry.2.toJson = some entry.2) :
    Json.list? (Json.pair? Json.string? expr) (.array (environmentToJson entries)) =
      some entries := by
  rw [environmentToJson_eq]
  refine Json.list?_map fun entry member => ?_
  simp [Json.pair?, reads entry member]

theorem Parameter.read?_toJson {p : Parameter} (reads : ∀ c ∈ p.default?, expr c.toJson = some c) :
    read? expr p.toJson = some p := by
  obtain ⟨name, default?, isVariadic⟩ := p
  refine Json.decodes_record (by simp) (by decide) ?_
  simp only [↓Json.bind_eq_some_iff]
  simp [option?_exprToJson reads]

theorem list?_parametersToJson {parameters : List Parameter}
    (reads : ∀ c ∈ parameters.flatMap Parameter.children, expr c.toJson = some c) :
    Json.list? (Parameter.read? expr) (.array (parametersToJson parameters)) = some parameters := by
  rw [parametersToJson_eq]
  refine Json.list?_map fun p member => Parameter.read?_toJson fun c default => ?_
  exact reads c (List.mem_flatMap.mpr ⟨p, member, by simpa [Parameter.children] using default⟩)

theorem Catch.read?_toJson {clause : Catch}
    (reads : ∀ c ∈ clause.children, expr c.toJson = some c) :
    read? expr clause.toJson = some clause := by
  obtain ⟨identifier, typeRef, body⟩ := clause
  simp only [children, List.forall_mem_append, List.forall_mem_singleton] at reads
  refine Json.decodes_record (by simp) (by decide) ?_
  simp only [↓Json.bind_eq_some_iff]
  simp [Json.option?_option, option?_exprToJson (by simpa using reads.1), reads.2]

theorem list?_catchesToJson {catches : List Catch}
    (reads : ∀ c ∈ catches.flatMap Catch.children, expr c.toJson = some c) :
    Json.list? (Catch.read? expr) (.array (catchesToJson catches)) = some catches := by
  rw [catchesToJson_eq]
  refine Json.list?_map fun clause member => Catch.read?_toJson fun c child => ?_
  exact reads c (List.mem_flatMap.mpr ⟨clause, member, child⟩)

/-! ### Reading constructs -/

theorem Call.read?_toJson {made : Call} (reads : ∀ c ∈ made.children, expr c.toJson = some c) :
    read? expr made.toJson = some made := by
  obtain ⟨name, path, arguments, piped, environment, mode, findings⟩ := made
  simp only [children, List.forall_mem_append, List.forall_mem_map] at reads
  obtain ⟨⟨pipedReads, argumentReads⟩, valueReads⟩ := reads
  refine Json.decodes_record (by simp) (by decide) ?_
  simp only [↓Json.bind_eq_some_iff, optionToJson_eq]
  simp [Json.option?_option, list?_exprsToJson argumentReads,
    option?_exprToJson (by simpa using pipedReads), list?_environmentToJson valueReads]

/-- A construct is decoded from what it is written as if its subexpressions are. -/
theorem ExprKind.read?_toJson {kind : ExprKind} (reads : ∀ c ∈ kind.children, expr c.toJson = some c) :
    read? expr kind.toJson = some kind := by
  cases kind
  case' sequence form items => cases form
  all_goals
    simp only [children, List.forall_mem_cons, List.forall_mem_append, List.not_mem_nil] at reads
    -- The name chooses the branch, whose fields are then looked for in the payload.
    rw [toJson, read?]
    refine Option.bind_eq_some_iff.mpr ⟨_, Json.alternative?_variant _ _, ?_⟩
    refine Option.bind_eq_some_iff.mpr ⟨_, rfl, ?_⟩
  case call made => simp [Call.read?_toJson reads]
  case dictionary entries =>
    have both : ∀ entry ∈ entries,
        expr entry.1.toJson = some entry.1 ∧ expr entry.2.toJson = some entry.2 := fun entry member =>
      ⟨reads entry.1 (List.mem_flatMap.mpr ⟨entry, member, by simp⟩),
        reads entry.2 (List.mem_flatMap.mpr ⟨entry, member, by simp⟩)⟩
    simp [list?_entriesToJson both]
  case sequence.tuple | sequence.list | sequence.set | sequence.interpolation =>
    simp [Sequence.tag, Sequence.choices, list?_exprsToJson reads]
  all_goals
    refine Json.decodes_record (by simp) (by decide) ?_
    simp only [↓Json.bind_eq_some_iff, optionToJson_eq]
  case structDecl access name parameters module => simp [list?_parametersToJson reads]
  case functionDecl access name parameters body module takesClosure id =>
    simp [list?_parametersToJson reads.1, reads.2]
  case construct name path arguments target =>
    simp [list?_exprsToJson reads, Json.option?_option]
  case ifElse condition thenBranch elseBranch =>
    simp [reads.1, reads.2.1, option?_exprToJson (by simpa using reads.2.2)]
  case block expressions role scope => simp [list?_exprsToJson reads]
  case keyword token value => simp [option?_exprToJson (by simpa using reads)]
  case range lower upper inclusive =>
    simp [option?_exprToJson (by simpa using reads.1), option?_exprToJson (by simpa using reads.2)]
  case closure attached parameters body captured id =>
    simp [reads, Json.option?_option, Json.nameSet?_strings]
  case tryCatch body catches => simp [reads.1, list?_catchesToJson reads.2]
  all_goals simp [reads, Json.option?_option]

end Reading

/-! ### Nesting -/

namespace Json

theorem lt_depth_variant {n : Nat} {name : String} {payload : Json} (inside : n < payload.depth) :
    n < (variant name payload).depth := by
  simp only [variant, depth, depthOfMembers]
  omega

@[simp] theorem lt_depth_array {n : Nat} {items : List Json} :
    n < (array items).depth ↔ n ≤ depthOfAll items := Nat.lt_succ_iff

@[simp] theorem lt_depth_object {n : Nat} {members : List (String × Json)} :
    n < (object members).depth ↔ n ≤ depthOfMembers members := Nat.lt_succ_iff

@[simp] theorem le_depthOfMembers_cons {n : Nat} {member : String × Json}
    {members : List (String × Json)} :
    n ≤ depthOfMembers (member :: members) ↔ n ≤ member.2.depth ∨ n ≤ depthOfMembers members := by
  rw [depthOfMembers]
  omega

theorem depth_le_of_mem {items : List Json} {item : Json} (member : item ∈ items) :
    item.depth ≤ depthOfAll items := by
  induction items with
  | nil => cases member
  | cons first items ih =>
    rw [depthOfAll]
    rcases List.mem_cons.mp member with rfl | later
    · exact Nat.le_max_left _ _
    · exact (ih later).trans (Nat.le_max_right _ _)

theorem depth_lt_of_mem {items : List Json} {item : Json} (member : item ∈ items) :
    item.depth < (array items).depth :=
  lt_depth_array.mpr (depth_le_of_mem member)

end Json

theorem depth_lt_exprs {es : List Expr} {c : Expr} (member : c ∈ es) :
    c.toJson.depth < (Json.array (exprsToJson es)).depth := by
  rw [exprsToJson_eq]
  exact Json.depth_lt_of_mem (List.mem_map_of_mem member)

theorem depth_option {e : Option Expr} {c : Expr} (given : c ∈ e) :
    (optionToJson e).depth = c.toJson.depth := by
  cases given
  rfl

theorem Parameter.depth_lt {p : Parameter} {c : Expr} (child : c ∈ p.children) :
    c.toJson.depth < p.toJson.depth := by
  obtain ⟨name, default?, isVariadic⟩ := p
  rw [children, Option.mem_toList] at child
  simp [toJson, ← optionToJson_eq, depth_option child]

theorem Catch.depth_lt {clause : Catch} {c : Expr} (child : c ∈ clause.children) :
    c.toJson.depth < clause.toJson.depth := by
  obtain ⟨identifier, typeRef, body⟩ := clause
  rw [children, List.mem_append, Option.mem_toList, List.mem_singleton] at child
  rcases child with given | rfl
  · simp [toJson, ← optionToJson_eq, depth_option given]
  · simp [toJson]

theorem depth_lt_parameters {parameters : List Parameter} {c : Expr}
    (child : c ∈ parameters.flatMap Parameter.children) :
    c.toJson.depth < (Json.array (parametersToJson parameters)).depth := by
  obtain ⟨p, member, within⟩ := List.mem_flatMap.mp child
  rw [parametersToJson_eq]
  exact (Parameter.depth_lt within).trans (Json.depth_lt_of_mem (List.mem_map_of_mem member))

theorem depth_lt_catches {catches : List Catch} {c : Expr}
    (child : c ∈ catches.flatMap Catch.children) :
    c.toJson.depth < (Json.array (catchesToJson catches)).depth := by
  obtain ⟨clause, member, within⟩ := List.mem_flatMap.mp child
  rw [catchesToJson_eq]
  exact (Catch.depth_lt within).trans (Json.depth_lt_of_mem (List.mem_map_of_mem member))

theorem depth_lt_entries {entries : List (Expr × Expr)} {c : Expr}
    (child : c ∈ entries.flatMap fun entry => [entry.1, entry.2]) :
    c.toJson.depth < (Json.array (entriesToJson entries)).depth := by
  obtain ⟨entry, member, within⟩ := List.mem_flatMap.mp child
  rw [entriesToJson_eq]
  refine lt_of_lt_of_le ?_ (Json.depth_lt_of_mem (List.mem_map_of_mem member)).le
  refine Json.depth_lt_of_mem ?_
  simp only [List.mem_cons, List.not_mem_nil, or_false] at within ⊢
  rcases within with rfl | rfl <;> simp

theorem depth_lt_environment {entries : List (String × Expr)} {c : Expr}
    (child : c ∈ entries.map Prod.snd) :
    c.toJson.depth < (Json.array (environmentToJson entries)).depth := by
  obtain ⟨entry, member, rfl⟩ := List.mem_map.mp child
  rw [environmentToJson_eq]
  refine lt_of_lt_of_le ?_ (Json.depth_lt_of_mem (List.mem_map_of_mem member)).le
  exact Json.depth_lt_of_mem (by simp)

theorem Call.depth_lt {made : Call} {c : Expr} (child : c ∈ made.children) :
    c.toJson.depth < made.toJson.depth := by
  obtain ⟨name, path, arguments, piped, environment, mode, findings⟩ := made
  rw [children, List.mem_append, List.mem_append, Option.mem_toList] at child
  rw [toJson]
  rcases child with (given | member) | member
  · simp [depth_option given]
  · simp [(depth_lt_exprs member).le]
  · simp [(depth_lt_environment member).le]

theorem ExprKind.depth_lt {kind : ExprKind} {c : Expr} (child : c ∈ kind.children) :
    c.toJson.depth < kind.toJson.depth := by
  cases kind
  all_goals
    -- The subexpression is one of the fields, or lies within one of them.
    rw [toJson]
    refine Json.lt_depth_variant ?_
    simp only [children, List.mem_cons, List.mem_append, List.not_mem_nil, or_false,
      Option.mem_toList] at child
  case call made => exact made.depth_lt child
  case sequence form items => exact depth_lt_exprs child
  case dictionary entries => exact depth_lt_entries child
  case structDecl access name parameters module => simp [(depth_lt_parameters child).le]
  case functionDecl access name parameters body module takesClosure id =>
    rcases child with inside | rfl
    · simp [(depth_lt_parameters inside).le]
    · simp
  case construct name path arguments target => simp [(depth_lt_exprs child).le]
  case block expressions role scope => simp [(depth_lt_exprs child).le]
  case keyword token value => simp [depth_option child]
  case ifElse condition thenBranch elseBranch =>
    rcases child with rfl | rfl | given
    · simp
    · simp
    · simp [depth_option given]
  case range lower upper inclusive =>
    rcases child with given | given <;> simp [depth_option given]
  case tryCatch body catches =>
    rcases child with rfl | inside
    · simp
    · simp [(depth_lt_catches inside).le]
  case forEach | whileDo | binary | indexer | closure => rcases child with rfl | rfl <;> simp
  case letIn | unary | fieldAccess | moduleDecl => simp [child]

/-- What a subexpression is written as nests less deep. -/
theorem Expr.depth_lt {e c : Expr} (child : c ∈ e.children) : c.toJson.depth < e.toJson.depth := by
  obtain ⟨kind, span, isRoot, enclosing⟩ := e
  rw [Expr.toJson]
  simp [(ExprKind.depth_lt child).le]

/-! ### Reading trees -/

/-- A reader that goes as deep as the form of an expression nests reads the expression. -/
theorem Expr.readWithin?_toJson (e : Expr) :
    ∀ {n : Nat}, e.toJson.depth ≤ n → readWithin? n e.toJson = some e := by
  induction e using Expr.induction with
  | inherited e ih =>
    intro n within
    obtain ⟨kind, span, isRoot, enclosing⟩ := e
    cases n with
    -- An object nests, so the reader has a level left for its fields.
    | zero => simp [toJson, Json.depth] at within
    | succ n =>
      have reads : ∀ c ∈ kind.children, readWithin? n c.toJson = some c := fun c child =>
        ih c child (Nat.le_of_lt_succ ((Expr.depth_lt child).trans_le within))
      rw [toJson, readWithin?]
      refine Json.decodes_record ?_ (by decide) ?_
      · cases enclosing <;> simp
      · cases enclosing <;> simp [ExprKind.read?_toJson reads, Json.option?_of_isNull]

theorem Expr.ofJson?_toJson (e : Expr) : ofJson? e.toJson = some e := e.readWithin?_toJson le_rfl

theorem list?_parameters (parameters : List Parameter) :
    Json.list? Parameter.ofJson? (.array (parametersToJson parameters)) = some parameters :=
  list?_parametersToJson fun c _ => c.ofJson?_toJson

theorem Ast.ofJson?_toJson (ast : Ast) : ofJson? ast.toJson = some ast := by
  refine Json.decodes_record (by simp) (by decide) ?_
  simp [list?_exprsToJson fun e _ => e.ofJson?_toJson]

/-! ### Floating point numbers in trees -/

/-- The value that analysis stored at a node of this kind. -/
def ExprKind.constant? : ExprKind → Option Constant
  | .literal _ value => value
  | .fieldAccess _ _ fieldValue => fieldValue
  | _ => none

/-- The floating point numbers among the values that a tree stores. -/
def Expr.floats (e : Expr) : List Binary64 :=
  e.nodes.filterMap fun n => n.kind.constant?.bind Constant.float?

theorem faithful_parametersToJson {parameters : List Parameter}
    (faithful : ∀ c ∈ parameters.flatMap Parameter.children, c.toJson.Faithful) :
    ∀ json ∈ parametersToJson parameters, json.Faithful := by
  rw [parametersToJson_eq, List.forall_mem_map]
  intro p member
  obtain ⟨name, default?, isVariadic⟩ := p
  have given : ∀ c ∈ default?, c.toJson.Faithful := fun c given =>
    faithful c (List.mem_flatMap.mpr ⟨_, member, Option.mem_toList.mpr given⟩)
  simpa [Parameter.toJson] using given

theorem faithful_catchesToJson {catches : List Catch}
    (faithful : ∀ c ∈ catches.flatMap Catch.children, c.toJson.Faithful) :
    ∀ json ∈ catchesToJson catches, json.Faithful := by
  rw [catchesToJson_eq, List.forall_mem_map]
  intro clause member
  obtain ⟨identifier, typeRef, body⟩ := clause
  have all : ∀ c ∈ Catch.children ⟨identifier, typeRef, body⟩, c.toJson.Faithful := fun c child =>
    faithful c (List.mem_flatMap.mpr ⟨_, member, child⟩)
  simpa [Catch.toJson, Catch.children, or_imp, forall_and] using all

theorem faithful_entriesToJson {entries : List (Expr × Expr)}
    (faithful : ∀ c ∈ entries.flatMap fun entry => [entry.1, entry.2], c.toJson.Faithful) :
    ∀ json ∈ entriesToJson entries, json.Faithful := by
  rw [entriesToJson_eq, List.forall_mem_map]
  intro entry member
  have key := faithful entry.1 (List.mem_flatMap.mpr ⟨entry, member, by simp⟩)
  have value := faithful entry.2 (List.mem_flatMap.mpr ⟨entry, member, by simp⟩)
  simp [key, value]

theorem faithful_environmentToJson {entries : List (String × Expr)}
    (faithful : ∀ c ∈ entries.map Prod.snd, c.toJson.Faithful) :
    ∀ json ∈ environmentToJson entries, json.Faithful := by
  rw [environmentToJson_eq, List.forall_mem_map]
  intro entry member
  simp [faithful entry.2 (List.mem_map_of_mem member)]

theorem Call.faithful_toJson {made : Call} (faithful : ∀ c ∈ made.children, c.toJson.Faithful) :
    made.toJson.Faithful := by
  obtain ⟨name, path, arguments, piped, environment, mode, findings⟩ := made
  simp only [children, List.forall_mem_append, Option.mem_toList] at faithful
  obtain ⟨⟨pipedFaithful, argumentsFaithful⟩, valuesFaithful⟩ := faithful
  simpa [toJson, exprsToJson_eq, optionToJson_eq] using
    ⟨argumentsFaithful, pipedFaithful, faithful_environmentToJson valuesFaithful⟩

/-- Numbers apart, a construct is written faithfully if its subexpressions are. -/
theorem ExprKind.faithful_toJson {kind : ExprKind}
    (reads : ∀ x ∈ kind.constant?.bind Constant.float?, x.ReadsBack)
    (faithful : ∀ c ∈ kind.children, c.toJson.Faithful) : kind.toJson.Faithful := by
  cases kind
  all_goals
    simp only [children, List.forall_mem_cons, List.forall_mem_append, List.not_mem_nil,
      Option.mem_toList] at faithful
    rw [toJson, Json.faithful_variant]
  case call made => exact made.faithful_toJson faithful
  case dictionary entries => simpa using faithful_entriesToJson faithful
  case structDecl access name parameters module => simpa using faithful_parametersToJson faithful
  case functionDecl access name parameters body module takesClosure id =>
    simpa [faithful.2.1] using faithful_parametersToJson faithful.1
  case tryCatch body catches => simpa [faithful.1] using faithful_catchesToJson faithful.2
  case sequence | construct | block => simpa [exprsToJson_eq] using faithful
  case ifElse | keyword | range => simpa [optionToJson_eq] using faithful
  case literal token value | fieldAccess object field value =>
    -- Only what analysis has stored may be a floating point number.
    have stored : ∀ a, value = some a → a.toJson.Faithful := by
      rintro a rfl
      exact Constant.faithful_toJson reads
    simpa [faithful] using stored
  all_goals simp [faithful]

/-- An expression is written faithfully if its floating point numbers are. -/
theorem Expr.faithful_toJson {e : Expr} (reads : ∀ x ∈ e.floats, x.ReadsBack) :
    e.toJson.Faithful := by
  induction e using Expr.induction with
  | inherited e ih =>
    obtain ⟨kind, span, isRoot, enclosing⟩ := e
    have below : kind.toJson.Faithful := by
      refine ExprKind.faithful_toJson (fun x own => reads x ?_) fun c child => ?_
      · exact List.mem_filterMap.mpr ⟨_, mem_nodes_self _, own⟩
      · exact ih c child fun x inside => reads x (((nodes_sublist child).filterMap _).subset inside)
    rw [toJson]
    cases enclosing <;> simp [below]

end ShellSema
