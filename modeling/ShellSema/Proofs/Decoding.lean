import ShellSema.Format.Scope
import ShellSema.Proofs.JsonParsing

/-!
# What is written is decoded

Each kind of value that a unit file holds is decoded from the form in which it is written. Records are
objects with the names of their fields, so a field is found by its name, and the default of a field is
taken only where the field is left out.
-/
namespace ShellSema

/-! ### Tables and sets -/

theorem assign_of_not_mem {α : Type} {name : String} {value : α} {entries : List (String × α)}
    (new : name ∉ entries.map Prod.fst) : assign name value entries = entries ++ [(name, value)] := by
  induction entries with
  | nil => rfl
  | cons entry entries ih =>
    obtain ⟨other, old⟩ := entry
    simp only [List.map_cons, List.mem_cons, not_or] at new
    simp [assign, Ne.symm new.1, ih new.2]

namespace Table

variable {α : Type}

theorem ext_entries {table other : Table α} (same : table.entries = other.entries) :
    table = other := by
  cases table
  cases other
  cases same
  rfl

/-- Names that are not in the table come behind those that are, in their order. -/
theorem entries_foldl_insert {pairs : List (String × α)} {table : Table α}
    (distinct : ((table.entries ++ pairs).map Prod.fst).Nodup) :
    (pairs.foldl (fun table pair => table.insert pair.1 pair.2) table).entries =
      table.entries ++ pairs := by
  induction pairs generalizing table with
  | nil => simp
  | cons pair pairs ih =>
    -- An entry of a name that is there already would have taken the place of the old one.
    have new : pair.1 ∉ table.entries.map Prod.fst := by
      rw [List.map_append, List.map_cons, List.nodup_append] at distinct
      intro member
      exact distinct.2.2 pair.1 member pair.1 List.mem_cons_self rfl
    have inserted : (table.insert pair.1 pair.2).entries = table.entries ++ [pair] :=
      assign_of_not_mem new
    rw [List.foldl_cons, ih (by rw [inserted]; simpa using distinct), inserted]
    simp

/-- The entries of a table make up the table again. -/
theorem ofList_entries (table : Table α) : ofList table.entries = table :=
  ext_entries (entries_foldl_insert table.distinct)

end Table

namespace NameSet

theorem ext_names {set other : NameSet} (same : set.names = other.names) : set = other := by
  cases set
  cases other
  cases same
  rfl

theorem placeName_of_greatest {name : String} {names : List String}
    (greatest : ∀ other ∈ names, other < name) : placeName name names = names ++ [name] := by
  induction names with
  | nil => rfl
  | cons other names ih =>
    have less := greatest other List.mem_cons_self
    have others := ih fun key member => greatest key (List.mem_cons_of_mem _ member)
    have notLess : ¬ name < other := fun greater => String.lt_asymm less greater
    have differs : name ≠ other := by
      rintro rfl
      exact String.lt_irrefl _ less
    simp [placeName, notLess, differs, others]

theorem names_union {names : List String} {set : NameSet}
    (ascending : (set.names ++ names).Pairwise (· < ·)) : (set.union names).names = set.names ++ names := by
  induction names generalizing set with
  | nil => simp [union]
  | cons name names ih =>
    have greatest : ∀ other ∈ set.names, other < name := fun other member =>
      (List.pairwise_append.mp ascending).2.2 other member name List.mem_cons_self
    have inserted : (set.insert name).names = set.names ++ [name] := placeName_of_greatest greatest
    change ((set.insert name).union names).names = _
    rw [ih (by rw [inserted]; simpa using ascending), inserted]
    simp

/-- The names of a set make up the set again. -/
theorem ofList_names (set : NameSet) : ofList set.names = set :=
  ext_names (names_union set.ascending)

end NameSet

namespace Json

variable {α β : Type} {encode : α → Json} {decode : Json → Option α}

/-! ### Plain values -/

@[simp] theorem bool?_bool (value : Bool) : bool? (.bool value) = some value := rfl

@[simp] theorem string?_string (value : String) : string? (.string value) = some value := rfl

@[simp] theorem float?_float (x : Binary64) : float? (.float x) = some x := rfl

theorem below?_natural {bound n : Nat} (below : n < bound) : below? bound (.natural n) = some n := by
  simp [below?, natural, integer, integer?, below]

@[simp] theorem word32?_natural (word : UInt32) : word32? (.natural word.toNat) = some word := by
  simp [word32?, below?_natural word.toNat_lt]

@[simp] theorem word64?_natural (word : UInt64) : word64? (.natural word.toNat) = some word := by
  simp [word64?, below?_natural word.toNat_lt]

@[simp] theorem int64?_integer (value : Int64) : int64? (.integer value.toInt) = some value := by
  have fits : -(2 ^ 63) ≤ value.toInt ∧ value.toInt < 2 ^ 63 := ⟨value.le_toInt, value.toInt_lt⟩
  simp only [int64?, integer, integer?, Option.bind_eq_bind, Option.bind_some, fits, and_self, if_true,
    Int64.ofInt_toInt]

@[simp] theorem faithful_null : Json.null.Faithful := .null

@[simp] theorem faithful_bool (value : Bool) : (Json.bool value).Faithful := .bool

@[simp] theorem faithful_string (value : String) : (Json.string value).Faithful := .string

@[simp] theorem faithful_word32 (word : UInt32) : (natural word.toNat).Faithful := by
  have bound := word.toNat_lt
  exact .integer (by omega) (by omega)

@[simp] theorem faithful_word64 (word : UInt64) : (natural word.toNat).Faithful := by
  have bound := word.toNat_lt
  exact .integer (by omega) (by omega)

@[simp] theorem faithful_int64 (value : Int64) : (integer value.toInt).Faithful := by
  have low := value.le_toInt
  have high := value.toInt_lt
  exact .integer (by omega) (by omega)

/-! ### Containers -/

@[simp] theorem faithful_array {items : List Json} :
    (Json.array items).Faithful ↔ ∀ item ∈ items, item.Faithful := by
  constructor
  · intro faithful
    cases faithful with
    | array all => exact all
  · exact .array

@[simp] theorem faithful_object {members : List (String × Json)} :
    (Json.object members).Faithful ↔ ∀ member ∈ members, member.2.Faithful := by
  constructor
  · intro faithful
    cases faithful with
    | object all => exact all
  · exact .object

@[simp] theorem faithful_variant {name : String} {payload : Json} :
    (variant name payload).Faithful ↔ payload.Faithful := by
  simp [variant]

@[simp] theorem faithful_option {value : Option α} :
    (option encode value).Faithful ↔ ∀ a ∈ value, (encode a).Faithful := by
  cases value <;> simp [option]

@[simp] theorem faithful_strings (values : List String) : (strings values).Faithful := by
  simp [strings]

@[simp] theorem faithful_ofTable {table : Table α} :
    (ofTable encode table).Faithful ↔ ∀ value ∈ table.values, (encode value).Faithful := by
  simp only [ofTable, Table.values, faithful_object, List.forall_mem_map]

theorem mapM_map {γ : Type} {write : β → γ} {read : γ → Option β} {values : List β}
    (each : ∀ value ∈ values, read (write value) = some value) :
    (values.map write).mapM read = some values := by
  induction values with
  | nil => rfl
  | cons value values ih =>
    have others := ih fun other member => each other (List.mem_cons_of_mem _ member)
    rw [List.map_cons, List.mapM_cons, each value List.mem_cons_self, others]
    rfl

theorem list?_map {values : List α} (each : ∀ value ∈ values, decode (encode value) = some value) :
    list? decode (.array (values.map encode)) = some values :=
  mapM_map each

@[simp] theorem isNull_string (value : String) : (Json.string value).isNull = false := rfl

@[simp] theorem isNull_natural (n : Nat) : (natural n).isNull = false := rfl

theorem option?_of_isNull {json : Json} {a : α} (decoded : decode json = some a)
    (given : json.isNull = false) : option? decode json = some (some a) := by
  rw [option?]
  · rw [decoded, Option.map_some]
  · rintro rfl
    cases given

/-- A value that is there is not written as null. -/
theorem option?_option {value : Option α}
    (each : ∀ a ∈ value, decode (encode a) = some a ∧ (encode a).isNull = false) :
    option? decode (option encode value) = some value := by
  cases value with
  | none => rfl
  | some a => exact option?_of_isNull (each a rfl).1 (each a rfl).2

theorem table?_ofTable {table : Table α}
    (each : ∀ value ∈ table.values, decode (encode value) = some value) :
    table? decode (ofTable encode table) = some table := by
  have pairs : (table.entries.map fun entry => (entry.1, encode entry.2)).mapM (fun member => do
      return (member.1, ← decode member.2)) = some table.entries := by
    refine mapM_map fun entry member => ?_
    rw [each entry.2 (List.mem_map_of_mem member)]
    rfl
  simp only [ofTable, table?, pairs]
  exact congrArg some table.ofList_entries

theorem nameSet?_strings (set : NameSet) : nameSet? (strings set.names) = some set := by
  rw [nameSet?, strings, list?_map fun name _ => string?_string name]
  exact congrArg some set.ofList_names

/-! ### Records -/

/-- Fields are read one after the other. As a rule for simp this is meant to be used from the outside,
so that a read is taken apart before what follows it. -/
theorem bind_eq_some_iff {x : Option α} {next : α → Option β} {b : β} :
    (x >>= next) = some b ↔ ∃ a, x = some a ∧ next a = some b :=
  Option.bind_eq_some_iff

theorem record?_object {names : List String} {members : List (String × Json)}
    (known : (members.map Prod.fst).Sublist names) (distinct : names.Nodup) :
    record? names (.object members) = some ⟨members⟩ := by
  have all : members.filter (fun member => names.contains member.1) = members := by
    refine List.filter_eq_self.mpr fun member inside => ?_
    simpa using known.subset (List.mem_map_of_mem inside)
  simp only [record?, all, known.nodup distinct, if_true]

/-- An object with fields of a record, in their order, is decoded as that record. -/
theorem decodes_record {names : List String} {members : List (String × Json)}
    {read : Record → Option α} {a : α} (known : (members.map Prod.fst).Sublist names)
    (distinct : names.Nodup) (given : read ⟨members⟩ = some a) :
    (record? names (.object members) >>= read) = some a := by
  rw [record?_object known distinct]
  exact given

@[simp] theorem required_cons {name key : String} {json : Json} {fields : List (String × Json)} :
    Record.required ⟨(key, json) :: fields⟩ name decode =
      if name = key then decode json else Record.required ⟨fields⟩ name decode := by
  by_cases same : name = key
  · simp [Record.required, same]
  · have other : (name == key) = false := by simpa using same
    simp [Record.required, List.lookup_cons, same, other]

@[simp] theorem optional_nil {name : String} {default : α} :
    Record.optional ⟨[]⟩ name decode default = some default := rfl

@[simp] theorem optional_cons {name key : String} {default : α} {json : Json}
    {fields : List (String × Json)} :
    Record.optional ⟨(key, json) :: fields⟩ name decode default =
      if name = key then decode json else Record.optional ⟨fields⟩ name decode default := by
  by_cases same : name = key
  · simp [Record.optional, same]
  · have other : (name == key) = false := by simpa using same
    simp [Record.optional, List.lookup_cons, same, other]

@[simp] theorem nullable_nil {name : String} : Record.nullable ⟨[]⟩ name decode = some none := rfl

@[simp] theorem nullable_cons {name key : String} {json : Json} {fields : List (String × Json)} :
    Record.nullable ⟨(key, json) :: fields⟩ name decode =
      if name = key then option? decode json else Record.nullable ⟨fields⟩ name decode :=
  optional_cons

/-! ### Alternatives -/

@[simp] theorem alternative?_variant (name : String) (payload : Json) :
    alternative? (variant name payload) = some (name, some payload) := rfl

/-- Alternatives that are told apart by their names are found by them. -/
theorem choice?_string {choices : List α} {name : α → String} (distinct : (choices.map name).Nodup)
    {a : α} (member : a ∈ choices) : choice? choices name (.string (name a)) = some a := by
  change choices.find? (fun choice => name choice = name a) = some a
  induction choices with
  | nil => cases member
  | cons choice choices ih =>
    rw [List.map_cons, List.nodup_cons] at distinct
    rcases List.mem_cons.mp member with rfl | later
    · simp
    · have differs : name choice ≠ name a := by
        intro same
        exact distinct.1 (same ▸ List.mem_map_of_mem later)
      simp [differs, ih distinct.2 later]

end Json

/-! ### Places, tokens and handles -/

@[simp] theorem Position.ofJson?_toJson (p : Position) : ofJson? p.toJson = some p := by
  refine Json.decodes_record (by simp) (by decide) ?_
  simp only [↓Json.bind_eq_some_iff]
  simp

@[simp] theorem Position.faithful_toJson (p : Position) : p.toJson.Faithful := by
  simp [toJson]

@[simp] theorem Span.ofJson?_toJson (s : Span) : ofJson? s.toJson = some s := by
  refine Json.decodes_record (by simp) (by decide) ?_
  simp only [↓Json.bind_eq_some_iff]
  simp

@[simp] theorem Span.faithful_toJson (s : Span) : s.toJson.Faithful := by
  simp [toJson]

@[simp] theorem TokenKind.ofJson?_toJson (kind : TokenKind) : ofJson? kind.toJson = some kind :=
  Json.choice?_string (by decide) (by cases kind <;> decide)

@[simp] theorem Token.ofJson?_toJson (token : Token) : ofJson? token.toJson = some token := by
  refine Json.decodes_record (by simp) (by decide) ?_
  simp only [↓Json.bind_eq_some_iff]
  simp

@[simp] theorem Token.faithful_toJson (token : Token) : token.toJson.Faithful := by
  simp [toJson, TokenKind.toJson]

@[simp] theorem Token.isNull_toJson (token : Token) : token.toJson.isNull = false := rfl

@[simp] theorem ScopeId.ofJson?_toJson (id : ScopeId) : ofJson? id.toJson = some id := by
  simp [ofJson?, toJson, index]

@[simp] theorem ModuleId.ofJson?_toJson (id : ModuleId) : ofJson? id.toJson = some id := by
  simp [ofJson?, toJson, index]

@[simp] theorem FunctionId.ofJson?_toJson (id : FunctionId) : ofJson? id.toJson = some id := by
  simp [ofJson?, toJson, index]

@[simp] theorem StructId.ofJson?_toJson (id : StructId) : ofJson? id.toJson = some id := by
  simp [ofJson?, toJson, index]

@[simp] theorem ClosureId.ofJson?_toJson (id : ClosureId) : ofJson? id.toJson = some id := by
  simp [ofJson?, toJson, index]

@[simp] theorem ScopeId.faithful_toJson (id : ScopeId) : id.toJson.Faithful :=
  Json.faithful_word32 id.number

@[simp] theorem ModuleId.faithful_toJson (id : ModuleId) : id.toJson.Faithful :=
  Json.faithful_word32 id.number

@[simp] theorem FunctionId.faithful_toJson (id : FunctionId) : id.toJson.Faithful :=
  Json.faithful_word32 id.number

@[simp] theorem StructId.faithful_toJson (id : StructId) : id.toJson.Faithful :=
  Json.faithful_word32 id.number

@[simp] theorem ClosureId.faithful_toJson (id : ClosureId) : id.toJson.Faithful :=
  Json.faithful_word32 id.number

@[simp] theorem ScopeId.isNull_toJson (id : ScopeId) : id.toJson.isNull = false := rfl

@[simp] theorem ModuleId.isNull_toJson (id : ModuleId) : id.toJson.isNull = false := rfl

@[simp] theorem FunctionId.isNull_toJson (id : FunctionId) : id.toJson.isNull = false := rfl

@[simp] theorem ClosureId.isNull_toJson (id : ClosureId) : id.toJson.isNull = false := rfl

@[simp] theorem Enclosing.ofJson?_toJson (around : Enclosing) : ofJson? around.toJson = some around := by
  cases around
  all_goals
    simp only [ofJson?, toJson, ↓Json.bind_eq_some_iff]
    simp

@[simp] theorem Enclosing.faithful_toJson (around : Enclosing) : around.toJson.Faithful := by
  cases around <;> simp [toJson]

@[simp] theorem Enclosing.isNull_toJson (around : Enclosing) : around.toJson.isNull = false := by
  cases around <;> rfl

/-! ### Signatures of the standard library -/

@[simp] theorem StandardFunction.ofJson?_toJson (f : StandardFunction) : ofJson? f.toJson = some f := by
  refine Json.decodes_record (by simp) (by decide) ?_
  simp only [↓Json.bind_eq_some_iff]
  simp [Json.option?_option]

@[simp] theorem StandardFunction.faithful_toJson (f : StandardFunction) : f.toJson.Faithful := by
  simp [toJson]

@[simp] theorem StandardFunction.isNull_toJson (f : StandardFunction) : f.toJson.isNull = false := rfl

@[simp] theorem StandardStruct.ofJson?_toJson (s : StandardStruct) : ofJson? s.toJson = some s := by
  refine Json.decodes_record (by simp) (by decide) ?_
  simp only [↓Json.bind_eq_some_iff]
  simp [Json.option?_option]

@[simp] theorem StandardStruct.faithful_toJson (s : StandardStruct) : s.toJson.Faithful := by
  simp [toJson]

@[simp] theorem StructTarget.ofJson?_toJson (target : StructTarget) :
    ofJson? target.toJson = some target := by
  cases target
  all_goals
    simp only [ofJson?, toJson, ↓Json.bind_eq_some_iff]
    simp

@[simp] theorem StructTarget.faithful_toJson (target : StructTarget) : target.toJson.Faithful := by
  cases target <;> simp [toJson]

@[simp] theorem StructTarget.isNull_toJson (target : StructTarget) :
    target.toJson.isNull = false := by
  cases target <;> rfl

/-! ### Constants -/

@[simp] theorem TypeTarget.ofJson?_toJson (target : TypeTarget) :
    ofJson? target.toJson = some target := by
  cases target with
  | standard name =>
    simp only [ofJson?, toJson, ↓Json.bind_eq_some_iff]
    refine ⟨_, Json.alternative?_variant _ _, ?_⟩
    refine Json.decodes_record (by simp) (by decide) ?_
    simp
  | struct id =>
    simp only [ofJson?, toJson, ↓Json.bind_eq_some_iff]
    simp

@[simp] theorem TypeTarget.faithful_toJson (target : TypeTarget) : target.toJson.Faithful := by
  cases target <;> simp [toJson]

@[simp] theorem TypeTarget.isNull_toJson (target : TypeTarget) : target.toJson.isNull = false := by
  cases target <;> rfl

@[simp] theorem Constant.ofJson?_toJson (value : Constant) : ofJson? value.toJson = some value := by
  cases value with
  | nil => rfl
  | string value isBareWord =>
    simp only [ofJson?, toJson, ↓Json.bind_eq_some_iff]
    refine ⟨_, Json.alternative?_variant _ _, ?_⟩
    refine Json.decodes_record (by simp) (by decide) ?_
    simp
  | _ =>
    simp only [ofJson?, toJson, ↓Json.bind_eq_some_iff]
    simp

/-- The floating point number that a constant is. -/
def Constant.float? : Constant → Option Binary64
  | .float x => some x
  | _ => none

theorem Constant.faithful_toJson {value : Constant} (reads : ∀ x ∈ value.float?, x.ReadsBack) :
    value.toJson.Faithful := by
  cases value with
  | float x => exact Json.faithful_variant.mpr (.float (reads x rfl))
  | _ => simp [toJson]

@[simp] theorem Constant.isNull_toJson (value : Constant) : value.toJson.isNull = false := by
  cases value <;> rfl

/-! ### Vocabularies -/

@[simp] theorem UnaryOp.ofJson?_tag (op : UnaryOp) : ofJson? (.string op.tag) = some op :=
  Json.choice?_string (by decide) (by cases op <;> decide)

@[simp] theorem BinaryOp.ofJson?_tag (op : BinaryOp) : ofJson? (.string op.tag) = some op :=
  Json.choice?_string (by decide) (by cases op <;> decide)

@[simp] theorem Redirection.ofJson?_tag (redirection : Redirection) :
    ofJson? (.string redirection.tag) = some redirection :=
  Json.choice?_string (by decide) (by cases redirection <;> decide)

@[simp] theorem Access.ofJson?_tag (access : Access) : ofJson? (.string access.tag) = some access :=
  Json.choice?_string (by decide) (by cases access <;> decide)

@[simp] theorem CallStyle.ofJson?_tag (style : CallStyle) : ofJson? (.string style.tag) = some style :=
  Json.choice?_string (by decide) (by cases style <;> decide)

@[simp] theorem BlockRole.ofJson?_tag (role : BlockRole) : ofJson? (.string role.tag) = some role :=
  Json.choice?_string (by decide) (by cases role <;> decide)

@[simp] theorem Status.ofJson?_tag (status : Status) : ofJson? (.string status.tag) = some status :=
  Json.choice?_string (by decide) (by cases status <;> decide)

@[simp] theorem CallType.ofJson?_toJson (type : CallType) : ofJson? type.toJson = some type :=
  Json.choice?_string (by decide) (by cases type <;> decide)

@[simp] theorem CallType.faithful_toJson (type : CallType) : type.toJson.Faithful := .string

@[simp] theorem CallType.isNull_toJson (type : CallType) : type.toJson.isNull = false := rfl

@[simp] theorem list?_tokensToJson (tokens : List Token) :
    Json.list? Token.ofJson? (tokensToJson tokens) = some tokens :=
  Json.list?_map fun token _ => token.ofJson?_toJson

@[simp] theorem faithful_tokensToJson (tokens : List Token) : (tokensToJson tokens).Faithful := by
  simp [tokensToJson]

end ShellSema
