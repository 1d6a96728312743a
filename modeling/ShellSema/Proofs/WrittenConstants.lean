import ShellSema.Format.AnalysisUnit
import ShellSema.Proofs.Decoding
import ShellSema.Proofs.Defaults
import ShellSema.Proofs.FloatTexts
import ShellSema.Proofs.HeldFloats
import ShellSema.Proofs.JsonParsing
import ShellSema.Proofs.Unlinked
import ShellSema.Syntax.Build

/-!
# Constants as they are written

A constant that is written and read again is the same constant, unless it is a floating point number. An
infinity or not-a-number is written as null, which is refused in the place of a number. Other numbers
are read again as far as the reader rounds as the writer does. What goes for the constants of literals
goes for the unit that an analysis makes of them.
-/
namespace ShellSema

namespace Json

open Json.Progress

/-- The text of an alternative that carries a floating point number. The number is read as another
lexeme, if it is not faithful. -/
theorem lexemes?_variant_float {layout : Layout} (blank : layout.IsBlank) (name : String)
    (x : Binary64) {lexeme : Lexeme}
    (read : ∀ rest, EndsNumber rest →
      lexeme? ((floatText x).toList ++ rest) = some (lexeme, rest)) :
    lexemes? (write layout (.variant name (.float x))).toList =
      some [.openObject, .text (some name), .colon, lexeme, .closeObject] := by
  have text : (write layout (.variant name (.float x))).toList =
      [] ++ ['\x7b'] ++ (layout 1 .openObject (.text (some name)) ++ quoted name ++
        (layout 1 (.text (some name)) .colon ++ [':'] ++
          (layout 1 .colon (.number (some (.float x))) ++ (floatText x).toList ++
            (layout 1 (.number (some (.float x))) .closeObject ++ ['\x7d'] ++ [])))) := by
    simp [write, variant, float, toLexemes, memberLexemes, moreMemberLexemes, layOut, Lexeme.chars,
      Lexeme.levelAfter, Lexeme.isOpen, Lexeme.isClose]
  -- Each of the five lexemes takes a step of the budget.
  obtain ⟨budget, enough⟩ : ∃ budget, (write layout (.variant name (.float x))).toList.length + 1 =
      budget + 1 + 1 + 1 + 1 + 1 := by
    refine ⟨(write layout (.variant name (.float x))).toList.length - 4, ?_⟩
    rw [text]
    simp only [List.length_append, List.length_cons, List.length_nil, quoted]
    omega
  -- After the digits come blanks or the brace that closes the object.
  have ends : EndsNumber (layout 1 (.number (some (.float x))) .closeObject ++ ['\x7d'] ++ []) := by
    have close : EndsNumber (Lexeme.closeObject.chars ++ []) := endsNumber_chars rfl []
    rw [List.append_assoc]
    exact endsNumber_gap (blank _ _ _) close
  rw [lexemes?, enough, text, lexemesWithin?_cons _ (by simp) rfl,
    lexemesWithin?_cons _ (blank _ _ _) (lexeme?_quoted name _), lexemesWithin?_cons _ (blank _ _ _) rfl,
    lexemesWithin?_cons _ (blank _ _ _) (read _ ends), lexemesWithin?_cons _ (blank _ _ _) rfl]
  cases budget <;> rfl

/-- A text of these lexemes holds one member with the value of the lexeme. -/
theorem read?_variant_lexeme {text name : String} {lexeme : Lexeme} {value : Json} {limit : Nat}
    (within : 0 < limit) (single : begin? [.object [] (some name)] lexeme =
      some (finish value [.object [] (some name)]))
    (lexemes : lexemes? text.toList =
      some [.openObject, .text (some name), .colon, lexeme, .closeObject]) :
    read? (some limit) text = some (.variant name value) := by
  have walked : advance limit start [.openObject, .text (some name), .colon, lexeme, .closeObject] =
      some (finish (.variant name value) []) := by
    change (begin? [.object [] (some name)] lexeme).bind
      (advance limit · [.closeObject]) = _
    rw [single]
    change advance limit (close (some limit) (.object (kept [(name, value)]) (some name)) []) [] = _
    rw [close_object within]
    rfl
  simp only [read?, lexemes, ofLexemes?]
  change (advance limit start _).bind result? = _
  rw [walked]
  rfl

end Json

namespace Constant

/-- The constant that a text holds, if it holds one. -/
def parse? (text : String) : Option Constant :=
  (Json.read? (some AnalysisUnit.nestingLimit) text).bind ofJson?

/-- What is read of the constant as it is written. -/
def reread? : Constant → Option Constant
  | .float x => x.reread?.map .float
  | value => some value

variable {value : Constant}

theorem reread?_eq_some_self : value.reread? = some value ↔ ∀ x ∈ value.float?, x.ReadsBack := by
  cases value with
  | float x => simp [reread?, float?, Binary64.readsBack_iff]
  | _ => simp [reread?, float?]

theorem depth_toJson (value : Constant) : value.toJson.depth ≤ AnalysisUnit.nestingLimit := by
  have shallow {depth : Nat} (small : depth ≤ 3) : depth ≤ AnalysisUnit.nestingLimit :=
    Nat.le_trans small (by decide)
  apply shallow
  cases value with
  | type target =>
    cases target <;>
      simp [toJson, TypeTarget.toJson, StructId.toJson, Json.variant, Json.depth, Json.depthOfMembers,
        Json.natural, Json.integer]
  | _ => simp [toJson, Json.variant, Json.depth, Json.depthOfMembers, Json.integer, Json.float]

/-- A constant is read as it is written, in any layout: as itself, if it is no floating point number. -/
theorem parse?_write (value : Constant) {layout : Json.Layout} (blank : layout.IsBlank) :
    parse? (Json.write layout value.toJson) = value.reread? := by
  cases value with
  | float x =>
    simp only [parse?, toJson, reread?]
    cases finite : x.isFinite with
    | false =>
      -- A number that is not finite is written as null, which is no number when it is read.
      rw [x.reread?_of_infinite finite, Json.read?_variant_lexeme (by decide) rfl
        (Json.lexemes?_variant_float blank "Float" x fun rest _ => by
          rw [Binary64.floatText_of_infinite finite]
          rfl)]
      rfl
    | true =>
      have lexemes := Json.lexemes?_variant_float blank "Float" x fun rest ends =>
        Json.lexeme?_number_append ends (Binary64.lexeme?_floatText finite)
      -- The digits may denote another number, or none that can be held.
      cases reread : x.reread? with
      | none =>
        rw [reread] at lexemes
        rw [Json.read?_variant_lexeme (by decide) rfl lexemes]
        rfl
      | some y =>
        rw [reread] at lexemes
        rw [Json.read?_variant_lexeme (by decide) rfl lexemes]
        rfl
  | _ =>
    rw [parse?, Json.read?_write blank (faithful_toJson (by simp [float?])) (depth_toJson _)]
    exact ofJson?_toJson _

/-- An infinity is not read again, and neither is what is no number. -/
theorem reread?_of_infinite {x : Binary64} (finite : x.isFinite = false) :
    reread? (.float x) = none := by
  rw [reread?, x.reread?_of_infinite finite]
  rfl

end Constant

/-! ### The constants of literals -/

theorem Token.float?_of_meaning {token : Token} {value : Constant}
    (means : token.meaning = .constant value) : token.float? = value.float? := by
  rw [float?, means]

/-- A literal is refused, or it is a shell fragment, or it stands for a constant. The constant is read
as it is written if and only if the number that the literal denotes is, should it denote one. -/
theorem Walk.literal_cases (context : Context) (span : Span) (token : Token) (s : AnalysisState) :
    Fails (literal context span token) s { cause := .invalidNumber token.text } s ∨
      ∃ kind t, Gives (literal context span token) s kind t ∧
        ((token.kind = .shellFragment ∧ ∃ made, kind = .call made) ∨
          ∃ value, kind = .literal token (some value) ∧ ∀ layout : Json.Layout, layout.IsBlank →
            Constant.parse? (Json.write layout value.toJson) = value.reread? ∧
              (value.reread? = some value ↔ ∀ x ∈ token.float?, x.ReadsBack)) := by
  unfold literal
  cases means : token.meaning with
  | constant value =>
    refine .inr ⟨_, _, gives_bind.mpr ⟨(), _, gives_modify.mpr rfl, gives_pure.mpr ⟨rfl, rfl⟩⟩, ?_⟩
    refine .inr ⟨value, rfl, fun layout blank => ⟨Constant.parse?_write value blank, ?_⟩⟩
    rw [Token.float?_of_meaning means]
    exact Constant.reread?_eq_some_self
  | shellFragment code =>
    refine .inr ⟨_, _, gives_bind.mpr ⟨(), _, gives_modify.mpr rfl, gives_pure.mpr ⟨rfl, rfl⟩⟩, ?_⟩
    exact .inl ⟨Token.meaning_eq_shellFragment.mp ⟨code, means⟩, _, rfl⟩
  | badNumber => exact .inl rfl

/-! ### The constants of a unit -/

namespace AnalysisUnit

/-- A literal that is accepted stands for a constant that is read as it is written, unless it denotes
a number that is not. If the numbers that a unit holds, and those that its literals denote, are all
read as they are written, then so are the constants of the analysed unit, and its text holds the
analysed unit, as far as it does not nest too deep. -/
theorem constants_read_back (context : Context) (span : Span) (token : Token) (s : AnalysisState)
    (unit analysed : AnalysisUnit) (mode : AnalysisMode) :
    (Fails (Walk.literal context span token) s { cause := .invalidNumber token.text } s ∨
      ∃ kind t, Gives (Walk.literal context span token) s kind t ∧
        ((token.kind = .shellFragment ∧ ∃ made, kind = .call made) ∨
          ∃ value, kind = .literal token (some value) ∧
            ∀ layout : Json.Layout, layout.IsBlank →
              (Constant.parse? (Json.write layout value.toJson) = some value ↔
                ∀ x ∈ token.float?, x.ReadsBack))) ∧
      ((∀ x ∈ unit.floats, x.ReadsBack) → (∀ x ∈ unit.denoted, x.ReadsBack) →
        CommandLine.analyzed unit mode = .ok analysed →
          (∀ x ∈ analysed.floats, x.ReadsBack) ∧
            (analysed.toJson.depth ≤ nestingLimit → ∀ layout : Json.Layout, layout.IsBlank →
              parse? (Json.write layout analysed.toJson) = some analysed)) := by
  constructor
  · refine (Walk.literal_cases context span token s).imp_right ?_
    rintro ⟨kind, t, given, fragment | ⟨value, same, reads⟩⟩
    · exact ⟨kind, t, given, .inl fragment⟩
    · refine ⟨kind, t, given, .inr ⟨value, same, fun layout blank => ?_⟩⟩
      obtain ⟨written, iff⟩ := reads layout blank
      rw [written, iff]
  · intro held denoted ended
    have reads : ∀ x ∈ analysed.floats, x.ReadsBack := floats_of_analyzed held denoted ended
    exact ⟨reads, fun nested layout blank => parse?_write blank nested reads⟩

/-- The root module holds a weight, which a function takes by default as well. -/
def weighing : AnalysisUnit where
  scopes := .declare "main" [
    .addScope ⟨0⟩,
    .addFunction "weigh" .exported ⟨0⟩ [Build.defaultParameter "by" (Build.float "2.5")] false]
  modules := [⟨⟨0⟩, ⟨[Build.letIn ["weight"] (Build.float "0.25"), Build.function
    { name := "weigh", access := .exported, module := ⟨0⟩
      parameters := [Build.defaultParameter "by" (Build.float "2.5")] }
    ⟨0⟩ (Build.blockOf .function ⟨1⟩ [Build.variableRef "by"])]⟩⟩]

/-- The text of that unit as it is analysed holds the analysed unit. -/
theorem constants_read_back_weighing :
    ∃ analysed, CommandLine.analyzed weighing .overwrite = .ok analysed ∧
      analysed.floats.length = 3 ∧ (∀ x ∈ analysed.floats, x.ReadsBack) ∧
        parse? analysed.render = some analysed := by
  have ends : (match CommandLine.analyzed weighing .overwrite with
      | .ok analysed => analysed.floats.length == 3 && analysed.toJson.depth ≤ nestingLimit
      | .error _ => false) = true := by
    decide +kernel
  cases ended : CommandLine.analyzed weighing .overwrite with
  | error failure =>
    rw [ended] at ends
    cases ends
  | ok analysed =>
    rw [ended] at ends
    obtain ⟨count, nested⟩ := Bool.and_eq_true_iff.mp ends
    obtain ⟨-, reads⟩ := constants_read_back ⟨.empty, ⟨0⟩, none⟩ {} { kind := .float, text := "0.25" }
      { tree := weighing.scopes } weighing analysed .overwrite
    obtain ⟨reads, parses⟩ := reads (by decide +kernel) (by decide +kernel) ended
    exact ⟨analysed, rfl, eq_of_beq count, reads,
      parses (of_decide_eq_true nested) .indented Json.isBlank_indented⟩

/-- An infinity is accepted as a literal, and written as what is refused. -/
theorem infinity_not_read_back :
    ∃ (token : Token) (value : Constant), token = { kind := .float, text := "inf" } ∧
      (∀ (context : Context) (span : Span) (s : AnalysisState), ∃ t,
        Gives (Walk.literal context span token) s (.literal token (some value)) t) ∧
      Constant.parse? (Json.write .indented value.toJson) = none := by
  have denoted : NumberLiteral.float? "inf" = some ⟨0x7FF0000000000000⟩ := by decide +kernel
  refine ⟨_, .float ⟨0x7FF0000000000000⟩, rfl, fun context span s => ?_, ?_⟩
  · have means : Token.meaning { kind := .float, text := "inf" } =
        .constant (.float ⟨0x7FF0000000000000⟩) := by
      rw [Token.meaning]
      simp only [denoted]
    unfold Walk.literal
    rw [means]
    exact ⟨_, gives_bind.mpr ⟨(), _, gives_modify.mpr rfl, gives_pure.mpr ⟨rfl, rfl⟩⟩⟩
  · rw [Constant.parse?_write _ Json.isBlank_indented]
    exact Constant.reread?_of_infinite (by decide +kernel)

end AnalysisUnit
end ShellSema
