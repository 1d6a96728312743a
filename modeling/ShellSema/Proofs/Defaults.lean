import ShellSema.Proofs.Courses
import ShellSema.Proofs.Failing

/-!
# Default values

A default is a literal, an empty list, an empty dictionary, or an interpolation of one literal. To go
over it is to read its literal: nothing of the tree of scopes changes, and the only thing that can be
wrong is a number. What comes out is a constant, unless the literal is a shell fragment, which becomes
a call.
-/
namespace ShellSema

/-- A literal of a number is one that can be read. -/
def Token.WellFormed (token : Token) : Prop :=
  (token.kind = .integer → ∃ value, NumberLiteral.integer? token.text = some value) ∧
    (token.kind = .float → ∃ value, NumberLiteral.float? token.text = some value)

theorem Token.meaning_eq_badNumber {token : Token} :
    token.meaning = .badNumber ↔ ¬ token.WellFormed := by
  unfold meaning WellFormed
  cases token.kind
  case integer => cases NumberLiteral.integer? token.text <;> simp
  case float => cases NumberLiteral.float? token.text <;> simp
  all_goals simp

theorem Token.meaning_eq_shellFragment {token : Token} :
    (∃ code, token.meaning = .shellFragment code) ↔ token.kind = .shellFragment := by
  unfold meaning
  cases token.kind
  case integer => cases NumberLiteral.integer? token.text <;> simp
  case float => cases NumberLiteral.float? token.text <;> simp
  all_goals simp

namespace Expr

/-- An expression of a form that defaults may have, with the literal in it and the place of that. -/
inductive DefaultForm (e : Expr) : Option (Token × Span) → Prop where
  | literal {token : Token} {value : Option Constant} (kind : e.kind = .literal token value) :
      DefaultForm e (some (token, e.span))
  | emptyList (kind : e.kind = .sequence .list []) : DefaultForm e none
  | emptyDictionary (kind : e.kind = .dictionary []) : DefaultForm e none
  | interpolation {part : Expr} {token : Token} {value : Option Constant}
      (kind : e.kind = .sequence .interpolation [part]) (inner : part.kind = .literal token value) :
      DefaultForm e (some (token, part.span))

/-- A constant: a literal with its value, an empty list, an empty dictionary, or an interpolation of
one literal with its value. -/
inductive IsConstant (e : Expr) : Prop where
  | literal {token : Token} {value : Constant} (kind : e.kind = .literal token (some value))
  | emptyList (kind : e.kind = .sequence .list [])
  | emptyDictionary (kind : e.kind = .dictionary [])
  | interpolation {part : Expr} {token : Token} {value : Constant}
      (kind : e.kind = .sequence .interpolation [part]) (inner : part.kind = .literal token (some value))

/-- A default whose literal is a shell fragment. -/
def HoldsFragment (e : Expr) : Prop :=
  ∃ token span, e.DefaultForm (some (token, span)) ∧ token.kind = .shellFragment

variable {e : Expr} {literal? : Option (Token × Span)}

theorem isLiteral_iff : e.isLiteral = true ↔ ∃ token value, e.kind = .literal token value := by
  unfold isLiteral
  cases e.kind <;> simp

theorem isDefault_iff : e.isDefault = true ↔ ∃ literal?, e.DefaultForm literal? := by
  constructor
  · intro fine
    -- The forms of a default are the branches of the test.
    unfold isDefault at fine
    split at fine
    next token value kind => exact ⟨_, .literal kind⟩
    next items kind =>
      obtain rfl := List.isEmpty_iff.mp fine
      exact ⟨_, .emptyList kind⟩
    next entries kind =>
      obtain rfl := List.isEmpty_iff.mp fine
      exact ⟨_, .emptyDictionary kind⟩
    next part kind =>
      obtain ⟨token, value, inner⟩ := isLiteral_iff.mp fine
      exact ⟨_, .interpolation kind inner⟩
    next => cases fine
  · rintro ⟨_, form⟩
    cases form with
    | literal kind => simp [isDefault, kind]
    | emptyList kind => simp [isDefault, kind]
    | emptyDictionary kind => simp [isDefault, kind]
    | interpolation kind inner => simp [isDefault, isLiteral, kind, inner]

theorem DefaultForm.unique {other? : Option (Token × Span)} (one : e.DefaultForm literal?)
    (other : e.DefaultForm other?) : literal? = other? := by
  cases one <;> cases other <;> simp_all

end Expr

variable {context : Context} {s : AnalysisState}

/-! ### Going over a literal -/

/-- What a literal becomes: a literal with a value, or a call if it is a shell fragment. -/
def LiteralBecomes (token : Token) (kind : ExprKind) : Prop :=
  if token.kind = .shellFragment then ∃ made, kind = .call made
  else ∃ value, kind = .literal token (some value)

theorem gives_literal (context : Context) (s : AnalysisState) {token : Token}
    (fine : token.WellFormed) (span : Span) :
    ∃ kind t, Gives (Walk.literal context span token) s kind t ∧ t.tree = s.tree ∧
      LiteralBecomes token kind := by
  unfold Walk.literal LiteralBecomes
  cases means : token.meaning with
  | constant value =>
    have other : token.kind ≠ .shellFragment := by
      rw [Ne, ← Token.meaning_eq_shellFragment, means]
      simp
    refine ⟨_, _, gives_bind.mpr ⟨(), _, gives_modify.mpr rfl, gives_pure.mpr ⟨rfl, rfl⟩⟩, rfl, ?_⟩
    rw [if_neg other]
    exact ⟨value, rfl⟩
  | shellFragment code =>
    refine ⟨_, _, gives_bind.mpr ⟨(), _, gives_modify.mpr rfl, gives_pure.mpr ⟨rfl, rfl⟩⟩, rfl, ?_⟩
    rw [if_pos (Token.meaning_eq_shellFragment.mp ⟨code, means⟩)]
    exact ⟨_, rfl⟩
  | badNumber => exact absurd fine (Token.meaning_eq_badNumber.mp means)

namespace Expr

variable {e : Expr} {token : Token} {old : Option Constant} {literal? : Option (Token × Span)}

theorem gives_of_literal (kind : e.kind = .literal token old) (fine : token.WellFormed) :
    ∃ r t, Gives (Walk.expr context e.slot e) s r t ∧ t.tree = s.tree ∧
      LiteralBecomes token r.kind := by
  obtain ⟨made, t, given, tree, becomes⟩ := gives_literal context s fine e.span
  refine ⟨⟨made, e.span, e.isRoot, context.enclosing⟩, t, gives_expr.mpr ?_, tree, becomes⟩
  refine ⟨by simp [Slot.admits, slot, kind], ⟨made, e.span, e.isRoot, none⟩, ?_, rfl⟩
  simp only [Plan.node, kind, Plan.run_bind, Plan.run_lift, Plan.run_pure, gives_bind, gives_pure]
  exact ⟨made, t, given, rfl, rfl⟩

theorem fails_of_literal (kind : e.kind = .literal token old) (bad : ¬ token.WellFormed) :
    Fails (Walk.expr context e.slot e) s ⟨.invalidNumber token.text, some e.span⟩ s := by
  have means := Token.meaning_eq_badNumber.mpr bad
  refine fails_expr.mpr ⟨{ cause := .invalidNumber token.text }, rfl, ?_⟩
  rw [if_pos (by simp [Slot.admits, slot, kind])]
  simp only [Plan.node, kind, Plan.run_bind, Plan.run_lift, Plan.run_pure, fails_bind, Walk.literal,
    means]
  exact .inl rfl

theorem isConstant_of_becomes (becomes : LiteralBecomes token e.kind) :
    e.IsConstant ↔ token.kind ≠ .shellFragment := by
  unfold LiteralBecomes at becomes
  split at becomes
  next fragment =>
    obtain ⟨made, call⟩ := becomes
    refine iff_of_false ?_ (not_not.mpr fragment)
    rintro (kind | kind | kind | kind) <;> simp [call] at kind
  next other =>
    obtain ⟨value, read⟩ := becomes
    exact iff_of_true (.literal read) other

theorem isConstant_of_part {part : Expr} (kind : e.kind = .sequence .interpolation [part])
    (becomes : LiteralBecomes token part.kind) : e.IsConstant ↔ token.kind ≠ .shellFragment := by
  unfold LiteralBecomes at becomes
  split at becomes
  next fragment =>
    obtain ⟨made, call⟩ := becomes
    refine iff_of_false ?_ (not_not.mpr fragment)
    rintro (kind' | kind' | kind' | ⟨kind', inner⟩) <;> simp [kind] at kind'
    simp [← kind', call] at inner
  next other =>
    obtain ⟨value, read⟩ := becomes
    exact iff_of_true (.interpolation kind read) other

/-! ### Going over a default -/

/-- A default without a literal is no shell fragment. -/
theorem DefaultForm.not_holdsFragment (form : e.DefaultForm none) : ¬ e.HoldsFragment := by
  rintro ⟨token, span, other, -⟩
  cases form.unique other

theorem DefaultForm.holdsFragment_iff {span : Span} (form : e.DefaultForm (some (token, span))) :
    e.HoldsFragment ↔ token.kind = .shellFragment := by
  constructor
  · rintro ⟨token', span', other, fragment⟩
    cases form.unique other
    exact fragment
  · exact fun fragment => ⟨token, span, form, fragment⟩

/-- A default whose number can be read is gone over, and comes out as a constant unless it is a shell
fragment. -/
theorem DefaultForm.gives (form : e.DefaultForm literal?)
    (fine : ∀ token span, literal? = some (token, span) → token.WellFormed) (context : Context)
    (s : AnalysisState) :
    ∃ r t, Gives (Walk.expr context e.slot e) s r t ∧ t.tree = s.tree ∧
      (r.IsConstant ↔ ¬ e.HoldsFragment) := by
  have admitted : e.slot.admits e.kind = true := by cases kind : e.kind <;> simp [Slot.admits, slot]
  cases form with
  | literal kind =>
    obtain ⟨r, t, given, tree, becomes⟩ := gives_of_literal kind (fine _ _ rfl)
    refine ⟨r, t, given, tree, ?_⟩
    rw [(DefaultForm.literal kind).holdsFragment_iff, isConstant_of_becomes becomes]
  | emptyList kind =>
    refine ⟨⟨.sequence .list [], e.span, e.isRoot, context.enclosing⟩, s, gives_expr.mpr ?_, rfl, ?_⟩
    · refine ⟨admitted, ⟨.sequence .list [], e.span, e.isRoot, none⟩, ?_, rfl⟩
      simp [Plan.node, kind, Plan.each, slot]
    · exact iff_of_true (.emptyList rfl) (DefaultForm.emptyList kind).not_holdsFragment
  | emptyDictionary kind =>
    refine ⟨⟨.dictionary [], e.span, e.isRoot, context.enclosing⟩, s, gives_expr.mpr ?_, rfl, ?_⟩
    · refine ⟨admitted, ⟨.dictionary [], e.span, e.isRoot, none⟩, ?_, rfl⟩
      simp [Plan.node, kind, Plan.pairs, slot]
    · exact iff_of_true (.emptyDictionary rfl) (DefaultForm.emptyDictionary kind).not_holdsFragment
  -- The literal within may become the call of a fragment, and then no constant is left.
  | interpolation kind inner =>
    obtain ⟨r, t, given, tree, becomes⟩ := gives_of_literal inner (fine _ _ rfl)
    refine ⟨⟨.sequence .interpolation [r], e.span, e.isRoot, context.enclosing⟩, t,
      gives_expr.mpr ?_, tree, ?_⟩
    · refine ⟨admitted, ⟨.sequence .interpolation [r], e.span, e.isRoot, none⟩, ?_, rfl⟩
      simp only [Plan.node, kind, Plan.each, Plan.run_bind, Plan.run_enter, Plan.run_pure, gives_bind,
        gives_pure]
      exact ⟨[r], t, ⟨r, t, given, [], t, ⟨rfl, rfl⟩, rfl, rfl⟩, rfl, rfl⟩
    · rw [(DefaultForm.interpolation kind inner).holdsFragment_iff, isConstant_of_part rfl becomes]

/-- A default whose number cannot be read is refused, at the place of the number. -/
theorem DefaultForm.fails {span : Span} (form : e.DefaultForm (some (token, span)))
    (bad : ¬ token.WellFormed) :
    Fails (Walk.expr context e.slot e) s ⟨.invalidNumber token.text, some span⟩ s := by
  cases form with
  | literal kind => exact fails_of_literal kind bad
  | interpolation kind inner =>
    refine fails_expr.mpr ⟨⟨.invalidNumber token.text, some _⟩, rfl, ?_⟩
    rw [if_pos (by simp [Slot.admits, slot, kind])]
    simp only [Plan.node, kind, Plan.run_bind, Plan.run_pure, fails_bind, Plan.each, Plan.run_enter]
    exact .inl (.inl (fails_of_literal inner bad))

end Expr
end ShellSema
