import ShellSema.Proofs.Counts
import ShellSema.Proofs.Defaults

/-!
# Parameter lists

A parameter list is gone over from its start, and the first parameter that is out of order ends it:
a variadic one that another follows, one without a default behind one that has a default, or one with a
default that is no constant form or whose number cannot be read. In a list that is accepted the
parameters that need an argument come first, and so the count of them tells which they are.
-/
namespace ShellSema

/-! ### Order -/

/-- A parameter list in order: only the last parameter may be variadic, those after one with a default
have one or are variadic, and the defaults are of the forms that defaults may have, with numbers that
can be read. -/
structure InOrder (parameters : List Parameter) : Prop where
  variadicLast : parameters.Pairwise fun p _ => p.isVariadic = false
  defaultsLast : parameters.Pairwise fun p q =>
    p.default?.isSome = true → q.default?.isSome = true ∨ q.isVariadic = true
  forms : ∀ p ∈ parameters, ∀ value, p.default? = some value →
    ∃ literal?, value.DefaultForm literal?
  numbers : ∀ p ∈ parameters, ∀ value, p.default? = some value → ∀ token span,
    value.DefaultForm (some (token, span)) → token.WellFormed

/-- A parameter is out of order, and the error says why: `seenDefault` tells whether one before it has
a default, and `rest` is what follows it. What is wrong with its default counts only if it does not
misplace `..`. -/
inductive OutOfOrder (seenDefault : Bool) (p : Parameter) (rest : List Parameter) :
    AnalysisError → Prop where
  | variadic (variadic : p.isVariadic = true) (followed : rest ≠ []) :
      OutOfOrder seenDefault p rest { cause := .misplacedVariadic }
  | form {value : Expr} (last : p.isVariadic = true → rest = []) (default : p.default? = some value)
      (shapeless : ∀ literal?, ¬ value.DefaultForm literal?) :
      OutOfOrder seenDefault p rest { cause := .nonLiteralDefault }
  | number {value : Expr} {token : Token} {span : Span} (last : p.isVariadic = true → rest = [])
      (default : p.default? = some value) (form : value.DefaultForm (some (token, span)))
      (bad : ¬ token.WellFormed) :
      OutOfOrder seenDefault p rest { cause := .invalidNumber token.text, span := some span }
  | plain (single : p.isVariadic = false) (required : p.default? = none) (seen : seenDefault = true) :
      OutOfOrder seenDefault p rest { cause := .misplacedDefault }

/-- The first parameter of a list that is out of order is so for this reason. -/
inductive FirstOutOfOrder : Bool → List Parameter → AnalysisError → Prop where
  | here {seenDefault : Bool} {p : Parameter} {rest : List Parameter} {error : AnalysisError}
      (wrong : OutOfOrder seenDefault p rest error) : FirstOutOfOrder seenDefault (p :: rest) error
  | later {seenDefault : Bool} {p : Parameter} {rest : List Parameter} {error : AnalysisError}
      (fine : ∀ error, ¬ OutOfOrder seenDefault p rest error)
      (further : FirstOutOfOrder (seenDefault || p.default?.isSome) rest error) :
      FirstOutOfOrder seenDefault (p :: rest) error

variable {seenDefault : Bool} {p : Parameter} {rest parameters : List Parameter}
  {error : AnalysisError}

/-- There is one reason. -/
theorem OutOfOrder.unique {other : AnalysisError} (one : OutOfOrder seenDefault p rest error)
    (another : OutOfOrder seenDefault p rest other) : error = other := by
  -- The rules exclude each other: each has a condition that the others deny.
  cases one with
  | variadic variadic followed =>
    cases another with
    | variadic => rfl
    | form last => exact absurd (last variadic) followed
    | number last => exact absurd (last variadic) followed
    | plain single => simp [variadic] at single
  | form last default shapeless =>
    cases another with
    | variadic variadic followed => exact absurd (last variadic) followed
    | form => rfl
    | number _ default' form =>
      rw [default] at default'
      cases default'
      exact absurd form (shapeless _)
    | plain _ required => simp [default] at required
  | number last default form bad =>
    cases another with
    | variadic variadic followed => exact absurd (last variadic) followed
    | form _ default' shapeless =>
      rw [default] at default'
      cases default'
      exact absurd form (shapeless _)
    | number _ default' form' =>
      rw [default] at default'
      cases default'
      cases form.unique form'
      rfl
    | plain _ required => simp [default] at required
  | plain single required seen =>
    cases another with
    | variadic variadic => simp [variadic] at single
    | form _ default => simp [default] at required
    | number _ default => simp [default] at required
    | plain => rfl

theorem FirstOutOfOrder.unique {other : AnalysisError}
    (one : FirstOutOfOrder seenDefault parameters error)
    (another : FirstOutOfOrder seenDefault parameters other) : error = other := by
  induction one with
  | here wrong =>
    cases another with
    | here wrong' => exact wrong.unique wrong'
    | later fine => exact absurd wrong (fine _)
  | later fine further ih =>
    cases another with
    | here wrong => exact absurd wrong (fine _)
    | later _ further' => exact ih further'

theorem inOrder_cons : InOrder (p :: rest) ↔ (p.isVariadic = true → rest = []) ∧
    (p.default?.isSome = true → ∀ q ∈ rest, q.default?.isSome = true ∨ q.isVariadic = true) ∧
    (∀ value, p.default? = some value → ∃ literal?, value.DefaultForm literal?) ∧
    (∀ value, p.default? = some value → ∀ token span,
      value.DefaultForm (some (token, span)) → token.WellFormed) ∧ InOrder rest := by
  constructor
  · rintro ⟨variadicLast, defaultsLast, forms, numbers⟩
    obtain ⟨single, variadics⟩ := List.pairwise_cons.mp variadicLast
    obtain ⟨behind, defaults⟩ := List.pairwise_cons.mp defaultsLast
    refine ⟨fun variadic => ?_, fun given q member => behind q member given,
      forms p List.mem_cons_self, numbers p List.mem_cons_self, variadics, defaults,
      fun q member => forms q (List.mem_cons_of_mem _ member),
      fun q member => numbers q (List.mem_cons_of_mem _ member)⟩
    -- A variadic parameter has no other one behind it.
    refine List.eq_nil_iff_forall_not_mem.mpr fun q member => ?_
    simp [variadic] at single
    exact single q member
  · rintro ⟨last, behind, form, number, variadics, defaults, forms, numbers⟩
    refine ⟨List.pairwise_cons.mpr ⟨fun q member => ?_, variadics⟩,
      List.pairwise_cons.mpr ⟨fun q member given => behind given q member, defaults⟩,
      List.forall_mem_cons.mpr ⟨form, forms⟩, List.forall_mem_cons.mpr ⟨number, numbers⟩⟩
    -- Nothing stands behind a variadic parameter, so no such parameter is there.
    by_contra variadic
    rw [last (by simpa using variadic)] at member
    cases member

theorem not_outOfOrder_iff : (∀ error, ¬ OutOfOrder seenDefault p rest error) ↔
    (p.isVariadic = true → rest = []) ∧
    (∀ value, p.default? = some value → ∃ literal?, value.DefaultForm literal?) ∧
    (∀ value, p.default? = some value → ∀ token span,
      value.DefaultForm (some (token, span)) → token.WellFormed) ∧
    (seenDefault = true → p.default?.isSome = true ∨ p.isVariadic = true) := by
  constructor
  · intro fine
    have last : p.isVariadic = true → rest = [] := by
      intro variadic
      by_contra followed
      exact fine _ (.variadic variadic followed)
    refine ⟨last, fun value default => ?_, fun value default token span form => ?_, fun seen => ?_⟩
    · by_contra none
      exact fine _ (.form last default (not_exists.mp none))
    · by_contra bad
      exact fine _ (.number last default form bad)
    · by_contra required
      obtain ⟨none, single⟩ := not_or.mp required
      exact fine _ (.plain (by simpa using single) (by simpa using none) seen)
  -- Each rule contradicts the condition that it violates.
  · rintro ⟨last, form, number, behind⟩ error (⟨variadic, followed⟩ | ⟨-, default, shapeless⟩ |
      ⟨-, default, shape, bad⟩ | ⟨single, required, seen⟩)
    · exact followed (last variadic)
    · obtain ⟨literal?, shape⟩ := form _ default
      exact shapeless literal? shape
    · exact bad (number _ default _ _ shape)
    · simp [single, required, seen] at behind

theorem not_firstOutOfOrder_cons : (∀ error, ¬ FirstOutOfOrder seenDefault (p :: rest) error) ↔
    (∀ error, ¬ OutOfOrder seenDefault p rest error) ∧
      ∀ error, ¬ FirstOutOfOrder (seenDefault || p.default?.isSome) rest error := by
  constructor
  · intro none
    have fine : ∀ error, ¬ OutOfOrder seenDefault p rest error :=
      fun error wrong => none error (.here wrong)
    exact ⟨fine, fun error further => none error (.later fine further)⟩
  · rintro ⟨fine, further⟩ error (⟨wrong⟩ | ⟨-, wrong⟩)
    · exact fine error wrong
    · exact further error wrong

theorem not_firstOutOfOrder_iff : (∀ error, ¬ FirstOutOfOrder seenDefault parameters error) ↔
    InOrder parameters ∧
      (seenDefault = true → ∀ p ∈ parameters, p.default?.isSome = true ∨ p.isVariadic = true) := by
  induction parameters generalizing seenDefault with
  | nil =>
    refine iff_of_true ?_ ⟨⟨.nil, .nil, nofun, nofun⟩, fun _ => nofun⟩
    rintro error ⟨⟩
  | cons p rest ih =>
    rw [not_firstOutOfOrder_cons, not_outOfOrder_iff, ih, inOrder_cons, Bool.or_eq_true]
    constructor
    · rintro ⟨⟨last, form, number, here⟩, ordered, behind⟩
      refine ⟨⟨last, fun given => behind (.inr given), form, number, ordered⟩, fun seen => ?_⟩
      exact List.forall_mem_cons.mpr ⟨here seen, behind (.inl seen)⟩
    · rintro ⟨⟨last, behind, form, number, ordered⟩, seen⟩
      refine ⟨⟨last, form, number, fun given => (List.forall_mem_cons.mp (seen given)).1⟩, ordered, ?_⟩
      rintro (given | given)
      · exact (List.forall_mem_cons.mp (seen given)).2
      · exact behind given

/-- A list is in order if no parameter is the first that is not. -/
theorem inOrder_iff : InOrder parameters ↔ ∀ error, ¬ FirstOutOfOrder false parameters error := by
  simp [not_firstOutOfOrder_iff]

/-! ### Going over a list -/

/-- A parameter comes out with its name and its kind, and with an analysed default that is a constant
unless it holds a shell fragment. -/
structure Parameter.Becomes (p r : Parameter) : Prop where
  name : r.name = p.name
  isVariadic : r.isVariadic = p.isVariadic
  default : Option.Rel (fun value result => result.IsConstant ↔ ¬ value.HoldsFragment)
    p.default? r.default?

variable {context : Context} {s : AnalysisState}

/-- What is done at one parameter of a list, with `rest` behind it. -/
def Walk.parameter (context : Context) (seenDefault : Bool) (p : Parameter) (rest : List Parameter) :
    Walk Parameter := do
  note p.name.span .parameter
  Plan.checkVariadic p.isVariadic rest
  match p.default? with
  | some value =>
    if value.isDefault then
      let value ← expr context value.slot value
      return { p with default? := some value }
    else fail .nonLiteralDefault
  | none => if seenDefault && !p.isVariadic then fail .misplacedDefault else return p

/-- A list is gone over parameter by parameter. -/
theorem parameterList_cons (context : Context) (seenDefault : Bool) (p : Parameter)
    (rest : List Parameter) :
    Walk.parameterList context seenDefault (p :: rest) = (do
      let r ← Walk.parameter context seenDefault p rest
      let results ← Walk.parameterList context (seenDefault || p.default?.isSome) rest
      return r :: results) := by
  obtain ⟨name, default?, isVariadic⟩ := p
  rw [← Plan.run_parameterList]
  cases default? with
  | none =>
    by_cases misplaced : (seenDefault && !isVariadic) = true <;>
      simp [Plan.parameterList, Walk.parameter, Plan.run_parameterList, misplaced, Walk.fail]
  | some value =>
    by_cases form : value.isDefault = true <;>
      simp [Plan.parameterList, Walk.parameter, Plan.run_parameterList, form, Walk.fail]

theorem checkVariadic_eq (last : p.isVariadic = true → rest = []) :
    Plan.checkVariadic p.isVariadic rest = pure () := by
  unfold Plan.checkVariadic
  cases variadic : p.isVariadic with
  | false => rfl
  | true => simp [last variadic]

/-- To note a token leaves the tree as it is. -/
private theorem exists_noted (span : Span) (category : SemanticCategory) :
    ∃ noted, Gives (Walk.note span category) s () noted ∧ noted.tree = s.tree :=
  ⟨_, gives_modify.mpr rfl, rfl⟩

/-- A parameter that is out of order is refused. -/
theorem OutOfOrder.fails (wrong : OutOfOrder seenDefault p rest error) :
    ∃ t, Fails (Walk.parameter context seenDefault p rest) s error t ∧ t.tree = s.tree := by
  obtain ⟨noted, note, tree⟩ := exists_noted (s := s) p.name.span .parameter
  refine ⟨noted, fails_bind.mpr (.inr ⟨(), noted, note, ?_⟩), tree⟩
  cases wrong with
  | variadic variadic followed => simp [Plan.checkVariadic, variadic, followed, Walk.fail]
  | form last default shapeless =>
    have form := mt Expr.isDefault_iff.mp (not_exists.mpr shapeless)
    simp [checkVariadic_eq last, default, form, Walk.fail]
  | number last default form bad =>
    simp only [checkVariadic_eq last, pure_bind, default, Expr.isDefault_iff.mpr ⟨_, form⟩, if_true]
    exact fails_bind.mpr (.inl (form.fails bad))
  | plain single required seen =>
    have last : p.isVariadic = true → rest = [] := by simp [single]
    rw [checkVariadic_eq last]
    simp [required, seen, single, Walk.fail]

/-- Any other parameter comes out. -/
theorem gives_parameter (fine : ∀ error, ¬ OutOfOrder seenDefault p rest error) (context : Context)
    (s : AnalysisState) :
    ∃ r t, Gives (Walk.parameter context seenDefault p rest) s r t ∧ t.tree = s.tree ∧
      p.Becomes r := by
  obtain ⟨last, form, number, behind⟩ := not_outOfOrder_iff.mp fine
  obtain ⟨noted, note, same⟩ := exists_noted (s := s) p.name.span .parameter
  cases default : p.default? with
  | none =>
    have allowed : ¬ (seenDefault && !p.isVariadic) = true := by
      simpa [default] using behind
    refine ⟨p, noted, gives_bind.mpr ⟨(), noted, note, ?_⟩, same, rfl, rfl, ?_⟩
    · simp [checkVariadic_eq last, default, allowed]
    · rw [default]
      exact .none
  -- A default of one of the forms is gone over without declaring anything.
  | some value =>
    obtain ⟨literal?, shape⟩ := form value default
    have readable : ∀ token span, literal? = some (token, span) → token.WellFormed := by
      rintro token span rfl
      exact number value default token span shape
    obtain ⟨r, t, given, tree, constant⟩ := shape.gives readable context noted
    refine ⟨{ p with default? := some r }, t, gives_bind.mpr ⟨(), noted, note, ?_⟩, tree.trans same,
      rfl, rfl, ?_⟩
    · simp only [checkVariadic_eq last, pure_bind, default, Expr.isDefault_iff.mpr ⟨_, shape⟩, if_true]
      exact gives_bind.mpr ⟨r, t, given, gives_pure.mpr ⟨rfl, rfl⟩⟩
    · rw [default]
      exact .some constant

/-- Each parameter of a list comes out, or the first that is out of order ends the walk. -/
theorem parameterList_cases (context : Context) (s : AnalysisState) (seenDefault : Bool)
    (parameters : List Parameter) :
    (∃ results t, Gives (Walk.parameterList context seenDefault parameters) s results t ∧
        t.tree = s.tree ∧ List.Forall₂ Parameter.Becomes parameters results ∧
        ∀ error, ¬ FirstOutOfOrder seenDefault parameters error) ∨
      ∃ error t, Fails (Walk.parameterList context seenDefault parameters) s error t ∧
        t.tree = s.tree ∧ FirstOutOfOrder seenDefault parameters error := by
  induction parameters generalizing s seenDefault with
  | nil => exact .inl ⟨[], s, gives_pure.mpr ⟨rfl, rfl⟩, rfl, .nil, by rintro error ⟨⟩⟩
  | cons p rest ih =>
    rw [parameterList_cons]
    -- The first parameter is refused on the spot, or the list is decided by the others.
    by_cases wrong : ∃ error, OutOfOrder seenDefault p rest error
    · obtain ⟨error, wrong⟩ := wrong
      obtain ⟨t, failed, tree⟩ := wrong.fails
      exact .inr ⟨error, t, fails_bind.mpr (.inl failed), tree, .here wrong⟩
    have fine := not_exists.mp wrong
    obtain ⟨r, u, first, same, becomes⟩ := gives_parameter fine context s
    rcases ih u (seenDefault || p.default?.isSome) with
      ⟨results, t, given, tree, become, ordered⟩ | ⟨error, t, failed, tree, further⟩
    · refine .inl ⟨r :: results, t, ?_, tree.trans same, .cons becomes become,
        not_firstOutOfOrder_cons.mpr ⟨fine, ordered⟩⟩
      refine gives_bind.mpr ⟨r, u, first, gives_bind.mpr ⟨results, t, given, ?_⟩⟩
      exact gives_pure.mpr ⟨rfl, rfl⟩
    · refine .inr ⟨error, t, ?_, tree.trans same, .later fine further⟩
      exact fails_bind.mpr (.inr ⟨r, u, first, fails_bind.mpr (.inl failed)⟩)

theorem gives_parameterList_iff : (∃ results t,
    Gives (Walk.parameterList context seenDefault parameters) s results t) ↔
      ∀ error, ¬ FirstOutOfOrder seenDefault parameters error := by
  rcases parameterList_cases context s seenDefault parameters with
    ⟨results, t, given, -, -, ordered⟩ | ⟨error, t, failed, -, first⟩
  · exact iff_of_true ⟨results, t, given⟩ ordered
  · refine iff_of_false ?_ fun none => none error first
    rintro ⟨results, t, given⟩
    exact failed.not_gives given

theorem fails_parameterList_iff :
    (∃ t, Fails (Walk.parameterList context seenDefault parameters) s error t) ↔
      FirstOutOfOrder seenDefault parameters error := by
  rcases parameterList_cases context s seenDefault parameters with
    ⟨results, t, given, -, -, ordered⟩ | ⟨error', t, failed, -, first⟩
  · refine iff_of_false ?_ (ordered error)
    rintro ⟨t, failed⟩
    exact failed.not_gives given
  · constructor
    · rintro ⟨t', failed'⟩
      have same := failed.symm.trans failed'
      simp only [Prod.mk.injEq, Except.error.injEq, Halt.failed.injEq] at same
      exact same.1 ▸ first
    · intro first'
      exact first.unique first' ▸ ⟨t, failed⟩

variable {results : List Parameter} {t : AnalysisState}

theorem becomes_of_gives
    (given : Gives (Walk.parameterList context seenDefault parameters) s results t) :
    t.tree = s.tree ∧ List.Forall₂ Parameter.Becomes parameters results := by
  rcases parameterList_cases context s seenDefault parameters with
    ⟨results', t', given', tree, become, -⟩ | ⟨error, t', failed, -, -⟩
  · obtain ⟨rfl, rfl⟩ := given.unique given'
    exact ⟨tree, become⟩
  · exact (failed.not_gives given).elim

theorem tree_of_fails_parameterList
    (failed : Fails (Walk.parameterList context seenDefault parameters) s error t) :
    t.tree = s.tree := by
  rcases parameterList_cases context s seenDefault parameters with
    ⟨results', t', given, -, -, -⟩ | ⟨error', t', failed', tree, -⟩
  · exact (failed.not_gives given).elim
  · have same := failed.symm.trans failed'
    simp only [Prod.mk.injEq] at same
    exact same.2 ▸ tree

/-! ### Counting -/

/-- Where the elements that pass a check come first, the number of them tells which they are. -/
theorem lt_countP_iff {α : Type} {check : α → Bool} {xs : List α}
    (first : xs.Pairwise fun x y => check y = true → check x = true) {i : Nat} {x : α}
    (found : xs[i]? = some x) : check x = true ↔ i < xs.countP check := by
  induction xs generalizing i with
  | nil => simp at found
  | cons y ys ih =>
    obtain ⟨ahead, others⟩ := List.pairwise_cons.mp first
    cases passes : check y with
    | true =>
      rw [List.countP_cons_of_pos passes]
      cases i with
      | zero =>
        obtain rfl : y = x := by simpa using found
        simp [passes]
      | succ i => rw [ih others (by simpa using found), Nat.succ_lt_succ_iff]
    | false =>
      -- Those that pass the check come first, so none follows after the first that does not.
      have none : ∀ z ∈ ys, ¬ check z = true := fun z member => by
        intro later
        simp [ahead z member later] at passes
      rw [List.countP_cons_of_neg (by simp [passes]), List.countP_eq_zero.mpr none]
      refine iff_of_false ?_ (Nat.not_lt_zero i)
      rcases List.mem_cons.mp (List.mem_of_getElem? found) with rfl | member
      · simp [passes]
      · exact none x member

theorem InOrder.requiredFirst (ordered : InOrder parameters) :
    parameters.Pairwise fun p q => q.isRequired = true → p.isRequired = true := by
  refine (ordered.variadicLast.and ordered.defaultsLast).imp fun {p q} ⟨single, behind⟩ => ?_
  simp only [Parameter.isRequired, Bool.and_eq_true, Option.isNone_iff_eq_none, Bool.not_eq_true']
  rintro ⟨none, other⟩
  refine ⟨?_, single⟩
  by_contra given
  simp [none, other, Option.isSome_iff_ne_none.mpr given] at behind

theorem Parameter.Becomes.isRequired {r : Parameter} (becomes : p.Becomes r) :
    r.isRequired = p.isRequired := by
  obtain ⟨-, variadic, default⟩ := becomes
  rw [Parameter.isRequired, Parameter.isRequired, variadic]
  cases given : p.default? with
  | none =>
    rw [given] at default
    cases found : r.default? <;> simp [found] at default ⊢
  | some value =>
    rw [given] at default
    cases found : r.default? <;> simp [found] at default ⊢

/-- What each parameter keeps, the list keeps. -/
theorem map_of_become {α : Type} (read : Parameter → α)
    (become : List.Forall₂ Parameter.Becomes parameters results)
    (kept : ∀ p r, p.Becomes r → read r = read p) : results.map read = parameters.map read := by
  induction become with
  | nil => rfl
  | cons becomes _ ih => rw [List.map_cons, List.map_cons, kept _ _ becomes, ih]

/-- In a list that is accepted, the parameters that need an argument come first, before and after. -/
theorem requiredFirst_of_gives
    (given : Gives (Walk.parameterList context false parameters) s results t) :
    ∀ list ∈ [parameters, results],
      list.Pairwise fun p q => q.isRequired = true → p.isRequired = true := by
  have ordered := inOrder_iff.mpr (gives_parameterList_iff.mp ⟨results, t, given⟩)
  have same : results.map Parameter.isRequired = parameters.map Parameter.isRequired :=
    map_of_become _ (becomes_of_gives given).2 fun _ _ => Parameter.Becomes.isRequired
  have first : (parameters.map Parameter.isRequired).Pairwise fun a b => b = true → a = true :=
    List.pairwise_map.mpr ordered.requiredFirst
  rw [← same, List.pairwise_map] at first
  simpa using ⟨ordered.requiredFirst, first⟩

theorem gives_checkCount_ofParameters (name : String) (count : Nat) :
    Gives (Walk.checkCount name (.ofParameters parameters) false count) s () s ↔
      minArguments parameters ≤ count ∧
        ((∃ last, parameters.getLast? = some last ∧ last.isVariadic = true) ∨
          count ≤ parameters.length) := by
  rw [gives_checkCount, Arity.accepts_iff]
  cases last : parameters.getLast? with
  | none => simp [Arity.ofParameters, maxArguments?, endsVariadic, last]
  | some p =>
    cases variadic : p.isVariadic <;>
      simp [Arity.ofParameters, maxArguments?, endsVariadic, last, variadic]

/-! ### Structs -/

theorem firstRepeated?_eq_none (seen : List String) (parameters : List Parameter) :
    firstRepeated? seen parameters = none ↔
      (∀ p ∈ parameters, p.name.text ∉ seen) ∧ (parameters.map (·.name.text)).Nodup := by
  induction parameters generalizing seen with
  | nil => simp [firstRepeated?]
  | cons p rest ih =>
    rw [firstRepeated?]
    by_cases repeated : p.name.text ∈ seen
    · simp [repeated]
    · have fresh : seen.contains p.name.text = false := by simpa using repeated
      rw [fresh, if_neg Bool.false_ne_true, ih]
      simp only [List.mem_cons, not_or, forall_and, List.map_cons, List.nodup_cons, List.mem_map,
        not_exists, not_and, forall_eq_or_imp]
      exact ⟨fun ⟨⟨apart, others⟩, different⟩ => ⟨⟨repeated, others⟩, apart, different⟩,
        fun ⟨⟨_, others⟩, apart, different⟩ => ⟨⟨apart, others⟩, different⟩⟩

/-- Fields of one name end the walk over a struct. -/
theorem checkFields_cases (struct : Token) (fields : List Parameter) :
    (fields.map (·.name.text)).Nodup ∧ Walk.checkFields struct fields = pure () ∨
      ¬ (fields.map (·.name.text)).Nodup ∧
        ∃ error : AnalysisError, Walk.checkFields struct fields = throw (.failed error) := by
  have distinct := firstRepeated?_eq_none [] fields
  unfold Walk.checkFields
  cases found : firstRepeated? [] fields with
  | none =>
    rw [found] at distinct
    exact .inl ⟨(distinct.mp rfl).2, rfl⟩
  | some field =>
    rw [found] at distinct
    refine .inr ⟨fun different => ?_, _, rfl⟩
    simpa using distinct.mpr ⟨by simp, different⟩

variable {slot : Slot} {e : Expr} {access : Access} {name : Token} {module : ModuleId}

/-- A struct whose declaration is gone over has its fields in order, with different names. -/
theorem inOrder_of_struct (kind : e.kind = .structDecl access name parameters module) {r : Expr}
    (given : Gives (Walk.expr context slot e) s r t) :
    InOrder parameters ∧ (parameters.map (·.name.text)).Nodup := by
  obtain ⟨-, made, carried, -⟩ := gives_expr.mp given
  simp only [Plan.node, kind, Plan.run_bind, Plan.run_lift, Plan.run_parameterList, gives_bind] at carried
  obtain ⟨_, s₁, -, results, s₂, listed, _, s₃, checked, -⟩ := carried
  refine ⟨inOrder_iff.mpr (gives_parameterList_iff.mp ⟨results, s₂, listed⟩), ?_⟩
  have names := map_of_become (·.name.text) (becomes_of_gives listed).2
    fun p r becomes => congrArg Token.text becomes.name
  rcases checkFields_cases name results with ⟨different, -⟩ | ⟨-, error, failed⟩
  · exact names ▸ different
  · rw [failed] at checked
    exact (gives_throw.mp checked).elim

/-- The declaration of a struct that is refused leaves the tree as it is. -/
theorem tree_of_fails_struct (kind : e.kind = .structDecl access name parameters module)
    (failed : Fails (Walk.expr context slot e) s error t) : t.tree = s.tree := by
  obtain ⟨bare, -, ended⟩ := fails_expr.mp failed
  split at ended
  next =>
    simp only [Plan.node, kind, Plan.run_bind, Plan.run_lift, Plan.run_parameterList, Plan.run_pure,
      fails_bind, fails_edit, fails_note, fails_pure, and_false, exists_false, or_false, false_or]
      at ended
    obtain ⟨_, s₁, noted, failed | ⟨results, s₂, listed, failed⟩⟩ := ended
    · rw [tree_of_fails_parameterList failed, gives_modify.mp noted]
    · have same := (becomes_of_gives listed).1
      rcases checkFields_cases name results with ⟨-, fine⟩ | ⟨-, error, refused⟩
      · simp [fine] at failed
      · rw [refused, fails_throw] at failed
        rw [failed.2, same, gives_modify.mp noted]
  next => rw [ended.2]

/-! ### All about a list -/

namespace Analysis

/-- The walk over a parameter list gives a result if and only if the list is in order; if it is not,
the walk fails with the error of the first parameter that is out of order. If the list comes out, each
of its parameters does, with its name and its kind. Of the list as it is given and as it comes out, the
parameters that need an argument are the first ones, as many as are counted, and a call with `n`
arguments is admitted if and only if these are enough and, unless the last parameter takes any number,
not too many. A struct is accepted only if its fields are in order and have different names, and the
tree of scopes is as it was if it is refused. -/
theorem parameters_in_order (context : Context) (s : AnalysisState) (parameters : List Parameter) :
    ((∃ results t, Gives (Walk.parameterList context false parameters) s results t) ↔
      InOrder parameters) ∧
    (¬ InOrder parameters → ∃ error t,
      Fails (Walk.parameterList context false parameters) s error t ∧
        FirstOutOfOrder false parameters error) ∧
    (∀ results t, Gives (Walk.parameterList context false parameters) s results t →
      List.Forall₂ Parameter.Becomes parameters results ∧
      ∀ list ∈ [parameters, results],
        (∀ i p, list[i]? = some p → (p.isRequired = true ↔ i < minArguments list)) ∧
        ∀ name n u, Gives (Walk.checkCount name (.ofParameters list) false n) u () u ↔
          minArguments list ≤ n ∧
            ((∃ last, list.getLast? = some last ∧ last.isVariadic = true) ∨ n ≤ list.length)) ∧
    ∀ slot e access name module, e.kind = .structDecl access name parameters module →
      (∀ r t, Gives (Walk.expr context slot e) s r t →
        InOrder parameters ∧ (parameters.map (·.name.text)).Nodup) ∧
      ∀ error t, Fails (Walk.expr context slot e) s error t → t.tree = s.tree := by
  refine ⟨gives_parameterList_iff.trans inOrder_iff.symm, fun disordered => ?_,
    fun results t given => ?_, fun slot e access name module kind => ?_⟩
  · rw [inOrder_iff] at disordered
    obtain ⟨error, first⟩ := not_forall_not.mp disordered
    obtain ⟨t, failed⟩ := fails_parameterList_iff.mpr first
    exact ⟨error, t, failed, first⟩
  · refine ⟨(becomes_of_gives given).2, fun list member => ?_⟩
    exact ⟨fun i p found => lt_countP_iff (requiredFirst_of_gives given list member) found,
      fun name n u => gives_checkCount_ofParameters name n⟩
  · exact ⟨fun r t given => inOrder_of_struct kind given,
      fun error t failed => tree_of_fails_struct kind failed⟩

end Analysis
end ShellSema
