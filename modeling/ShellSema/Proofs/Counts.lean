import ShellSema.Library.Standard
import ShellSema.Proofs.ModuleVisits
import ShellSema.Proofs.Targets
import ShellSema.Syntax.Build

/-!
# Argument counts in analysed trees

A call is counted when its arguments have been gone over, a construction before that. References
are let off the lower bound. When a closure body is a bare reference, it becomes a call with
parameters made up for it, and is not counted again.
-/
namespace ShellSema

namespace Arity

/-- The number of arguments is neither too small nor too great. -/
def Admits (arity : Arity) (count : Nat) : Prop :=
  arity.min ≤ count ∧ ∀ limit, arity.limit = some limit → count ≤ limit

theorem accepts_iff {arity : Arity} {isReference : Bool} {count : Nat} :
    arity.accepts isReference count = true ↔
      (isReference = true ∨ arity.min ≤ count) ∧
        ∀ limit, arity.limit = some limit → count ≤ limit := by
  rcases arity with ⟨min, _ | limit, variadic⟩ <;> simp [accepts]

theorem admits_iff_accepts {arity : Arity} {count : Nat} :
    arity.Admits count ↔ arity.accepts false count = true := by
  simp [Admits, accepts_iff]

end Arity

/-- By what the arguments of a callee are counted. A built-in name or a program takes any number. -/
def Callee.arity? (tree : ScopeTree) : Callee → Option Arity
  | .standard f => some (.ofStandardFunction f)
  | .user id => (tree.function id).toOption.map fun f => .ofParameters f.parameters
  | _ => none

/-- By what the arguments of a construction are counted. -/
def StructTarget.arity? (tree : ScopeTree) : StructTarget → Option Arity
  | .user id => (tree.struct id).toOption.map fun struct => .ofParameters struct.parameters
  | .standard struct => some (.ofStandardStruct struct)

/-! ### Checks -/

theorem accepts_of_checkArguments {callee : Callee} {isReference : Bool} {count : Nat}
    {s t : AnalysisState} {u : Unit}
    (given : Gives (Walk.checkArguments callee isReference count) s u t) {arity : Arity}
    (counted : callee.arity? s.tree = some arity) : arity.accepts isReference count = true := by
  cases callee
  case user id =>
    simp only [Walk.checkArguments, gives_bind, gives_ask, gives_checkCount] at given
    obtain ⟨f, _, ⟨found, rfl⟩, accepted, -⟩ := given
    simp only [Callee.arity?, found, Except.toOption, Option.map_some, Option.some.injEq] at counted
    exact counted ▸ accepted
  case standard f =>
    obtain ⟨accepted, -⟩ := gives_checkCount.mp given
    simp only [Callee.arity?, Option.some.injEq] at counted
    exact counted ▸ accepted
  all_goals cases counted

/-- A function that is called and counted is in the tree. -/
theorem function_of_checkArguments {id : FunctionId} {isReference : Bool} {count : Nat}
    {s t : AnalysisState} {u : Unit}
    (given : Gives (Walk.checkArguments (.user id) isReference count) s u t) :
    ∃ f, s.tree.function id = .ok f := by
  simp only [Walk.checkArguments, gives_bind, gives_ask] at given
  obtain ⟨f, _, ⟨found, rfl⟩, -⟩ := given
  exact ⟨f, found⟩

/-- A struct that is found for a construction admits the number of its arguments. -/
theorem admits_of_structTarget {context : Context} {name : String} {path : List String}
    {count : Nat} {s t : AnalysisState} {target : StructTarget}
    (given : Gives (Walk.structTarget context name path count) s target t) :
    ∃ arity, target.arity? s.tree = some arity ∧ arity.Admits count := by
  cases foundBy_of_structTarget given with
  | user _ _ _ known _ accepted =>
    refine ⟨_, ?_, Arity.admits_iff_accepts.mpr accepted⟩
    simp [StructTarget.arity?, known, Except.toOption]
  | standard _ _ _ _ accepted => exact ⟨_, rfl, Arity.admits_iff_accepts.mpr accepted⟩

theorem length_of_exprs {context : Context} {es rs : List Expr} {s t : AnalysisState}
    (given : Gives (Walk.exprs context es) s rs t) : rs.length = es.length := by
  induction es generalizing rs s t with
  | nil =>
    obtain ⟨rfl, -⟩ := gives_pure.mp given
    rfl
  | cons e es ih =>
    simp only [Walk.exprs, gives_bind, gives_pure] at given
    obtain ⟨r, _, -, rest, _, others, rfl, -⟩ := given
    rw [List.length_cons, List.length_cons, ih others]

/-! ### What visits make of calls and constructions -/

/-- The visit of a call finds this callee and goes over the arguments, which leaves a state in which
the arguments are counted. -/
def Visit.Binds (v : Visit) (callee : Callee) (bound : AnalysisState) : Prop :=
  ∃ written found noted arguments, v.source.kind = .call written ∧
    ShellSema.Gives (Walk.callee v.context written.name.text (written.path.map Token.text)) v.before
      callee found ∧
    ShellSema.Gives (Walk.noteCall written.name written.path callee) found () noted ∧
    ShellSema.Gives (Walk.exprs v.context written.arguments) noted arguments bound

/-- A call is made of a call, and its arguments are counted in the end. -/
theorem Visit.call_of_gives {v : Visit} {written : Call} {r : Expr} {t : AnalysisState}
    (source : v.source.kind = .call written) (given : v.Gives r t) :
    ∃ made callee bound, r.kind = .call made ∧ v.Binds callee bound ∧
      made.findings = callee.findings v.context.scope ∧
      made.mode.isReference = written.mode.isReference ∧
      (∀ id, callee = .user id → ∃ f, bound.tree.function id = .ok f) ∧
      ∀ arity, callee.arity? bound.tree = some arity →
        arity.accepts made.mode.isReference made.arguments.length = true := by
  obtain ⟨-, node, carried, rfl⟩ := gives_iff.mp given
  obtain ⟨name, path, arguments, piped, environment, mode, findings⟩ := written
  simp only [plan, source, Plan.node, Plan.run_bind, Plan.run_lift, Plan.run_each, Plan.run_pure,
    gives_bind, gives_pure] at carried
  obtain ⟨callee, found, called, _, noted, noting, arguments', bound, walked, _, checked, closure,
    _, counted, counting, environment', _, -, rfl, -⟩ := carried
  -- Signatures are read after the arguments, which may have declared functions.
  have same := unchanging_checkClosure.of_gives closure
  subst same
  refine ⟨_, callee, checked, rfl, ⟨_, found, noted, arguments', source, called, noting, walked⟩,
    rfl, rfl, ?_, fun arity known => ?_⟩
  · rintro id rfl
    exact function_of_checkArguments counting
  -- Processes among the arguments are only marked, so their number stays.
  · have accepted := accepts_of_checkArguments counting known
    have held (es : List Expr) : (Walk.holdProcesses callee es).length = es.length := by
      unfold Walk.holdProcesses
      split <;> simp
    simpa [held] using accepted

/-- A construction finds its struct and counts its arguments before it goes over them. -/
theorem Visit.construct_of_gives {v : Visit} {name : Token} {path : List Token}
    {arguments : List Expr} {old : Option StructTarget} {r : Expr} {t : AnalysisState}
    (source : v.source.kind = .construct name path arguments old) (given : v.Gives r t) :
    ∃ arguments' target found, r.kind = .construct name path arguments' (some target) ∧
      ShellSema.Gives (Walk.structTarget v.context name.text (path.map Token.text) arguments.length)
        v.before target found ∧ arguments'.length = arguments.length := by
  obtain ⟨-, node, carried, rfl⟩ := gives_iff.mp given
  simp only [plan, source, Plan.node, Plan.run_bind, Plan.run_lift, Plan.run_each, Plan.run_pure,
    gives_bind, gives_pure] at carried
  obtain ⟨target, found, looked, _, _, -, arguments', _, walked, rfl, -⟩ := carried
  exact ⟨arguments', target, found, rfl, looked, length_of_exprs walked⟩

/-! ### Calls in analysed trees -/

/-- The call is made of a bare reference, with parameters of these names made up for it. -/
structure Call.Expands (made reference : Call) (names : List String) : Prop where
  bare : reference.mode.isReference = true
  findings : made.findings = reference.findings
  arguments : ∃ id scope, made.arguments =
    names.map (fun name => Walk.impliedArgument id scope (Walk.impliedParameter reference.name name)) ++
      reference.arguments

theorem Call.Expands.length {made reference : Call} {names : List String}
    (expands : made.Expands reference names) :
    made.arguments.length = names.length + reference.arguments.length := by
  obtain ⟨_, _, same⟩ := expands.arguments
  simp [same]

/-- A call as a visit left it: counted, in the state in which it was bound. -/
structure Call.BoundAt (made : Call) (v : Visit) (callee : Callee) (bound : AnalysisState) :
    Prop where
  binds : v.Binds callee bound
  findings : made.findings = callee.findings v.context.scope
  function : ∀ id, callee = .user id → ∃ f, bound.tree.function id = .ok f
  counted : ∀ arity, callee.arity? bound.tree = some arity →
    arity.accepts made.mode.isReference made.arguments.length = true

/-- The call, or one run in another way, was analysed before: it stands in a function that the walk
leaves as it is. -/
def Call.Left (visited : Visit → Prop) (made : Call) : Prop :=
  ∃ v c n, visited v ∧ v.Skips ∧ c ∈ v.source.children ∧ n ∈ Expr.nodes c ∧
    ∃ old mode, n.kind = .call old ∧ made = { old with mode }

/-- How a call comes into an analysed tree: it was there before, it runs the code of a shell
fragment, a visit made it, or a reference is expanded. -/
inductive Call.Arises (visited : Visit → Prop) : Call → Prop where
  | left {made : Call} (before : made.Left visited) : Arises visited made
  | fragment {made : Call} (standard : made.findings.standard = none)
      (function : made.findings.function = none) (called : made.mode.isReference = false) :
      Arises visited made
  | bound {made : Call} (v : Visit) (callee : Callee) (bound : AnalysisState) (reached : visited v)
      (place : made.BoundAt v callee bound) : Arises visited made
  | expanded {made reference attached : Call} {names : List String} {s t : AnalysisState}
      (expands : made.Expands reference names) (called : made.mode.isReference = false)
      (source : Arises visited reference) (closure : Arises visited attached)
      (implied : ShellSema.Gives (Walk.impliedNames attached) s names t) : Arises visited made

theorem Call.Arises.changeMode {visited : Visit → Prop} {made : Call} {mode : CallMode}
    (arises : made.Arises visited) (same : mode.isReference = made.mode.isReference) :
    Call.Arises visited { made with mode } := by
  cases arises with
  | left before =>
    obtain ⟨v, c, n, reached, skips, child, inside, old, _, kind, rfl⟩ := before
    exact .left ⟨v, c, n, reached, skips, child, inside, old, mode, kind, rfl⟩
  | fragment standard function called => exact .fragment standard function (same.trans called)
  | bound v callee bound reached place =>
    refine .bound v callee bound reached ⟨place.binds, place.findings, place.function, ?_⟩
    rw [same]
    exact place.counted
  | expanded expands called source closure implied =>
    exact .expanded ⟨expands.bare, expands.findings, expands.arguments⟩ (same.trans called) source
      closure implied

/-- A construction as a visit left it: counted, in the state from which the visit started. -/
def StructTarget.Admitted (visited : Visit → Prop) (target : StructTarget) (count : Nat) : Prop :=
  ∃ v arity, visited v ∧ target.arity? v.before.tree = some arity ∧ arity.Admits count

/-- What is known of the calls and constructions among the nodes. -/
def Expr.Arises (visited : Visit → Prop) (n : Expr) : Prop :=
  match n.kind with
  | .call made => made.Arises visited
  | .construct name path arguments (some target) =>
    target.Admitted visited arguments.length ∨
      ∃ v c old, visited v ∧ v.Skips ∧ c ∈ v.source.children ∧ old ∈ c.nodes ∧
        old.kind = .construct name path arguments (some target)
  | _ => True

section Spreading

variable {visited : Visit → Prop}

theorem Expr.arises_of_call {n : Expr} {made : Call} (kind : n.kind = .call made) :
    n.Arises visited ↔ made.Arises visited := by
  simp [Expr.Arises, kind]

theorem Expr.arises_of_name {n : Expr} (call : n.kindName ≠ "call") (construct : n.kindName ≠ "new") :
    n.Arises visited := by
  unfold Expr.Arises
  split
  next made kind => simp [kindName, ExprKind.name, kind] at call
  next kind => simp [kindName, ExprKind.name, kind] at construct
  next => trivial

/-- What a visit makes of its own accord. -/
theorem Visit.arises_of_gives {v : Visit} {r : Expr} {t : AnalysisState} (reached : visited v)
    (given : v.Gives r t) (pipe : v.source.isPipe = false) : r.Arises visited := by
  cases kind : v.source.kind
  case call written =>
    obtain ⟨made, callee, bound, kind, binds, findings, -, function, counted⟩ :=
      call_of_gives kind given
    exact (Expr.arises_of_call kind).mpr (.bound v callee bound reached
      ⟨binds, findings, function, counted⟩)
  case construct name path arguments old =>
    obtain ⟨arguments', target, found, kind, looked, same⟩ := construct_of_gives kind given
    obtain ⟨arity, known, admitted⟩ := admits_of_structTarget looked
    simp only [Expr.Arises, kind]
    exact .inl ⟨v, arity, reached, known, same ▸ admitted⟩
  case literal token value =>
    rcases literal_of_gives kind given with ⟨_, -, kind⟩ | ⟨_, -, kind⟩
    · simp only [Expr.Arises, kind]
    · exact (Expr.arises_of_call kind).mpr (.fragment rfl rfl rfl)
  -- Every other node keeps its kind, and nothing is asked of that kind.
  case' sequence form items => cases form
  all_goals
    have named : v.source.kindName ≠ "literal" ∧ v.source.kindName ≠ "call" ∧
        v.source.kindName ≠ "new" := by
      simp [Expr.kindName, ExprKind.name, Sequence.name, kind]
    have same := kindName_of_gives given pipe named.1
    exact Expr.arises_of_name (same ▸ named.2.1) (same ▸ named.2.2)

/-- Calls and constructions come into a tree in no other way. -/
theorem spreads_arises : Spreads visited (fun _ => False) fun _ => Expr.Arises visited where
  ending _ := False.elim
  made v r t reached given pipe := v.arises_of_gives reached given pipe
  mode _ e change only arises := by
    unfold Expr.mapCall
    split
    next made kind =>
      obtain ⟨mode, changed, same⟩ := only made
      have arises := (Expr.arises_of_call kind).mp arises
      have changes : Expr.Arises visited { e with kind := .call (change made) } ↔
          (change made).Arises visited := Expr.arises_of_call rfl
      rw [changes, changed]
      exact arises.changeMode same
    next => exact arises
  block _ e block := by
    obtain ⟨scope, found⟩ := Option.isSome_iff_exists.mp block
    obtain ⟨expressions, role, kind⟩ := Expr.kind_of_blockScope? found
    simp [Expr.Arises, kind]
  implied _ _ _ _ _ _ _ _ _ _ _ _ _ _ _ _ _ _ _ := trivial
  fragment _ _ _ _ _ := trivial
  expanded _ _ call e attached reference names id scope s t arises called named source kind bare := by
    -- Both the attached call and the reference have been counted where they stand.
    have closure : attached.Arises visited :=
      (Expr.arises_of_call (Expr.kind_of_call? called)).mp arises
    have source := (Expr.arises_of_call kind).mp source
    rw [Expr.arises_of_call rfl]
    refine .expanded ⟨bare, rfl, id, scope, ?_⟩ rfl source closure named
    simp [Walk.expandedCall, Function.comp_def]
  skipped v r t reached skips given _ c child := by
    refine Expr.allAbove_none.mpr fun _ n stands => ?_
    have inside := stands.mem_nodes
    change n.Arises visited
    -- What is skipped stays as the source has it, with its own findings.
    unfold Expr.Arises
    split
    next made kind =>
      refine .left ⟨v, c, n, reached, skips, child, inside, made, made.mode, kind, ?_⟩
      cases made
      rfl
    next kind => exact .inr ⟨v, c, n, reached, skips, child, inside, kind⟩
    next => trivial

/-! ### The counts of analysed calls -/

/-- The callee takes so many arguments. -/
def Callee.Admits (callee : Callee) (tree : ScopeTree) (count : Nat) : Prop :=
  ∀ arity, callee.arity? tree = some arity → arity.Admits count

/-- What is known of the count of a call that is no reference. The counts of a call that a visit
made are right. Those of an expanded reference are right just if the names that are made up and the
arguments that were written are as many as the callee takes. -/
inductive Call.Counted (visited : Visit → Prop) (made : Call) : Prop where
  | left (before : made.Left visited)
  | uncounted (standard : made.findings.standard = none) (function : made.findings.function = none)
  | checked (v : Visit) (callee : Callee) (bound : AnalysisState) (reached : visited v)
      (place : made.BoundAt v callee bound)
      (admits : callee.Admits bound.tree made.arguments.length)
  | expandedLeft (reference : Call) (names : List String) (expands : made.Expands reference names)
      (before : reference.Left visited)
  | expanded (v : Visit) (callee : Callee) (bound : AnalysisState) (reached : visited v)
      (reference attached : Call) (names : List String) (s t : AnalysisState)
      (place : reference.BoundAt v callee bound) (expands : made.Expands reference names)
      (closure : attached.Arises visited)
      (implied : ShellSema.Gives (Walk.impliedNames attached) s names t)
      (admits : callee.Admits bound.tree made.arguments.length ↔
        callee.Admits bound.tree (names.length + reference.arguments.length))

theorem Call.Arises.counted {made : Call} (arises : made.Arises visited)
    (called : made.mode.isReference = false) : made.Counted visited := by
  cases arises with
  | left before => exact .left before
  | fragment standard function _ => exact .uncounted standard function
  | bound v callee bound reached place =>
    refine .checked v callee bound reached place fun arity known => ?_
    have accepted := place.counted arity known
    rw [called] at accepted
    exact Arity.admits_iff_accepts.mpr accepted
  | expanded expands _ source closure implied =>
    have bare := expands.bare
    cases source with
    | left before => exact .expandedLeft _ _ expands before
    | fragment _ _ called => rw [called] at bare; cases bare
    | bound v callee bound reached place =>
      refine .expanded v callee bound reached _ _ _ _ _ place expands closure implied ?_
      rw [expands.length]
    | expanded _ called _ _ _ => rw [called] at bare; cases bare

end Spreading

namespace Analysis

variable {registry : Registry} {mode : AnalysisMode} {module : ModuleId} {ast analysed : Ast}
  {s t : AnalysisState}

/-- In an analysed tree, each call that is no reference has as many arguments as its callee takes,
by what was known of the callee when the call was bound, unless the call is an expanded reference.
Each construction has as many arguments as its struct takes. -/
theorem counts_of_analysed (given : Gives (moduleWalk registry mode module ast) s analysed t) :
    ∀ e ∈ analysed.expressions, ∀ n ∈ e.nodes,
      (∀ made, n.kind = .call made → made.mode.isReference = false →
        made.Counted (Visited registry module ast s)) ∧
      ∀ name path arguments target, n.kind = .construct name path arguments (some target) →
        target.Admitted (Visited registry module ast s) arguments.length ∨
          ∃ v c old, Visited registry module ast s v ∧ v.Skips ∧ c ∈ v.source.children ∧
            old ∈ c.nodes ∧ old.kind = .construct name path arguments (some target) := by
  intro e member n inside
  have arises : n.Arises (Visited registry module ast s) := by
    obtain ⟨m, -, all⟩ := all_of_gives spreads_arises given
    obtain ⟨place, stands⟩ := Expr.contains_of_mem_nodes inside m.scope
    exact Expr.allAbove_none.mp (all e member) place n stands
  constructor
  · intro made kind called
    exact ((Expr.arises_of_call kind).mp arises).counted called
  · intro name path arguments target kind
    simpa only [Expr.Arises, kind] using arises

/-- A reference to `len`, which takes one argument, as the closure of `reduce`, which passes two. -/
def lenOfTwo : Ast :=
  ⟨[Build.closure (Build.call "reduce" [Build.list []]) []
    (Build.block ⟨1⟩ [Build.reference [] "len"])]⟩

def lenOfTwoScopes : ScopeTree :=
  { ScopeTree.ofRoot "main" with
    scopes := #[⟨none, ⟨0⟩, {}⟩, ⟨some ⟨0⟩, ⟨0⟩, {}⟩] }

def globalsOnly : Registry := (Standard.registerGlobals {}).toRegistry

/-- The call of a standard function has more arguments than the function takes, or fewer. -/
def miscounted (n : Expr) : Bool :=
  match n.kind with
  | .call made =>
    match made.findings.standard with
    | some f => !made.mode.isReference &&
      !(Arity.ofStandardFunction f).accepts false made.arguments.length
    | none => false
  | _ => false

theorem miscounted_iff {n : Expr} :
    miscounted n = true ↔ ∃ made f, n.kind = .call made ∧ made.mode.isReference = false ∧
      made.findings.standard = some f ∧ ¬ (Arity.ofStandardFunction f).Admits made.arguments.length := by
  simp only [Arity.admits_iff_accepts]
  unfold miscounted
  split
  next made kind =>
    split
    next f found => simp [kind, found]
    next found => simp [kind, found]
  next other => simpa using fun made kind => (other made kind).elim

/-- The expanded call of `len` has two arguments. -/
theorem count_exceeded_by_expansion :
    ∃ analysed t, Gives (moduleWalk globalsOnly .overwrite ⟨0⟩ lenOfTwo)
      { tree := lenOfTwoScopes } analysed t ∧
      ∃ e ∈ analysed.expressions, ∃ n ∈ e.nodes, ∃ made f, n.kind = .call made ∧
        made.mode.isReference = false ∧ made.findings.standard = some f ∧
          ¬ (Arity.ofStandardFunction f).Admits made.arguments.length := by
  have found : endsWith (moduleWalk globalsOnly .overwrite ⟨0⟩ lenOfTwo) { tree := lenOfTwoScopes }
      (fun analysed _ => analysed.expressions.any fun e => e.nodes.any miscounted) = true := by
    decide +kernel
  obtain ⟨analysed, t, ended, found⟩ := gives_of_endsWith found
  obtain ⟨e, member, found⟩ := List.any_eq_true.mp found
  obtain ⟨n, inside, found⟩ := List.any_eq_true.mp found
  exact ⟨analysed, t, ended, e, member, n, inside, miscounted_iff.mp found⟩

/-- The counts of that script, as far as they are known. -/
theorem counts_of_analysed_expansion :
    ∃ analysed t, Gives (moduleWalk globalsOnly .overwrite ⟨0⟩ lenOfTwo)
      { tree := lenOfTwoScopes } analysed t ∧ analysed.expressions.length = 1 ∧
      ∀ e ∈ analysed.expressions, ∀ n ∈ e.nodes,
        (∀ made, n.kind = .call made → made.mode.isReference = false → made.Counted
          (Visited globalsOnly ⟨0⟩ lenOfTwo { tree := lenOfTwoScopes })) ∧
        ∀ name path arguments target, n.kind = .construct name path arguments (some target) →
          target.Admitted (Visited globalsOnly ⟨0⟩ lenOfTwo { tree := lenOfTwoScopes })
              arguments.length ∨
            ∃ v c old, Visited globalsOnly ⟨0⟩ lenOfTwo { tree := lenOfTwoScopes } v ∧ v.Skips ∧
              c ∈ v.source.children ∧ old ∈ c.nodes ∧
                old.kind = .construct name path arguments (some target) := by
  have single : endsWith (moduleWalk globalsOnly .overwrite ⟨0⟩ lenOfTwo) { tree := lenOfTwoScopes }
      (fun analysed _ => analysed.expressions.length == 1) = true := by decide +kernel
  obtain ⟨analysed, t, ended, single⟩ := gives_of_endsWith single
  exact ⟨analysed, t, ended, eq_of_beq single, counts_of_analysed ended⟩

end Analysis
end ShellSema
