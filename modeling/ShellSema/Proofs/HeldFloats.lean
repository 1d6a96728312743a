import ShellSema.CommandLine.Run
import ShellSema.Proofs.Budgets
import ShellSema.Proofs.Recalling
import ShellSema.Proofs.Results
import ShellSema.Proofs.StoredTrees
import ShellSema.Proofs.UnitFormat

/-!
# The floating point numbers of an analysed unit

The numbers that an analysed unit holds come from two places: they were in the unit before, or a
literal of one of its trees denotes them. So whatever holds of these numbers holds of those of the
result.
-/
namespace ShellSema

/-! ### Numbers in trees -/

/-- The floating point number that a literal denotes, if it denotes one. -/
def Token.float? (token : Token) : Option Binary64 :=
  match token.meaning with
  | .constant value => value.float?
  | _ => none

/-- The floating point number that the literal at a node of this kind denotes. -/
def ExprKind.denoted? : ExprKind → Option Binary64
  | .literal token _ => token.float?
  | _ => none

/-- The floating point number that is stored at a node of this kind. -/
def ExprKind.held? (kind : ExprKind) : Option Binary64 := kind.constant?.bind Constant.float?

/-- The floating point numbers that the literals of a tree denote. -/
def Expr.denoted (e : Expr) : List Binary64 := e.nodes.filterMap fun n => n.kind.denoted?

def Ast.denoted (ast : Ast) : List Binary64 := ast.expressions.flatMap Expr.denoted

/-- The floating point numbers that an analysis may find in the trees that a unit lists. -/
def AnalysisUnit.denoted (unit : AnalysisUnit) : List Binary64 :=
  unit.modules.flatMap fun listed => listed.ast.denoted

variable {P : Binary64 → Prop}

/-- What is stored in a tree is as wanted, and what its literals denote. -/
def Expr.Supplies (P : Binary64 → Prop) (e : Expr) : Prop :=
  (∀ x ∈ e.floats, P x) ∧ ∀ x ∈ e.denoted, P x

theorem Expr.floats_iff {e : Expr} : (∀ x ∈ e.floats, P x) ↔ ∀ n ∈ e.nodes, ∀ x ∈ n.kind.held?, P x := by
  simp only [floats, List.mem_filterMap]
  exact ⟨fun all n inside x held => all x ⟨n, inside, held⟩,
    fun all x ⟨n, inside, held⟩ => all n inside x held⟩

theorem Expr.denoted_iff {e : Expr} :
    (∀ x ∈ e.denoted, P x) ↔ ∀ n ∈ e.nodes, ∀ x ∈ n.kind.denoted?, P x := by
  simp only [denoted, List.mem_filterMap]
  exact ⟨fun all n inside x held => all x ⟨n, inside, held⟩,
    fun all x ⟨n, inside, held⟩ => all n inside x held⟩

theorem Expr.Supplies.child {c e : Expr} (supplies : e.Supplies P) (child : c ∈ e.children) :
    c.Supplies P := by
  rw [Supplies, floats_iff, denoted_iff] at supplies ⊢
  exact ⟨fun n inside => supplies.1 n (mem_nodes_of_child child inside),
    fun n inside => supplies.2 n (mem_nodes_of_child child inside)⟩

theorem ExprKind.held?_of_name {kind : ExprKind} (other : kind.name ∉ ["literal", "field access"]) :
    kind.held? = none := by
  cases kind <;> first | rfl | simp [name] at other

theorem ExprKind.holds_of_held? {kind : ExprKind} (nothing : kind.held? = none) :
    ∀ x ∈ kind.held?, P x := by
  simp [nothing]

/-! ### Numbers in the results of visits -/

namespace Visit

variable {v : Visit} {r : Expr} {t : AnalysisState}

/-- A field is found under its name, which is no number. -/
theorem held?_of_fieldAccess {object : Expr} {field : Token} {old : Option Constant}
    (source : v.source.kind = .fieldAccess object field old) (given : v.Gives r t) :
    r.kind.held? = none := by
  obtain ⟨-, made, carried, rfl⟩ := gives_iff.mp given
  simp only [plan, source, Plan.node, Plan.run_bind, Plan.run_lift, Plan.run_enter, Plan.run_pure,
    gives_bind, gives_pure] at carried
  obtain ⟨_, _, -, _, _, -, rfl, -⟩ := carried
  rfl

/-- What a visit stores at the node that it makes, its source has supplied. -/
theorem held_of_gives (supplies : v.source.Supplies P) (given : v.Gives r t)
    (pipe : v.source.isPipe = false) : ∀ x ∈ r.kind.held?, P x := by
  have here := Expr.floats_iff.mp supplies.1 _ v.source.mem_nodes_self
  cases course_of_gives given with
  | pipe source redirects => simp [Expr.isPipe, source, redirects] at pipe
  | call _ _ _ kind => exact ExprKind.holds_of_held? (by rw [kind]; rfl)
  | @constant token value old source means kind =>
    have denoted := Expr.denoted_iff.mp supplies.2 _ v.source.mem_nodes_self
    rw [source, ExprKind.denoted?, Token.float?, means] at denoted
    rw [kind]
    exact denoted
  | fragment _ _ kind => exact ExprKind.holds_of_held? (by rw [kind]; rfl)
  | closure _ _ _ _ _ _ kind => exact ExprKind.holds_of_held? (by rw [kind]; rfl)
  | skipped _ kind => rwa [kind]
  | parts named _ _ literal =>
    -- Of the nodes that keep their kind only a field access gets a constant anew.
    by_cases field : v.source.kindName = "field access"
    · cases source : v.source.kind
      case fieldAccess => exact ExprKind.holds_of_held? (held?_of_fieldAccess source given)
      case' sequence form items => cases form
      all_goals simp [Expr.kindName, ExprKind.name, Sequence.name, source] at field
    · have nothing : r.kind.held? = none := by
        apply ExprKind.held?_of_name
        change r.kindName ∉ _
        simp [named, literal, field]
      exact ExprKind.holds_of_held? nothing

end Visit

/-- What comes into a tree besides the results of visits holds no number. -/
theorem composes_held (P : Binary64 → Prop) : Composes (fun v => v.source.Supplies P)
    (fun _ => False) fun _ n => ∀ x ∈ n.kind.held?, P x where
  ending _ ended := ended.elim
  made _ _ _ supplies given pipe := Visit.held_of_gives supplies given pipe
  mode _ e change _ held := by
    -- Only calls are changed there, and a call holds no number itself.
    by_cases call : e.kindName = "call"
    · rw [ExprKind.held?_of_name]
      · exact nofun
      · change (e.mapCall change).kindName ∉ _
        rw [Expr.kindName_mapCall, call]
        decide
    · rwa [Expr.mapCall_of_name call]
  moved _ _ _ _ held := held
  replaced _ body _ _ _ _ _ kind _ _ := by
    simp [Walk.replaceOnly, kind, ExprKind.held?, ExprKind.constant?]
  fragment _ _ _ _ _ := by
    simp [fragmentArgument, ExprKind.held?, ExprKind.constant?, Constant.ofText, Constant.float?]
  implied _ _ _ _ _ _ _ _ _ _ _ _ _ _ _ _ _ _ _ := by
    simp [Walk.impliedArgument, ExprKind.held?, ExprKind.constant?]
  expanded _ _ _ _ _ _ _ _ _ _ _ _ _ _ _ _ _ := by simp [ExprKind.held?, ExprKind.constant?]
  skipped v _ _ supplies _ _ _ c child := by
    have below := Expr.floats_iff.mp (supplies.child child).1
    exact Expr.allAbove_none.mpr fun _ n inside => below n inside.mem_nodes

/-- What is stored in the result of a visit, its source has supplied. -/
theorem Visit.floats_of_gives {v : Visit} {r : Expr} {t : AnalysisState}
    (supplies : v.source.Supplies P) (plain : v.slot.attachment = none) (given : v.Gives r t) :
    ∀ x ∈ r.floats, P x := by
  have all : r.AllIn (fun _ n => ∀ x ∈ n.kind.held?, P x) v.context.scope := by
    rw [← Expr.allAbove_none]
    refine (composes_held P).all_of_gives (fun v w supplies entered => ?_) supplies ?_ given
    · exact supplies.child (mem_children_of_enters entered)
    · simp [Slot.piped, plain]
  refine Expr.floats_iff.mpr fun n inside => ?_
  obtain ⟨place, contains⟩ := Expr.contains_of_mem_nodes inside v.context.scope
  exact all place n contains

/-- The same goes for a parameter list and its defaults. -/
theorem GoneOver.floats {parameters results : List Parameter} (gone : GoneOver parameters results)
    (supplies : ∀ c ∈ parameters.flatMap Parameter.children, c.Supplies P) :
    ∀ x ∈ floatsOfParameters results, P x := by
  obtain ⟨context, s, t, given⟩ := gone
  have yields : (Plan.parameterList context false parameters).Yields
      (fun _ slot e r => slot.attachment = none → e.Supplies P → ∀ x ∈ r.floats, P x) s _ :=
    Plan.yields_parameterList ..
  have defaults := yields.of_gives (fun v r _ _ left plain source =>
    Visit.floats_of_gives source plain left) given
  have each := forall_of_forall₂ ((List.forall₂_and_left _ _).mpr ⟨supplies, defaults⟩)
    fun e r ⟨source, _, plain, good⟩ => good plain source
  intro x member
  obtain ⟨c, child, inside⟩ := List.mem_flatMap.mp member
  exact each c child x inside

/-! ### Numbers in trees of scopes -/

/-- The numbers in a tree of scopes are as wanted: those in the defaults of functions and structs, and
those in the trees that are left for later requests. -/
structure ScopeTree.Holds (P : Binary64 → Prop) (tree : ScopeTree) : Prop where
  functions : ∀ f ∈ tree.functions, ∀ x ∈ floatsOfParameters f.parameters, P x
  structs : ∀ s ∈ tree.structs, ∀ x ∈ floatsOfParameters s.parameters, P x
  stored : ∀ m ∈ tree.modules, ∀ ast ∈ m.stored, ∀ x ∈ ast.floats, P x

/-- If the numbers were as wanted, they still are. -/
def StaysHolding (P : Binary64 → Prop) (s t : AnalysisState) : Prop :=
  s.tree.Holds P → t.tree.Holds P

theorem staysHolding_refl (s : AnalysisState) : StaysHolding P s s := id

theorem StaysHolding.trans (r s t : AnalysisState) (first : StaysHolding P r s)
    (rest : StaysHolding P s t) : StaysHolding P r t :=
  rest ∘ first

theorem staysHolding_changeModule (id : ModuleId) {change : ScriptModule → ScriptModule}
    (kept : ∀ m, ∀ ast ∈ (change m).stored, ast ∈ m.stored ∨ ∀ x ∈ ast.floats, P x) :
    Keeps (StaysHolding P) (Walk.edit (ScopeTree.Edit.changeModule id change)) := by
  intro s holds
  rw [runFrom_edit_state, ScopeTree.Edit.state_changeModule]
  refine { holds with
    stored := forall_mem_modify holds.stored fun m member ast left => ?_ }
  exact (kept m ast left).elim (holds.stored m member ast) fun floats => floats

/-- What is registered has gone over, and what it was supplied is as wanted. -/
theorem staysHolding_registering : KeptByRegistering (StaysHolding P)
    fun kind => ∀ c ∈ kind.children, c.Supplies P where
  trans := StaysHolding.trans
  blind s t same holds := by
    obtain ⟨functions, structs, stored⟩ := holds
    constructor
    · rwa [same.functions]
    · rwa [same.structs]
    · rwa [same.modules]
  function := by
    intro access name parameters body module takesClosure id analysed r s t supplies _ stays gone
      registered holds
    have defaults := gone.floats fun c child => supplies c (List.mem_append_left _ child)
    simp only [Walk.registerFunction, gives_bind, gives_get, ScopeTree.Edit.registerFunction,
      edit_bind] at registered
    obtain ⟨_, s, ⟨rfl, rfl⟩, _, u, replaced, entered⟩ := registered
    -- The function is replaced first and named then. Its defaults are those of the analysed
    -- declaration.
    have middle : u.tree.Holds P := by
      rw [tree_of_edit replaced, ScopeTree.Edit.state_changeFunction]
      obtain ⟨functions, structs, stored⟩ := stays holds
      refine ⟨?_, structs, stored⟩
      dsimp only
      exact forall_mem_modify functions fun _ _ => defaults
    have names : Keeps (StaysHolding P) (Walk.edit (ScopeTree.Edit.changeModule module fun m =>
        { m with functions := m.functions.insert name.text id })) :=
      staysHolding_changeModule module fun _ _ left => .inl left
    exact names.of_gives entered middle
  struct := by
    intro access name parameters module analysed s id t supplies gone registered holds
    have defaults := gone.floats supplies
    rw [tree_of_edit registered]
    rcases ScopeTree.registerStruct_cases _ s.tree with same | ⟨id, -, same⟩ | ⟨-, -, -, same⟩
    · rwa [same]
    · rw [same]
      refine { holds with structs := ?_ }
      dsimp only
      exact forall_mem_modify holds.structs fun _ _ => defaults
    · rw [same]
      constructor
      · exact holds.functions
      · intro struct member
        rcases Array.mem_push.mp member with before | rfl
        · exact holds.structs struct before
        · exact defaults
      · unfold ScopeTree.withStruct
        dsimp only
        exact forall_mem_modify holds.stored fun m member => holds.stored m member

/-! ### Analyses and sessions -/

namespace Analysis

variable {registry : Registry} {mode : AnalysisMode} {module : ModuleId} {ast analysed : Ast}
  {tree later : ScopeTree} {s t : AnalysisState}

theorem Begins.staysHolding {context : Context} {start : AnalysisState}
    (begins : Begins registry module s context start) : StaysHolding P s start := by
  refine begins.keeps StaysHolding.trans (staysHolding_changeModule _ fun _ _ left => .inl left)
    (keeps_importing staysHolding_refl StaysHolding.trans ?_ fun _ _ target _ => ?_)
  · exact staysHolding_changeModule _ fun _ _ left => .inl left
  · refine staysHolding_changeModule _ (fun m ast left => .inl ?_) _
    cases target <;> exact left

/-- The numbers in an analysed tree were supplied by the tree as it was handed in. -/
theorem floats_of_gives (supplies : ∀ e ∈ ast.expressions, e.Supplies P)
    (given : Gives (moduleWalk registry mode module ast) s analysed t) :
    ∀ x ∈ analysed.floats, P x := by
  obtain ⟨context, start, u, -, walked, -⟩ := begins_of_gives given
  have yields : (Plan.each context Expr.slot ast.expressions).Yields
      (fun _ slot e r => slot.attachment = none → e.Supplies P → ∀ x ∈ r.floats, P x) start _ :=
    Plan.yields_each _ Expr.slot ast.expressions fun _ => rfl
  have results := yields.of_gives (fun v r _ _ left plain source =>
    Visit.floats_of_gives source plain left) walked
  have each := forall_of_forall₂ ((List.forall₂_and_left _ _).mpr ⟨supplies, results⟩)
    fun e r ⟨source, _, plain, good⟩ => good plain source
  intro x member
  obtain ⟨e, inside, held⟩ := List.mem_flatMap.mp member
  exact each e inside x held

theorem staysHolding_of_gives (supplies : ∀ e ∈ ast.expressions, e.Supplies P)
    (given : Gives (moduleWalk registry mode module ast) s analysed t) : StaysHolding P s t := by
  have floats := floats_of_gives supplies given
  obtain ⟨context, start, u, begins, walked, last⟩ := begins_of_gives given
  rw [Plan.run_each] at walked
  have between : StaysHolding P start u := by
    refine staysHolding_registering.of_exprs (fun e member n inside c child => ?_) walked
    obtain ⟨held, denoted⟩ := supplies e member
    rw [Expr.floats_iff] at held
    rw [Expr.denoted_iff] at denoted
    have below : ∀ m ∈ c.nodes, m ∈ e.nodes := fun m deeper =>
      (Expr.nodes_sublist_of_mem inside).subset (Expr.mem_nodes_of_child child deeper)
    rw [Expr.Supplies, Expr.floats_iff, Expr.denoted_iff]
    exact ⟨fun m deeper => held m (below m deeper), fun m deeper => denoted m (below m deeper)⟩
  refine StaysHolding.trans _ _ _ begins.staysHolding (StaysHolding.trans _ _ _ between ?_)
  split at last
  · refine (staysHolding_changeModule module fun m ast left => .inr ?_).of_gives last
    cases left
    exact floats
  · obtain ⟨-, rfl⟩ := gives_pure.mp last
    exact staysHolding_refl _

/-- The numbers that come out of an analysis were supplied to it. -/
theorem holds_of_analyze (supplies : ∀ e ∈ ast.expressions, e.Supplies P) (holds : tree.Holds P)
    (ended : analyze registry mode tree module ast = ⟨.ok analysed, later⟩) :
    later.Holds P ∧ ∀ x ∈ analysed.floats, P x := by
  unfold analyze at ended
  split at ended
  · cases ended
  next found =>
    cases ended
    obtain ⟨-, m, known, -, stored⟩ := stores_of_stored? found
    have member := Array.mem_of_getElem? (ScopeTree.module_eq_ok.mp known)
    exact ⟨holds, holds.stored m member analysed stored⟩
  next =>
    rcases walked : (moduleWalk registry mode module ast).run { tree } with ⟨result, t⟩
    rw [walked] at ended
    cases ended
    exact ⟨staysHolding_of_gives supplies walked holds, floats_of_gives supplies walked⟩

end Analysis

namespace Session

/-- The numbers in a session are as wanted, and so are those that its pending trees supply. -/
structure Holds (P : Binary64 → Prop) (session : Session) : Prop where
  tree : session.tree.Holds P
  pending : ∀ entry ∈ session.pending, ∀ e ∈ entry.ast.expressions, e.Supplies P
  analysed : ∀ entry ∈ session.analysed, ∀ x ∈ entry.ast.floats, P x

theorem invariant_holds (registry : Registry) (mode : AnalysisMode) : Invariant registry mode (Holds P)
    fun entry => ∀ e ∈ entry.ast.expressions, e.Supplies P where
  pending session holds := holds.pending
  fewer session pending holds fewer :=
    { holds with pending := fun entry member => holds.pending entry (fewer.subset member) }
  analysed session entry ast later holds supplies ended := by
    obtain ⟨tree, floats⟩ := Analysis.holds_of_analyze supplies holds.tree ended
    refine ⟨tree, holds.pending, fun other member => ?_⟩
    rcases mem_place member with rfl | before
    · exact floats
    · exact holds.analysed other before

end Session

namespace AnalysisUnit

variable {unit : AnalysisUnit}

theorem floats_iff : (∀ x ∈ unit.floats, P x) ↔
    (∀ listed ∈ unit.modules, ∀ x ∈ listed.ast.floats, P x) ∧ unit.scopes.Holds P := by
  simp only [floats, List.forall_mem_append, List.forall_mem_flatMap, Array.mem_toList_iff,
    Option.mem_toList]
  constructor
  · rintro ⟨⟨⟨listed, stored⟩, functions⟩, structs⟩
    exact ⟨listed, functions, structs, stored⟩
  · rintro ⟨listed, functions, structs, stored⟩
    exact ⟨⟨⟨listed, stored⟩, functions⟩, structs⟩

/-- The numbers in an analysed unit were in the unit before, or literals of its trees denote them. -/
theorem floats_of_analyzed {mode : AnalysisMode} {analysed : AnalysisUnit}
    (held : ∀ x ∈ unit.floats, P x) (denoted : ∀ x ∈ unit.denoted, P x)
    (ended : CommandLine.analyzed unit mode = .ok analysed) : ∀ x ∈ analysed.floats, P x := by
  obtain ⟨listed, scopes⟩ := floats_iff.mp held
  obtain ⟨tree, nothing⟩ := Session.ofModules_tree unit.scopes unit.modules
  have supplies : ∀ listed ∈ unit.modules, ∀ e ∈ listed.ast.expressions, e.Supplies P := by
    intro entry member e inside
    constructor
    · exact fun x floats => listed entry member x (List.mem_flatMap.mpr ⟨e, inside, floats⟩)
    · refine fun x finds => denoted x (List.mem_flatMap.mpr ⟨entry, member, ?_⟩)
      exact List.mem_flatMap.mpr ⟨e, inside, finds⟩
  -- The session starts with the trees of the unit and with nothing analysed.
  have start : (Session.ofModules unit.scopes unit.modules).Holds P := by
    constructor
    · rwa [tree]
    · exact fun entry member => supplies entry (Session.mem_of_mem_ofModules member)
    · rw [nothing]
      exact fun _ member => absurd member List.not_mem_nil
  unfold CommandLine.analyzed at ended
  dsimp only at ended
  rcases run : (Session.ofModules unit.scopes unit.modules).run Standard.bindings.toRegistry mode with
    ⟨result, later⟩
  rw [run] at ended
  cases result with
  | error halt => cases ended
  | ok returned =>
    cases ended
    obtain ⟨after, given, rfl, rfl⟩ := Session.run_eq_ok.mp run
    have last := (Session.invariant_holds _ mode).of_analyzeAll given start
    exact floats_iff.mpr ⟨last.analysed, last.tree⟩

end AnalysisUnit
end ShellSema
