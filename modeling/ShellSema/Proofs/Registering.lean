import ShellSema.Proofs.Linking
import ShellSema.Proofs.ModuleRuns
import ShellSema.Proofs.Signatures

/-!
# Walks that register what is declared

A walk changes the symbols of a tree in two ways only: it registers a function whose body it has gone
over, and a struct whose defaults it has gone over. Both times the parameters are what has become of
the declared ones, so they have the shapes of these. A relation that has no regard to variables and
closures is kept by walks if it is kept where something is registered.
-/
namespace ShellSema

/-- The walk may not register anything. -/
def Permit.noSymbols : Permit where
  scope _ := True
  function _ _ _ _ _ := False
  struct _ _ _ := False

/-- A parameter list was gone over, and the other one is what has become of it. -/
def GoneOver (parameters results : List Parameter) : Prop :=
  ∃ context s t, Gives (Plan.parameterList context false parameters).run s results t

theorem GoneOver.shapes {parameters results : List Parameter} (gone : GoneOver parameters results) :
    shapesOf results = shapesOf parameters := by
  obtain ⟨_, _, _, given⟩ := gone
  exact shapes_of_parameterList given

/-- The relation has no regard to variables and closures, and it is kept where nodes register what they
declare: a function that had been pending, and a struct. -/
structure KeptByRegistering (R : AnalysisState → AnalysisState → Prop) (declares : ExprKind → Prop) :
    Prop where
  trans : ∀ r s t, R r s → R s t → R r t
  blind : ∀ s t, SameSymbols s t → R s t
  function : ∀ access name parameters body module takesClosure id analysed r s t,
    declares (.functionDecl access name parameters body module takesClosure id) →
    r.tree.statusOf? id = some .pending → R r s → GoneOver parameters analysed →
    Gives (Walk.registerFunction access name analysed module takesClosure id) s () t → R r t
  struct : ∀ access (name : Token) parameters module analysed s id t,
    declares (.structDecl access name parameters module) → GoneOver parameters analysed →
    Gives (Walk.edit (ScopeTree.Edit.registerStruct
      { name := name.text, access, module, parameters := analysed })) s id t → R s t

namespace KeptByRegistering

variable {R : AnalysisState → AnalysisState → Prop} {declares : ExprKind → Prop}
  (kept : KeptByRegistering R declares)

include kept

theorem refl (s : AnalysisState) : R s s := kept.blind s s (sameSymbols_of_same rfl)

theorem preserved : Preserved R Permit.noSymbols :=
  preserved_of_sameSymbols kept.trans kept.blind (fun _ _ _ _ _ _ impossible => impossible.elim)
    (fun _ _ _ _ impossible => impossible.elim) fun _ _ _ _ _ impossible => impossible.elim

theorem of_plan {α : Type} {p : Plan α} {es : List Expr} {s t : AnalysisState} {a : α}
    (within : p.Within R fun _ _ _ => True) (follows : p.Follows es)
    (children : ∀ (v : Visit) r t, v.source ∈ es → v.Gives r t → R v.before t)
    (given : Gives p.run s a t) : R s t := by
  refine (within.follow follows).of_gives kept.refl kept.trans ?_ given
  exact fun v r t wanted given => children v r t wanted.2 given

/-- The defaults and the body of a function are gone over before it is registered. -/
theorem of_functionParts {context : Context} {parameters : List Parameter} {body : Expr}
    {home : ModuleId} {takesClosure : Bool} {id : FunctionId} {s t : AnalysisState}
    {parts : List Parameter × Expr}
    (children : ∀ (v : Visit) r t, v.source ∈ parameters.flatMap Parameter.children ++ [body] →
      v.Gives r t → R v.before t)
    (given : Gives (Plan.functionDecl context parameters body home takesClosure id).run s parts t) :
    R s t ∧ GoneOver parameters parts.1 := by
  have calm : Calm R Permit.noSymbols := kept.preserved.toCalm
  simp only [Plan.functionDecl, Plan.run_guard, Plan.gives_orFailFunction, Plan.run_bind,
    Plan.run_lift, Plan.run_enter, Plan.run_pure, gives_bind, gives_blockScope, gives_pure] at given
  obtain ⟨listed, _, defaults, bodyScope, s₁, ⟨-, rfl⟩, _, s₂, declares, inner, s₃, placed, body', _,
    walked, rfl, rfl⟩ := given
  have within : (Plan.parameterList context false parameters).Within R fun _ _ _ => True :=
    Plan.within_parameterList (fun _ _ => trivial) calm ..
  -- The defaults, the parameters and the body are gone over in turn, in different contexts.
  have first : R s s₁ := by
    refine kept.of_plan within (Plan.follows_parameterList ..) (fun v r t child => ?_) defaults
    exact children v r t (List.mem_append_left _ child)
  have second : R s₁ s₂ :=
    (calm.keeps_declareParameters (fun _ _ => calm.declare _ _ trivial)
      fun _ => calm.declare _ _ trivial).of_gives declares
  have third : R s₂ s₃ := (calm.keeps_unchanging unchanging_functionContext).of_gives placed
  have last : R s₃ t := children ⟨inner, body.slot, body, s₃⟩ body' t (by simp) walked
  have whole : R s t :=
    kept.trans _ _ _ first (kept.trans _ _ _ second (kept.trans _ _ _ third last))
  exact ⟨whole, _, _, _, defaults⟩

/-- A function is registered when its defaults and its body have been gone over. -/
theorem of_functionDecl {context : Context} {slot : Slot} {span : Span} {access : Access}
    {name : Token} {parameters : List Parameter} {body made : Expr} {home : ModuleId}
    {takesClosure : Bool} {id : FunctionId} {s t : AnalysisState}
    (declared : declares (.functionDecl access name parameters body home takesClosure id))
    (children : ∀ (v : Visit) r t, v.source ∈ parameters.flatMap Parameter.children ++ [body] →
      v.Gives r t → R v.before t)
    (given : Gives (Plan.node context slot span
      (.functionDecl access name parameters body home takesClosure id)).run s made t) : R s t := by
  simp only [Plan.node, Plan.run_bind, Plan.run_lift, gives_bind, gives_ask] at given
  obtain ⟨f, s, ⟨found, rfl⟩, given⟩ := given
  split at given
  · obtain ⟨-, rfl⟩ := gives_pure.mp given
    exact kept.refl _
  next pending =>
    simp only [Plan.run_bind, Plan.run_lift, Plan.run_pure, gives_bind, gives_pure] at given
    obtain ⟨_, s₁, noted, _, s₂, supported, parts, s₃, gone, _, _, registered, -, rfl⟩ := given
    -- Noting the name and the support for closures touches no symbols.
    have first : R s s₂ := by
      obtain rfl := gives_modify.mp noted
      obtain rfl := gives_modify.mp supported
      exact kept.blind _ _ (sameSymbols_of_same rfl)
    obtain ⟨second, became⟩ := kept.of_functionParts children gone
    refine kept.function _ _ _ _ _ _ _ _ _ _ _ declared ?_ (kept.trans _ _ _ first second) became
      registered
    rw [ScopeTree.statusOf?, ScopeTree.function_eq_ok.mp found, Option.map_some, not_not.mp pending]

/-- A struct is registered when the defaults of its fields have been gone over. -/
theorem of_structDecl {context : Context} {slot : Slot} {span : Span} {access : Access}
    {name : Token} {parameters : List Parameter} {made : Expr} {home : ModuleId}
    {s t : AnalysisState} (declared : declares (.structDecl access name parameters home))
    (children : ∀ (v : Visit) r t, v.source ∈ parameters.flatMap Parameter.children →
      v.Gives r t → R v.before t)
    (given : Gives (Plan.node context slot span (.structDecl access name parameters home)).run s made
      t) : R s t := by
  simp only [Plan.node, Plan.run_bind, Plan.run_lift, Plan.run_pure, gives_bind, gives_pure] at given
  obtain ⟨_, s₁, noted, listed, s₂, defaults, _, s₃, checked, _, _, registered, -, rfl⟩ := given
  have calm : Calm R Permit.noSymbols := kept.preserved.toCalm
  have within : (Plan.parameterList context false parameters).Within R fun _ _ _ => True :=
    Plan.within_parameterList (fun _ _ => trivial) calm ..
  have first : R s s₁ := (calm.keeps_note name.span .struct).of_gives noted
  have second : R s₁ s₂ :=
    kept.of_plan within (Plan.follows_parameterList ..) children defaults
  obtain rfl := unchanging_checkFields.of_gives checked
  exact kept.trans _ _ _ (kept.trans _ _ _ first second)
    (kept.struct _ _ _ _ _ _ _ _ declared ⟨_, _, _, defaults⟩ registered)

/-- The relation is kept by the walk over a tree. -/
theorem of_visit {v : Visit} {r : Expr} {t : AnalysisState}
    (declared : ∀ n ∈ v.source.nodes, declares n.kind) (given : v.Gives r t) : R v.before t := by
  obtain ⟨context, slot, e, s⟩ := v
  induction e using Expr.induction generalizing context slot s r t with
  | inherited e ih =>
    obtain ⟨-, made, carried, -⟩ := Visit.gives_iff.mp given
    have children (w : Visit) (r : Expr) (t : AnalysisState) (child : w.source ∈ e.children)
        (given : w.Gives r t) : R w.before t :=
      ih w.source child _ _ _ (fun n inside => declared n (Expr.mem_nodes_of_child child inside)) given
    have self : declares e.kind := declared e e.mem_nodes_self
    -- Only declarations of functions and structs register anything.
    by_cases registers : e.kind.Permitted Permit.noSymbols
    · have here : e.PermittedHere Permit.noSymbols := ⟨registers, fun _ _ _ _ => trivial⟩
      have within : (Plan.node context slot e.span e.kind).Within R _ :=
        Plan.within_node kept.preserved here (.inl trivial)
      exact kept.of_plan (within.mono fun _ _ _ _ => trivial) (Plan.follows_node ..) children carried
    · obtain ⟨kind, span, isRoot, enclosing⟩ := e
      cases kind
      case functionDecl => exact kept.of_functionDecl self children carried
      case structDecl => exact kept.of_structDecl self children carried
      all_goals exact absurd trivial registers

/-- It is kept by the walk over a row of trees. -/
theorem of_exprs {context : Context} {es rs : List Expr} {s t : AnalysisState}
    (declared : ∀ e ∈ es, ∀ n ∈ e.nodes, declares n.kind)
    (given : Gives (Walk.exprs context es) s rs t) : R s t := by
  rw [← Plan.run_each] at given
  have within : (Plan.each context Expr.slot es).Within R fun _ _ _ => True :=
    Plan.within_each (fun _ _ => trivial) _ _
  refine kept.of_plan within (Plan.follows_each ..) (fun v r t member left => ?_) given
  exact kept.of_visit (declared v.source member) left

end KeptByRegistering
end ShellSema
