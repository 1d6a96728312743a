import ShellSema.Proofs.Failing
import ShellSema.Proofs.Resolved

/-!
# Pipelines

In a chain of pipes each stage is first the right side of one pipe and then the left side of the next.
The call that it becomes is told its stream when the next pipe is met, and its reader when the callee of
the next stage is known. What the whole chain gives is put together here: the call of the last stage,
with the calls of the other stages behind it, the nearest first.
-/
namespace ShellSema

/-! ### Chains of pipes -/

/-- A call that runs a program. -/
def Expr.RunsProgram (e : Expr) : Prop :=
  ∃ made, e.kind = .call made ∧ made.findings.callType = some .program

/-- A literal that is the code of a shell fragment. -/
def Expr.IsFragment (e : Expr) : Prop :=
  ∃ token old code, e.kind = .literal token old ∧ token.meaning = .shellFragment code

/-- Pipes in a row, nested to the left. The stages are calls; the first one may be a shell fragment. A
chain is told by the stages before its last one, the nearest first and each with the operator behind
it, and by the last one. -/
inductive Expr.Pipeline : Expr → List (Expr × BinaryOp) → Expr → Prop
  | start {e : Expr} (stage : e.isCall = true ∨ e.IsFragment) : Pipeline e [] e
  | pipe {e left right stage : Expr} {op : BinaryOp} {upstream : List (Expr × BinaryOp)}
      (kind : e.kind = .binary left op right) (pipes : op.isPipe = true) (call : right.isCall = true)
      (chain : Pipeline left upstream stage) : Pipeline e ((stage, op) :: upstream) right

/-- The first expression is the left side of the second, or the left side of that, and so on: where the
second is a chain, it is the chain up to an earlier stage. -/
inductive Expr.Leads : Expr → Expr → Prop
  | here {e left right : Expr} {op : BinaryOp} (kind : e.kind = .binary left op right) : Leads left e
  | further {e left right first : Expr} {op : BinaryOp} (kind : e.kind = .binary left op right)
      (leads : Leads first left) : Leads first e

theorem Expr.leads_iff {e left right first : Expr} {op : BinaryOp}
    (kind : e.kind = .binary left op right) : first.Leads e ↔ first = left ∨ first.Leads left := by
  constructor
  · intro leads
    cases leads with
    | here kind' =>
      cases kind.symm.trans kind'
      exact .inl rfl
    | further kind' leads =>
      cases kind.symm.trans kind'
      exact .inr leads
  · rintro (rfl | leads)
    · exact .here kind
    · exact .further kind leads

/-- The visit of a left side. Nothing has happened before it, so it starts where the visit of the whole
expression does. -/
def Visit.leftSide (v : Visit) (left : Expr) : Visit := { v with slot := left.slot, source := left }

/-! ### What a callee reads -/

namespace CallFindings

/-- What is called reads the output of a program as it comes. -/
def readsStream (findings : CallFindings) : Bool :=
  findings.callType = some .program || findings.standard.any (·.consumesPipe)

/-- What is called starts the processes among its arguments itself. -/
def startsPipe (findings : CallFindings) : Bool := findings.standard.any (·.startsPipe)

/-- An argument of the call. A process waits for a function that starts it. -/
def hold (findings : CallFindings) (argument : Expr) : Expr :=
  if findings.startsPipe then
    argument.mapCall fun made => { made with mode := { made.mode with startsItself := false } }
  else argument

end CallFindings

theorem Expr.kind_mapCall {e : Expr} {made : Call} (kind : e.kind = .call made)
    (change : Call → Call) : (e.mapCall change).kind = .call (change made) := by
  simp [mapCall, kind]

namespace Callee

variable (callee : Callee) (scope : ScopeId)

theorem isProgram_findings :
    callee.isProgram = true ↔ (callee.findings scope).callType = some .program := by
  cases callee <;> simp [isProgram, findings, callType]

@[simp] theorem readsStream_findings :
    (callee.findings scope).readsStream = callee.consumesPipe := by
  cases callee <;> rfl

@[simp] theorem startsPipe_findings : (callee.findings scope).startsPipe = callee.startsPipe := by
  cases callee <;> rfl

theorem holdProcesses_eq (arguments : List Expr) :
    Walk.holdProcesses callee arguments = arguments.map (callee.findings scope).hold := by
  change _ = arguments.map fun argument => (callee.findings scope).hold argument
  simp only [Walk.holdProcesses, CallFindings.hold, startsPipe_findings]
  cases callee.startsPipe <;> simp

/-- A program starts nothing itself. -/
theorem hold_program (program : (callee.findings scope).callType = some .program) (argument : Expr) :
    (callee.findings scope).hold argument = argument := by
  cases callee <;> simp_all [CallFindings.hold, CallFindings.startsPipe, findings, callType]

/-- The piped expression as it arrives: told who reads it, and waiting if it is an argument that has
to. -/
def hand (left : Expr) : Expr := (callee.findings scope).hold (Walk.tellReader callee left)

/-- A program reads the piped expression. Any other callee gets it as its first argument. -/
theorem placePiped_cases (piped : Option Expr) (own : List Expr) :
    (callee.findings scope).callType = some .program ∧
        (Walk.placePiped callee piped own).2 = piped.map (callee.hand scope) ∧
        Walk.holdProcesses callee (Walk.placePiped callee piped own).1 = own ∨
      (callee.findings scope).callType ≠ some .program ∧ (Walk.placePiped callee piped own).2 = none ∧
        Walk.holdProcesses callee (Walk.placePiped callee piped own).1 =
          (piped.map (callee.hand scope)).toList ++ own.map (callee.findings scope).hold := by
  rw [callee.holdProcesses_eq scope]
  by_cases program : (callee.findings scope).callType = some .program
  · have runs : callee.isProgram = true := (callee.isProgram_findings scope).mpr program
    have held : (callee.findings scope).hold = id := funext (callee.hold_program scope program)
    refine .inl ⟨program, ?_⟩
    cases piped <;> simp [Walk.placePiped, hand, runs, held]
  · have other : ¬ callee.isProgram = true := mt (callee.isProgram_findings scope).mp program
    refine .inr ⟨program, ?_⟩
    cases piped <;> simp [Walk.placePiped, hand, other]

/-- What arrives of the call of a program. -/
theorem kind_hand {left : Expr} {made : Call} (kind : left.kind = .call made)
    (program : made.findings.callType = some .program) :
    (callee.hand scope left).kind = .call { made with
      mode := { made.mode with
        unbuffered := (callee.findings scope).readsStream
        startsItself := made.mode.startsItself && !(callee.findings scope).startsPipe } } := by
  have told := Expr.kind_mapCall kind fun made =>
    if made.findings.callType = some .program then
      { made with mode := { made.mode with unbuffered := callee.consumesPipe } }
    else made
  rw [if_pos program] at told
  rw [hand, CallFindings.hold, readsStream_findings]
  split
  next starts => simp [Walk.tellReader, Expr.kind_mapCall told, starts]
  next waits => simp [Walk.tellReader, told, waits]

end Callee

/-! ### What stages become -/

namespace Visit

/-- The visit goes over the expression in its course, with nothing attached to it, and this is the
result. -/
def Analyses (v : Visit) (e r : Expr) : Prop :=
  ∃ w t, v.Reaches w ∧ w.context = v.context ∧ w.slot.attachment = none ∧ w.source = e ∧ w.Gives r t

/-- The call that a stage is written as, and what becomes of its arguments. A shell fragment is a call of
`bash` with its code. -/
inductive Takes (v : Visit) (stage : Expr) : Call → List Expr → Prop
  | call {written : Call} {own : List Expr} (kind : stage.kind = .call written)
      (each : List.Forall₂ v.Analyses written.arguments own) : Takes v stage written own
  | fragment {token : Token} {old : Option Constant} {code : String}
      (kind : stage.kind = .literal token old) (means : token.meaning = .shellFragment code) :
      Takes v stage (fragmentCall v.context token stage.span code)
        (fragmentCall v.context token stage.span code).arguments

/-- The stages before a call with these findings, the nearest first, are the programs that feed it: each
is what the one after it reads. A program has its own arguments only. It hands over the stream that the
operator behind it names, as it comes or buffered as its reader wants. -/
inductive Fed (v : Visit) : CallFindings → List (Expr × BinaryOp) → Option Expr → Prop
  | start {reader : CallFindings} : Fed v reader [] none
  | stage {reader : CallFindings} {stage fed : Expr} {op : BinaryOp} {redirection : Redirection}
      {upstream : List (Expr × BinaryOp)} {written made : Call} {own : List Expr}
      (kind : fed.kind = .call made) (program : made.findings.callType = some .program)
      (takes : v.Takes stage written own) (name : made.name = written.name)
      (path : made.path = written.path) (arguments : made.arguments = own)
      (redirects : op.redirection? = some redirection)
      (mode : made.mode = { written.mode with
        redirection
        unbuffered := reader.readsStream
        startsItself := written.mode.startsItself && !reader.startsPipe })
      (before : Fed v made.findings upstream made.piped) :
      Fed v reader ((stage, op) :: upstream) (some fed)

/-- The call that a chain becomes: that of its last stage, as it is written. A program reads the stages
before it. Any other callee gets them as its first argument. -/
def Joins (v : Visit) (upstream : List (Expr × BinaryOp)) (last : Expr) (made : Call) : Prop :=
  ∃ written own fed, v.Takes last written own ∧ made.name = written.name ∧
    made.path = written.path ∧ made.mode = written.mode ∧ v.Fed made.findings upstream fed ∧
    (made.findings.callType = some .program ∧ made.piped = fed ∧ made.arguments = own ∨
      made.findings.callType ≠ some .program ∧ made.piped = none ∧
        made.arguments = fed.toList ++ own.map made.findings.hold)

/-! ### Visits within visits -/

variable {v w : Visit} {r : Expr} {t : AnalysisState}

theorem Analyses.of_reaches (reached : v.Reaches w) (same : w.context = v.context) {e r : Expr}
    (analyses : w.Analyses e r) : v.Analyses e r := by
  obtain ⟨u, t, within, place, rest⟩ := analyses
  exact ⟨u, t, reached.trans within, place.trans same, rest⟩

theorem Takes.of_reaches (reached : v.Reaches w) (same : w.context = v.context) {stage : Expr}
    {written : Call} {own : List Expr} (takes : w.Takes stage written own) :
    v.Takes stage written own := by
  cases takes with
  | call kind each => exact .call kind (each.imp fun _ _ => Analyses.of_reaches reached same)
  | fragment kind means =>
    rw [same]
    exact .fragment kind means

theorem Fed.of_reaches (reached : v.Reaches w) (same : w.context = v.context)
    {reader : CallFindings} {upstream : List (Expr × BinaryOp)} {fed : Option Expr}
    (feeds : w.Fed reader upstream fed) : v.Fed reader upstream fed := by
  induction feeds with
  | start => exact .start
  | stage kind program takes name path arguments redirects mode before ih =>
    exact .stage kind program (takes.of_reaches reached same) name path arguments redirects mode ih

/-- The parts of a visit are analysed in its course. -/
theorem analyses_of_parts {es rs : List Expr} (parts : List.Forall₂ (v.Part v.context) es rs) :
    List.Forall₂ v.Analyses es rs := by
  refine parts.imp fun e r part => ?_
  obtain ⟨slot, detached, before, after, entered, given⟩ := part
  exact ⟨_, after, .single entered, rfl, detached, rfl, given⟩

/-! ### Stages -/

/-- A call becomes a call, to which the piped expression is handed over in one of two places. -/
theorem made_of_call {written : Call} (source : v.source.kind = .call written)
    (given : v.Gives r t) :
    ∃ made own callee fed, r.kind = .call made ∧ made.name = written.name ∧
      made.path = written.path ∧ made.mode = written.mode ∧
      made.findings = Callee.findings callee v.context.scope ∧ v.Takes v.source written own ∧
      fed = v.slot.piped.map (callee.hand v.context.scope) ∧
      (made.findings.callType = some .program ∧ made.piped = fed ∧ made.arguments = own ∨
        made.findings.callType ≠ some .program ∧ made.piped = none ∧
          made.arguments = fed.toList ++ own.map made.findings.hold) := by
  cases course_of_call source given with
  | @call _ callee own environment source' argumentParts _ kind =>
    cases source.symm.trans source'
    exact ⟨_, own, callee, _, kind, rfl, rfl, rfl, rfl,
      .call source (analyses_of_parts argumentParts), rfl, callee.placePiped_cases ..⟩
  | skipped skips =>
    obtain ⟨_, _, _, _, _, _, _, _, function, -⟩ := skips
    cases source.symm.trans function
  | parts _ _ call => exact absurd (by simp [Expr.kindName, ExprKind.name, source]) call
  | _ source' => cases source.symm.trans source'

/-- A stage without a pipe before it is a call with its own arguments. -/
theorem joins_of_stage (stage : v.source.isCall = true ∨ v.source.IsFragment)
    (detached : v.slot.attachment = none) (given : v.Gives r t) :
    ∃ made, r.kind = .call made ∧ v.Joins [] v.source made := by
  rcases stage with call | ⟨token, old, code, source, means⟩
  · obtain ⟨written, found⟩ := Option.isSome_iff_exists.mp call
    obtain ⟨made, own, callee, fed, kind, name, path, mode, findings, takes, alone, placed⟩ :=
      made_of_call (Expr.kind_of_call? found) given
    simp only [Slot.piped, detached, Option.bind_none, Option.map_none] at alone
    subst alone
    exact ⟨made, kind, written, own, none, takes, name, path, mode, .start, placed⟩
  · rcases literal_of_gives source given with ⟨value, constant, -⟩ | ⟨code', means', kind⟩
    · cases means.symm.trans constant
    · cases means.symm.trans means'
      exact ⟨_, kind, _, _, none, .fragment source means, rfl, rfl, rfl, .start,
        .inl ⟨rfl, rfl, rfl⟩⟩

/-- What a visit makes is complete, also if it is a pipe. -/
theorem complete_of_gives {made : Call} (given : v.Gives r t) (kind : r.kind = .call made) :
    made.findings.Complete := by
  have plain {w : Visit} {t : AnalysisState} (given : w.Gives r t) (pipe : w.source.isPipe = false) :
      made.findings.Complete := by
    have resolved := resolved_of_gives given pipe (ScopeTree.growsTo_of_scopes rfl)
    simpa only [Expr.Resolved, kind] using resolved
  by_cases pipe : v.source.isPipe = true
  · obtain ⟨left, op, right, redirection, source, redirects⟩ := Expr.kind_of_isPipe pipe
    obtain ⟨_, _, _, _, -, -, second, -⟩ := pipe_of_gives source redirects given
    refine plain second ?_
    by_contra again
    -- Something is attached to the right side, so it is no pipe.
    obtain ⟨_, _, _, _, inner, -⟩ := Expr.kind_of_isPipe (by simpa using again)
    have detached := detached_of_gives second (by simp [Expr.kindName, ExprKind.name, inner])
      (by simp [Expr.kindName, ExprKind.name, inner])
    cases detached
  · exact plain given (by simpa using pipe)

/-- To name the stream is all that is done to a program on the left side of a pipe. -/
theorem redirected_of_program {left told : Expr} {op : BinaryOp} {redirection : Redirection}
    {s u : AnalysisState} {made : Call} (kind : left.kind = .call made)
    (program : made.findings.callType = some .program)
    (given : ShellSema.Gives (Walk.redirect op redirection left) s told u) :
    u = s ∧ told.kind = .call { made with mode := { made.mode with redirection } } := by
  have runs : left.isProgramCall = true := by
    simp [Expr.isProgramCall, Expr.call?, kind, program]
  simp only [Walk.redirect, runs, if_true, gives_pure] at given
  obtain ⟨rfl, rfl⟩ := given
  exact ⟨rfl, Expr.kind_mapCall kind _⟩

/-- A chain becomes the call of its last stage, if the stages before that are programs. The induction
is on the chain: its last stage is told of the one before when that has become a call. -/
theorem joins_of_gives {upstream : List (Expr × BinaryOp)} {last e : Expr}
    (chain : e.Pipeline upstream last) (source : v.source = e) (detached : v.slot.attachment = none)
    (programs : ∀ left, left.Leads e → ∀ r t, (v.leftSide left).Gives r t → r.RunsProgram)
    (given : v.Gives r t) : ∃ made, r.kind = .call made ∧ v.Joins upstream last made := by
  induction chain generalizing v r t with
  | start stage =>
    subst source
    exact joins_of_stage stage detached given
  | @pipe e left right stage op upstream kind pipes call chain ih =>
    obtain ⟨redirection, redirects⟩ := Option.isSome_iff_exists.mp pipes
    subst source
    obtain ⟨left', s, told, u, first, redirected, second, enters⟩ :=
      pipe_of_gives kind redirects given
    have reachesLeft : v.Reaches (v.leftSide left) := .single ((enters _).mpr (.inl rfl))
    have reachesRight := Relation.ReflTransGen.single ((enters _).mpr (.inr rfl))
    -- The left side is a shorter chain, and its call runs a program.
    obtain ⟨before, beforeKind, written, own, fed, takes, name, path, mode, feeds, placed⟩ :=
      ih (v := v.leftSide left) rfl rfl (fun p leads => programs p (.further kind leads)) first
    obtain ⟨before', beforeKind', program⟩ := programs left (.here kind) _ _ first
    cases beforeKind.symm.trans beforeKind'
    obtain ⟨-, piped, arguments⟩ := placed.resolve_right fun other => other.1 program
    subst piped
    obtain ⟨rfl, toldKind⟩ := redirected_of_program beforeKind program redirected
    -- The callee of the last stage decides how it is read.
    obtain ⟨written', called⟩ := Option.isSome_iff_exists.mp call
    obtain ⟨made, own', callee, fed', madeKind, name', path', mode', findings, takes', handed,
      placed'⟩ := made_of_call (Expr.kind_of_call? called) second
    refine ⟨made, madeKind, written', own', fed', takes'.of_reaches reachesRight rfl, name', path',
      mode', ?_, placed'⟩
    rw [handed, findings]
    have handedKind := callee.kind_hand v.context.scope toldKind program
    refine .stage handedKind program (takes.of_reaches reachesLeft rfl) name path arguments redirects
      ?_ (feeds.of_reaches reachesLeft rfl)
    rw [mode]

/-- A call whose type is not known would count as a program, but the analysis gives none. -/
theorem isProgramCall_of_gives (given : v.Gives r t) (program : r.isProgramCall = true) :
    r.RunsProgram := by
  unfold Expr.isProgramCall at program
  split at program
  next made called =>
    have known := (complete_of_gives given (Expr.kind_of_call? called)).callType
    rcases of_decide_eq_true program with unknown | runs
    · simp [unknown] at known
    · exact ⟨made, Expr.kind_of_call? called, runs⟩
  next => cases program

/-- A pipe that hands over another stream than the output fails when the analysis of its left side has
given something else than a program. -/
theorem fails_of_redirection {left right left' : Expr} {op : BinaryOp} {s : AnalysisState}
    (source : v.source.kind = .binary left op right) (other : op = .pipeError ∨ op = .pipeAll)
    (detached : v.slot.attachment = none) (first : (v.leftSide left).Gives left' s)
    (noProgram : ¬ left'.RunsProgram) :
    v.Fails { cause := .invalidRedirection op.render, span := some v.source.span } ∧ v.after = s := by
  have refused : left'.isProgramCall = false := by
    by_contra program
    exact noProgram (isProgramCall_of_gives first (by simpa using program))
  have redirects : ∃ redirection, op.redirection? = some redirection ∧ op ≠ .pipe := by
    rcases other with rfl | rfl <;> simp [BinaryOp.redirection?]
  obtain ⟨redirection, redirects, notPlain⟩ := redirects
  obtain ⟨context, slot, ⟨kind, span, isRoot, enclosing⟩, before⟩ := v
  cases source
  apply fails_of_expr
  have admitted : slot.admits (.binary left op right) = true := by simpa [Slot.admits] using detached
  simp only [Walk.expr, fails_bind, fails_locate, fails_pure, admitted, if_true, Walk.node, redirects]
  refine .inl ⟨{ cause := .invalidRedirection op.render }, .inr ⟨left', s, first, .inl ?_⟩, rfl⟩
  simp [Walk.redirect, refused, notPlain, Walk.fail]

/-- A chain of two or more stages that is analysed, all but the last one of them programs, becomes the
call of its last stage, with the other stages behind it. A pipe of another stream than the output fails
if its left side is analysed and is no program. -/
theorem pipeline_of_gives (v : Visit) :
    (∀ stage op upstream last, v.source.Pipeline ((stage, op) :: upstream) last →
      (∀ left, left.Leads v.source → ∀ r t, (v.leftSide left).Gives r t → r.RunsProgram) →
      ∀ r t, v.Gives r t →
        ∃ made, r.kind = .call made ∧ v.Joins ((stage, op) :: upstream) last made) ∧
    ∀ left op right, v.source.kind = .binary left op right → op = .pipeError ∨ op = .pipeAll →
      v.slot.attachment = none →
      ∀ left' s, (v.leftSide left).Gives left' s → ¬ left'.RunsProgram →
        v.Fails { cause := .invalidRedirection op.render, span := some v.source.span } ∧
          v.after = s := by
  constructor
  · intro stage op upstream last chain programs r t given
    refine joins_of_gives chain rfl ?_ programs given
    cases chain with
    | pipe kind =>
      -- A slot that something is attached to admits no pipe.
      apply detached_of_gives given
      all_goals simp [Expr.kindName, ExprKind.name, kind]
  · intro left op right source other detached left' s first noProgram
    exact fails_of_redirection source other detached first noProgram

/-! ### A chain of three stages -/

/-- The visit of an expression of the root module, with the functions that need no path. -/
def atTop (e : Expr) : Visit :=
  { context := { registry := Analysis.globalsOnly, scope := ⟨0⟩, enclosing := none }
    slot := e.slot
    source := e
    before := { tree := .ofRoot "main" } }

def bashFragment : Expr := Build.literal .shellFragment "bash { make }"

/-- A shell fragment whose errors a program reads. -/
def readingErrors : Expr := Build.binary bashFragment .pipeError (Build.command "grep" ["x"])

/-- A function of the standard library that reads the output of the program as it comes. -/
def readingLines : Expr := Build.pipe readingErrors (Build.call "lines" [])

def lengthCall : Expr := Build.call "len" [Build.string "x"]

/-- A function whose result a program is to read with its errors. -/
def readingNone : Expr := Build.binary lengthCall .pipeAll (Build.call "cat" [])

/-- The three stages become the call of the last one. The function in the other pipe is refused as its
left side. -/
theorem pipeline_of_gives_lines :
    (∃ r t made, (atTop readingLines).Gives r t ∧ r.kind = .call made ∧
      (atTop readingLines).Joins [(Build.command "grep" ["x"], .pipe), (bashFragment, .pipeError)]
        (Build.call "lines" []) made) ∧
    (atTop readingNone).Fails
      { cause := .invalidRedirection "|all", span := some readingNone.span } := by
  constructor
  · have stages : readingLines.Pipeline
        [(Build.command "grep" ["x"], .pipe), (bashFragment, .pipeError)] (Build.call "lines" []) :=
      .pipe rfl rfl rfl (.pipe rfl rfl rfl (.start (.inr ⟨_, _, _, rfl, rfl⟩)))
    have runs (e : Expr) (among : e = readingErrors ∨ e = bashFragment) :
        endsWith (Walk.expr (atTop readingLines).context e.slot e) (atTop readingLines).before
          (fun r _ => r.isProgramCall) = true := by
      rcases among with rfl | rfl <;> decide +kernel
    -- Each left side of the pipeline runs a program, so both redirections apply.
    have programs : ∀ left, left.Leads readingLines → ∀ r t,
        ((atTop readingLines).leftSide left).Gives r t → r.RunsProgram := by
      intro left leads r t given
      have among : left = readingErrors ∨ left = bashFragment := by
        rcases (Expr.leads_iff rfl).mp leads with rfl | leads
        · exact .inl rfl
        rcases (Expr.leads_iff rfl).mp leads with rfl | leads
        · exact .inr rfl
        · cases leads with
          | here kind => cases kind
          | further kind => cases kind
      obtain ⟨r', t', given', program⟩ := gives_of_endsWith (runs left among)
      obtain ⟨rfl, rfl⟩ := ShellSema.Gives.unique given given'
      exact isProgramCall_of_gives given program
    have ends : endsWith (Walk.expr (atTop readingLines).context readingLines.slot readingLines)
        (atTop readingLines).before (fun _ _ => true) = true := by
      decide +kernel
    obtain ⟨r, t, given, -⟩ := gives_of_endsWith ends
    obtain ⟨made, kind, joins⟩ :=
      (pipeline_of_gives (atTop readingLines)).1 _ _ _ _ stages programs r t given
    exact ⟨r, t, made, given, kind, joins⟩
  -- A left side that runs no program has no error output to redirect.
  · have ends : endsWith (Walk.expr (atTop readingNone).context lengthCall.slot lengthCall)
        (atTop readingNone).before (fun r _ => !r.isProgramCall) = true := by
      decide +kernel
    obtain ⟨left, s, first, other⟩ := gives_of_endsWith ends
    refine ((pipeline_of_gives (atTop readingNone)).2 _ _ _ rfl (.inr rfl) rfl left s first ?_).1
    rintro ⟨made, kind, program⟩
    simp [Expr.isProgramCall, Expr.call?, kind, program] at other

end Visit
end ShellSema
