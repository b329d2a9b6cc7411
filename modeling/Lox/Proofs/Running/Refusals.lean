/-
# Inputs that are refused

What the passes in front of running report of an input depends on its text and
the limits, and on nothing that the session holds (`Lox.Input.refusals`). An
input of which something is reported does not run, and leaves the session as
it was; any other one runs, and at most one thing is reported of it. So a
history of inputs has the reports and the outcome that it has without those
that did not run (`Lox.Session.ran`).

Key definitions: `Lox.Input.refusals`, `Lox.Session.reports`, `Lox.Session.ran`.
Key theorems: `Lox.Session.feed_refused`, `Lox.Session.feed_runs`,
`Lox.Session.refused_inputs_leave_no_trace`.
-/
import Lox.Proofs.Grammar.Totality
import Lox.Proofs.Running.History
import Lox.Proofs.Scanner.Extent

namespace Lox

open Procedure

/-! ### What is reported before an input runs -/

/-- What the passes report of a program: of its words and grammar, or else of its names. -/
def programRefusals (limits : Limits) (text : String) : List Diagnostic :=
  let parsed := parse limits (scan text).tokens
  match (scan text).diagnostics ++ parsed.diagnostics with
  | [] => (resolve limits parsed.stmts).diagnostics
  | ds => ds

/-- What the passes report of an input. -/
def Input.refusals (limits : Limits) : Input → List Diagnostic
  | .program text => programRefusals limits text
  | .line text =>
    match (scan text).diagnostics, parseExpression? limits (scan text).tokens with
    | [], some e => (resolveExpression limits e).2.map ScopeError.diagnostic
    | _, _ => programRefusals limits text

/-- Reports of the words of a text and then of its grammar, or reports of its names. -/
def Refuses (ds : List Diagnostic) : Prop :=
  (∃ words grammar, ds = words ++ grammar ∧ (∀ d ∈ words, d.phase = .lexical) ∧
    ∀ d ∈ grammar, d.phase = .grammar) ∨ ∀ d ∈ ds, d.phase = .static

theorem phase_of_errors (errors : List ScopeError) :
    ∀ d ∈ errors.map ScopeError.diagnostic, d.phase = .static := by
  intro d hd
  obtain ⟨e, _, rfl⟩ := List.mem_map.mp hd
  rfl

theorem refuses_programRefusals (limits : Limits) (text : String) :
    Refuses (programRefusals limits text) := by
  unfold programRefusals
  dsimp only
  split
  · exact .inr (phase_of_errors _)
  · exact .inl ⟨_, _, rfl, fun d hd => ((scan_extent text).2 d hd).1, phase_of_parse limits _⟩

theorem Input.refuses_refusals (limits : Limits) (input : Input) :
    Refuses (input.refusals limits) := by
  cases input with
  | program text => exact refuses_programRefusals limits text
  | line text =>
    unfold Input.refusals
    dsimp only
    split
    · exact .inr (phase_of_errors _)
    · exact refuses_programRefusals limits text

/-! ### What is reported when an input runs -/

/-- Nothing, or one report of running. -/
def RunsInto (ds : List Diagnostic) : Prop := ds = [] ∨ ∃ d, ds = [d] ∧ d.phase = .runtime

theorem runsInto_reported {start : Unit → Option Int} {p : Run Unit} {s s' : Store}
    {ds : List Diagnostic} (h : reported start p s = (.ok ds, s')) : RunsInto ds := by
  obtain ⟨r, s₁, hp⟩ : ∃ r s₁, p s = (r, s₁) := ⟨_, _, rfl⟩
  cases r with
  | ok u =>
    rw [reported_ok hp] at h
    cases h
    exact .inl rfl
  | error fault =>
    rw [reported_error hp] at h
    cases fault with
    | error _ | overflow =>
      cases h
      exact .inr ⟨_, rfl, rfl⟩
    | diverged _ | misplaced _ | exhausted => cases h

/-- The first statement that is reported ends the program. -/
theorem runsInto_interpretWith (evaluator : Evaluator) (stmts : List Stmt) {s s' : Store}
    {ds : List Diagnostic} (h : interpretWith evaluator stmts s = (.ok ds, s')) : RunsInto ds := by
  induction stmts generalizing s with
  | nil =>
    cases h
    exact .inl rfl
  | cons stmt stmts ih =>
    obtain ⟨r, s₁, hfirst⟩ : ∃ r s₁, reported (fun _ => stmt.offset?)
        (discard (evaluator.stmt stmt Store.globals)) s = (r, s₁) := ⟨_, _, rfl⟩
    rcases r with fault | _ | ⟨d, more⟩
    · rw [interpretWith_escaped hfirst] at h
      cases h
    · rw [interpretWith_next hfirst] at h
      exact ih h
    · rw [interpretWith_reported hfirst] at h
      cases h
      exact runsInto_reported hfirst

theorem Code.runsInto (evaluator : Evaluator) (code : Code) {s s' : Store} {ds : List Diagnostic}
    (h : code.run evaluator s = (.ok ds, s')) : RunsInto ds := by
  cases code with
  | program stmts => exact runsInto_interpretWith evaluator stmts h
  | expression e =>
    unfold Code.run interpretExprWith at h
    exact runsInto_reported h

namespace Session

/-! ### One input -/

variable (session : Session) (input : Input)

/-- An input is refused for what the passes report of it, and the session stays as it was; or they
report nothing, and it is accepted. -/
theorem run_refused_or_accepted (text : String) :
    (programRefusals session.limits text ≠ [] ∧
      session.run text = (rejected (programRefusals session.limits text), session)) ∨
    (programRefusals session.limits text = [] ∧
      ∃ a, acceptedProgram? session.limits text = some a) := by
  unfold run programRefusals acceptedProgram?
  dsimp only
  cases (scan text).diagnostics ++ (parse session.limits (scan text).tokens).diagnostics with
  | cons d ds => exact .inl ⟨List.cons_ne_nil d ds, rfl⟩
  | nil =>
    dsimp only
    cases (resolve session.limits (parse session.limits (scan text).tokens).stmts).diagnostics with
    | cons d ds => exact .inl ⟨List.cons_ne_nil d ds, rfl⟩
    | nil => exact .inr ⟨rfl, _, rfl⟩

theorem feed_refused_or_accepted :
    (input.refusals session.limits ≠ [] ∧
      session.feed input = (rejected (input.refusals session.limits), session)) ∨
    (input.refusals session.limits = [] ∧ ∃ a, input.accepted? session.limits = some a) := by
  cases input with
  | program text => exact run_refused_or_accepted session text
  | line text =>
    show (_ ∧ session.runLine text = _) ∨ _
    unfold runLine Input.accepted? Input.refusals
    dsimp only
    cases (scan text).diagnostics with
    | cons d ds => exact run_refused_or_accepted session text
    | nil =>
      cases parseExpression? session.limits (scan text).tokens with
      | none => exact run_refused_or_accepted session text
      | some e =>
        dsimp only
        unfold runExpression
        obtain ⟨resolved, errors⟩ := resolveExpression session.limits e
        cases errors with
        | cons d ds => exact .inl ⟨List.cons_ne_nil _ _, rfl⟩
        | nil => exact .inr ⟨rfl, _, rfl⟩

variable {session input}

theorem feed_refused (h : input.refusals session.limits ≠ []) :
    session.feed input = (rejected (input.refusals session.limits), session) := by
  rcases session.feed_refused_or_accepted input with ⟨_, hfeed⟩ | ⟨hnil, _⟩
  · exact hfeed
  · exact absurd hnil h

/-- An input that is accepted is not refused. -/
theorem refusals_of_accepted {a : Accepted} (ha : input.accepted? session.limits = some a) :
    input.refusals session.limits = [] := by
  refine Classical.byContradiction fun h => ?_
  obtain ⟨a', -, hfeed⟩ | ⟨hnone, -⟩ := session.feed_eq input
  · obtain ⟨r, s, hrun⟩ : ∃ r s, session.watched a'.code .quiet session.opening = (r, s) :=
      ⟨_, _, rfl⟩
    have hreport := congrArg Prod.fst ((feed_refused h).symm.trans (hfeed.trans (execute_eq hrun)))
    cases r <;> cases congrArg Report.executed hreport
  · cases ha.symm.trans hnone

/-- An input of which nothing is reported runs, and comes to one report at most. -/
theorem feed_runs (h : input.refusals session.limits = []) :
    (session.feed input).1.executed = true ∧ RunsInto (session.feed input).1.diagnostics := by
  rcases session.feed_refused_or_accepted input with ⟨hne, _⟩ | ⟨_, a, ha⟩
  · exact absurd h hne
  obtain ⟨a', _, hfeed⟩ | ⟨hnone, _⟩ := session.feed_eq input
  · obtain ⟨r, s, hrun⟩ : ∃ r s, session.watched a'.code .quiet session.opening = (r, s) :=
      ⟨_, _, rfl⟩
    rw [hfeed, execute_eq hrun]
    cases r with
    | error fault => exact ⟨rfl, .inl rfl⟩
    | ok ds => exact ⟨rfl, a'.code.runsInto _ hrun⟩
  · rw [ha] at hnone
    cases hnone

/-! ### A history of inputs -/

/-- What came of some inputs, one after the other. -/
def reports (session : Session) : List Input → List Report
  | [] => []
  | input :: inputs => (session.feed input).1 :: (session.feed input).2.reports inputs

/-- The inputs among them that ran. -/
def ran (session : Session) (inputs : List Input) : List Input :=
  ((inputs.zip (session.reports inputs)).filter (·.2.executed)).map (·.1)

theorem ran_refused {inputs : List Input} (h : input.refusals session.limits ≠ []) :
    session.ran (input :: inputs) = session.ran inputs := by
  unfold ran
  rw [reports, feed_refused h]
  rfl

theorem ran_runs {inputs : List Input} (h : input.refusals session.limits = []) :
    session.ran (input :: inputs) = input :: (session.feed input).2.ran inputs := by
  unfold ran
  rw [reports, List.zip_cons_cons, List.filter_cons, if_pos (feed_runs h).1, List.map_cons]

/-- An input that is accepted ran, whatever was fed before it. -/
theorem mem_ran {limits : Limits} {a : Accepted} (ha : input.accepted? limits = some a) :
    ∀ {inputs : List Input} {session : Session}, session.limits = limits → input ∈ inputs →
      input ∈ session.ran inputs
  | first :: inputs, session, hlimits, hmem => by
    by_cases h : first.refusals session.limits = []
    · rw [ran_runs h]
      rcases List.mem_cons.mp hmem with rfl | hmem
      · exact List.mem_cons_self
      · exact List.mem_cons_of_mem _ (mem_ran ha ((session.feed_limits first).trans hlimits) hmem)
    · rw [ran_refused h]
      rcases List.mem_cons.mp hmem with rfl | hmem
      · subst hlimits
        exact absurd (refusals_of_accepted ha) h
      · exact mem_ran ha hlimits hmem

/-- Inputs that are refused could as well have been left out: they print nothing, they come to
reports of the passes that refused them, and what comes of the others, and the session behind them,
is the same without them. Of an input that ran there is one report at most, one of running. -/
theorem refused_inputs_leave_no_trace (session : Session) (inputs : List Input) :
    (∀ r ∈ session.reports inputs,
      (r.executed = false → r.output = [] ∧ r.escaped = none ∧ r.diagnostics ≠ [] ∧
        Refuses r.diagnostics) ∧
      (r.executed = true → RunsInto r.diagnostics)) ∧
    session.reports (session.ran inputs) = (session.reports inputs).filter (·.executed) ∧
    session.after (session.ran inputs) = session.after inputs := by
  induction inputs generalizing session with
  | nil => exact ⟨by simp [reports], rfl, rfl⟩
  | cons input inputs ih =>
    by_cases h : input.refusals session.limits = []
    · -- the input runs, and the others are fed to the session behind it
      obtain ⟨hexecuted, hinto⟩ := feed_runs h
      obtain ⟨hall, hreports, hafter⟩ := ih (session.feed input).2
      refine ⟨fun r hr => ?_, ?_, ?_⟩
      · rcases List.mem_cons.mp hr with rfl | hr
        · exact ⟨fun hnot => absurd hexecuted (by simp [hnot]), fun _ => hinto⟩
        · exact hall r hr
      · rw [ran_runs h, reports, reports, List.filter_cons_of_pos hexecuted, hreports]
      · rw [ran_runs h]
        exact hafter
    · -- the input is refused, and the others are fed to the session as it was
      obtain ⟨hall, hreports, hafter⟩ := ih session
      have hfeed := feed_refused h
      refine ⟨fun r hr => ?_, ?_, ?_⟩
      · rw [reports, hfeed] at hr
        rcases List.mem_cons.mp hr with rfl | hr
        · exact ⟨fun _ => ⟨rfl, rfl, h, input.refuses_refusals _⟩, fun hran => by cases hran⟩
        · exact hall r hr
      · rw [ran_refused h, hreports, reports, hfeed]
        rfl
      · rw [ran_refused h, hafter]
        show _ = (session.feed input).2.after inputs
        rw [hfeed]

end Session

end Lox
