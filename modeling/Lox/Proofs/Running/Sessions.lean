/-
# Watching a session

What runs of an input are the statements of a program, or an expression, as
the pass of names leaves them, if no pass reports anything. A session keeps
its store, so the frames of one input are there in the next, with the openers
that they were made for.

Key definitions: `Lox.Input`, `Lox.Code`, `Lox.Input.accepted?`, `Lox.Session.after`,
`Lox.Session.Reaches`.
Key theorems: `Lox.Session.feed_eq`, `Lox.accepted_spec`.
-/
import Lox.Proofs.Binding.Gate
import Lox.Proofs.Running.Statements
import Lox.Session

namespace Lox

open Procedure

/-- An input of a session: a program, or an interactive line. -/
inductive Input where
  | program (text : String)
  | line (text : String)

/-- What runs: statements, or an expression whose value is printed. -/
inductive Code where
  | program (stmts : List Stmt)
  | expression (e : Expr)

def Code.run (evaluator : Evaluator) : Code → Run (List Diagnostic)
  | .program stmts => interpretWith evaluator stmts
  | .expression e => interpretExprWith evaluator e

/-- An input that no pass reports anything of: its statements as they are written, and what runs. -/
structure Accepted where
  written : List Stmt
  code : Code

/-- A program that passes the gates. -/
def acceptedProgram? (limits : Limits) (text : String) : Option Accepted :=
  let parsed := parse limits (scan text).tokens
  let resolution := resolve limits parsed.stmts
  match (scan text).diagnostics ++ parsed.diagnostics, resolution.diagnostics with
  | [], [] => some ⟨parsed.stmts, .program resolution.stmts⟩
  | _, _ => none

/-- No pass reports anything of the program. -/
structure Accepts (limits : Limits) (source : String) : Prop where
  scans : (scan source).diagnostics = []
  parses : (parse limits (scan source).tokens).diagnostics = []
  binds : (resolve limits (parse limits (scan source).tokens).stmts).diagnostics = []

/-- An input that passes the gates. -/
def Input.accepted? (limits : Limits) : Input → Option Accepted
  | .program text => acceptedProgram? limits text
  | .line text =>
    match (scan text).diagnostics, parseExpression? limits (scan text).tokens with
    | [], some e =>
      match resolveExpression limits e with
      | (resolved, []) => some ⟨[.expr e], .expression resolved⟩
      | _ => none
    | _, _ => acceptedProgram? limits text

/-- What comes of an input that ends so. -/
def Report.ofResult (output : List String) : Except Fault (List Diagnostic) → Report
  | .ok ds => ⟨true, ds, none, output⟩
  | .error fault => ⟨true, [], some fault, output⟩

namespace Session

/-- What came of an input, and the session then. -/
def feed (session : Session) : Input → Report × Session
  | .program text => session.run text
  | .line text => session.runLine text

/-- The session behind some inputs. -/
def after (session : Session) (inputs : List Input) : Session :=
  inputs.foldl (fun s input => (s.feed input).2) session

/-- The store that an input finds: nothing is printed yet. -/
def opening (session : Session) : Store := { session.store with output := #[] }

theorem execute_eq {session : Session} {procedure : Run (List Diagnostic)}
    {r : Except Fault (List Diagnostic)} {s : Store} (h : procedure session.opening = (r, s)) :
    session.execute procedure = (Report.ofResult s.output.toList r, { session with store := s }) := by
  have h : procedure { session.store with output := #[] } = (r, s) := h
  unfold execute perform
  rw [h]
  cases r <;> rfl

/-- The run of what was accepted, with a watch. -/
def watched (session : Session) (code : Code) (watch : Watch) : Run (List Diagnostic) :=
  code.run (.watched watch .recorded session.limits.turns session.limits.steps 0)

/-- Running the input comes to the moment. -/
def Reaches (session : Session) (input : Input) (t : Moment) : Prop :=
  ∃ a, input.accepted? session.limits = some a ∧
    Comes (session.watched a.code) session.opening t

theorem watched_quiet (session : Session) (code : Code) :
    session.watched code .quiet = code.run (.ofLimits session.limits) := by
  rw [watched, Evaluator.watched_quiet]
  rfl

/-- An accepted program runs with its names bound. -/
theorem run_of_accepts (session : Session) {source : String} (h : Accepts session.limits source) :
    session.run source = session.execute (interpret session.limits
      (resolve session.limits (parse session.limits (scan source).tokens).stmts).stmts) := by
  unfold run
  dsimp only
  rw [h.scans, h.parses]
  dsimp only [List.nil_append]
  rw [h.binds]

theorem run_eq (session : Session) (text : String) :
    (∃ a, acceptedProgram? session.limits text = some a ∧
      session.run text = session.execute (session.watched a.code .quiet)) ∨
    (acceptedProgram? session.limits text = none ∧
      ∃ ds, session.run text = (rejected ds, session)) := by
  unfold run acceptedProgram?
  dsimp only
  cases (scan text).diagnostics ++ (parse session.limits (scan text).tokens).diagnostics with
  | cons d ds => exact .inr ⟨rfl, _, rfl⟩
  | nil =>
    dsimp only
    cases (resolve session.limits (parse session.limits (scan text).tokens).stmts).diagnostics with
    | cons d ds => exact .inr ⟨rfl, _, rfl⟩
    | nil =>
      refine .inl ⟨_, rfl, ?_⟩
      rw [watched_quiet]
      rfl

/-- An input is accepted and runs, or it is rejected and nothing changes. -/
theorem feed_eq (session : Session) (input : Input) :
    (∃ a, input.accepted? session.limits = some a ∧
      session.feed input = session.execute (session.watched a.code .quiet)) ∨
    (input.accepted? session.limits = none ∧
      ∃ ds, session.feed input = (rejected ds, session)) := by
  cases input with
  | program text => exact run_eq session text
  | line text =>
    show (∃ a, _ ∧ session.runLine text = _) ∨ _ ∧ ∃ ds, session.runLine text = _
    unfold runLine Input.accepted?
    dsimp only
    cases (scan text).diagnostics with
    | cons d ds => exact run_eq session text
    | nil =>
      cases parseExpression? session.limits (scan text).tokens with
      | none => exact run_eq session text
      | some e =>
        dsimp only
        unfold runExpression
        obtain ⟨resolved, errors⟩ := resolveExpression session.limits e
        cases errors with
        | cons d ds => exact .inr ⟨rfl, _, rfl⟩
        | nil =>
          refine .inl ⟨_, rfl, ?_⟩
          rw [watched_quiet]
          rfl

theorem feed_limits (session : Session) (input : Input) :
    (session.feed input).2.limits = session.limits := by
  have hexecute : ∀ code, (session.execute (session.watched code .quiet)).2.limits =
      session.limits := by
    intro code
    unfold execute perform
    generalize session.watched code .quiet _ = result
    obtain ⟨r, s⟩ := result
    cases r <;> rfl
  obtain ⟨a, _, hfeed⟩ | ⟨_, ds, hfeed⟩ := session.feed_eq input
  · rw [hfeed, hexecute]
  · rw [hfeed]

theorem after_limits (inputs : List Input) : ∀ session : Session,
    (session.after inputs).limits = session.limits := by
  induction inputs with
  | nil => exact fun _ => rfl
  | cons input inputs ih => exact fun session => (ih _).trans (session.feed_limits input)

end Session

/-! ### What the gates let pass -/

/-- What runs is what the pass of names makes of what is written. -/
inductive Accepted.Bound : Accepted → Prop
  | program (written : List Stmt) :
    Accepted.Bound ⟨written, .program (Scoping.initial.boundBody written)⟩
  | expression (e : Expr) :
    Accepted.Bound ⟨[.expr e], .expression (Scoping.initial.boundExpr e)⟩

theorem acceptedProgram_spec {limits : Limits} {text : String} {a : Accepted}
    (h : acceptedProgram? limits text = some a) : (Visit.whole a.written).Clean ∧ a.Bound := by
  unfold acceptedProgram? at h
  dsimp only at h
  split at h
  · rename_i hd hr
    cases h
    have hparse := (List.append_eq_nil_iff.mp hd).2
    refine ⟨clean_of_resolve (regular_of_parse hparse) hr, ?_⟩
    rw [(resolve_of_silent hr).2.1]
    exact .program _
  · cases h

/-- An input that passes the gates is clean, and its names are bound. -/
theorem accepted_spec {limits : Limits} {input : Input} {a : Accepted}
    (h : input.accepted? limits = some a) : (Visit.whole a.written).Clean ∧ a.Bound := by
  cases input with
  | program text => exact acceptedProgram_spec h
  | line text =>
    unfold Input.accepted? at h
    dsimp only at h
    split at h
    · rename_i e _ he
      split at h
      · rename_i resolved hr
        cases h
        have hsilent : (resolveExpression limits e).2 = [] := by rw [hr]
        obtain ⟨hd, hbound⟩ := resolveExpression_of_silent hsilent
        rw [hr] at hbound
        refine ⟨clean_of_resolve ⟨regular_of_parseExpression? he, trivial⟩ hd, ?_⟩
        obtain rfl : resolved = Scoping.initial.boundExpr e := hbound
        exact .expression e
      · cases h
    · exact acceptedProgram_spec h

end Lox
