/-
# Sessions

A session keeps one store across inputs. An input is scanned, parsed and its
names bound; any report of these passes keeps it from running, and the store
as it was. A program's statements run one after the other until one fails; a
failure is reported once, at the place of its error, or, for nesting beyond
the limit, at the start of the statement. An interactive input that is one
expression runs as that expression, and its value is printed.

Key definitions: `Lox.Session`, `Lox.Session.run`, `Lox.Session.runLine`,
`Lox.interpret`, `Lox.interpretExpr`, `Lox.interpretNode`, `Lox.Report`.
-/
import Lox.Ast.Reading
import Lox.Evaluation
import Lox.Grammar.Program
import Lox.Resolution
import Lox.Scanner

namespace Lox

open Procedure

/-- The message for nesting beyond the limit while running. -/
def stackOverflowMessage : String := "Stack overflow."

/-- The report of a fault, if it is one that a program can bring about; `start` is where the
statement in question begins. -/
def Fault.diagnostic? (start : Option Int) : Fault → Option Diagnostic
  | .error e => some ⟨.runtime, e.offset.getD 0, e.cause.message⟩
  | .overflow => some ⟨.runtime, start.getD 0, stackOverflowMessage⟩
  | .diverged _ | .misplaced _ | .exhausted => none

/-- The reports of a procedure: a fault that can be reported is, any other one stays a halt. -/
def reported (start : Unit → Option Int) (procedure : Run Unit) : Run (List Diagnostic) := fun s =>
  match procedure s with
  | (.ok _, s') => (.ok [], s')
  | (.error fault, s') =>
    match fault.diagnostic? (start ()) with
    | some d => (.ok [d], s')
    | none => (.error fault, s')

/-- Run the statements of a program until one fails. What a statement gives back at the top level
goes nowhere. -/
def interpretWith (evaluator : Evaluator) : List Stmt → Run (List Diagnostic)
  | [] => return []
  | stmt :: stmts => do
    match ← reported (fun _ => stmt.offset?) (discard (evaluator.stmt stmt Store.globals)) with
    | [] => interpretWith evaluator stmts
    | ds => return ds

/-- Print the value of an expression. -/
def interpretExprWith (evaluator : Evaluator) (e : Expr) : Run (List Diagnostic) :=
  reported (fun _ => e.offset?) do
    let v ← evaluator.expr e Store.globals
    Run.print v

/-- Run the statements of a program. -/
def interpret (limits : Limits) (stmts : List Stmt) : Run (List Diagnostic) :=
  interpretWith (.ofLimits limits) stmts

/-- Print the value of an expression. -/
def interpretExpr (limits : Limits) (e : Expr) : Run (List Diagnostic) :=
  interpretExprWith (.ofLimits limits) e

/-- Run a labelled tree: an expression prints its value, anything else is a statement. -/
def interpretNode (limits : Limits) (n : Node) : Run (List Diagnostic) :=
  if n.isExpr then interpretExpr limits n.toExpr else interpret limits [n.toStmt]

/-- What came of one input: whether it ran, the reports, the fault that could not be reported, and
the lines printed. -/
structure Report where
  executed : Bool
  diagnostics : List Diagnostic
  escaped : Option Fault
  output : List String

/-- Nothing was reported. -/
def Report.ok (r : Report) : Bool := r.diagnostics.isEmpty

/-- A store kept across inputs, and the limits they are followed to. -/
structure Session where
  limits : Limits
  store : Store

namespace Session

/-- A session that starts with a clock. -/
def start (limits : Limits) (clock : Clock) : Session := ⟨limits, .initial clock⟩

/-- The report of an input that does not run. -/
def rejected (ds : List Diagnostic) : Report := ⟨false, ds, none, []⟩

/-- Do something in the session: the result, the lines printed meanwhile, and the session then. -/
def perform {α : Type} (session : Session) (procedure : Run α) :
    Except Fault α × List String × Session :=
  let (result, s) := procedure { session.store with output := #[] }
  (result, s.output.toList, { session with store := s })

/-- Run an input that was accepted. -/
def execute (session : Session) (procedure : Run (List Diagnostic)) : Report × Session :=
  match session.perform procedure with
  | (.ok ds, output, session') => (⟨true, ds, none, output⟩, session')
  | (.error fault, output, session') => (⟨true, [], some fault, output⟩, session')

/-- Run a program. -/
def run (session : Session) (source : String) : Report × Session :=
  let scanned := scan source
  let parsed := parse session.limits scanned.tokens
  match scanned.diagnostics ++ parsed.diagnostics with
  | [] =>
    let resolution := resolve session.limits parsed.stmts
    match resolution.diagnostics with
    | [] => session.execute (interpret session.limits resolution.stmts)
    | ds => (rejected ds, session)
  | ds => (rejected ds, session)

/-- Print the value of an expression. -/
def runExpression (session : Session) (e : Expr) : Report × Session :=
  match resolveExpression session.limits e with
  | (resolved, []) => session.execute (interpretExpr session.limits resolved)
  | (_, errors) => (rejected (errors.map ScopeError.diagnostic), session)

/-- Run an interactive input: a lone expression prints its value, anything else is a program. -/
def runLine (session : Session) (text : String) : Report × Session :=
  let scanned := scan text
  match scanned.diagnostics, parseExpression? session.limits scanned.tokens with
  | [], some e => session.runExpression e
  | _, _ => session.run text

end Session

end Lox
