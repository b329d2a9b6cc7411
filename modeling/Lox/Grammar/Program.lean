/-
# Programs

The productions at every depth of nesting, the statements of a program, and
one expression on its own. Nesting beyond the limit is reported once, at the
top level, and reading goes on behind it as behind a refusal.

Key definitions: `Lox.Inner.within`, `Lox.parse`,
`Lox.parseExpression?`.
-/
import Lox.Limits
import Lox.Grammar.Statement

namespace Lox

/-- The steps from an expression to one in parentheses inside it: one for each level of the grammar
that lies between, and two for each level of binary operators. -/
def nestingSteps : Nat := 6 + 2 * levels.length

/-- The productions with so many steps left, of which some are spent on the way in; without any
left they all halt. -/
def Inner.within (bound : Nat) : Nat → Nat → Inner
  | 0, _ =>
    { bound
      expr := Procedure.halt .tooDeep
      middle := Procedure.halt .tooDeep
      value := Procedure.halt .tooDeep
      ternary := Procedure.halt .tooDeep
      unary := Procedure.halt .tooDeep
      statement := Procedure.halt .tooDeep
      declaration := Procedure.halt .tooDeep }
  | steps + 1, spent + 1 => within bound steps spent
  | steps + 1, 0 =>
    { bound
      expr := fun c => Parse.assignment (within bound steps (nestingSteps - 1)) c
      middle := fun c => Parse.assignment (within bound steps 2) c
      value := fun c => Parse.assignment (within bound steps 0) c
      ternary := fun c => Parse.ternary (within bound steps 0) c
      unary := fun c => Parse.unary (within bound steps 0) c
      statement := fun c => Parse.statement (within bound steps 1) c
      declaration := fun c => Parse.declaration (within bound steps 2) c }

/-- The number of tokens of a cursor, and one more. -/
def Cursor.bound (c : Cursor) : Nat :=
  c.done.length + c.later.length + 2

namespace Parse

open Procedure

/-- Declarations up to the end. Too deep a nesting is reported where it is met. -/
def program (inner : Inner) : Nat → Parse (List Stmt)
  | 0 => pure []
  | fuel + 1 => do
    if ← atEnd then
      return []
    else
      match ← attempt (declaration inner) with
      | .ok stmt =>
        let rest ← program inner fuel
        return stmt.toList ++ rest
      | .error _ =>
        report (← here) tooDeepMessage
        change Cursor.synchronized
        program inner fuel

/-- The statements of a whole list of tokens, from its start. -/
def wholeProgram (inner : Inner) : Parse (List Stmt) := do
  change Cursor.rewind
  program inner inner.bound

/-- One expression that is the whole list of tokens, if nothing is reported on the way. -/
def wholeExpression (inner : Inner) : Parse (Option Expr) := do
  change Cursor.rewind
  let before ← reports
  match ← attempt (assignment inner) with
  | .ok e => return if (← reports) = before && (← atEnd) then some e else none
  | .error _ => return none

end Parse

/-- The statements of a program. -/
structure Parsed where
  stmts : List Stmt
  diagnostics : List Diagnostic

instance : Inhabited Parsed := ⟨⟨[], []⟩⟩

/-- The statements that parse, and what is reported. -/
def parse (limits : Limits) (tokens : List Token) : Parsed :=
  let c := Cursor.ofTokens tokens
  match Parse.wholeProgram (Inner.within c.bound limits.steps 0) c with
  | (.ok stmts, c') => ⟨stmts, c'.diagnostics.toList⟩
  | (.error _, c') => ⟨[], c'.diagnostics.toList⟩

/-- The one expression that the tokens are, if they are one and nothing is reported. -/
def parseExpression? (limits : Limits) (tokens : List Token) : Option Expr :=
  let c := Cursor.ofTokens tokens
  match (Parse.wholeExpression (Inner.within c.bound limits.steps 0) c).1 with
  | .ok e => e
  | .error _ => none

end Lox
