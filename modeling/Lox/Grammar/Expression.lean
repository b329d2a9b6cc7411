/-
# Expressions

From the loosest to the tightest: assignment, ternary, the six levels of
binary operators, unary operators, calls and properties, primaries. The
levels of binary operators are a table; all of them associate to the left.
Assignment, ternary and unary operators associate to the right. What is
assigned to is read as an expression first, and is a name or a property, or
is reported.

Each production is written against the productions further in (`Lox.Inner`),
so the nesting that is followed has a limit.

Key definitions: `Lox.Inner`, `Lox.Level`, `Lox.levels`, `Lox.Parse.assignment`,
`Lox.Parse.binaryFrom`, `Lox.Parse.callExpr`.
-/
import Lox.Ast.Basic
import Lox.Grammar.Cursor

namespace Lox

/-- The productions further in, and a bound on how often a loop can go on: the number of tokens. An
expression is nested in parentheses (`expr`), between `?` and `:` (`middle`), or on the right of
an assignment (`value`). -/
structure Inner where
  bound : Nat
  expr : Parse Expr
  middle : Parse Expr
  value : Parse Expr
  ternary : Parse Expr
  unary : Parse Expr
  statement : Parse Stmt
  declaration : Parse (Option Stmt)

/-- A level of binary operators: its operators, and the node they make. -/
structure Level where
  ops : List TokenKind
  node : Expr → Mark → Expr → Expr

/-- The levels of binary operators, the loosest first. -/
def levels : List Level :=
  [⟨[.kwOr], .logical⟩, ⟨[.kwAnd], .logical⟩, ⟨[.bangEqual, .equalEqual], .binary⟩,
   ⟨[.greater, .greaterEqual, .less, .lessEqual], .binary⟩, ⟨[.minus, .plus], .binary⟩,
   ⟨[.slash, .star], .binary⟩]

/-- The most arguments or parameters that pass without a report. -/
def maxArgs : Nat := 255

def tooManyArguments : String := "Can't have more than 255 arguments."

def tooManyParameters : String := "Can't have more than 255 parameters."

def invalidTarget : String := "Invalid assignment target."

namespace Parse

/-- Operators and right operands behind a left operand. -/
def operands (operand : Parse Expr) (level : Level) : Nat → Expr → Parse Expr
  | 0, left => pure left
  | fuel + 1, left => do
    match ← accept? level.ops with
    | none => pure left
    | some op =>
      let right ← operand
      operands operand level fuel (level.node left op.mark right)

/-- Arguments with commas between them; each one from the 256th on is reported. -/
def arguments (inner : Inner) : Nat → Nat → Parse (List Expr)
  | 0, _ => pure []
  | fuel + 1, count => do
    if maxArgs ≤ count then
      report (← here) tooManyArguments
    let arg ← inner.expr
    if ← accept [.comma] then
      let args ← arguments inner fuel (count + 1)
      return arg :: args
    else
      return [arg]

/-- The arguments of a call behind its opening parenthesis, and the closing one. -/
def callOf (inner : Inner) (callee : Expr) : Parse Expr := do
  let args ← if ← check [.rightParen] then pure [] else arguments inner inner.bound 0
  let paren ← expect .rightParen "Expect ')' after arguments."
  return .call callee paren.mark args

/-- Calls and property names behind an expression. -/
def chain (inner : Inner) : Nat → Expr → Parse Expr
  | 0, e => pure e
  | fuel + 1, e => do
    if ← accept [.leftParen] then
      chain inner fuel (← callOf inner e)
    else if ← accept [.dot] then
      let name ← expect .identifier "Expect property name after '.'."
      chain inner fuel (.get e name.mark)
    else
      return e

/-- Literals, names, receivers, superclass methods and expressions in parentheses. -/
def primary (inner : Inner) : Parse Expr := do
  let t ← here
  match t.kind with
  | .kwFalse => discard next; return .literal (.bool false)
  | .kwTrue => discard next; return .literal (.bool true)
  | .kwNil => discard next; return .literal .nil
  | .number | .string => discard next; return .literal t.literal
  | .kwThis => discard next; return .receiver (.free t.mark)
  | .kwSuper =>
    discard next
    discard (expect .dot "Expect '.' after 'super'.")
    let method ← expect .identifier "Expect superclass method name."
    return .superMethod (.free t.mark) method.mark
  | .identifier => discard next; return .variable (.free t.mark)
  | .leftParen =>
    discard next
    let e ← inner.expr
    discard (expect .rightParen "Expect ')' after expression.")
    return .grouping e
  | _ => refuse t "Expect expression."

/-- A primary with the calls and properties behind it. -/
def callExpr (inner : Inner) : Parse Expr := do
  chain inner inner.bound (← primary inner)

/-- A unary operator with its operand, or a call. -/
def unary (inner : Inner) : Parse Expr := do
  match ← accept? [.bang, .minus] with
  | some op => return .unary op.mark (← inner.unary)
  | none => callExpr inner

/-- Binary operators of some levels, the loosest first. -/
def binaryFrom (inner : Inner) : List Level → Parse Expr
  | [] => unary inner
  | level :: tighter => do
    operands (binaryFrom inner tighter) level inner.bound (← binaryFrom inner tighter)

/-- A condition with its two branches, or binary operators. -/
def ternary (inner : Inner) : Parse Expr := do
  let cond ← binaryFrom inner levels
  if ← accept [.question] then
    let yes ← inner.middle
    discard (expect .colon "Expect ':' in ternary expression.")
    return .ternary cond yes (← inner.ternary)
  else
    return cond

/-- A target with the value assigned to it, or a ternary. The parser is in step after a wrong
target, so that is reported and not refused. -/
def assignment (inner : Inner) : Parse Expr := do
  let target ← ternary inner
  match ← accept? [.equal] with
  | none => return target
  | some equals =>
    let value ← inner.value
    match target with
    | .variable use => return .assign use value
    | .get object name => return .set object name value
    | _ =>
      report equals invalidTarget
      return target

end Parse

end Lox
