/-
# Uses of names in a tree

The uses of variables, assignments, receivers and superclass methods of a
tree, in the order of its written layout: a node before its parts, and the
parts from left to right.

Key definitions: `Lox.Occurrence`, `Lox.Expr.occurrences`, `Lox.Stmt.occurrences`.
-/
import Lox.Ast.Basic

namespace Lox

/-- The kinds of uses. -/
inductive UseKind where
  | variable | assign | receiver | superMethod
  deriving DecidableEq, Repr

/-- A use and its kind. -/
structure Occurrence where
  kind : UseKind
  use : NameUse
  deriving DecidableEq, Repr

mutual

/-- The uses in an expression. -/
def Expr.occurrences : Expr → List Occurrence
  | .literal _ | .stray _ => []
  | .grouping inner => inner.occurrences
  | .unary _ operand => operand.occurrences
  | .binary left _ right => left.occurrences ++ right.occurrences
  | .logical left _ right => left.occurrences ++ right.occurrences
  | .ternary cond yes no => cond.occurrences ++ yes.occurrences ++ no.occurrences
  | .variable use => [⟨.variable, use⟩]
  | .assign use value => ⟨.assign, use⟩ :: value.occurrences
  | .call callee _ args => callee.occurrences ++ argOccurrences args
  | .get object _ => object.occurrences
  | .set object _ value => object.occurrences ++ value.occurrences
  | .receiver use => [⟨.receiver, use⟩]
  | .superMethod use _ => [⟨.superMethod, use⟩]

/-- The uses in arguments. -/
def argOccurrences : List Expr → List Occurrence
  | [] => []
  | arg :: args => arg.occurrences ++ argOccurrences args

end

/-- The uses in an expression that may be absent. -/
def optionOccurrences : Option Expr → List Occurrence
  | none => []
  | some e => e.occurrences

mutual

/-- The uses in a statement. -/
def Stmt.occurrences : Stmt → List Occurrence
  | .expr value => value.occurrences
  | .print value => value.occurrences
  | .var _ initial => optionOccurrences initial
  | .block body => bodyOccurrences body
  | .branch cond yes none => cond.occurrences ++ yes.occurrences
  | .branch cond yes (some no) => cond.occurrences ++ yes.occurrences ++ no.occurrences
  | .loop cond body => cond.occurrences ++ body.occurrences
  | .function decl => functionOccurrences decl
  | .giveBack _ value => optionOccurrences value
  | .classDecl _ none methods => methodOccurrences methods
  | .classDecl _ (some superclass) methods =>
    ⟨.variable, superclass⟩ :: methodOccurrences methods
  | .stray _ => []

/-- The uses in the statements of a body. -/
def bodyOccurrences : List Stmt → List Occurrence
  | [] => []
  | stmt :: body => stmt.occurrences ++ bodyOccurrences body

/-- The uses in a function. -/
def functionOccurrences : Fun → List Occurrence
  | ⟨_, _, body⟩ => bodyOccurrences body

/-- The uses in methods. -/
def methodOccurrences : List Fun → List Occurrence
  | [] => []
  | method :: methods => functionOccurrences method ++ methodOccurrences methods

end

/-- The uses in a program. -/
def occurrences (program : List Stmt) : List Occurrence :=
  program.flatMap Stmt.occurrences

end Lox
