/-
# Trees within a depth

Whether a tree is at most so deep. The test follows the tree no deeper than
that.

Key definitions: `Lox.Expr.fits`, `Lox.Stmt.fits`.
-/
import Lox.Ast.Basic

namespace Lox

mutual

/-- The expression is less than `depth` deep. -/
def Expr.fits : Expr → Nat → Bool
  | _, 0 => false
  | .literal _, _ + 1 | .variable _, _ + 1 | .receiver _, _ + 1 | .superMethod _ _, _ + 1
  | .stray _, _ + 1 => true
  | .grouping inner, depth + 1 => inner.fits depth
  | .unary _ operand, depth + 1 => operand.fits depth
  | .binary left _ right, depth + 1 => left.fits depth && right.fits depth
  | .logical left _ right, depth + 1 => left.fits depth && right.fits depth
  | .ternary cond yes no, depth + 1 => cond.fits depth && yes.fits depth && no.fits depth
  | .assign _ value, depth + 1 => value.fits depth
  | .call callee _ args, depth + 1 => callee.fits depth && argsFit args depth
  | .get object _, depth + 1 => object.fits depth
  | .set object _ value, depth + 1 => object.fits depth && value.fits depth

/-- The arguments are each less than `depth` deep. -/
def argsFit : List Expr → Nat → Bool
  | [], _ => true
  | arg :: args, depth => arg.fits depth && argsFit args depth

end

/-- An expression that may be absent is less than `depth` deep. -/
def optionFits (e : Option Expr) (depth : Nat) : Bool :=
  e.all (·.fits depth)

mutual

/-- The statement is less than `depth` deep. -/
def Stmt.fits : Stmt → Nat → Bool
  | _, 0 => false
  | .expr value, depth + 1 => value.fits depth
  | .print value, depth + 1 => value.fits depth
  | .var _ initial, depth + 1 => optionFits initial depth
  | .block body, depth + 1 => bodyFits body depth
  | .branch cond yes none, depth + 1 => cond.fits depth && yes.fits depth
  | .branch cond yes (some no), depth + 1 => cond.fits depth && yes.fits depth && no.fits depth
  | .loop cond body, depth + 1 => cond.fits depth && body.fits depth
  | .function decl, depth + 1 => functionFits decl depth
  | .giveBack _ value, depth + 1 => optionFits value depth
  | .classDecl _ _ methods, depth + 1 => methodsFit methods depth
  | .stray _, _ + 1 => true

/-- The statements of a body are each less than `depth` deep. -/
def bodyFits : List Stmt → Nat → Bool
  | [], _ => true
  | stmt :: body, depth => stmt.fits depth && bodyFits body depth

/-- The statements of a function are each less than `depth` deep. -/
def functionFits : Fun → Nat → Bool
  | ⟨_, _, body⟩, depth => bodyFits body depth

/-- The statements of methods are each less than `depth` deep. -/
def methodsFit : List Fun → Nat → Bool
  | [], _ => true
  | method :: methods, depth => functionFits method depth && methodsFit methods depth

end

end Lox
