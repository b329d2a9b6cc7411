/-
# Program trees

Expressions and statements. A place where a name is used records how many
scopes out the name is bound, once that is known (`Lox.NameUse.hops`); a use
without that record is looked up among the globals. A for-loop has no node of
its own. Trees that come from elsewhere may hold nodes that are unknown, or
stand where they do not belong; such a node is kept as a `Stray`.

Key definitions: `Lox.Expr`, `Lox.Stmt`, `Lox.FunDecl`, `Lox.NameUse`, `Lox.Stray`.
-/
import Lox.Token

namespace Lox

/-- A use of a name. With `hops` a local scope binds it, that many scopes out. -/
structure NameUse where
  name : Mark
  hops : Option Nat
  deriving DecidableEq, Repr, Inhabited

/-- A use that nothing is known of yet. -/
def NameUse.free (name : Mark) : NameUse :=
  ⟨name, none⟩

/-- A node that is no expression or no statement although one stands here: its label, the offset
of its first positioned mark, and its written form, or the label inside it that has none. -/
structure Stray where
  label : String
  offset : Option Int
  written : Except String String

/-- Expressions. -/
inductive Expr where
  | literal (value : Literal)
  | grouping (inner : Expr)
  | unary (op : Mark) (operand : Expr)
  | binary (left : Expr) (op : Mark) (right : Expr)
  | logical (left : Expr) (op : Mark) (right : Expr)
  | ternary (cond yes no : Expr)
  | variable (use : NameUse)
  | assign (use : NameUse) (value : Expr)
  | call (callee : Expr) (paren : Mark) (args : List Expr)
  | get (object : Expr) (name : Mark)
  | set (object : Expr) (name : Mark) (value : Expr)
  | receiver (use : NameUse)
  | superMethod (use : NameUse) (method : Mark)
  | stray (node : Stray)

/-- A function or method: its name, its parameters and the statements of its body. -/
structure FunDecl (σ : Type) where
  name : Mark
  params : List Mark
  body : List σ

/-- Statements. -/
inductive Stmt where
  | expr (value : Expr)
  | print (value : Expr)
  | var (name : Mark) (initial : Option Expr)
  | block (body : List Stmt)
  | branch (cond : Expr) (yes : Stmt) (no : Option Stmt)
  | loop (cond : Expr) (body : Stmt)
  | function (decl : FunDecl Stmt)
  | giveBack (keyword : Mark) (value : Option Expr)
  | classDecl (name : Mark) (superclass : Option NameUse) (methods : List (FunDecl Stmt))
  | stray (node : Stray)

instance : Inhabited Expr := ⟨.literal .nil⟩

instance : Inhabited Stmt := ⟨.block []⟩

/-- A function of the language. -/
abbrev Fun := FunDecl Stmt

end Lox
