/-
# Written form of trees

A tree on one line, in parentheses with the operator in front, for reading
and for tests: `(* (- 123) (grouping 45.67))`.

Key definitions: `Lox.Expr.render`, `Lox.Stmt.render`, `Lox.Expr.unwritable?`,
`Lox.Stmt.unwritable?`.
-/
import Lox.Ast.Basic

namespace Lox

/-- The head and the parts, with spaces between, in parentheses. -/
def parenthesized (parts : List String) : String :=
  "(" ++ " ".intercalate parts ++ ")"

/-- Statements between braces. -/
def braced (body : List String) : String :=
  if body.isEmpty then "\x7b \x7d" else "\x7b " ++ " ".intercalate body ++ " \x7d"

/-- The written form of a stray node; a node without one shows nothing. -/
def Stray.render (node : Stray) : String :=
  match node.written with
  | .ok text => text
  | .error _ => ""

mutual

/-- The written form of an expression. -/
def Expr.render : Expr → String
  | .literal value => value.display
  | .grouping inner => parenthesized ["grouping", inner.render]
  | .unary op operand => parenthesized [op.text, operand.render]
  | .binary left op right => parenthesized [op.text, left.render, right.render]
  | .logical left op right => parenthesized [op.text, left.render, right.render]
  | .ternary cond yes no => parenthesized ["?:", cond.render, yes.render, no.render]
  | .variable use => use.name.text
  | .assign use value => parenthesized ["= " ++ use.name.text, value.render]
  | .call callee _ args => parenthesized ("call" :: callee.render :: renderArgs args)
  | .get object name => parenthesized [".", object.render, name.text]
  | .set object name value => parenthesized ["= ." ++ name.text, object.render, value.render]
  | .receiver _ => "this"
  | .superMethod _ method => parenthesized ["super", method.text]
  | .stray node => node.render

/-- The written forms of arguments. -/
def renderArgs : List Expr → List String
  | [] => []
  | arg :: args => arg.render :: renderArgs args

end

mutual

/-- The written form of a statement. -/
def Stmt.render : Stmt → String
  | .expr value => value.render ++ ";"
  | .print value => "print " ++ value.render ++ ";"
  | .var name none => "var " ++ name.text ++ ";"
  | .var name (some initial) => "var " ++ name.text ++ " = " ++ initial.render ++ ";"
  | .block body => braced (renderBody body)
  | .branch cond yes none => parenthesized ["if", cond.render, yes.render]
  | .branch cond yes (some no) => parenthesized ["if", cond.render, yes.render, no.render]
  | .loop cond body => parenthesized ["while", cond.render, body.render]
  | .function decl => renderFunction decl
  | .giveBack _ none => "(return)"
  | .giveBack _ (some value) => parenthesized ["return", value.render]
  | .classDecl name none methods =>
    parenthesized (("class " ++ name.text) :: renderMethods methods)
  | .classDecl name (some superclass) methods =>
    parenthesized (("class " ++ name.text ++ " < " ++ superclass.name.text) ::
      renderMethods methods)
  | .stray node => node.render

/-- The written forms of the statements of a body. -/
def renderBody : List Stmt → List String
  | [] => []
  | stmt :: body => stmt.render :: renderBody body

/-- The written form of a function. -/
def renderFunction : Fun → String
  | ⟨name, params, body⟩ =>
    parenthesized ["fun", name.text, "(" ++ " ".intercalate (params.map Mark.text) ++ ")",
      braced (renderBody body)]

/-- The written forms of methods. -/
def renderMethods : List Fun → List String
  | [] => []
  | method :: methods => renderFunction method :: renderMethods methods

end

/-- The message for a node without a written form. -/
def unwritableMessage (label : String) : String := "cannot print node: " ++ label

/-- The label that keeps a stray node from being written. -/
def Stray.unwritable? (node : Stray) : Option String :=
  match node.written with
  | .ok _ => none
  | .error label => some label

mutual

/-- The label of the first node without a written form. -/
def Expr.unwritable? : Expr → Option String
  | .literal _ | .variable _ | .receiver _ | .superMethod _ _ => none
  | .grouping inner => inner.unwritable?
  | .unary _ operand => operand.unwritable?
  | .binary left _ right => left.unwritable?.or right.unwritable?
  | .logical left _ right => left.unwritable?.or right.unwritable?
  | .ternary cond yes no => (cond.unwritable?.or yes.unwritable?).or no.unwritable?
  | .assign _ value => value.unwritable?
  | .call callee _ args => callee.unwritable?.or (unwritableArg? args)
  | .get object _ => object.unwritable?
  | .set object _ value => object.unwritable?.or value.unwritable?
  | .stray node => node.unwritable?

/-- The label of the first node among arguments without a written form. -/
def unwritableArg? : List Expr → Option String
  | [] => none
  | arg :: args => arg.unwritable?.or (unwritableArg? args)

end

mutual

/-- The label of the first node without a written form. -/
def Stmt.unwritable? : Stmt → Option String
  | .expr value => value.unwritable?
  | .print value => value.unwritable?
  | .var _ initial => initial.bind Expr.unwritable?
  | .block body => unwritableIn? body
  | .branch cond yes none => cond.unwritable?.or yes.unwritable?
  | .branch cond yes (some no) => (cond.unwritable?.or yes.unwritable?).or no.unwritable?
  | .loop cond body => cond.unwritable?.or body.unwritable?
  | .function decl => unwritableFunction? decl
  | .giveBack _ value => value.bind Expr.unwritable?
  | .classDecl _ _ methods => unwritableMethod? methods
  | .stray node => node.unwritable?

/-- The label of the first node in a body without a written form. -/
def unwritableIn? : List Stmt → Option String
  | [] => none
  | stmt :: body => stmt.unwritable?.or (unwritableIn? body)

/-- The label of the first node in a function without a written form. -/
def unwritableFunction? : Fun → Option String
  | ⟨_, _, body⟩ => unwritableIn? body

/-- The label of the first node in methods without a written form. -/
def unwritableMethod? : List Fun → Option String
  | [] => none
  | method :: methods => (unwritableFunction? method).or (unwritableMethod? methods)

end

end Lox
