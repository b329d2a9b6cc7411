/-
# Statements and declarations

A declaration that is refused is dropped up to the next statement, and the
enclosing block goes on behind it. A for-loop becomes a while-loop: its
initializer and the loop make a block, and its body and increment make one
inside; a missing condition is true.

Key definitions: `Lox.Parse.declaration`, `Lox.Parse.statement`, `Lox.forLoop`.
-/
import Lox.Grammar.Expression

namespace Lox

/-- The loop that a for-statement stands for. -/
def forLoop (initializer : Option Stmt) (cond : Option Expr) (increment : Option Expr)
    (body : Stmt) : Stmt :=
  let repeated :=
    match increment with
    | none => body
    | some e => .block [body, .expr e]
  let loop := Stmt.loop (cond.getD (.literal (.bool true))) repeated
  match initializer with
  | none => loop
  | some start => .block [start, loop]

namespace Parse

/-- An expression and a semicolon. -/
def exprStmt (inner : Inner) : Parse Stmt := do
  let e ← assignment inner
  discard (expect .semicolon "Expect ';' after expression.")
  return .expr e

/-- What a print statement prints. -/
def printStmt (inner : Inner) : Parse Stmt := do
  let e ← assignment inner
  discard (expect .semicolon "Expect ';' after value.")
  return .print e

/-- The value that a return statement gives back, if any; its keyword was read last. -/
def returnStmt (inner : Inner) : Parse Stmt := do
  let keyword ← previous
  let value ← if ← check [.semicolon] then pure none else some <$> assignment inner
  discard (expect .semicolon "Expect ';' after return value.")
  return .giveBack keyword.mark value

/-- A variable's name and the value it starts with. -/
def varDecl (inner : Inner) : Parse Stmt := do
  let name ← expect .identifier "Expect variable name."
  let initial ← if ← accept [.equal] then some <$> assignment inner else pure none
  discard (expect .semicolon "Expect ';' after variable declaration.")
  return .var name.mark initial

/-- Declarations up to a closing brace or the end. -/
def declarations (inner : Inner) : Nat → Parse (List Stmt)
  | 0 => pure []
  | fuel + 1 => do
    if (← check [.rightBrace]) || (← atEnd) then
      return []
    else
      let stmt ← inner.declaration
      let rest ← declarations inner fuel
      return stmt.toList ++ rest

/-- The body of a block behind its opening brace. -/
def bracedBody (inner : Inner) : Parse (List Stmt) := do
  let body ← declarations inner inner.bound
  discard (expect .rightBrace "Expect '\x7d' after block.")
  return body

/-- Parameters with commas between them; each one from the 256th on is reported. -/
def parameters : Nat → Nat → Parse (List Mark)
  | 0, _ => pure []
  | fuel + 1, count => do
    if maxArgs ≤ count then
      report (← here) tooManyParameters
    let param ← expect .identifier "Expect parameter name."
    if ← accept [.comma] then
      let params ← parameters fuel (count + 1)
      return param.mark :: params
    else
      return [param.mark]

/-- The parameters of a function, up to its closing parenthesis. -/
def parameterList (inner : Inner) : Parse (List Mark) := do
  if ← check [.rightParen] then return [] else parameters inner.bound 0

/-- A function: name, parameters and body. `kind` says in messages what it is. -/
def function (inner : Inner) (kind : String) : Parse Fun := do
  let name ← expect .identifier ("Expect " ++ kind ++ " name.")
  discard (expect .leftParen ("Expect '(' after " ++ kind ++ " name."))
  let params ← parameterList inner
  discard (expect .rightParen "Expect ')' after parameters.")
  discard (expect .leftBrace ("Expect '\x7b' before " ++ kind ++ " body."))
  let body ← bracedBody inner
  return ⟨name.mark, params, body⟩

/-- Methods up to a closing brace or the end. -/
def methods (inner : Inner) : Nat → Parse (List Fun)
  | 0 => pure []
  | fuel + 1 => do
    if (← check [.rightBrace]) || (← atEnd) then
      return []
    else
      let method ← function inner "method"
      let rest ← methods inner fuel
      return method :: rest

/-- A class: name, superclass and methods. -/
def classDecl (inner : Inner) : Parse Stmt := do
  let name ← expect .identifier "Expect class name."
  let superclass ←
    if ← accept [.less] then
      let super ← expect .identifier "Expect superclass name."
      pure (some (NameUse.free super.mark))
    else
      pure none
  discard (expect .leftBrace "Expect '\x7b' before class body.")
  let methods ← methods inner inner.bound
  discard (expect .rightBrace "Expect '\x7d' after class body.")
  return .classDecl name.mark superclass methods

/-- The initializer of a for-loop, with its semicolon. -/
def forInitializer (inner : Inner) : Parse (Option Stmt) := do
  if ← accept [.semicolon] then
    return none
  else if ← accept [.kwVar] then
    some <$> varDecl inner
  else
    some <$> exprStmt inner

/-- A for-loop. -/
def forStmt (inner : Inner) : Parse Stmt := do
  discard (expect .leftParen "Expect '(' after 'for'.")
  let initializer ← forInitializer inner
  let cond ← if ← check [.semicolon] then pure none else some <$> assignment inner
  discard (expect .semicolon "Expect ';' after loop condition.")
  let increment ← if ← check [.rightParen] then pure none else some <$> assignment inner
  discard (expect .rightParen "Expect ')' after for clauses.")
  let body ← inner.statement
  return forLoop initializer cond increment body

/-- A conditional; an else belongs to the nearest if. -/
def ifStmt (inner : Inner) : Parse Stmt := do
  discard (expect .leftParen "Expect '(' after 'if'.")
  let cond ← assignment inner
  discard (expect .rightParen "Expect ')' after if condition.")
  let yes ← inner.statement
  let no ← if ← accept [.kwElse] then some <$> inner.statement else pure none
  return .branch cond yes no

/-- A while-loop. -/
def whileStmt (inner : Inner) : Parse Stmt := do
  discard (expect .leftParen "Expect '(' after 'while'.")
  let cond ← assignment inner
  discard (expect .rightParen "Expect ')' after condition.")
  let body ← inner.statement
  return .loop cond body

/-- A statement. -/
def statement (inner : Inner) : Parse Stmt := do
  if ← accept [.kwFor] then forStmt inner
  else if ← accept [.kwIf] then ifStmt inner
  else if ← accept [.kwPrint] then printStmt inner
  else if ← accept [.kwReturn] then returnStmt inner
  else if ← accept [.kwWhile] then whileStmt inner
  else if ← accept [.leftBrace] then return .block (← bracedBody inner)
  else exprStmt inner

/-- A declaration, or a statement; nothing if it was refused. -/
def declaration (inner : Inner) : Parse (Option Stmt) :=
  recovering do
    if ← accept [.kwClass] then classDecl inner
    else if ← accept [.kwFun] then return .function (← function inner "function")
    else if ← accept [.kwVar] then varDecl inner
    else statement inner

end Parse

end Lox
