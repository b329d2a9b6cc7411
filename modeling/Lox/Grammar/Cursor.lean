/-
# Moving through tokens

A cursor stands on one token of a list that ends with an end token; it never
moves past the first end token ahead of it. Parsing is a function of the
cursor that gives a result or halts, and in both cases leaves a cursor: what
was read and reported before a halt stays read and reported.

Key definitions: `Lox.Cursor`, `Lox.Cursor.ofTokens`, `Lox.Cursor.synchronized`,
`Lox.Halt`, `Lox.Parse`.
-/
import Lox.Procedure
import Lox.Token
import Lox.Diagnostic

namespace Lox

/-- A refusal: what was expected or wrong, and the offset of the token in question. -/
structure ParseError where
  message : String
  offset : Option Int
  deriving DecidableEq, Repr, Inhabited

/-- The refusal with its place: `message at offset n`. -/
def ParseError.text (e : ParseError) : String :=
  match e.offset with
  | some n => e.message ++ " at offset " ++ toString n
  | none => e.message

/-- Why a production stops: a token was refused, or the input is nested too deeply. -/
inductive Halt where
  | refused (error : ParseError)
  | tooDeep
  deriving DecidableEq, Repr

/-- A place in a list of tokens: those read, the last one first, the one that is read next, and
those behind it; and what was reported. -/
structure Cursor where
  done : List Token
  here : Token
  later : List Token
  diagnostics : Array Diagnostic
  deriving Repr, Inhabited

/-- The tokens with an end token behind them, unless they end with one. -/
def closed (tokens : List Token) : List Token :=
  match tokens.getLast? with
  | none => [.eof 0]
  | some t => if t.kind = .eof then tokens else tokens ++ [.eof t.stop]

namespace Cursor

/-- On the first token of a list. -/
def ofTokens (tokens : List Token) : Cursor :=
  match closed tokens with
  | [] => ⟨[], .eof 0, [], #[]⟩
  | t :: ts => ⟨[], t, ts, #[]⟩

/-- The number of tokens read. -/
def pos (c : Cursor) : Nat := c.done.length

/-- The token read last; on the first token, the last one of the list. -/
def previous (c : Cursor) : Token :=
  match c.done with
  | t :: _ => t
  | [] => c.later.getLast?.getD c.here

/-- On an end token. -/
def atEnd (c : Cursor) : Bool := c.here.kind = .eof

/-- One token on; an end token is not left. -/
def advance (c : Cursor) : Cursor :=
  if c.atEnd then c
  else
    match c.later with
    | [] => c
    | t :: ts => { c with done := c.here :: c.done, here := t, later := ts }

/-- Back on the first token. -/
def rewind (c : Cursor) : Cursor :=
  match c.done.reverse with
  | [] => c
  | t :: ts => { c with done := [], here := t, later := ts ++ c.here :: c.later }

/-- A report at an offset. -/
def report (offset : Int) (message : String) (c : Cursor) : Cursor :=
  { c with diagnostics := c.diagnostics.push ⟨.grammar, offset, message⟩ }

/-- The kinds of tokens that begin a declaration or statement. -/
def startsStatement (kind : TokenKind) : Bool :=
  [TokenKind.kwClass, .kwFun, .kwVar, .kwFor, .kwIf, .kwWhile, .kwPrint, .kwReturn].contains kind

/-- On to the end of the statement or the start of the next one, at most `fuel` tokens. -/
def skip : Nat → Cursor → Cursor
  | 0, c => c
  | fuel + 1, c =>
    if c.atEnd || c.previous.kind = .semicolon || startsStatement c.here.kind then c
    else skip fuel c.advance

/-- Past the token in question, and on behind the next semicolon or before the next token that
begins a statement. -/
def synchronized (c : Cursor) : Cursor :=
  skip c.later.length c.advance

end Cursor

/-- A parser: a procedure on a cursor that may halt. -/
abbrev Parse (α : Type) : Type := Procedure Cursor Halt α

namespace Parse

open Procedure

variable {α : Type}

/-- The token ahead. -/
def here : Parse Token := read Cursor.here

/-- The token read last. -/
def previous : Parse Token := read Cursor.previous

/-- No token but an end token is ahead. -/
def atEnd : Parse Bool := read Cursor.atEnd

/-- The number of reports. -/
def reports : Parse Nat := read (·.diagnostics.size)

/-- Report at a token, and go on. -/
def report (t : Token) (message : String) : Parse Unit :=
  change (·.report t.offset message)

/-- Report at a token, and refuse. -/
def refuse (t : Token) (message : String) : Parse α := do
  report t message
  halt (.refused ⟨message, some t.offset⟩)

/-- The token ahead is of one of the kinds. -/
def check (kinds : List TokenKind) : Parse Bool :=
  read fun c => kinds.contains c.here.kind

/-- Read a token, whatever it is. -/
def next : Parse Token := do
  change Cursor.advance
  previous

/-- Read a token of one of the kinds, if it is ahead. -/
def accept? (kinds : List TokenKind) : Parse (Option Token) := do
  if ← check kinds then
    return some (← next)
  else
    return none

/-- Read a token of the kinds if it is ahead, and tell whether it was. -/
def accept (kinds : List TokenKind) : Parse Bool := do
  return (← accept? kinds).isSome

/-- Read a token of the kind, or refuse the one that is ahead. -/
def expect (kind : TokenKind) (message : String) : Parse Token := do
  if ← check [kind] then next else refuse (← here) message

/-- After a refusal, drop tokens up to the next statement and give nothing. -/
def recovering (p : Parse α) : Parse (Option α) := fun c =>
  match p c with
  | (.ok a, c') => (.ok (some a), c')
  | (.error (.refused _), c') => (.ok none, c'.synchronized)
  | (.error .tooDeep, c') => (.error .tooDeep, c')

end Parse

end Lox
