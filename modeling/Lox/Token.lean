/-
# Tokens

A token is a piece of source text with a kind, the value it spells if it
spells one, and the offset where it begins. Offsets count code points from
zero; they are integers, so that a caller who makes tokens of its own may put
them anywhere. A `Mark` is what a program tree keeps of a token: its kind and
text, and its offset if it has one.

Key definitions: `Lox.TokenKind`, `Lox.Token`, `Lox.Mark`.
Key theorems: `Lox.TokenKind.ofName?_name`.
-/
import Lox.Literal
import Lox.Text.Quoted

namespace Lox

/-- The lexical categories of the language. -/
inductive TokenKind where
  | leftParen | rightParen | leftBrace | rightBrace | comma | dot | minus | plus | semicolon
  | slash | star | question | colon
  | bang | bangEqual | equal | equalEqual | greater | greaterEqual | less | lessEqual
  | identifier | string | number
  | kwAnd | kwClass | kwElse | kwFalse | kwFor | kwFun | kwIf | kwNil | kwOr | kwPrint | kwReturn
  | kwSuper | kwThis | kwTrue | kwVar | kwWhile
  | eof
  deriving DecidableEq, Repr, Inhabited

/-- The kinds with the names they are shown by. -/
def TokenKind.names : List (TokenKind × String) :=
  [(.leftParen, "LEFT_PAREN"), (.rightParen, "RIGHT_PAREN"), (.leftBrace, "LEFT_BRACE"),
   (.rightBrace, "RIGHT_BRACE"), (.comma, "COMMA"), (.dot, "DOT"), (.minus, "MINUS"),
   (.plus, "PLUS"), (.semicolon, "SEMICOLON"), (.slash, "SLASH"), (.star, "STAR"),
   (.question, "QUESTION"), (.colon, "COLON"), (.bang, "BANG"), (.bangEqual, "BANG_EQUAL"),
   (.equal, "EQUAL"), (.equalEqual, "EQUAL_EQUAL"), (.greater, "GREATER"),
   (.greaterEqual, "GREATER_EQUAL"), (.less, "LESS"), (.lessEqual, "LESS_EQUAL"),
   (.identifier, "IDENTIFIER"), (.string, "STRING"), (.number, "NUMBER"), (.kwAnd, "AND"),
   (.kwClass, "CLASS"), (.kwElse, "ELSE"), (.kwFalse, "FALSE"), (.kwFor, "FOR"), (.kwFun, "FUN"),
   (.kwIf, "IF"), (.kwNil, "NIL"), (.kwOr, "OR"), (.kwPrint, "PRINT"), (.kwReturn, "RETURN"),
   (.kwSuper, "SUPER"), (.kwThis, "THIS"), (.kwTrue, "TRUE"), (.kwVar, "VAR"),
   (.kwWhile, "WHILE"), (.eof, "EOF")]

/-- The name that a kind is shown by. -/
def TokenKind.name (k : TokenKind) : String :=
  (names.lookup k).getD ""

/-- The kind that is shown by a name. -/
def TokenKind.ofName? (name : String) : Option TokenKind :=
  (names.find? (·.2 == name)).map (·.1)

theorem TokenKind.ofName?_name (k : TokenKind) : ofName? k.name = some k := by
  cases k <;> decide

/-- A token of source text. -/
structure Token where
  kind : TokenKind
  lexeme : String
  literal : Literal
  offset : Int
  deriving DecidableEq, Repr, Inhabited

/-- The token that ends a text, at the given offset. -/
def Token.eof (offset : Int) : Token :=
  ⟨.eof, "", .nil, offset⟩

/-- The offset just behind the token. -/
def Token.stop (t : Token) : Int :=
  t.offset + t.lexeme.length

/-- The token on one line: its kind, its text in quotes, and its offset. -/
def Token.summary (t : Token) : String :=
  "Tok(" ++ t.kind.name ++ ", " ++ Text.quoted t.lexeme ++ ", @" ++ toString t.offset ++ ")"

/-- A name, operator or keyword in a program tree. A mark without an offset points nowhere. -/
structure Mark where
  kind : TokenKind
  text : String
  offset : Option Int
  deriving DecidableEq, Repr, Inhabited

/-- What a tree keeps of a token. -/
def Token.mark (t : Token) : Mark :=
  ⟨t.kind, t.lexeme, some t.offset⟩

/-- A name that points nowhere. -/
def Mark.bare (name : String) : Mark :=
  ⟨.identifier, name, none⟩

@[simp] theorem Token.mark_text (t : Token) : t.mark.text = t.lexeme := rfl

@[simp] theorem Token.mark_kind (t : Token) : t.mark.kind = t.kind := rfl

@[simp] theorem Token.mark_offset (t : Token) : t.mark.offset = some t.offset := rfl

end Lox
