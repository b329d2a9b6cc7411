/-
# Reading tokens

The scanner cuts a text into tokens. What comes next is decided by the rest
of the text alone: a run of white space, a comment up to the end of its line,
a string between double quotes, a numeral, a word, the longest operator, or a
character that begins nothing. Each of these is a count of leading characters
of the rest, and the scanner moves by it. An error is reported and scanning
goes on behind it, so one run can report several.

A scanner may also be driven by hand: every reader starts at the current
position, and the token it makes begins where the last `mark` was set. Only
then can a numeral hold other text than digits and be refused.

Key definitions: `Lox.keywords`, `Lox.operators`, `Lox.numeralLength`,
`Lox.wordLength`, `Lox.Scanner`, `Lox.Scanner.scanToken`,
`Lox.Scanner.tokenize`, `Lox.scan`.
-/
import Lox.Token
import Lox.Diagnostic
import Lox.Double.Numeral

namespace Lox

open Text

/-- The words that are not names. -/
def keywords : List (String × TokenKind) :=
  [("and", .kwAnd), ("class", .kwClass), ("else", .kwElse), ("false", .kwFalse), ("for", .kwFor),
   ("fun", .kwFun), ("if", .kwIf), ("nil", .kwNil), ("or", .kwOr), ("print", .kwPrint),
   ("return", .kwReturn), ("super", .kwSuper), ("this", .kwThis), ("true", .kwTrue),
   ("var", .kwVar), ("while", .kwWhile)]

/-- Operators and punctuation; one that begins with another stands before it. -/
def operators : List (List Char × TokenKind) :=
  [(['!', '='], .bangEqual), (['=', '='], .equalEqual), (['<', '='], .lessEqual),
   (['>', '='], .greaterEqual),
   (['('], .leftParen), ([')'], .rightParen), (['\x7b'], .leftBrace), (['\x7d'], .rightBrace),
   ([','], .comma), (['.'], .dot), (['-'], .minus), (['+'], .plus), ([';'], .semicolon),
   (['/'], .slash), (['*'], .star), (['?'], .question), ([':'], .colon), (['!'], .bang),
   (['='], .equal), (['<'], .less), (['>'], .greater)]

/-- The kind of a word: its keyword, or a name. -/
def wordKind (text : String) : TokenKind :=
  (keywords.lookup text).getD .identifier

/-- White space of programs: space, tab, carriage return and line feed. -/
def isSpace (c : Char) : Bool :=
  c = ' ' || c = '\t' || c = '\r' || c = '\n'

/-- A word starts with a letter or an underscore. -/
def startsWord (c : Char) : Bool :=
  isLetter c || c = '_'

/-- A word goes on with word characters and underscores. -/
def continuesWord (c : Char) : Bool :=
  isWordChar c || c = '_'

/-- A comment ends before a line feed; a NUL ends it too. -/
def inComment (c : Char) : Bool :=
  c ≠ '\n' && c ≠ '\x00'

/-- The number of leading characters that satisfy `p`. -/
def spanLength (p : Char → Bool) (cs : List Char) : Nat :=
  (cs.takeWhile p).length

/-- The length of the word at the front. -/
def wordLength (cs : List Char) : Nat :=
  spanLength continuesWord cs

/-- The length of the numeral at the front: digits, and a point with the digits behind it, if
there are any. -/
def numeralLength (cs : List Char) : Nat :=
  let whole := spanLength isAsciiDigit cs
  match cs.drop whole with
  | '.' :: rest =>
    let fraction := spanLength isAsciiDigit rest
    if fraction = 0 then whole else whole + 1 + fraction
  | _ => whole

/-- The operator at the front. -/
def operatorAt? (cs : List Char) : Option (List Char × TokenKind) :=
  operators.find? fun op => op.1.isPrefixOf cs

/-- The state of a scan: the characters behind the position, the last one first, those ahead of
it, the position, the start of the next token, and what was found. -/
structure Scanner where
  behind : List Char
  rest : List Char
  pos : Nat
  start : Nat
  tokens : Array Token
  diagnostics : Array Diagnostic
  deriving Repr, Inhabited

namespace Scanner

/-- A scanner at the start of a text. -/
def ofText (source : String) : Scanner :=
  ⟨[], source.toList, 0, 0, #[], #[]⟩

/-- Move over `n` characters, or to the end if there are fewer. -/
def advance : Nat → Scanner → Scanner
  | 0, s => s
  | n + 1, s =>
    match s.rest with
    | [] => s
    | c :: cs => advance n { s with behind := c :: s.behind, rest := cs, pos := s.pos + 1 }

/-- The character at a distance from the position: NUL behind the end of the text; in front of its
start distances count on from its end. -/
def peek (s : Scanner) (distance : Int) : Char :=
  let index := s.pos + distance
  if 0 ≤ distance then s.rest.getD distance.toNat '\x00'
  else if 0 ≤ index then s.behind.getD (-distance - 1).toNat '\x00'
  else (s.behind.reverse ++ s.rest).reverse.getD (-index - 1).toNat '\x00'

/-- The next token begins here. -/
def mark (s : Scanner) : Scanner :=
  { s with start := s.pos }

/-- The characters from the start of the token to the position. -/
def taken (s : Scanner) : List Char :=
  (s.behind.take (s.pos - s.start)).reverse

/-- Report an error. -/
def error (offset : Int) (message : String) (s : Scanner) : Scanner :=
  { s with diagnostics := s.diagnostics.push ⟨.lexical, offset, message⟩ }

/-- Add the token of the characters taken. -/
def emit (kind : TokenKind) (literal : Literal) (s : Scanner) : Scanner :=
  { s with tokens := s.tokens.push ⟨kind, String.ofList s.taken, literal, s.start⟩ }

/-- Move over white space. -/
def skipSpace (s : Scanner) : Scanner :=
  s.advance (spanLength isSpace s.rest)

/-- Move to the end of the line. -/
def skipComment (s : Scanner) : Scanner :=
  s.advance (spanLength inComment s.rest)

/-- Read a string: one quote, and everything up to the next one. -/
def scanString (s : Scanner) : Scanner :=
  let opened := s.advance 1
  let filled := opened.advance (spanLength (· ≠ '"') opened.rest)
  if filled.rest.isEmpty then filled.error filled.pos "Unterminated string."
  else
    let closed := filled.advance 1
    closed.emit .string (.string (String.ofList (closed.taken.drop 1).dropLast))

/-- Move over a numeral. -/
def takeNumeral (s : Scanner) : Scanner :=
  s.advance (numeralLength s.rest)

/-- The text at hand if a numeral read here is refused: it is no number. -/
def refusedNumeral? (s : Scanner) : Option String :=
  let text := s.takeNumeral.taken
  if (Double.ofNumeral? text).isNone then some (String.ofList text) else none

/-- Read a numeral. A text that is no number makes no token. -/
def scanNumber (s : Scanner) : Scanner :=
  let passed := s.takeNumeral
  match Double.ofNumeral? passed.taken with
  | some x => passed.emit .number (.number x)
  | none => passed

/-- Read a word: a keyword or a name. -/
def scanWord (s : Scanner) : Scanner :=
  let passed := s.advance (wordLength s.rest)
  passed.emit (wordKind (String.ofList passed.taken)) .nil

/-- Read the longest operator, or report the character that begins none. -/
def scanOperator (s : Scanner) : Scanner :=
  match operatorAt? s.rest with
  | some (text, kind) => (s.advance text.length).emit kind .nil
  | none =>
    (s.advance 1).error s.start
      ("Unexpected character '" ++ String.ofList (s.rest.take 1) ++ "'.")

/-- What the rest of a text begins with. -/
inductive Item where
  | space | comment | string | number | word | operator
  deriving DecidableEq, Repr

/-- White space, a comment, a string, a numeral and a word are told by their first characters. -/
def nextItem : List Char → Item
  | '/' :: '/' :: _ => .comment
  | [] => .operator
  | c :: _ =>
    if isSpace c then .space
    else if c = '"' then .string
    else if isAsciiDigit c then .number
    else if startsWord c then .word
    else .operator

/-- Read what comes next. -/
def scanToken (s : Scanner) : Scanner :=
  match nextItem s.rest with
  | .space => s.skipSpace
  | .comment => s.skipComment
  | .string => s.scanString
  | .number => s.scanNumber
  | .word => s.scanWord
  | .operator => s.scanOperator

/-- Read until the text is used up, at most `fuel` times. -/
def scanAll : Nat → Scanner → Scanner
  | 0, s => s
  | fuel + 1, s => if s.rest.isEmpty then s else scanAll fuel s.mark.scanToken

/-- Read the whole rest, and end it with a token at the end of the text. Every reading moves by
one character at least. -/
def tokenize (s : Scanner) : Scanner :=
  let done := scanAll s.rest.length s
  { done with tokens := done.tokens.push (.eof (done.pos + done.rest.length : Nat)) }

end Scanner

/-- The tokens of a text. -/
structure Scanned where
  tokens : List Token
  diagnostics : List Diagnostic
  deriving Repr, Inhabited

/-- Cut a text into tokens. -/
def scan (source : String) : Scanned :=
  let s := (Scanner.ofText source).tokenize
  ⟨s.tokens.toList, s.diagnostics.toList⟩

end Lox
