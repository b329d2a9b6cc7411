/-
# Numerals

The number that a text spells. A plain numeral is a run of ASCII digits with
an optional point that has digits on both sides; that is all a program can
write. A loose numeral is what a caller may hand over: blanks around it, a
sign, digits of any script, single underscores between digits, a point with
digits on one side, a power of ten, or the names of infinity and NaN. Both
are rounded once, from their exact value.

Key definitions: `Lox.Double.ofPlain?`, `Lox.Double.ofLoose?`, `Lox.Double.ofNumeral?`.
-/
import Lox.Double.Basic
import Lox.Text.Integer

namespace Lox

namespace Double

open Text

/-- The number spelled by digits before and behind a point, times a power of ten. -/
def ofParts (whole fraction : List Char) (e : Int) : Double :=
  ofDecimal (natOfDigits (whole ++ fraction)) (e - fraction.length)

/-- The number that a plain numeral spells. -/
def ofPlain? (cs : List Char) : Option Double :=
  let whole := cs.takeWhile isAsciiDigit
  if whole.isEmpty then none
  else
    match cs.dropWhile isAsciiDigit with
    | [] => some (ofParts whole [] 0)
    | '.' :: fraction =>
      if !fraction.isEmpty && fraction.all isAsciiDigit then some (ofParts whole fraction 0)
      else none
    | _ => none

/-- The number spelled by digits times any power of ten. The first digit that is no zero stands at
the power `top` or below; numbers above `10 ^ 400` are infinite and numbers below `10 ^ (-400)`
zero, so such a power need not be multiplied out. -/
def ofScaled (whole fraction : List Char) (e : Int) : Double :=
  let significant := (whole ++ fraction).dropWhile (· = '0')
  let top : Int := significant.length - fraction.length + e
  if significant.isEmpty || top < -400 then ofMagnitude false 0
  else if 400 < top then infinity
  else ofParts whole fraction e

/-- The power of ten behind the digits: nothing, or `e` with an optional sign and digits. -/
def power? : List Char → Option Int
  | [] => some 0
  | c :: cs =>
    if c = 'e' || c = 'E' then
      let (negative, digits) := splitSign cs
      if digits.isEmpty || !digits.all isAsciiDigit then none
      else if negative then some (-(natOfDigits digits : Int)) else some (natOfDigits digits)
    else none

/-- The digits behind a point, if there is one, and what follows them. -/
def splitFraction : List Char → List Char × List Char
  | '.' :: cs => (cs.takeWhile isAsciiDigit, cs.dropWhile isAsciiDigit)
  | cs => ([], cs)

/-- The number that an unsigned loose numeral of ASCII digits spells. -/
def ofUnsigned? (cs : List Char) : Option Double :=
  let whole := cs.takeWhile isAsciiDigit
  let (fraction, rest) := splitFraction (cs.dropWhile isAsciiDigit)
  if whole.isEmpty && fraction.isEmpty then none
  else
    (power? rest).map (ofScaled whole fraction)

/-- A name of infinity or NaN, in any case. -/
def ofName? (cs : List Char) : Option Double :=
  match String.ofList (cs.map Char.toLower) with
  | "inf" | "infinity" => some infinity
  | "nan" => some nan
  | _ => none

/-- The number that a loose numeral spells. -/
def ofLoose? (cs : List Char) : Option Double :=
  let (negative, body) := splitSign ((trim isBlank cs).map toAsciiDigit)
  let unsigned := ((dropUnderscores? body).bind ofUnsigned?).or (ofName? body)
  unsigned.map fun x => if negative then x.neg else x

/-- The number that a text spells. -/
def ofNumeral? (cs : List Char) : Option Double :=
  (ofPlain? cs).or (ofLoose? cs)

end Double

end Lox
