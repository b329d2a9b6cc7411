/-
# Whole numbers in loose text

The integer that a text spells: margins around it, a sign, and digits of any
script with single underscores between them. Text with more digits than a
bound is refused, so reading stays cheap.

Key definitions: `Lox.Text.integer?`, `Lox.Text.natOfDigits`, `Lox.Text.dropUnderscores?`.
-/
import Lox.Text.Digit
import Lox.Text.Letter

namespace Lox.Text

/-- The digits of any script as ASCII digits, the rest as it is. -/
def toAsciiDigit (c : Char) : Char :=
  match digitValue? c with
  | some d => Nat.digitChar d
  | none => c

/-- The text without its underscores, if each stands between two digits. -/
def dropUnderscores? : List Char → Option (List Char)
  | [] => some []
  | '_' :: _ => none
  | c :: '_' :: d :: cs =>
    if isAsciiDigit c && isAsciiDigit d then (dropUnderscores? (d :: cs)).map (c :: ·) else none
  | [_, '_'] => none
  | c :: cs => (dropUnderscores? cs).map (c :: ·)

/-- A sign in front of a text: whether it is a minus, and the text behind it. -/
def splitSign : List Char → Bool × List Char
  | '-' :: cs => (true, cs)
  | '+' :: cs => (false, cs)
  | cs => (false, cs)

/-- The value of a run of ASCII digits. -/
def natOfDigits (cs : List Char) : Nat :=
  cs.foldl (fun n c => 10 * n + (c.toNat - '0'.toNat)) 0

/-- The longest whole number in text that is read: more digits than this are refused. -/
def maxIntegerDigits : Nat := 4300

/-- The integer that a text spells: margins around it, a sign, digits of any script with single
underscores between them. -/
def integer? (cs : List Char) : Option Int :=
  let (negative, body) := splitSign ((trim isMargin cs).map toAsciiDigit)
  match dropUnderscores? body with
  | none => none
  | some digits =>
    if digits.isEmpty || !digits.all isAsciiDigit || maxIntegerDigits < digits.length then none
    else if negative then some (-(natOfDigits digits : Int)) else some (natOfDigits digits)

end Lox.Text
