/-
# Constants

The constants a program can write: nothing, truth values, numbers and text,
and how each is shown.

Key definitions: `Lox.Literal`, `Lox.Literal.display`.
-/
import Lox.Double.Display

namespace Lox

/-- A constant of the language. -/
inductive Literal where
  | nil
  | bool (b : Bool)
  | number (x : Double)
  | string (s : String)
  deriving DecidableEq, Repr, Inhabited

/-- The text of a constant; a string shows as itself. -/
def Literal.display : Literal → String
  | .nil => "nil"
  | .bool true => "true"
  | .bool false => "false"
  | .number x => x.display
  | .string s => s

end Lox
