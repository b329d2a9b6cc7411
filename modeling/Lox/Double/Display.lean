/-
# How numbers are shown

An integer below `10 ^ 21` is shown by all its digits, without a point; both
zeros show as `0`. Any other finite number is shown by the shortest digits
that read back: with a point while it lies between `10 ^ -4` and `10 ^ 16`,
else as one digit, a point with the rest if there is one, and a power of ten
with its sign and at least two digits.

Key definitions: `Lox.Double.display`, `Lox.Decimal.display`.
-/
import Lox.Double.Shortest

namespace Lox

/-- The decimal digits of a natural number. -/
def digitsOf (n : Nat) : List Char := Nat.toDigits 10 n

/-- A power of ten: its sign and at least two digits. -/
def powerText (e : Int) : List Char :=
  let ds := digitsOf e.natAbs
  (if e < 0 then '-' else '+') :: (if ds.length < 2 then '0' :: ds else ds)

/-- The digits with a point behind the first `point` of them; zeros fill the places before the
first digit and behind the last one. -/
def positional (ds : List Char) (point : Int) : List Char :=
  if point ≤ 0 then '0' :: '.' :: (List.replicate (-point).toNat '0' ++ ds)
  else if ds.length ≤ point.toNat then
    ds ++ List.replicate (point.toNat - ds.length) '0' ++ ['.', '0']
  else ds.take point.toNat ++ '.' :: ds.drop point.toNat

/-- One digit, a point with the others if there are any, and the power of ten. -/
def scientific (ds : List Char) (e : Int) : List Char :=
  match ds with
  | [] => []
  | [d] => d :: 'e' :: powerText e
  | d :: rest => d :: '.' :: (rest ++ 'e' :: powerText e)

/-- The text of a decimal: positional for leading powers from `-4` up to `15`. -/
def Decimal.display (d : Decimal) : List Char :=
  let ds := digitsOf d.digits
  let lead := d.power + ds.length - 1
  if -4 ≤ lead && lead < 16 then positional ds (lead + 1) else scientific ds lead

namespace Double

/-- The integer that the magnitude of a finite number is, if it is one. -/
def wholeMagnitude? (x : Double) : Option Nat :=
  if x.numerator % x.denominator = 0 then some (x.numerator / x.denominator) else none

/-- Integers from here on are shown by their shortest digits. -/
def wholeBound : Nat := Nat.pow 10 21

/-- The text of a finite number without its sign. -/
def displayMagnitude (x : Double) : List Char :=
  let positive := ofMagnitude false x.magnitude
  match x.wholeMagnitude? with
  | some n => if n < wholeBound then digitsOf n else positive.shortest.display
  | none => positive.shortest.display

/-- The text of a number. -/
def display (x : Double) : String :=
  if x.isNaN then "nan"
  else if x.isInfinite then if x.isNegative then "-inf" else "inf"
  else if x.isNegative && !x.isZero then String.ofList ('-' :: x.displayMagnitude)
  else String.ofList x.displayMagnitude

end Double

end Lox
