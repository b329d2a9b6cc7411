/-
# The shortest decimal that reads back

A finite positive number is written with the fewest digits that read back as
the same number, and of the decimals with that many digits with the nearest
one. The digits are found by trying: for one digit, two, and so on up to
seventeen, the two neighbours of the number on the grid of that many digits
are read, and the first grid with a hit wins; of two hits the nearer, at equal
distance the even one. Should no grid have a hit, the exact value is taken,
which has finitely many digits. Either way what is chosen reads back.

Key definitions: `Lox.Decimal`, `Lox.Double.shortest`.
-/
import Lox.Double.Basic

namespace Lox

/-- The number `digits * 10 ^ power`. -/
structure Decimal where
  digits : Nat
  power : Int
  deriving DecidableEq, Repr, Inhabited

/-- The decimal without the zeros at its end; `fuel` bounds their number. -/
def Decimal.trimmed : Nat → Decimal → Decimal
  | 0, d => d
  | fuel + 1, d =>
    if d.digits ≠ 0 && d.digits % 10 = 0 then trimmed fuel ⟨d.digits / 10, d.power + 1⟩ else d

namespace Double

/-- The numerator of a finite number's magnitude as a fraction. -/
def numerator (x : Double) : Nat := x.significand * Nat.pow 2 x.exponent.toNat

/-- The denominator of a finite number's magnitude as a fraction. -/
def denominator (x : Double) : Nat := Nat.pow 2 (-x.exponent).toNat

/-- The number of decimal digits of a natural number. -/
def countDigits (n : Nat) : Nat := (Nat.toDigits 10 n).length

/-- The greatest `p` with `10 ^ p ≤ a / b`, for positive `a` and `b`. -/
def decimalLog (a b : Nat) : Int :=
  let p : Int := (countDigits a : Int) - countDigits b
  if b * Nat.pow 10 p.toNat ≤ a * Nat.pow 10 (-p).toNat then p else p - 1

/-- The hit for `x` among its two neighbours `d` and `d + 1` on the grid of `10 ^ power`: the
nearer one that reads back as `x`, at equal distance the even one. -/
def hit? (x : Double) (power : Int) : Option Decimal :=
  let a := x.numerator * Nat.pow 10 (-power).toNat
  let b := x.denominator * Nat.pow 10 power.toNat
  let d := a / b
  let lower := if ofDecimal d power = x then some (⟨d, power⟩ : Decimal) else none
  let upper := if ofDecimal (d + 1) power = x then some (⟨d + 1, power⟩ : Decimal) else none
  match lower, upper with
  | some l, some u => some (if 2 * (a % b) < b || (2 * (a % b) = b && d % 2 = 0) then l else u)
  | some l, none => some l
  | none, u => u

/-- The first hit on the grids of `n`, `n + 1`, … digits, `fuel` of them. -/
def firstHit? (x : Double) (p : Int) : Nat → Nat → Option Decimal
  | 0, _ => none
  | fuel + 1, n => (hit? x (p - n + 1)).or (firstHit? x p fuel (n + 1))

/-- The exact value as a decimal. -/
def exactDecimal (x : Double) : Decimal :=
  ⟨x.numerator * Nat.pow 5 (-x.exponent).toNat, min x.exponent 0⟩

/-- The shortest decimal that reads back as the finite positive number `x`. -/
def shortest (x : Double) : Decimal :=
  let p := decimalLog x.numerator x.denominator
  let d := (firstHit? x p 17 1).getD (exactDecimal x)
  Decimal.trimmed (countDigits d.digits) d

end Double

end Lox
