/-
# Numbers

A number is an IEEE 754 double, held as its 64-bit word, so that two numbers
are the same Lean value exactly if they have the same bits. A finite word
stands for `significand * 2 ^ exponent` with its sign. As values of the
language two numbers are the same if their bits are, or both are zeros, or
both are NaNs; that relation is an equivalence. The four operations and the
comparisons are those of the hardware, reached through `Float`.

Key definitions: `Lox.Double`, `Lox.Double.significand`, `Lox.Double.exponent`,
`Lox.Double.same`, `Lox.Double.ofRational`.
Key theorems: `Lox.Double.same_refl`, `Lox.Double.same_symm`, `Lox.Double.same_trans`.
-/

namespace Lox

/-- An IEEE 754 double by its bits. -/
structure Double where
  bits : UInt64
  deriving DecidableEq, Repr, Inhabited

namespace Double

/-- The number with the bits of a `Float`. -/
def ofFloat (x : Float) : Double := ⟨x.toBits⟩

/-- The `Float` with the bits of a number. -/
def toFloat (x : Double) : Float := Float.ofBits x.bits

/-- The 63 bits without the sign. -/
def magnitude (x : Double) : Nat := x.bits.toNat % Nat.pow 2 63

/-- The sign bit is set. -/
def isNegative (x : Double) : Bool := Nat.pow 2 63 ≤ x.bits.toNat

/-- The magnitude of infinity: all exponent bits set, all fraction bits clear. -/
def infiniteMagnitude : Nat := 0x7FF * Nat.pow 2 52

def isNaN (x : Double) : Bool := infiniteMagnitude < x.magnitude

def isInfinite (x : Double) : Bool := x.magnitude = infiniteMagnitude

def isZero (x : Double) : Bool := x.magnitude = 0

/-- The integer that a finite number multiplies a power of two by. -/
def significand (x : Double) : Nat :=
  if x.magnitude < Nat.pow 2 52 then x.magnitude else x.magnitude % Nat.pow 2 52 + Nat.pow 2 52

/-- The power of two of a finite number. -/
def exponent (x : Double) : Int :=
  if x.magnitude < Nat.pow 2 52 then -1074 else (x.magnitude / Nat.pow 2 52 : Nat) - 1075

/-- The number with a sign and a magnitude. -/
def ofMagnitude (negative : Bool) (m : Nat) : Double :=
  ⟨UInt64.ofNat (if negative then Nat.pow 2 63 + m else m)⟩

def nan : Double := ofMagnitude false (infiniteMagnitude + Nat.pow 2 51)

def infinity : Double := ofMagnitude false infiniteMagnitude

/-- The number with the other sign. -/
def neg (x : Double) : Double := ofMagnitude (!x.isNegative) x.magnitude

def add (x y : Double) : Double := ofFloat (x.toFloat + y.toFloat)

def sub (x y : Double) : Double := ofFloat (x.toFloat - y.toFloat)

def mul (x y : Double) : Double := ofFloat (x.toFloat * y.toFloat)

/-- Division never fails: by zero it gives an infinity, or NaN for zero by zero. -/
def div (x y : Double) : Double := ofFloat (x.toFloat / y.toFloat)

/-- The order of the hardware: false if either side is NaN. -/
def less (x y : Double) : Bool := decide (x.toFloat < y.toFloat)

def lessEqual (x y : Double) : Bool := decide (x.toFloat ≤ y.toFloat)

/-- The same value: the same bits, two zeros, or two NaNs. -/
def same (x y : Double) : Bool :=
  x = y || (x.isZero && y.isZero) || (x.isNaN && y.isNaN)

theorem same_refl (x : Double) : x.same x = true := by
  simp [same]

theorem same_symm {x y : Double} (h : x.same y = true) : y.same x = true := by
  simp only [same, Bool.or_eq_true, decide_eq_true_eq, Bool.and_eq_true] at h ⊢
  rcases h with (rfl | h) | h
  · exact .inl (.inl rfl)
  · exact .inl (.inr h.symm)
  · exact .inr h.symm

theorem not_isNaN_of_isZero {x : Double} (h : x.isZero = true) : x.isNaN = false := by
  have h0 : x.magnitude = 0 := of_decide_eq_true h
  exact decide_eq_false (by rw [h0]; exact Nat.not_lt_zero _)

theorem same_trans {x y z : Double} (h : x.same y = true) (g : y.same z = true) :
    x.same z = true := by
  simp only [same, Bool.or_eq_true, decide_eq_true_eq, Bool.and_eq_true] at h g ⊢
  rcases h with (rfl | h) | h
  · exact g
  · rcases g with (rfl | g) | g
    · exact .inl (.inr h)
    · exact .inl (.inr ⟨h.1, g.2⟩)
    · exact absurd g.1 (by simp [not_isNaN_of_isZero h.2])
  · rcases g with (rfl | g) | g
    · exact .inr h
    · exact absurd h.2 (by simp [not_isNaN_of_isZero g.1])
    · exact .inr ⟨h.1, g.2⟩

/-- `a / b` rounded to the nearest integer, a half to the even one. -/
def roundDiv (a b : Nat) : Nat :=
  let q := a / b
  if 2 * (a % b) < b then q
  else if 2 * (a % b) = b then q + q % 2
  else q + 1

/-- The greatest `k` with `2 ^ k ≤ a / b`, for positive `a` and `b`. -/
def logQuotient (a b : Nat) : Int :=
  let k : Int := (Nat.log2 a : Int) - Nat.log2 b
  if b * Nat.pow 2 k.toNat ≤ a * Nat.pow 2 (-k).toNat then k else k - 1

/-- The number nearest to `a / b`, of two equally near ones the one with the even significand,
and infinity from half a step above the greatest finite number on. The significand `s` of the
power `2 ^ q` is `s` steps above zero if `q` is least, and each greater `q` shifts the words by
the `2 ^ 52` significands of a power; so the word is their sum, also where rounding carries. -/
def ofRational (a b : Nat) : Double :=
  if a = 0 then ofMagnitude false 0
  else
    let q : Int := max (logQuotient a b - 52) (-1074)
    let s := roundDiv (a * Nat.pow 2 (-q).toNat) (b * Nat.pow 2 q.toNat)
    ofMagnitude false (min ((q + 1074).toNat * Nat.pow 2 52 + s) infiniteMagnitude)

/-- The number nearest to `m * 10 ^ e`. -/
def ofDecimal (m : Nat) (e : Int) : Double :=
  ofRational (m * Nat.pow 10 e.toNat) (Nat.pow 10 (-e).toNat)

end Double

end Lox
