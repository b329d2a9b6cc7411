/-
# Rounding fractions

The number nearest to a fraction depends on the fraction alone, not on how it
is written (`Lox.Double.ofRational_congr`): the power of two that its
significand is counted in is the binary logarithm of the fraction
(`Lox.Double.logQuotient_eq`), and the count is rounded from a quotient. A
number that is the fraction is found again (`Lox.Double.ofRational_self`).

Key theorems: `Lox.Double.logQuotient_eq`, `Lox.Double.ofRational_congr`,
`Lox.Double.ofMagnitude_self`, `Lox.Double.ofRational_self`, `Lox.Double.ofDecimal_mul_pow`.
-/
import Mathlib.Data.Int.Log
import Mathlib.Data.Rat.Floor
import Mathlib.Tactic.Positivity
import Mathlib.Tactic.Ring
import Lox.Double.Shortest

namespace Lox.Double

/-! ### Quotients -/

section

variable {a b c d k : Nat}

theorem roundDiv_mul_left (hk : 0 < k) : roundDiv (k * a) (k * b) = roundDiv a b := by
  unfold roundDiv
  have hless : 2 * (k * (a % b)) < k * b ↔ 2 * (a % b) < b := by
    rw [Nat.mul_left_comm, Nat.mul_lt_mul_left hk]
  have hhalf : 2 * (k * (a % b)) = k * b ↔ 2 * (a % b) = b := by
    rw [Nat.mul_left_comm, Nat.mul_right_inj (Nat.pos_iff_ne_zero.mp hk)]
  simp only [Nat.mul_div_mul_left _ _ hk, Nat.mul_mod_mul_left, hless, hhalf]

theorem roundDiv_mul_self (hb : 0 < b) : roundDiv (a * b) b = a := by
  unfold roundDiv
  rw [Nat.mul_div_cancel _ hb, Nat.mul_mod_left, if_pos (by omega)]

/-- Comparing with a power without fractions. -/
theorem zpow_le_quotient_iff {β : Nat} (hβ : 0 < β) (hb : 0 < b) (n : Int) :
    b * β ^ n.toNat ≤ a * β ^ (-n).toNat ↔ (β : ℚ) ^ n ≤ a / b := by
  have hb' : (0 : ℚ) < b := Nat.cast_pos.mpr hb
  have hβ' : (0 : ℚ) < β := Nat.cast_pos.mpr hβ
  rw [le_div_iff₀ hb', ← Nat.cast_le (α := ℚ)]
  push_cast
  obtain ⟨m, rfl | rfl⟩ := n.eq_nat_or_neg
  · have hzero : (-(m : Int)).toNat = 0 := by omega
    rw [hzero, Int.toNat_natCast, zpow_natCast, pow_zero, mul_one, mul_comm]
  · have hzero : (-(m : Int)).toNat = 0 := by omega
    rw [hzero, neg_neg, Int.toNat_natCast, zpow_neg, zpow_natCast, pow_zero, mul_one,
      inv_mul_le_iff₀ (by positivity), mul_comm]

/-- The logarithms of both sides leave two powers for their quotient, and one comparison chooses. -/
theorem log_quotient {β i j : Nat} (hβ : 1 < β) (hai : β ^ i ≤ a) (hia : a < β ^ (i + 1))
    (hbj : β ^ j ≤ b) (hjb : b < β ^ (j + 1)) :
    (if b * β ^ ((i : Int) - j).toNat ≤ a * β ^ (-((i : Int) - j)).toNat then (i : Int) - j
      else i - j - 1) = Int.log β ((a : ℚ) / b) := by
  have hβ' : (0 : ℚ) < β := Nat.cast_pos.mpr (by omega)
  have hpow (n : Int) : (0 : ℚ) < (β : ℚ) ^ n := zpow_pos hβ' n
  have hbase : (β : ℚ) ≠ 0 := hβ'.ne'
  have hb : 0 < b := (Nat.pow_pos (by omega)).trans_le hbj
  have ha' : (0 : ℚ) < a := Nat.cast_pos.mpr ((Nat.pow_pos (by omega)).trans_le hai)
  have hb' : (0 : ℚ) < b := Nat.cast_pos.mpr hb
  have hquotient : (0 : ℚ) < a / b := div_pos ha' hb'
  have habove : (a : ℚ) / b < (β : ℚ) ^ ((i : Int) - j + 1) := by
    rw [div_lt_iff₀ hb', sub_add_eq_add_sub, zpow_sub₀ hbase, div_mul_eq_mul_div,
      lt_div_iff₀ (hpow _), ← Nat.cast_succ, zpow_natCast, zpow_natCast]
    exact mul_lt_mul (by exact_mod_cast hia) (by exact_mod_cast hbj) (by positivity) (by positivity)
  have hbelow : (β : ℚ) ^ ((i : Int) - j - 1) ≤ a / b := by
    rw [le_div_iff₀ hb', sub_sub, zpow_sub₀ hbase, div_mul_eq_mul_div,
      div_le_iff₀ (hpow _), ← Nat.cast_succ, zpow_natCast, zpow_natCast]
    exact mul_le_mul (by exact_mod_cast hai) (by exact_mod_cast hjb.le) hb'.le ha'.le
  have hspec (n : Int) (h : (β : ℚ) ^ n ≤ a / b) (h' : (a : ℚ) / b < (β : ℚ) ^ (n + 1)) :
      n = Int.log β ((a : ℚ) / b) := by
    have hle := (Int.zpow_le_iff_le_log hβ hquotient).mp h
    have hlt := (Int.lt_zpow_iff_log_lt hβ hquotient).mp h'
    omega
  split
  · rename_i hle
    exact hspec _ ((zpow_le_quotient_iff (by omega) hb _).mp hle) habove
  · rename_i hle
    refine hspec _ hbelow ?_
    rw [sub_add_cancel]
    exact not_le.mp fun h => hle ((zpow_le_quotient_iff (by omega) hb _).mpr h)

/-- The power is the binary logarithm of the quotient. -/
theorem logQuotient_eq (ha : 0 < a) (hb : 0 < b) : logQuotient a b = Int.log 2 ((a : ℚ) / b) := by
  have hlower {n : Nat} (hn : 0 < n) : 2 ^ Nat.log2 n ≤ n :=
    Nat.log2_self_le (Nat.pos_iff_ne_zero.mp hn)
  exact log_quotient one_lt_two (hlower ha) Nat.lt_log2_self (hlower hb) Nat.lt_log2_self

/-! ### Fractions -/

/-- A fraction may be extended. -/
theorem ofRational_mul_left (hk : 0 < k) (hb : 0 < b) :
    ofRational (k * a) (k * b) = ofRational a b := by
  unfold ofRational
  by_cases ha : a = 0
  · rw [if_pos ha, if_pos (by rw [ha, Nat.mul_zero])]
  · have hpos : 0 < a := Nat.pos_of_ne_zero ha
    have hk' : (k : ℚ) ≠ 0 := Nat.cast_ne_zero.mpr (Nat.pos_iff_ne_zero.mp hk)
    have hlog : logQuotient (k * a) (k * b) = logQuotient a b := by
      rw [logQuotient_eq (Nat.mul_pos hk hpos) (Nat.mul_pos hk hb), logQuotient_eq hpos hb]
      push_cast
      rw [mul_div_mul_left _ _ hk']
    rw [if_neg ha, if_neg (Nat.mul_ne_zero (Nat.pos_iff_ne_zero.mp hk) ha), hlog]
    simp only [Nat.mul_assoc, roundDiv_mul_left hk]

/-- The nearest number is that of the fraction, however it is written. -/
theorem ofRational_congr (hb : 0 < b) (hd : 0 < d) (h : a * d = c * b) :
    ofRational a b = ofRational c d := by
  calc ofRational a b = ofRational (d * a) (d * b) := (ofRational_mul_left hd hb).symm
    _ = ofRational (b * c) (b * d) := by rw [Nat.mul_comm d a, h, Nat.mul_comm c, Nat.mul_comm d]
    _ = ofRational c d := ofRational_mul_left hb hd

end

/-! ### Signs and magnitudes -/

section

variable {x y : Double} {m : Nat} {negative : Bool}

/-- The bits are the sign and the magnitude. -/
theorem bits_eq (x : Double) :
    x.bits.toNat = (if x.isNegative then 2 ^ 63 else 0) + x.magnitude := by
  have hbits : x.bits.toNat < 2 ^ 64 := x.bits.toNat_lt
  by_cases hsign : x.isNegative = true
  · have hle : 2 ^ 63 ≤ x.bits.toNat := of_decide_eq_true hsign
    rw [if_pos hsign]
    show _ = 2 ^ 63 + x.bits.toNat % 2 ^ 63
    omega
  · have hlt : ¬ 2 ^ 63 ≤ x.bits.toNat := fun h => hsign (decide_eq_true h)
    rw [if_neg hsign]
    show _ = 0 + x.bits.toNat % 2 ^ 63
    omega

theorem ext_sign (hsign : x.isNegative = y.isNegative) (h : x.magnitude = y.magnitude) : x = y := by
  have hbits : x.bits.toNat = y.bits.toNat := by rw [bits_eq x, bits_eq y, hsign, h]
  cases x
  cases y
  exact congrArg Double.mk (UInt64.toNat_inj.mp hbits)

theorem bits_ofMagnitude (h : m ≤ infiniteMagnitude) :
    (ofMagnitude negative m).bits.toNat = if negative then 2 ^ 63 + m else m := by
  have hbound : m < 2 ^ 63 := Nat.lt_of_le_of_lt h (by decide)
  refine UInt64.toNat_ofNat_of_lt' (show (if negative then 2 ^ 63 + m else m) < 2 ^ 64 from ?_)
  split <;> omega

theorem magnitude_ofMagnitude (h : m ≤ infiniteMagnitude) :
    (ofMagnitude negative m).magnitude = m := by
  have hbound : m < 2 ^ 63 := Nat.lt_of_le_of_lt h (by decide)
  have hbits := @bits_ofMagnitude _ negative h
  show (ofMagnitude negative m).bits.toNat % 2 ^ 63 = m
  split at hbits <;> omega

theorem isNegative_ofMagnitude (h : m ≤ infiniteMagnitude) :
    (ofMagnitude negative m).isNegative = negative := by
  have hbound : m < 2 ^ 63 := Nat.lt_of_le_of_lt h (by decide)
  have hbits := @bits_ofMagnitude _ negative h
  unfold isNegative
  rw [hbits]
  cases negative with
  | false => exact decide_eq_false (Nat.not_le.mpr hbound)
  | true => exact decide_eq_true (Nat.le_add_right _ _)

/-- A number that is not NaN is its sign and its magnitude. -/
theorem ofMagnitude_self (h : x.magnitude ≤ infiniteMagnitude) :
    ofMagnitude x.isNegative x.magnitude = x :=
  ext_sign (isNegative_ofMagnitude h) (magnitude_ofMagnitude h)

end

/-! ### Numbers that are fractions -/

section

variable {m : Nat}

/-- What is rounded has no sign and is no more than infinite. -/
theorem exists_ofRational (a b : Nat) :
    ∃ m ≤ infiniteMagnitude, ofRational a b = ofMagnitude false m := by
  unfold ofRational
  split
  · exact ⟨0, Nat.zero_le _, rfl⟩
  · exact ⟨_, Nat.min_le_right _ _, rfl⟩

/-- A significand with its power is the fraction of one word: its own power is the one that the word
is counted in, unless it is below all of them. -/
theorem ofRational_scaled {s : Nat} {e : Int} (hs : s < 2 ^ 53) (he : -1074 ≤ e)
    (hleast : e = -1074 ∨ 2 ^ 52 ≤ s) :
    ofRational (s * 2 ^ e.toNat) (2 ^ (-e).toNat) =
      ofMagnitude false (min ((e + 1074).toNat * 2 ^ 52 + s) infiniteMagnitude) := by
  have hpow (n : Nat) : 0 < 2 ^ n := Nat.two_pow_pos n
  unfold ofRational
  by_cases hzero : s = 0
  · subst hzero
    rw [Nat.zero_mul, if_pos rfl]
    obtain rfl | h := hleast
    · rfl
    · exact absurd h (by decide)
  · have hpos : 0 < s := Nat.pos_of_ne_zero hzero
    have hvalue : ((s * 2 ^ e.toNat : Nat) : ℚ) / ((2 ^ (-e).toNat : Nat) : ℚ) = s * 2 ^ e := by
      push_cast
      rw [mul_div_assoc, ← zpow_natCast, ← zpow_natCast, ← zpow_sub₀ two_ne_zero]
      congr 2
      omega
    have hscale : (0 : ℚ) < 2 ^ e := zpow_pos two_pos e
    have hvaluePos : (0 : ℚ) < s * 2 ^ e := mul_pos (Nat.cast_pos.mpr hpos) hscale
    have hupper : Int.log 2 ((s : ℚ) * 2 ^ e) < 53 + e := by
      refine (Int.lt_zpow_iff_log_lt one_lt_two hvaluePos).mp ?_
      push_cast
      rw [zpow_add₀ two_ne_zero]
      refine mul_lt_mul_of_pos_right ?_ hscale
      exact_mod_cast hs
    have hlog : logQuotient (s * 2 ^ e.toNat) (2 ^ (-e).toNat) = Int.log 2 ((s : ℚ) * 2 ^ e) := by
      rw [logQuotient_eq (Nat.mul_pos hpos (hpow _)) (hpow _), hvalue]
    have hpower : max (logQuotient (s * 2 ^ e.toNat) (2 ^ (-e).toNat) - 52) (-1074) = e := by
      rw [hlog]
      obtain rfl | hlarge := hleast
      · omega
      · have hlower : 52 + e ≤ Int.log 2 ((s : ℚ) * 2 ^ e) := by
          refine (Int.zpow_le_iff_le_log one_lt_two hvaluePos).mp ?_
          push_cast
          rw [zpow_add₀ two_ne_zero]
          refine mul_le_mul_of_nonneg_right ?_ hscale.le
          exact_mod_cast hlarge
        omega
    rw [if_neg (Nat.mul_ne_zero hzero (Nat.pos_iff_ne_zero.mp (hpow _)))]
    simp only [Nat.pow_eq, hpower]
    rw [Nat.mul_assoc, Nat.mul_comm (2 ^ e.toNat),
      roundDiv_mul_self (Nat.mul_pos (hpow _) (hpow _))]

/-- A finite number is found from its own fraction. -/
theorem ofRational_self (h : m < infiniteMagnitude) :
    ofRational (ofMagnitude false m).numerator (ofMagnitude false m).denominator =
      ofMagnitude false m := by
  have hm : (ofMagnitude false m).magnitude = m := magnitude_ofMagnitude h.le
  unfold numerator denominator significand exponent
  rw [hm]
  by_cases hsmall : m < 2 ^ 52
  · simp only [Nat.pow_eq, if_pos hsmall]
    have hword : min ((-1074 + 1074 : Int).toNat * 2 ^ 52 + m) infiniteMagnitude = m := by omega
    rw [ofRational_scaled (by omega) (by decide) (.inl rfl), hword]
  · simp only [Nat.pow_eq, if_neg hsmall]
    have hbound : m < 0x7FF * 2 ^ 52 := h
    have hword : min ((((m / 2 ^ 52 : Nat) : Int) - 1075 + 1074).toNat * 2 ^ 52 +
        (m % 2 ^ 52 + 2 ^ 52)) infiniteMagnitude = m := by omega
    rw [ofRational_scaled (by omega) (by omega) (.inr (by omega)), hword]

end

/-! ### Decimals -/

/-- Zeros at the end of a decimal count as its power. -/
theorem ofDecimal_mul_pow (n j : Nat) (e : Int) :
    ofDecimal (n * 10 ^ j) e = ofDecimal n (e + j) := by
  have hpow (n : Nat) : 0 < 10 ^ n := Nat.pow_pos (by decide)
  unfold ofDecimal
  simp only [Nat.pow_eq]
  refine ofRational_congr (hpow _) (hpow _) ?_
  have hexponents : j + e.toNat + (-(e + j)).toNat = (e + j).toNat + (-e).toNat := by omega
  calc n * 10 ^ j * 10 ^ e.toNat * 10 ^ (-(e + j)).toNat
      = n * 10 ^ (j + e.toNat + (-(e + j)).toNat) := by ring
    _ = n * 10 ^ (e + j).toNat * 10 ^ (-e).toNat := by rw [hexponents]; ring

end Lox.Double
