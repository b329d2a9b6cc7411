/-
# Numbers shown without a power of ten

The shortest decimal lies close to the number that it stands for: it is on a
grid that is no wider than the number's leading power of ten, and one of the
number's neighbours there, so it is no less than that power and at most twice
the number. A number that is no integer is below `2 ^ 52`, so from `10 ^ -4` on
its leading digit stands where a point is written, and its text is digits, a
point and digits. An integer below `10 ^ 21` is digits alone. Both are numerals
of the language, and they read back, so the scanner finds the number that was
shown.

Key definitions: `Lox.Double.value`, `Lox.Decimal.value`.
Key theorems: `Lox.Double.decimalLog_eq`, `Lox.Double.value_shortest`,
`Lox.Double.isNumeral_displayMagnitude`, `Lox.Double.scan_shown`.
-/
import Mathlib.Algebra.Order.Floor.Semifield
import Mathlib.Data.Nat.Cast.Field
import Mathlib.Tactic.FieldSimp
import Mathlib.Tactic.Linarith
import Mathlib.Tactic.NormNum
import Lox.Proofs.Double.Rereading
import Lox.Proofs.Scanner.WritingOut

namespace Lox

open Text

/-- The exact value of a decimal. -/
def Decimal.value (d : Decimal) : ℚ := d.digits * 10 ^ d.power

/-- The exact value of a finite number without its sign. -/
def Double.value (x : Double) : ℚ := x.numerator / x.denominator

/-! ### Leading powers of ten -/

theorem ten_zpow_pos (n : Int) : (0 : ℚ) < 10 ^ n := zpow_pos (by norm_num) n

/-- A natural number lies between the powers of ten that its number of digits says. -/
theorem pow_length_digitsOf {n : Nat} (hn : 0 < n) :
    10 ^ ((digitsOf n).length - 1) ≤ n ∧ n < 10 ^ (digitsOf n).length := by
  have hpos : 0 < (digitsOf n).length := Nat.length_toDigits_pos
  constructor
  · by_cases hone : (digitsOf n).length = 1
    · rw [hone]
      exact hn
    · have hshort : ¬ (digitsOf n).length ≤ (digitsOf n).length - 1 := by omega
      exact Nat.not_lt.mp
        ((not_congr (Nat.length_toDigits_le_iff (by decide) (by omega))).mp hshort)
  · exact (Nat.length_toDigits_le_iff (by decide) hpos).mp (Nat.le_refl _)

namespace Double

/-- The power is the decimal logarithm of the quotient. -/
theorem decimalLog_eq {a b : Nat} (ha : 0 < a) (hb : 0 < b) :
    decimalLog a b = Int.log 10 ((a : ℚ) / b) := by
  have hcount (n : Nat) : ((digitsOf n).length : Int) = ((digitsOf n).length - 1 : Nat) + 1 := by
    have hpos : 0 < (digitsOf n).length := Nat.length_toDigits_pos
    omega
  have hbounds {n : Nat} (hn : 0 < n) : 10 ^ ((digitsOf n).length - 1) ≤ n ∧
      n < 10 ^ ((digitsOf n).length - 1 + 1) := by
    have hpos : 0 < (digitsOf n).length := Nat.length_toDigits_pos
    rw [Nat.sub_add_cancel hpos]
    exact pow_length_digitsOf hn
  have hpower : (countDigits a : Int) - countDigits b =
      ((digitsOf a).length - 1 : Nat) - ((digitsOf b).length - 1 : Nat) := by
    show ((digitsOf a).length : Int) - (digitsOf b).length = _
    rw [hcount a, hcount b]
    omega
  unfold decimalLog
  simp only [hpower, Nat.pow_eq]
  exact log_quotient (by decide) (hbounds ha).1 (hbounds ha).2 (hbounds hb).1 (hbounds hb).2

end Double

/-! ### Shortest decimals lie near -/

namespace Double

section

variable {x : Double} {p q : Int} {d : Decimal}

/-- The number on the grid of a power of ten. -/
theorem value_div_zpow (x : Double) (q : Int) :
    ((x.numerator * 10 ^ (-q).toNat : Nat) : ℚ) / ((x.denominator * 10 ^ q.toNat : Nat) : ℚ) =
      x.value / 10 ^ q := by
  have hpower : (10 : ℚ) ^ q = 10 ^ q.toNat / 10 ^ (-q).toNat := by
    rw [← zpow_natCast, ← zpow_natCast, ← zpow_sub₀ (by norm_num)]
    congr 1
    omega
  rw [hpower, value]
  push_cast
  rw [div_div_div_eq]

/-- A neighbour on a grid that is no wider than a power below the number. -/
theorem value_of_hit? (h : x.hit? q = some d) (hq : q ≤ p) (hp : (10 : ℚ) ^ p ≤ x.value) :
    (10 : ℚ) ^ p ≤ d.value ∧ d.value ≤ 2 * x.value := by
  have hgrid := ten_zpow_pos q
  have hwide : (10 : ℚ) ^ q ≤ 10 ^ p := zpow_le_zpow_right₀ (by norm_num) hq
  have hfloor : x.gridFloor q = ⌊x.value / 10 ^ q⌋₊ := by
    rw [← value_div_zpow, Nat.floor_div_eq_div]
    rfl
  have hquotient : 0 ≤ x.value / 10 ^ q := div_nonneg ((ten_zpow_pos p).le.trans hp) hgrid.le
  have hsplit : (10 : ℚ) ^ p = ((10 ^ (p - q).toNat : Nat) : ℚ) * 10 ^ q := by
    push_cast
    rw [← zpow_natCast, ← zpow_add₀ (by norm_num)]
    congr 1
    omega
  -- the power lies on the grid, so the neighbour below the number is not below it
  have hlower : (10 : ℚ) ^ p ≤ x.gridFloor q * 10 ^ q := by
    rw [hsplit]
    refine mul_le_mul_of_nonneg_right (Nat.cast_le.mpr ?_) hgrid.le
    rw [hfloor]
    refine Nat.le_floor ?_
    rw [le_div_iff₀ hgrid, ← hsplit]
    exact hp
  have hupper : x.gridFloor q * (10 : ℚ) ^ q ≤ x.value := by
    rw [← le_div_iff₀ hgrid, hfloor]
    exact Nat.floor_le hquotient
  unfold Decimal.value
  obtain ⟨rfl | rfl, -⟩ := neighbour_of_hit? h
  · exact ⟨hlower, by linarith⟩
  · push_cast
    exact ⟨by linarith, by linarith⟩

theorem value_exactDecimal (x : Double) : x.exactDecimal.value = x.value := by
  have hdown : (10 : ℚ) ^ min x.exponent 0 = (10 ^ (-x.exponent).toNat)⁻¹ := by
    rw [← zpow_natCast, ← zpow_neg]
    congr 1
    omega
  have hten : (10 : ℚ) ^ (-x.exponent).toNat =
      5 ^ (-x.exponent).toNat * 2 ^ (-x.exponent).toNat := by
    rw [← mul_pow]
    norm_num
  unfold Decimal.value exactDecimal value denominator
  simp only [Nat.pow_eq]
  push_cast
  rw [hdown, hten]
  field_simp

end

end Double

theorem Decimal.value_trimmed : ∀ (fuel : Nat) (d : Decimal), (d.trimmed fuel).value = d.value
  | 0, _ => rfl
  | fuel + 1, ⟨n, e⟩ => by
    unfold trimmed
    split
    · rename_i hzero
      have hmod : n % 10 = 0 := by
        simp only [Bool.and_eq_true, decide_eq_true_eq] at hzero
        exact hzero.2
      obtain ⟨k, rfl⟩ := Nat.dvd_of_mod_eq_zero hmod
      rw [value_trimmed fuel]
      unfold value
      rw [Nat.mul_div_cancel_left k (by decide), zpow_add₀ (by norm_num)]
      push_cast
      ring
    · rfl

namespace Double

section

variable {x : Double}

theorem numerator_pos (h : 0 < x.value) : 0 < x.numerator := by
  refine Nat.pos_of_ne_zero fun hzero => ?_
  unfold value at h
  rw [hzero] at h
  norm_num at h

/-- The shortest decimal is no less than the leading power of ten and at most twice the number. -/
theorem value_shortest (h : 0 < x.value) :
    (10 : ℚ) ^ Int.log 10 x.value ≤ x.shortest.value ∧ x.shortest.value ≤ 2 * x.value := by
  have hlog : decimalLog x.numerator x.denominator = Int.log 10 x.value :=
    decimalLog_eq (numerator_pos h) x.denominator_pos
  have hleading : (10 : ℚ) ^ Int.log 10 x.value ≤ x.value := by
    have hle := Int.zpow_log_le_self (b := 10) (by decide) h
    exact_mod_cast hle
  unfold shortest
  dsimp only
  rw [Decimal.value_trimmed, hlog]
  cases hfirst : x.firstHit? (Int.log 10 x.value) 17 1 with
  | none =>
    rw [Option.getD_none, value_exactDecimal]
    exact ⟨hleading, by linarith⟩
  | some d =>
    obtain ⟨m, hm, hhit⟩ := exists_hit?_of_firstHit? hfirst
    exact value_of_hit? hhit (by omega) hleading

end

end Double

/-! ### Texts with a point -/

/-- Digits with a point among them are a numeral, wherever the point is put. -/
theorem isNumeral_positional {ds : List Char} (hdigits : ∀ c ∈ ds, isAsciiDigit c = true)
    (hne : ds ≠ []) (point : Int) : IsNumeral (positional ds point) := by
  have hzeros {k : Nat} : ∀ c ∈ List.replicate k '0', isAsciiDigit c = true :=
    fun c h => List.eq_of_mem_replicate h ▸ rfl
  have hzero : ∀ c ∈ ['0'], isAsciiDigit c = true := List.forall_mem_singleton.mpr rfl
  unfold positional
  split
  · exact @IsNumeral.fraction ['0'] _ (List.cons_ne_nil _ _) hzero
      (List.append_ne_nil_of_right_ne_nil _ hne) (List.forall_mem_append.mpr ⟨hzeros, hdigits⟩)
  · split
    · exact .fraction (List.append_ne_nil_of_left_ne_nil hne _)
        (List.forall_mem_append.mpr ⟨hdigits, hzeros⟩) (List.cons_ne_nil _ _) hzero
    · rename_i hpoint hlength
      refine .fraction ?_ (fun c h => hdigits c (List.mem_of_mem_take h)) ?_
        (fun c h => hdigits c (List.mem_of_mem_drop h))
      · rw [Ne, List.take_eq_nil_iff]
        rintro (h | h)
        · omega
        · exact hne h
      · rw [Ne, List.drop_eq_nil_iff]
        exact hlength

/-- A decimal between the bounds is written with a point. -/
theorem Decimal.isNumeral_display {d : Decimal} (hlow : (10 : ℚ) ^ (-4 : Int) ≤ d.value)
    (hhigh : d.value < 10 ^ (16 : Int)) : IsNumeral d.display := by
  have hpower := ten_zpow_pos d.power
  have hpos : 0 < d.digits := by
    refine Nat.pos_of_ne_zero fun hzero => ?_
    unfold value at hlow
    rw [hzero] at hlow
    norm_num at hlow
  have hlength : 0 < (digitsOf d.digits).length := Nat.length_toDigits_pos
  obtain ⟨hle, hlt⟩ := pow_length_digitsOf hpos
  have hstart : (10 : ℚ) ^ (d.power + (digitsOf d.digits).length - 1) ≤ d.value := by
    have hexponent : d.power + (digitsOf d.digits).length - 1 =
        ((digitsOf d.digits).length - 1 : Nat) + d.power := by omega
    rw [hexponent, zpow_add₀ (by norm_num), zpow_natCast]
    exact mul_le_mul_of_nonneg_right (by exact_mod_cast hle) hpower.le
  have hend : d.value < (10 : ℚ) ^ (d.power + (digitsOf d.digits).length) := by
    rw [add_comm, zpow_add₀ (by norm_num), zpow_natCast]
    exact mul_lt_mul_of_pos_right (by exact_mod_cast hlt) hpower
  have hlead : -4 ≤ d.power + (digitsOf d.digits).length - 1 := by
    have hbetween := (zpow_lt_zpow_iff_right₀ (by norm_num : (1 : ℚ) < 10)).mp (hlow.trans_lt hend)
    omega
  have hlead' : d.power + (digitsOf d.digits).length - 1 < 16 :=
    (zpow_lt_zpow_iff_right₀ (by norm_num : (1 : ℚ) < 10)).mp (hstart.trans_lt hhigh)
  unfold display
  dsimp only
  rw [if_pos (by simp only [hlead, hlead', decide_true, Bool.and_self])]
  exact isNumeral_positional (fun c => isAsciiDigit_of_mem_digitsOf) (digitsOf_ne_nil _) _

/-! ### Texts of numbers -/

namespace Double

section

variable {x : Double}

/-- What is no integer is below the greatest significand. -/
theorem value_lt_of_not_whole (h : x.wholeMagnitude? = none) : x.value < 2 ^ 52 := by
  have hfraction : ¬ x.numerator % x.denominator = 0 := by
    intro hzero
    unfold wholeMagnitude? at h
    rw [if_pos hzero] at h
    cases h
  have hexponent : x.exponent < 0 := by
    refine not_le.mp fun hle => hfraction ?_
    unfold denominator
    rw [Int.toNat_of_nonpos (by omega)]
    exact Nat.mod_one _
  have hsignificand : x.significand < 2 ^ 53 := by
    unfold significand
    simp only [Nat.pow_eq]
    split <;> omega
  have hhalf : 2 ≤ x.denominator := by
    have hpower : 2 ^ 1 ≤ 2 ^ (-x.exponent).toNat := Nat.pow_le_pow_right (by decide) (by omega)
    exact hpower
  have hnumerator : x.numerator = x.significand := by
    unfold numerator
    rw [Int.toNat_of_nonpos hexponent.le]
    exact Nat.mul_one _
  have hdenominator : (0 : ℚ) < x.denominator := Nat.cast_pos.mpr x.denominator_pos
  unfold value
  rw [div_lt_iff₀ hdenominator, hnumerator]
  have hless : x.significand < 2 ^ 52 * x.denominator := by omega
  exact_mod_cast hless

/-- Infinity and NaN have words above those of all numbers below `10 ^ 21`. -/
theorem magnitude_lt_of_value (h : x.value < 10 ^ 21) : x.magnitude < infiniteMagnitude := by
  refine not_le.mp fun hle => absurd h (not_lt.mpr ?_)
  have hinfinite : 0x7FF * 2 ^ 52 ≤ x.magnitude := hle
  have hquotient : 0x7FF ≤ x.magnitude / 2 ^ 52 := (Nat.le_div_iff_mul_le (by decide)).mpr hle
  have hlarge : ¬ x.magnitude < 2 ^ 52 := by omega
  have hexponent : 972 ≤ x.exponent := by
    unfold exponent
    simp only [Nat.pow_eq, if_neg hlarge]
    omega
  have hone : x.denominator = 1 := by
    unfold denominator
    rw [Int.toNat_of_nonpos (by omega)]
  have hsignificand : 1 ≤ x.significand := by
    unfold significand
    rw [Nat.pow_eq, if_neg hlarge]
    omega
  have hnumerator : 10 ^ 21 ≤ x.numerator := by
    calc 10 ^ 21 ≤ 1 * 2 ^ 70 := by decide
      _ ≤ x.significand * 2 ^ x.exponent.toNat :=
        Nat.mul_le_mul hsignificand (Nat.pow_le_pow_right (by decide) (by omega))
  unfold value
  rw [hone, Nat.cast_one, div_one]
  exact_mod_cast hnumerator

theorem numerator_eq_zero_of_isZero (h : x.isZero = true) : x.numerator = 0 := by
  unfold numerator significand
  rw [of_decide_eq_true h, if_pos (by decide), Nat.zero_mul]

theorem value_eq_zero_of_isZero (h : x.isZero = true) : x.value = 0 := by
  unfold value
  rw [numerator_eq_zero_of_isZero h, Nat.cast_zero, zero_div]

/-- Zero, and what lies between the bounds, is shown by a numeral. -/
theorem isNumeral_displayMagnitude (hx : x.Countable)
    (hrange : x.isZero = true ∨ 1 / 10 ^ 4 ≤ x.value ∧ x.value < 10 ^ 21) :
    IsNumeral x.displayMagnitude := by
  unfold displayMagnitude
  dsimp only
  rw [hx.magnitude]
  cases hwhole : x.wholeMagnitude? with
  | some n =>
    have hexact : x.value = n := by
      unfold wholeMagnitude? at hwhole
      split at hwhole
      · rename_i hmod
        obtain rfl := Option.some.inj hwhole
        exact (Nat.cast_div (Nat.dvd_of_mod_eq_zero hmod)
          (Nat.cast_ne_zero.mpr x.denominator_pos.ne')).symm
      · cases hwhole
    have hbound : n < wholeBound := by
      show n < 10 ^ 21
      obtain hzero | ⟨-, hlt⟩ := hrange
      · rw [value_eq_zero_of_isZero hzero] at hexact
        have hn : n = 0 := by exact_mod_cast hexact.symm
        rw [hn]
        decide
      · rw [hexact] at hlt
        exact_mod_cast hlt
    dsimp only
    rw [if_pos hbound]
    exact .whole (digitsOf_ne_nil n) fun c => isAsciiDigit_of_mem_digitsOf
  | none =>
    have hlow : (1 : ℚ) / 10 ^ 4 ≤ x.value := by
      obtain hzero | ⟨hle, -⟩ := hrange
      · unfold wholeMagnitude? at hwhole
        rw [numerator_eq_zero_of_isZero hzero, Nat.zero_mod, if_pos rfl] at hwhole
        cases hwhole
      · exact hle
    have hpos : 0 < x.value := lt_of_lt_of_le (by norm_num) hlow
    have hhigh := value_lt_of_not_whole hwhole
    obtain ⟨hlower, hupper⟩ := value_shortest hpos
    have hlog : -4 ≤ Int.log 10 x.value := by
      refine (Int.zpow_le_iff_le_log (by decide) hpos).mp ?_
      calc (((10 : Nat) : ℚ)) ^ (-4 : Int) = 1 / 10 ^ 4 := by norm_num
        _ ≤ x.value := hlow
    refine Decimal.isNumeral_display ?_ ?_
    · exact (zpow_le_zpow_right₀ (by norm_num) hlog).trans hlower
    · calc x.shortest.value ≤ 2 * x.value := hupper
        _ < 2 * 2 ^ 52 := by linarith
        _ < 10 ^ (16 : Int) := by norm_num

/-- A numeral spells the number that it reads back as. -/
theorem ofPlain?_eq_reread {cs : List Char} (h : IsNumeral cs) :
    ofPlain? cs = some (Lox.reread cs) := by
  obtain ⟨y, hy⟩ := h.exists_ofPlain?
  rw [hy]
  cases h with
  | whole hne hall =>
    have hsplit := @takeWhile_digits cs [] hall (fun _ h => nomatch h)
    rw [List.append_nil] at hsplit
    unfold ofPlain? at hy
    rw [hsplit.1, hsplit.2] at hy
    rw [reread_whole hall, ← hy]
    simp [hne]
  | @fraction digits more hne hall hne' hall' =>
    have hsplit := @takeWhile_digits digits ('.' :: more) hall
      (fun _ h => Option.some.inj h ▸ rfl)
    have hread := @reread_fraction digits more hall hall' [] (fun _ h => nomatch h)
    rw [List.append_nil] at hread
    have hmore : more.all isAsciiDigit = true := List.all_eq_true.mpr hall'
    unfold ofPlain? at hy
    rw [hsplit.1, hsplit.2] at hy
    rw [hread, ← hy]
    simp [hne, hne', hmore, power?]

/-- **What is shown is scanned again.** A number without a sign that is zero, or at least `10 ^ -4` and
less than `10 ^ 21`, is shown by a text that is one numeral and spells this number, bit for bit. -/
theorem scan_shown (hsign : x.isNegative = false)
    (hrange : x.isZero = true ∨ 1 / 10 ^ 4 ≤ x.value ∧ x.value < 10 ^ 21) :
    scan x.display =
      ⟨[⟨.number, x.display, .number x, 0⟩, .eof x.display.toList.length], []⟩ := by
  have hbound : x.value < 10 ^ 21 := by
    obtain hzero | ⟨-, hlt⟩ := hrange
    · rw [value_eq_zero_of_isZero hzero]
      norm_num
    · exact hlt
  have hmagnitude := magnitude_lt_of_value hbound
  have hself := ofMagnitude_self hmagnitude.le
  rw [hsign] at hself
  have hx : x.Countable := ⟨x.magnitude, hmagnitude, hself.symm⟩
  have htext : x.display.toList = x.displayMagnitude := by rw [hx.display, String.toList_ofList]
  have hnumeral := isNumeral_displayMagnitude hx hrange
  have hspelled : ofNumeral? x.display.toList = some x := by
    rw [htext, hnumeral.ofNumeral?_eq, ofPlain?_eq_reread hnumeral, reread_displayMagnitude hx]
  have hlexeme : Lexeme x.display.toList .number (.number x) := .numeral (htext ▸ hnumeral) hspelled
  have hscan := scan_of_scans (hlexeme.scans 0)
  rwa [String.ofList_toList] at hscan

/-- The number nearest to a tenth is shown as `0.1`, and scanned from it. -/
theorem scan_shown_tenth :
    scan "0.1" = ⟨[⟨.number, "0.1", .number ⟨0x3FB999999999999A⟩, 0⟩, .eof 3], []⟩ := by
  have hdisplay : display ⟨0x3FB999999999999A⟩ = "0.1" := by decide +kernel
  have hnumerator : numerator ⟨0x3FB999999999999A⟩ = 7205759403792794 := by decide
  have hdenominator : denominator ⟨0x3FB999999999999A⟩ = 2 ^ 56 := by decide
  have hrange : 1 / 10 ^ 4 ≤ value ⟨0x3FB999999999999A⟩ ∧ value ⟨0x3FB999999999999A⟩ < 10 ^ 21 := by
    unfold value
    rw [hnumerator, hdenominator]
    norm_num
  have hscan := scan_shown (x := ⟨0x3FB999999999999A⟩) (by decide) (.inr hrange)
  rwa [hdisplay] at hscan

end

end Double

end Lox
