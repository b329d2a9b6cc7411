/-
# Values that are shown alike

What a number is shown by reads back as an equal number: the sign and the names
of infinity and NaN are told from digits by the first character, and digits are
reread. So two numbers are shown alike exactly if they are equal. Values of the
other kinds are equal only to themselves, so equality is one relation on all
values that the texts follow.

Key definitions: `Lox.Double.ofDisplay`.
Key theorems: `Lox.Double.same_ofDisplay`, `Lox.Double.display_eq_iff`,
`Lox.Value.equals_agrees_with_display`.
-/
import Lox.Proofs.Double.Rereading
import Lox.Store

namespace Lox

open Text

namespace Double

/-! ### Texts without a sign -/

section

variable {x y : Double} {m : Nat}

theorem neg_ofMagnitude (h : m ≤ infiniteMagnitude) :
    (ofMagnitude false m).neg = ofMagnitude true m := by
  unfold neg
  rw [isNegative_ofMagnitude h, magnitude_ofMagnitude h]
  rfl

/-- The text of a finite number without its sign depends on the magnitude alone. -/
theorem displayMagnitude_congr (h : x.magnitude = y.magnitude) :
    x.displayMagnitude = y.displayMagnitude := by
  have hsignificand : x.significand = y.significand := by
    unfold significand
    rw [h]
  have hexponent : x.exponent = y.exponent := by
    unfold exponent
    rw [h]
  unfold displayMagnitude wholeMagnitude? numerator denominator
  rw [h, hsignificand, hexponent]

/-- The text of a finite number without its sign reads back as the number without it. -/
theorem reread_displayMagnitude_of_lt (h : x.magnitude < infiniteMagnitude) :
    Lox.reread x.displayMagnitude = ofMagnitude false x.magnitude := by
  have hmagnitude := (@magnitude_ofMagnitude _ false h.le).symm
  rw [displayMagnitude_congr hmagnitude]
  exact reread_displayMagnitude ⟨x.magnitude, h, rfl⟩

end

/-! ### Reading a text back -/

/-- The number that a shown text stands for: a sign, and a name or digits. -/
def ofDisplay (cs : List Char) : Double :=
  let (negative, body) := splitSign cs
  let x :=
    if body = "nan".toList then nan
    else if body = "inf".toList then infinity
    else reread body
  if negative then x.neg else x

section

variable {x y : Double}

/-- Digits are neither a sign nor a name. -/
theorem ofDisplay_digits {cs : List Char} (h : IsNumberText cs) :
    ofDisplay cs = reread cs ∧ ofDisplay ('-' :: cs) = (reread cs).neg := by
  obtain ⟨c, hc, hdigit⟩ := h.begins
  obtain ⟨rest, rfl⟩ : ∃ rest, cs = c :: rest := by
    cases cs with
    | nil => cases hc
    | cons d rest =>
      cases hc
      exact ⟨rest, rfl⟩
  have hne {d : Char} (hd : isAsciiDigit d = false) : c ≠ d := by
    rintro rfl
    rw [hdigit] at hd
    cases hd
  have hminus : c ≠ '-' := hne (by decide)
  have hplus : c ≠ '+' := hne (by decide)
  have hn : c ≠ 'n' := hne (by decide)
  have hi : c ≠ 'i' := hne (by decide)
  have hsplit : splitSign (c :: rest) = (false, c :: rest) := by
    unfold splitSign
    split <;> simp_all
  have hnan : c :: rest ≠ "nan".toList := fun h => hn (List.cons.inj h).1
  have hinf : c :: rest ≠ "inf".toList := fun h => hi (List.cons.inj h).1
  unfold ofDisplay
  constructor
  · rw [hsplit]
    simp only [if_neg hnan, if_neg hinf, Bool.false_eq_true, if_false]
  · show (if true then _ else _) = _
    simp only [if_neg hnan, if_neg hinf, if_true]

/-- What a number is shown by reads back as an equal number. -/
theorem same_ofDisplay (x : Double) : (ofDisplay x.display.toList).same x = true := by
  unfold display
  by_cases hnan : x.isNaN = true
  · have hread : ofDisplay "nan".toList = nan := by decide
    rw [if_pos hnan, hread]
    unfold same
    rw [hnan]
    simp [show nan.isNaN = true by decide]
  have hmagnitude : x.magnitude ≤ infiniteMagnitude :=
    Nat.not_lt.mp fun h => hnan (decide_eq_true h)
  have hself := ofMagnitude_self hmagnitude
  rw [if_neg hnan]
  by_cases hinfinite : x.isInfinite = true
  · have heq : x.magnitude = infiniteMagnitude := of_decide_eq_true hinfinite
    rw [if_pos hinfinite, ← hself, heq]
    cases x.isNegative <;> decide
  have hfinite : x.magnitude < infiniteMagnitude :=
    Nat.lt_of_le_of_ne hmagnitude fun h => hinfinite (decide_eq_true h)
  have hdigits := ofDisplay_digits x.isNumberText_displayMagnitude
  have hreread := reread_displayMagnitude_of_lt hfinite
  rw [if_neg hinfinite]
  by_cases hshown : (x.isNegative && !x.isZero) = true
  · have hsign : x.isNegative = true := (Bool.and_eq_true_iff.mp hshown).1
    rw [hsign] at hself
    rw [if_pos hshown, String.toList_ofList, hdigits.2, hreread, neg_ofMagnitude hmagnitude, hself]
    exact same_refl x
  · rw [if_neg hshown, String.toList_ofList, hdigits.1, hreread]
    by_cases hzero : x.isZero = true
    · have hx : x.magnitude = 0 := of_decide_eq_true hzero
      have hclear : (ofMagnitude false 0).isZero = true := by decide
      unfold same
      rw [hx, hclear, hzero]
      simp
    · have hsign : x.isNegative = false := by simpa [hzero] using hshown
      rw [hsign] at hself
      rw [hself]
      exact same_refl x

/-- Equal numbers are shown alike. -/
theorem display_congr (h : x.same y = true) : x.display = y.display := by
  simp only [same, Bool.or_eq_true, decide_eq_true_eq, Bool.and_eq_true] at h
  rcases h with (rfl | ⟨hx, hy⟩) | ⟨hx, hy⟩
  · rfl
  · have hmagnitude : x.magnitude = y.magnitude :=
      (of_decide_eq_true hx).trans (of_decide_eq_true hy).symm
    have hfinite {z : Double} (hz : z.isZero = true) : z.isInfinite = false := by
      unfold isInfinite
      rw [of_decide_eq_true hz]
      decide
    unfold display
    simp [not_isNaN_of_isZero hx, not_isNaN_of_isZero hy, hfinite hx, hfinite hy, hx, hy,
      displayMagnitude_congr hmagnitude]
  · unfold display
    rw [if_pos hx, if_pos hy]

/-- Numbers are shown alike exactly if they are equal. -/
theorem display_eq_iff : x.display = y.display ↔ x.same y = true := by
  refine ⟨fun h => ?_, display_congr⟩
  have hx := same_ofDisplay x
  rw [h] at hx
  exact same_trans (same_symm hx) (same_ofDisplay y)

end

end Double

/-! ### Values -/

namespace Value

theorem display_congr (s : Store) {v w : Value} (h : v.equals w = true) :
    s.display v = s.display w := by
  unfold equals at h
  split at h
  · exact Double.display_congr h
  · exact congrArg s.display (of_decide_eq_true h)

/-- Equality is an equivalence on all values, equal values are shown alike in every store, and
numbers are shown alike only if they are equal. -/
theorem equals_agrees_with_display :
    Equivalence (fun v w : Value => v.equals w = true) ∧
      (∀ (s : Store) (v w : Value), v.equals w = true → s.display v = s.display w) ∧
      ∀ (s : Store) (x y : Double),
        s.display (.number x) = s.display (.number y) ↔
          (Value.number x).equals (Value.number y) = true := by
  refine ⟨⟨equals_refl, equals_symm, equals_trans⟩, fun s v w => display_congr s, fun s x y => ?_⟩
  exact Double.display_eq_iff

end Value

end Lox
