/-
# Numbers read back from their texts

The decimal that a finite number is shown by reads back as this number: the
digits that are tried are kept only if they do, and the exact value does
(`Lox.Double.ofDecimal_shortest`). A text says which decimal it shows, in each
of its three forms: digits alone, digits with a point, and digits with a power
of ten (`Lox.reread_display`). So two numbers without a sign are shown alike
only if they are one (`Lox.Double.display_injective`).

Key definitions: `Lox.Double.gridFloor`, `Lox.Double.Countable`, `Lox.reread`, `Lox.IsNumberText`.
Key theorems: `Lox.Double.ofDecimal_shortest`, `Lox.reread_display`,
`Lox.Double.reread_displayMagnitude`, `Lox.Double.display_injective`.
-/
import Lox.Double.Display
import Lox.Double.Numeral
import Lox.Proofs.Double.Rounding

namespace Lox

open Text

namespace Double

/-! ### The shortest decimal -/

section

variable {x : Double}

/-- The neighbour of the number below it on a grid, counted in steps. -/
def gridFloor (x : Double) (power : Int) : Nat :=
  x.numerator * Nat.pow 10 (-power).toNat / (x.denominator * Nat.pow 10 power.toNat)

/-- A hit is one of the two neighbours, and reads back. -/
theorem neighbour_of_hit? {power : Int} {d : Decimal} (h : x.hit? power = some d) :
    ((d = ⟨x.gridFloor power, power⟩) ∨ d = ⟨x.gridFloor power + 1, power⟩) ∧
      ofDecimal d.digits d.power = x := by
  have tried {n : Nat} {e : Decimal}
      (he : (if ofDecimal n power = x then some (⟨n, power⟩ : Decimal) else none) = some e) :
      e = ⟨n, power⟩ ∧ ofDecimal e.digits e.power = x := by
    by_cases hn : ofDecimal n power = x
    · rw [if_pos hn] at he
      obtain rfl := Option.some.inj he
      exact ⟨rfl, hn⟩
    · rw [if_neg hn] at he
      cases he
  unfold hit? at h
  dsimp only at h
  split at h
  · rename_i l u hl hu
    obtain rfl := Option.some.inj h
    split
    · exact ⟨.inl (tried hl).1, (tried hl).2⟩
    · exact ⟨.inr (tried hu).1, (tried hu).2⟩
  · rename_i l hl _
    obtain rfl := Option.some.inj h
    exact ⟨.inl (tried hl).1, (tried hl).2⟩
  · exact ⟨.inr (tried h).1, (tried h).2⟩

/-- The first hit is one on some grid of as many digits or more. -/
theorem exists_hit?_of_firstHit? {p : Int} {d : Decimal} : ∀ {fuel n : Nat},
    x.firstHit? p fuel n = some d → ∃ m ≥ n, x.hit? (p - m + 1) = some d
  | 0, _, h => nomatch h
  | fuel + 1, n, h => by
    rw [firstHit?, Option.or_eq_some_iff] at h
    obtain h | ⟨-, h⟩ := h
    · exact ⟨n, Nat.le_refl n, h⟩
    · obtain ⟨m, hm, hhit⟩ := exists_hit?_of_firstHit? h
      exact ⟨m, Nat.le_of_succ_le hm, hhit⟩

/-- The number is finite and has no sign. -/
def Countable (x : Double) : Prop := ∃ m < infiniteMagnitude, x = ofMagnitude false m

theorem Countable.magnitude (h : x.Countable) : ofMagnitude false x.magnitude = x := by
  obtain ⟨m, hm, rfl⟩ := h
  rw [magnitude_ofMagnitude hm.le]

theorem Countable.ofRational (h : x.Countable) : ofRational x.numerator x.denominator = x := by
  obtain ⟨m, hm, rfl⟩ := h
  exact ofRational_self hm

/-- A plain numeral spells such a number, or infinity. -/
theorem Countable.of_plain {cs : List Char} (h : ofPlain? cs = some x) (hx : x ≠ infinity) :
    x.Countable := by
  have rounded (whole fraction : List Char) (heq : ofParts whole fraction 0 = x) :
      x.Countable := by
    obtain ⟨m, hm, hround⟩ := exists_ofRational
      (natOfDigits (whole ++ fraction) * Nat.pow 10 (0 - (fraction.length : Int)).toNat)
      (Nat.pow 10 (-(0 - (fraction.length : Int))).toNat)
    obtain hlt | rfl := Nat.lt_or_eq_of_le hm
    · exact ⟨m, hlt, heq.symm.trans hround⟩
    · exact absurd (heq.symm.trans hround) hx
  unfold ofPlain? at h
  dsimp only at h
  split at h
  · cases h
  · split at h
    · exact rounded _ _ (Option.some.inj h)
    · split at h
      · exact rounded _ _ (Option.some.inj h)
      · cases h
    · cases h

theorem denominator_pos (x : Double) : 0 < x.denominator := Nat.two_pow_pos _

/-- The exact value reads back. -/
theorem ofDecimal_exactDecimal (h : x.Countable) :
    ofDecimal x.exactDecimal.digits x.exactDecimal.power = x := by
  have hpow (n : Nat) : 0 < 10 ^ n := Nat.pow_pos (by decide)
  have hten (k : Nat) : 5 ^ k * 2 ^ k = 10 ^ k := (Nat.mul_pow 5 2 k).symm
  have hzero : (min x.exponent 0).toNat = 0 := by omega
  have hdown : (-(min x.exponent 0)).toNat = (-x.exponent).toNat := by omega
  refine Eq.trans ?_ h.ofRational
  unfold ofDecimal exactDecimal
  simp only [Nat.pow_eq, hzero, hdown]
  refine ofRational_congr (hpow _) x.denominator_pos ?_
  calc x.numerator * 5 ^ (-x.exponent).toNat * 10 ^ 0 * x.denominator
      = x.numerator * (5 ^ (-x.exponent).toNat * 2 ^ (-x.exponent).toNat) := by
        rw [denominator, Nat.pow_eq, Nat.pow_zero, Nat.mul_one, Nat.mul_assoc]
    _ = x.numerator * 10 ^ (-x.exponent).toNat := by rw [hten]

theorem ofDecimal_trimmed : ∀ (fuel : Nat) (d : Decimal),
    ofDecimal (d.trimmed fuel).digits (d.trimmed fuel).power = ofDecimal d.digits d.power
  | 0, _ => rfl
  | fuel + 1, ⟨n, e⟩ => by
    unfold Decimal.trimmed
    split
    · rename_i hzero
      have hmod : n % 10 = 0 := by
        simp only [Bool.and_eq_true, decide_eq_true_eq] at hzero
        exact hzero.2
      rw [ofDecimal_trimmed fuel]
      show ofDecimal (n / 10) (e + 1) = ofDecimal n e
      have hn : n = n / 10 * 10 ^ 1 := by omega
      conv_rhs => rw [hn, ofDecimal_mul_pow]
      rfl
    · rfl

/-- The shortest decimal reads back. -/
theorem ofDecimal_shortest (h : x.Countable) :
    ofDecimal x.shortest.digits x.shortest.power = x := by
  unfold shortest
  dsimp only
  rw [ofDecimal_trimmed]
  cases hfirst : x.firstHit? (decimalLog x.numerator x.denominator) 17 1 with
  | none => exact ofDecimal_exactDecimal h
  | some d =>
    obtain ⟨m, -, hhit⟩ := exists_hit?_of_firstHit? hfirst
    exact (neighbour_of_hit? hhit).2

end

end Double

/-! ### Digits -/

section

variable {cs ds : List Char}

theorem natOfDigits_append (cs ds : List Char) :
    natOfDigits (cs ++ ds) = 10 ^ ds.length * natOfDigits cs + natOfDigits ds := by
  show Nat.ofDigitChars 10 (cs ++ ds) 0 = _
  rw [Nat.ofDigitChars_append, Nat.ofDigitChars_eq_ofDigitChars_zero]
  rfl

theorem natOfDigits_zeros (n : Nat) : natOfDigits (List.replicate n '0') = 0 := by
  show Nat.ofDigitChars 10 (List.replicate n '0') 0 = 0
  rw [Nat.ofDigitChars_replicate_zero, Nat.mul_zero]

theorem natOfDigits_digitsOf (n : Nat) : natOfDigits (digitsOf n) = n :=
  Nat.ofDigitChars_ten_toDigits

theorem isAsciiDigit_of_mem_digitsOf {n : Nat} {c : Char} (h : c ∈ digitsOf n) :
    isAsciiDigit c = true := by
  have hdigit := Nat.isDigit_of_mem_toDigits (by decide) (by decide) h
  simpa [isAsciiDigit, Char.isDigit, Char.le_def] using hdigit

theorem digitsOf_ne_nil (n : Nat) : digitsOf n ≠ [] := Nat.toDigits_ne_nil

theorem takeWhile_digits (hcs : ∀ c ∈ cs, isAsciiDigit c = true)
    (hds : ∀ d ∈ ds.head?, isAsciiDigit d = false) :
    (cs ++ ds).takeWhile isAsciiDigit = cs ∧ (cs ++ ds).dropWhile isAsciiDigit = ds := by
  have hstop : ds.takeWhile isAsciiDigit = [] ∧ ds.dropWhile isAsciiDigit = ds := by
    cases ds with
    | nil => exact ⟨rfl, rfl⟩
    | cons d ds =>
      have hd : isAsciiDigit d = false := hds d rfl
      simp [hd]
  rw [List.takeWhile_append_of_pos hcs, List.dropWhile_append_of_pos hcs, hstop.1, hstop.2,
    List.append_nil]
  exact ⟨rfl, rfl⟩

end

/-! ### Texts of decimals -/

/-- The number that a text shows by digits, digits behind a point, and a power of ten. -/
def reread (cs : List Char) : Double :=
  let whole := cs.takeWhile isAsciiDigit
  let (fraction, rest) := Double.splitFraction (cs.dropWhile isAsciiDigit)
  Double.ofParts whole fraction ((Double.power? rest).getD 0)

section

variable {whole fraction : List Char} (hwhole : ∀ c ∈ whole, isAsciiDigit c = true)
include hwhole

theorem reread_whole : reread whole = Double.ofParts whole [] 0 := by
  have hsplit := @takeWhile_digits whole [] hwhole (fun _ h => nomatch h)
  rw [List.append_nil] at hsplit
  unfold reread
  rw [hsplit.1, hsplit.2]
  rfl

theorem reread_whole_power (e : Int) :
    reread (whole ++ 'e' :: powerText e) =
      Double.ofParts whole [] ((Double.power? ('e' :: powerText e)).getD 0) := by
  have hsplit := @takeWhile_digits whole ('e' :: powerText e) hwhole
    (fun _ h => Option.some.inj h ▸ rfl)
  unfold reread
  rw [hsplit.1, hsplit.2]
  rfl

variable (hfraction : ∀ c ∈ fraction, isAsciiDigit c = true)
include hfraction

theorem reread_fraction {rest : List Char} (hrest : ∀ d ∈ rest.head?, isAsciiDigit d = false) :
    reread (whole ++ '.' :: (fraction ++ rest)) =
      Double.ofParts whole fraction ((Double.power? rest).getD 0) := by
  have hsplit := @takeWhile_digits whole ('.' :: (fraction ++ rest)) hwhole
    (fun _ h => Option.some.inj h ▸ rfl)
  have hbehind := takeWhile_digits hfraction hrest
  unfold reread
  rw [hsplit.1, hsplit.2]
  simp only [Double.splitFraction, hbehind]

end

theorem power?_powerText (e : Int) : Double.power? ('e' :: powerText e) = some e := by
  obtain ⟨ds, hds, hvalue, hne, hsign⟩ : ∃ ds : List Char, (∀ c ∈ ds, isAsciiDigit c = true) ∧
      natOfDigits ds = e.natAbs ∧ ds ≠ [] ∧
      powerText e = (if e < 0 then '-' else '+') :: ds := by
    have hdigits {c : Char} (h : c ∈ digitsOf e.natAbs) : isAsciiDigit c = true :=
      isAsciiDigit_of_mem_digitsOf h
    unfold powerText
    dsimp only
    by_cases hshort : (digitsOf e.natAbs).length < 2
    · refine ⟨'0' :: digitsOf e.natAbs, List.forall_mem_cons.mpr ⟨rfl, fun c => hdigits⟩, ?_,
        List.cons_ne_nil _ _, by rw [if_pos hshort]⟩
      have happend := natOfDigits_append ['0'] (digitsOf e.natAbs)
      rw [natOfDigits_digitsOf] at happend
      exact happend.trans (by simp [natOfDigits])
    · exact ⟨_, fun c => hdigits, natOfDigits_digitsOf _, digitsOf_ne_nil _, by rw [if_neg hshort]⟩
  have hall : ds.all isAsciiDigit = true := List.all_eq_true.mpr hds
  have hempty : ds.isEmpty = false := List.isEmpty_eq_false_iff.mpr hne
  have hread (negative : Bool) (c : Char) (hc : splitSign (c :: ds) = (negative, ds)) :
      Double.power? ('e' :: c :: ds) =
        some (if negative then -(natOfDigits ds : Int) else natOfDigits ds) := by
    simp only [Double.power?, hc, hall, hempty]
    cases negative <;> rfl
  rw [hsign]
  by_cases he : e < 0
  · rw [if_pos he, hread true '-' rfl, if_pos rfl, hvalue]
    congr 1
    omega
  · rw [if_neg he, hread false '+' rfl, if_neg (by decide), hvalue]
    congr 1
    omega

/-- Digits around a point that spell a number with zeros behind it. -/
theorem reread_plain {whole fraction : List Char} {n j : Nat}
    (hwhole : ∀ c ∈ whole, isAsciiDigit c = true) (hfraction : ∀ c ∈ fraction, isAsciiDigit c = true)
    (hn : natOfDigits (whole ++ fraction) = n * 10 ^ j) :
    reread (whole ++ '.' :: fraction) = Double.ofDecimal n (j - fraction.length) := by
  have hread := @reread_fraction whole fraction hwhole hfraction [] (fun _ h => nomatch h)
  rw [List.append_nil] at hread
  rw [hread]
  unfold Double.ofParts
  rw [hn, Double.ofDecimal_mul_pow]
  congr 1
  show 0 - (fraction.length : Int) + j = j - fraction.length
  omega

section

variable {ds : List Char} (hdigits : ∀ c ∈ ds, isAsciiDigit c = true) (hne : ds ≠ [])
include hdigits

theorem reread_positional (point : Int) :
    reread (positional ds point) = Double.ofDecimal (natOfDigits ds) (point - ds.length) := by
  have hzeros {k : Nat} : ∀ c ∈ List.replicate k '0', isAsciiDigit c = true :=
    fun c h => List.eq_of_mem_replicate h ▸ rfl
  unfold positional
  split
  · rename_i hpoint
    have hfront (k : Nat) : natOfDigits (['0'] ++ (List.replicate k '0' ++ ds)) =
        natOfDigits ds * 10 ^ 0 := by
      have hzero : ['0'] ++ (List.replicate k '0' ++ ds) = List.replicate (k + 1) '0' ++ ds := rfl
      rw [hzero, natOfDigits_append, natOfDigits_zeros]
      omega
    refine (reread_plain (List.forall_mem_singleton.mpr rfl)
      (fun c h => (List.mem_append.mp h).elim (hzeros c) (hdigits c)) (hfront _)).trans ?_
    congr 1
    rw [List.length_append, List.length_replicate]
    omega
  · split
    · rename_i hpoint hlength
      have hbehind (k : Nat) : natOfDigits (ds ++ List.replicate k '0' ++ ['0']) =
          natOfDigits ds * 10 ^ (k + 1) := by
        rw [List.append_assoc, ← List.replicate_succ', natOfDigits_append, natOfDigits_zeros,
          List.length_replicate, Nat.add_zero, Nat.mul_comm]
      refine (reread_plain (fun c h => (List.mem_append.mp h).elim (hdigits c) (hzeros c))
        (List.forall_mem_singleton.mpr rfl) (hbehind _)).trans ?_
      congr 1
      rw [List.length_singleton]
      omega
    · have hsplit : natOfDigits (ds.take point.toNat ++ ds.drop point.toNat) =
          natOfDigits ds * 10 ^ 0 := by
        rw [List.take_append_drop, Nat.pow_zero, Nat.mul_one]
      refine (reread_plain (fun c h => hdigits c (List.mem_of_mem_take h))
        (fun c h => hdigits c (List.mem_of_mem_drop h)) hsplit).trans ?_
      congr 1
      rw [List.length_drop]
      omega

include hne

theorem reread_scientific (e : Int) :
    reread (scientific ds e) = Double.ofDecimal (natOfDigits ds) (e - ds.length + 1) := by
  have hstop : ∀ d ∈ ('e' :: powerText e).head?, isAsciiDigit d = false :=
    fun _ h => Option.some.inj h ▸ rfl
  rcases ds with _ | ⟨c, _ | ⟨d, rest⟩⟩
  · exact absurd rfl hne
  · have hread := reread_whole_power hdigits e
    rw [power?_powerText] at hread
    refine hread.trans ?_
    unfold Double.ofParts
    rw [List.append_nil]
    congr 1
    simp
  · obtain ⟨hc, hrest⟩ := List.forall_mem_cons.mp hdigits
    have hread := reread_fraction (List.forall_mem_singleton.mpr hc) hrest hstop
    rw [power?_powerText] at hread
    refine hread.trans ?_
    unfold Double.ofParts
    congr 1
    simp only [Option.getD_some, List.length_cons]
    omega

end

/-- The text of a decimal shows the decimal. -/
theorem reread_display (d : Decimal) : reread d.display = Double.ofDecimal d.digits d.power := by
  have hdigits : ∀ c ∈ digitsOf d.digits, isAsciiDigit c = true :=
    fun c => isAsciiDigit_of_mem_digitsOf
  unfold Decimal.display
  dsimp only
  split
  · rw [reread_positional hdigits, natOfDigits_digitsOf]
    congr 1
    omega
  · rw [reread_scientific hdigits (digitsOf_ne_nil _), natOfDigits_digitsOf]
    congr 1
    omega

/-! ### What the texts are made of -/

/-- The text begins with a digit, and has only digits, points, signs and the letter of a power. -/
structure IsNumberText (cs : List Char) : Prop where
  begins : ∃ c ∈ cs.head?, isAsciiDigit c = true
  chars : ∀ c ∈ cs, isAsciiDigit c = true ∨ c ∈ ['.', 'e', '+', '-']

theorem IsNumberText.of_digits {whole rest : List Char} (hne : whole ≠ [])
    (hwhole : ∀ c ∈ whole, isAsciiDigit c = true)
    (hrest : ∀ c ∈ rest, isAsciiDigit c = true ∨ c ∈ ['.', 'e', '+', '-']) :
    IsNumberText (whole ++ rest) := by
  obtain ⟨c, cs, rfl⟩ := List.exists_cons_of_ne_nil hne
  refine ⟨⟨c, rfl, hwhole c List.mem_cons_self⟩, ?_⟩
  exact List.forall_mem_append.mpr ⟨fun d hd => .inl (hwhole d hd), hrest⟩

theorem chars_powerText (e : Int) :
    ∀ c ∈ 'e' :: powerText e, isAsciiDigit c = true ∨ c ∈ ['.', 'e', '+', '-'] := by
  have hdigits : ∀ c ∈ digitsOf e.natAbs, isAsciiDigit c = true ∨ c ∈ ['.', 'e', '+', '-'] :=
    fun c hc => .inl (isAsciiDigit_of_mem_digitsOf hc)
  refine List.forall_mem_cons.mpr ⟨.inr (by simp), List.forall_mem_cons.mpr ⟨.inr ?_, ?_⟩⟩
  · split <;> simp
  · split
    · exact List.forall_mem_cons.mpr ⟨.inl rfl, hdigits⟩
    · exact hdigits

section

variable {ds : List Char} (hdigits : ∀ c ∈ ds, isAsciiDigit c = true) (hne : ds ≠ [])
include hdigits hne

theorem isNumberText_positional (point : Int) : IsNumberText (positional ds point) := by
  have digit {c : Char} (h : isAsciiDigit c = true) :
      isAsciiDigit c = true ∨ c ∈ ['.', 'e', '+', '-'] := .inl h
  have zero {k : Nat} {c : Char} (h : c ∈ List.replicate k '0') : isAsciiDigit c = true :=
    List.eq_of_mem_replicate h ▸ rfl
  unfold positional
  split
  · refine IsNumberText.of_digits (List.cons_ne_nil '0' []) (List.forall_mem_singleton.mpr rfl) ?_
    refine List.forall_mem_cons.mpr ⟨.inr (by simp), ?_⟩
    exact List.forall_mem_append.mpr ⟨fun c hc => digit (zero hc), fun c hc => digit (hdigits c hc)⟩
  · rename_i hpoint
    split
    · rw [List.append_assoc]
      refine IsNumberText.of_digits hne hdigits ?_
      refine List.forall_mem_append.mpr ⟨fun c hc => digit (zero hc), ?_⟩
      exact List.forall_mem_cons.mpr ⟨.inr (by simp), List.forall_mem_singleton.mpr (.inl rfl)⟩
    · have htake : ds.take point.toNat ≠ [] := by
        rw [Ne, List.take_eq_nil_iff]
        exact fun h => h.elim (fun h => hpoint (by omega)) hne
      refine IsNumberText.of_digits htake (fun c hc => hdigits c (List.mem_of_mem_take hc)) ?_
      refine List.forall_mem_cons.mpr ⟨.inr (by simp), fun c hc => ?_⟩
      exact digit (hdigits c (List.mem_of_mem_drop hc))

theorem isNumberText_scientific (e : Int) : IsNumberText (scientific ds e) := by
  rcases ds with _ | ⟨c, _ | ⟨d, rest⟩⟩
  · exact absurd rfl hne
  · exact .of_digits hne hdigits (chars_powerText e)
  · obtain ⟨hc, hrest⟩ := List.forall_mem_cons.mp hdigits
    refine IsNumberText.of_digits (List.cons_ne_nil c []) (List.forall_mem_singleton.mpr hc) ?_
    refine List.forall_mem_cons.mpr ⟨.inr (by simp), ?_⟩
    exact List.forall_mem_append.mpr ⟨fun d hd => .inl (hrest d hd), chars_powerText e⟩

end

theorem isNumberText_digitsOf (n : Nat) : IsNumberText (digitsOf n) := by
  have htext := IsNumberText.of_digits (digitsOf_ne_nil n)
    (fun c => isAsciiDigit_of_mem_digitsOf) (fun c (hc : c ∈ []) => nomatch hc)
  rwa [List.append_nil] at htext

theorem Decimal.isNumberText_display (d : Decimal) : IsNumberText d.display := by
  have hdigits : ∀ c ∈ digitsOf d.digits, isAsciiDigit c = true :=
    fun c => isAsciiDigit_of_mem_digitsOf
  unfold Decimal.display
  dsimp only
  split
  · exact isNumberText_positional hdigits (digitsOf_ne_nil _) _
  · exact isNumberText_scientific hdigits (digitsOf_ne_nil _) _

theorem Double.isNumberText_displayMagnitude (x : Double) : IsNumberText x.displayMagnitude := by
  unfold displayMagnitude
  dsimp only
  split
  · split
    · exact isNumberText_digitsOf _
    · exact Decimal.isNumberText_display _
  · exact Decimal.isNumberText_display _

/-! ### Texts of numbers -/

namespace Double

/-- A finite number without a sign is shown by a text that reads back. -/
theorem reread_displayMagnitude {x : Double} (h : x.Countable) : reread x.displayMagnitude = x := by
  have hshortest : reread (ofMagnitude false x.magnitude).shortest.display = x := by
    rw [h.magnitude, reread_display, ofDecimal_shortest h]
  unfold displayMagnitude
  dsimp only
  cases hwhole : x.wholeMagnitude? with
  | none => exact hshortest
  | some n =>
    dsimp only
    split
    · rw [reread_whole fun c => isAsciiDigit_of_mem_digitsOf]
      refine Eq.trans ?_ h.ofRational
      unfold ofParts ofDecimal
      rw [List.append_nil, natOfDigits_digitsOf]
      have hexact : x.numerator = n * x.denominator := by
        unfold wholeMagnitude? at hwhole
        split at hwhole
        · rename_i hmod
          cases hwhole
          exact (Nat.div_mul_cancel (Nat.dvd_of_mod_eq_zero hmod)).symm
        · cases hwhole
      refine ofRational_congr (by decide) x.denominator_pos ?_
      show n * 1 * x.denominator = x.numerator * 1
      rw [hexact, Nat.mul_one, Nat.mul_one]
    · exact hshortest

/-- A finite number without a sign is shown by this text. -/
theorem Countable.display {x : Double} (h : x.Countable) :
    x.display = String.ofList x.displayMagnitude := by
  obtain ⟨m, hm, rfl⟩ := h
  have hmagnitude : (ofMagnitude false m).magnitude = m := magnitude_ofMagnitude hm.le
  have hnegative : (ofMagnitude false m).isNegative = false := isNegative_ofMagnitude hm.le
  have hnan : (ofMagnitude false m).isNaN = false := by
    unfold isNaN
    rw [hmagnitude]
    exact decide_eq_false (Nat.not_lt.mpr hm.le)
  have hinfinite : (ofMagnitude false m).isInfinite = false := by
    unfold isInfinite
    rw [hmagnitude]
    exact decide_eq_false hm.ne
  unfold Double.display
  rw [hnan, hinfinite, hnegative]
  rfl

/-- Its text reads back. -/
theorem Countable.reread {x : Double} (h : x.Countable) : Lox.reread x.display.toList = x := by
  rw [h.display, String.toList_ofList, reread_displayMagnitude h]

/-- Different finite numbers without a sign are shown differently. -/
theorem display_injective {x y : Double} (hx : x.Countable) (hy : y.Countable)
    (h : x.display = y.display) : x = y := by
  rw [← hx.reread, h, hy.reread]

end Double

end Lox
