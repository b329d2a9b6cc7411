/-
# The extent of a text

A scanner moves between the start and the end of its text, and what it finds
stands there: every token, the one at the end too, and every report, which is
one of reading tokens (`Lox.scan_extent`).

Key definitions: `Lox.Extent`, `Lox.Scanner.Within`.
Key theorems: `Lox.Scanner.Within.scanToken`, `Lox.scan_extent`.
-/
import Lox.Scanner

namespace Lox

/-- An offset in a text of so many characters, or just behind it. -/
def Extent (length : Nat) (offset : Int) : Prop := 0 ≤ offset ∧ offset ≤ length

theorem Extent.ofNat {length n : Nat} (h : n ≤ length) : Extent length n :=
  ⟨Int.natCast_nonneg n, Int.ofNat_le.mpr h⟩

theorem Extent.zero (length : Nat) : Extent length 0 := .ofNat (Nat.zero_le length)

namespace Scanner

/-- The scanner is in a text of so many characters, and what it found is too. -/
structure Within (length : Nat) (s : Scanner) : Prop where
  ends : s.pos + s.rest.length = length
  started : s.start ≤ s.pos
  tokens : ∀ t ∈ s.tokens, Extent length t.offset
  reports : ∀ d ∈ s.diagnostics, d.phase = .lexical ∧ Extent length d.offset

variable {length : Nat} {s : Scanner}

theorem Within.pos_le (h : s.Within length) : s.pos ≤ length := by
  have hends := h.ends
  omega

theorem Within.start_le (h : s.Within length) : s.start ≤ length :=
  Nat.le_trans h.started h.pos_le

theorem Within.advance : ∀ (n : Nat) {s : Scanner}, s.Within length → (s.advance n).Within length
  | 0, _, h => h
  | n + 1, s, h => by
    rw [Scanner.advance]
    split
    · exact h
    · rename_i c cs hrest
      refine Within.advance n ⟨?_, Nat.le_succ_of_le h.started, h.tokens, h.reports⟩
      have hends := h.ends
      rw [hrest, List.length_cons] at hends
      dsimp only
      omega

theorem Within.emit (h : s.Within length) (kind : TokenKind) (literal : Literal) :
    (s.emit kind literal).Within length := by
  refine ⟨h.ends, h.started, fun t hm => ?_, h.reports⟩
  rcases Array.mem_push.mp hm with hm | rfl
  · exact h.tokens t hm
  · exact .ofNat h.start_le

theorem Within.error (h : s.Within length) {offset : Nat} (hoffset : offset ≤ length)
    (message : String) : (s.error offset message).Within length := by
  refine ⟨h.ends, h.started, h.tokens, fun d hm => ?_⟩
  rcases Array.mem_push.mp hm with hm | rfl
  · exact h.reports d hm
  · exact ⟨rfl, .ofNat hoffset⟩

theorem Within.scanString (h : s.Within length) : s.scanString.Within length := by
  have hfilled := (h.advance 1).advance (spanLength (· ≠ '"') (s.advance 1).rest)
  unfold Scanner.scanString
  dsimp only
  split
  · exact hfilled.error hfilled.pos_le _
  · exact (hfilled.advance 1).emit _ _

theorem Within.scanNumber (h : s.Within length) : s.scanNumber.Within length := by
  have hpassed : s.takeNumeral.Within length := h.advance _
  unfold Scanner.scanNumber
  dsimp only
  split
  · exact hpassed.emit _ _
  · exact hpassed

theorem Within.scanOperator (h : s.Within length) : s.scanOperator.Within length := by
  unfold Scanner.scanOperator
  split
  · exact (h.advance _).emit _ _
  · exact (h.advance 1).error h.start_le _

theorem Within.scanToken (h : s.Within length) : s.scanToken.Within length := by
  unfold Scanner.scanToken
  split
  · exact h.advance _
  · exact h.advance _
  · exact h.scanString
  · exact h.scanNumber
  · exact (h.advance _).emit _ _
  · exact h.scanOperator

theorem Within.mark (h : s.Within length) : s.mark.Within length :=
  ⟨h.ends, Nat.le_refl _, h.tokens, h.reports⟩

theorem Within.scanAll : ∀ (fuel : Nat) {s : Scanner}, s.Within length →
    (scanAll fuel s).Within length
  | 0, _, h => h
  | fuel + 1, s, h => by
    rw [Scanner.scanAll]
    split
    · exact h
    · exact Within.scanAll fuel h.mark.scanToken

end Scanner

/-- The tokens of a text stand in it, and so do the reports of reading them. -/
theorem scan_extent (source : String) :
    (∀ t ∈ (scan source).tokens, Extent source.toList.length t.offset) ∧
      ∀ d ∈ (scan source).diagnostics, d.phase = .lexical ∧ Extent source.toList.length d.offset := by
  have hstart : (Scanner.ofText source).Within source.toList.length := by
    refine ⟨Nat.zero_add _, Nat.le_refl _, fun t ht => ?_, fun d hd => ?_⟩
    · simp [Scanner.ofText] at ht
    · simp [Scanner.ofText] at hd
  have h := hstart.scanAll (Scanner.ofText source).rest.length
  refine ⟨fun t ht => ?_, fun d hd => h.reports d (by simpa [scan, Scanner.tokenize] using hd)⟩
  have ht : t ∈ (Scanner.ofText source).tokenize.tokens := by simpa [scan] using ht
  rcases Array.mem_push.mp ht with ht | rfl
  · exact h.tokens t ht
  · exact .ofNat (Nat.le_of_eq h.ends)

end Lox
