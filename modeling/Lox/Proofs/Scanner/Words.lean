/-
# How tokens are spelled

The scanner spells the words of the language as they are: a token of the
receiver is spelled `this`, one of the superclass `super`, and no name is
spelled like either. Only the last token ends the text.

Key definitions: `Lox.Token.word`, `Lox.isPlain`, `Lox.Token.Spelled`.
Key theorems: `Lox.spelled_scan`.
-/
import Lox.Scanner

namespace Lox

/-- What a token says, and not where it stands. -/
def Token.word (t : Token) : TokenKind × String × Literal := (t.kind, t.lexeme, t.literal)

/-- A name that is neither of the two words that stand for values. -/
def isPlain (name : String) : Prop := name ≠ "this" ∧ name ≠ "super"

/-- Names are plain, and the two words are spelled as they are. -/
structure Token.Spelled (t : Token) : Prop where
  name : t.kind = .identifier → isPlain t.lexeme
  receiver : t.kind = .kwThis → t.lexeme = "this"
  superclass : t.kind = .kwSuper → t.lexeme = "super"

theorem Token.Spelled.of_kind {t : Token} (hn : t.kind ≠ .identifier) (ht : t.kind ≠ .kwThis)
    (hs : t.kind ≠ .kwSuper) : t.Spelled :=
  ⟨fun h => absurd h hn, fun h => absurd h ht, fun h => absurd h hs⟩

theorem keywords_spelled : ∀ word ∈ keywords, (word.2 = .kwThis → word.1 = "this") ∧
    (word.2 = .kwSuper → word.1 = "super") ∧ word.2 ≠ .identifier ∧ word.2 ≠ .eof := by
  decide

theorem wordKind_spelled (text : String) (literal : Literal) (offset : Int) :
    Token.Spelled ⟨wordKind text, text, literal, offset⟩ ∧ wordKind text ≠ .eof := by
  unfold wordKind
  cases h : keywords.lookup text with
  | none =>
    refine ⟨⟨fun _ => ⟨?_, ?_⟩, by simp, by simp⟩, by simp⟩
    · rintro rfl
      exact absurd h (by decide)
    · rintro rfl
      exact absurd h (by decide)
  | some k =>
    obtain ⟨before, after, hk, -⟩ := List.lookup_eq_some_iff.mp h
    obtain ⟨ht, hs, hn, he⟩ := keywords_spelled (text, k) (by rw [hk]; simp)
    exact ⟨⟨fun h => absurd h hn, ht, hs⟩, he⟩

namespace Scanner

/-- All tokens so far are spelled well, and none of them ends the text. -/
def Spelled (s : Scanner) : Prop := ∀ t ∈ s.tokens, t.Spelled ∧ t.kind ≠ .eof

variable {s : Scanner}

theorem advance_tokens : ∀ n s, (advance n s).tokens = s.tokens
  | 0, _ => rfl
  | n + 1, s => by
    rw [advance]
    split
    · rfl
    · exact advance_tokens n _

theorem Spelled.advance (h : s.Spelled) (n : Nat) : (s.advance n).Spelled := by
  rwa [Spelled, advance_tokens]

theorem Spelled.emit (h : s.Spelled) {kind : TokenKind} {literal : Literal}
    (ht : Token.Spelled ⟨kind, String.ofList s.taken, literal, s.start⟩) (he : kind ≠ .eof) :
    (s.emit kind literal).Spelled := by
  intro t hm
  rcases Array.mem_push.mp hm with hm | rfl
  · exact h t hm
  · exact ⟨ht, he⟩

theorem Spelled.emit_of_kind (h : s.Spelled) {kind : TokenKind} (literal : Literal)
    (hk : kind ∉ [.identifier, .kwThis, .kwSuper, .eof]) : (s.emit kind literal).Spelled := by
  simp only [List.mem_cons, List.not_mem_nil, or_false, not_or] at hk
  exact h.emit (.of_kind hk.1 hk.2.1 hk.2.2.1) hk.2.2.2

theorem operators_spelled :
    ∀ op ∈ operators, op.2 ∉ [TokenKind.identifier, .kwThis, .kwSuper, .eof] := by
  decide

theorem Spelled.scanString (h : s.Spelled) : s.scanString.Spelled := by
  unfold Scanner.scanString
  simp only
  split
  · exact (h.advance 1).advance _
  · exact (((h.advance 1).advance _).advance 1).emit_of_kind _ (by decide)

theorem Spelled.scanNumber (h : s.Spelled) : s.scanNumber.Spelled := by
  unfold Scanner.scanNumber
  simp only
  split
  · exact (h.advance _).emit_of_kind _ (by decide)
  · exact h.advance _

theorem Spelled.scanWord (h : s.Spelled) : s.scanWord.Spelled :=
  (h.advance _).emit (wordKind_spelled ..).1 (wordKind_spelled _ .nil 0).2

theorem Spelled.scanOperator (h : s.Spelled) : s.scanOperator.Spelled := by
  unfold Scanner.scanOperator
  split
  · rename_i text kind hop
    exact (h.advance _).emit_of_kind _ (operators_spelled _ (List.mem_of_find?_eq_some hop))
  · exact h.advance 1

theorem Spelled.scanToken (h : s.Spelled) : s.scanToken.Spelled := by
  unfold Scanner.scanToken
  split
  · exact h.advance _
  · exact h.advance _
  · exact h.scanString
  · exact h.scanNumber
  · exact h.scanWord
  · exact h.scanOperator

theorem Spelled.scanAll : ∀ (fuel : Nat) {s : Scanner}, s.Spelled → (scanAll fuel s).Spelled
  | 0, _, h => h
  | fuel + 1, s, h => by
    rw [Scanner.scanAll]
    split
    · exact h
    · exact Spelled.scanAll fuel (Spelled.scanToken (s := s.mark) h)

end Scanner

/-- The tokens of a text: well spelled ones that do not end it, and the end token. -/
theorem spelled_scan (source : String) : ∃ ts e, (scan source).tokens = ts ++ [e] ∧
    e.kind = .eof ∧ ∀ t ∈ ts, t.Spelled ∧ t.kind ≠ .eof := by
  have h := Scanner.Spelled.scanAll (Scanner.ofText source).rest.length (s := .ofText source)
    fun t ht => by simp [Scanner.ofText] at ht
  exact ⟨_, _, Array.toList_push .., rfl, fun t ht => h t (by simpa using ht)⟩

end Lox
