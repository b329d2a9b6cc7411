/-
# Writing tokens out

A text that has one of the forms of a token is read as that token in front of
a space: no operator, numeral or word goes on behind a space, and a string ends
with its quote (`Lox.Lexeme.chunk?_space`). So the tokens of a text, written out with single spaces between them,
are scanned again as they are, and what the text has besides, comments and
characters that are reported, plays no part in it (`Lox.scan_writtenOut`).

Key definitions: `Lox.standing`, `Lox.writtenOut`.
Key theorems: `Lox.Lexeme.chunk?_space`, `Lox.Lexeme.scans`, `Lox.scan_writtenOut`.
-/
import Lox.Proofs.Scanner.Segments
import Lox.Proofs.Scanner.Lookahead
import Lox.Proofs.Scanner.Words

namespace Lox

open Scanner Text

/-- The tokens that stand in the text: all but the one that ends it. -/
def standing (ts : List Token) : List Token := ts.filter (·.kind ≠ .eof)

/-- The texts of tokens, with single spaces between them. -/
def writtenOut (ts : List Token) : String := " ".intercalate (ts.map Token.lexeme)

/-- A text of one of the forms is read as what it is in front of a space. -/
theorem Lexeme.chunk?_space {text : List Char} {kind : TokenKind} {literal : Literal}
    (h : Lexeme text kind literal) (rest : List Char) :
    chunk? (text ++ ' ' :: rest) = some ⟨text.length, some (kind, literal)⟩ :=
  h.chunk?_append (h.longest_space rest) (h.not_comment fun _ => by simp)

theorem writtenOut_cons_cons (t u : Token) (ts : List Token) :
    (writtenOut (t :: u :: ts)).toList = t.lexeme.toList ++ ' ' :: (writtenOut (u :: ts)).toList := by
  unfold writtenOut
  rw [List.map_cons, List.map_cons, String.intercalate_cons_cons, String.toList_append,
    String.toList_append, List.append_assoc]
  rfl

theorem writtenOut_singleton (t : Token) : writtenOut [t] = t.lexeme :=
  String.intercalate_singleton

/-- A text of one of the forms is scanned as one token. -/
theorem Lexeme.scans {text : List Char} {kind : TokenKind} {literal : Literal}
    (h : Lexeme text kind literal) (pos : Nat) :
    Scans pos text [⟨kind, String.ofList text, literal, pos⟩] := by
  have hscan := @Scans.chunk pos _ _ _ h.ne_nil (chunk?_lexeme h)
    (by rw [List.drop_length]; exact .done)
  simpa [Chunk.tokens] using hscan

/-- Tokens that have their forms are found again where they are written out, elsewhere perhaps. -/
theorem scans_writtenOut : ∀ {ts : List Token}, (∀ t ∈ ts, Lexeme t.lexeme.toList t.kind t.literal) →
    ∀ pos, ∃ us, Scans pos (writtenOut ts).toList us ∧ us.map Token.word = ts.map Token.word
  | [], _, _ => ⟨[], .done, rfl⟩
  | [t], h, pos => by
    refine ⟨_, by rw [writtenOut_singleton]; exact (h t List.mem_cons_self).scans pos, ?_⟩
    simp [Token.word]
  | t :: u :: ts, h, pos => by
    obtain ⟨hlexeme, hmore⟩ := List.forall_mem_cons.mp h
    obtain ⟨us, hus, hwords⟩ := scans_writtenOut hmore (pos + t.lexeme.toList.length + 1)
    have hbehind : Scans (pos + t.lexeme.toList.length) (' ' :: (writtenOut (u :: ts)).toList) us :=
      @Scans.ahead_space _ [' '] _ _ (List.forall_mem_singleton.mpr rfl) hus
    have hne : t.lexeme.toList ++ ' ' :: (writtenOut (u :: ts)).toList ≠ [] := by simp
    have hscan := @Scans.chunk pos _ _ _ hne (hlexeme.chunk?_space _)
      (by rw [List.drop_left]; exact hbehind)
    refine ⟨_, by rw [writtenOut_cons_cons]; exact hscan, ?_⟩
    rw [List.map_append, hwords]
    simp [Chunk.tokens, Token.word]

/-- The tokens that stand in a text have their forms. -/
theorem lexeme_of_standing (source : String) :
    ∀ t ∈ standing (scan source).tokens, Lexeme t.lexeme.toList t.kind t.literal := by
  obtain ⟨ts, htokens, hsegments⟩ := scan_segmentation source
  intro t ht
  obtain ⟨hmem, hkind⟩ := List.mem_filter.mp ht
  rw [htokens, List.mem_append, List.mem_singleton] at hmem
  rcases hmem with hmem | rfl
  · obtain ⟨_, _, _, -, -, -, htext, hlexeme, -⟩ := hsegments.sliced t hmem
    rwa [htext, String.toList_ofList]
  · simp [Token.eof] at hkind

/-- **Scanning undoes writing out.** The tokens of a text, written out with single spaces between them,
are scanned without a report: the same tokens again, in the same order, and the end behind them. -/
theorem scan_writtenOut (source : String) :
    ∃ us, scan (writtenOut (standing (scan source).tokens)) =
        ⟨us ++ [.eof (writtenOut (standing (scan source).tokens)).toList.length], []⟩ ∧
      us.map Token.word = (standing (scan source).tokens).map Token.word := by
  obtain ⟨us, hscans, hwords⟩ := scans_writtenOut (lexeme_of_standing source) 0
  exact ⟨us, scan_of_scans hscans, hwords⟩

end Lox
