/-
# Words of written forms

The marks of a tree from a text are words that are tokens of their kinds. Such
a word says which mark it is, but for its place (`Lox.Mark.Written.markOf`).
Names, constants and the receiver are expressions of one word, and no two of
them are spelled alike, if there are no strings among them and no infinite
number (`Lox.Leaf`).

Key definitions: `Lox.Mark.Written`, `Lox.Vocabulary.written`, `Lox.Showable`, `Lox.Leaf`.
Key theorems: `Lox.Mark.Written.markOf`, `Lox.Vocabulary.Le.written`, `Lox.leaf_variable`,
`Lox.leaf_literal`.
-/
import Lox.Proofs.Rendering.Pieces
import Lox.Proofs.Rendering.Reading
import Lox.Proofs.Scanner.WritingOut
import Lox.Proofs.Spelling.Layout
import Lox.Proofs.Wellformed.Vocabulary

namespace Lox

open Scanner Text

/-- The mark has a place, and is a word that is a token of its kind, unless it ends the text. -/
structure Mark.Written (m : Mark) : Prop where
  placed : m.offset.isSome
  lexeme : m.kind ≠ .eof → ∃ literal, Lexeme m.text.toList m.kind literal

/-- The marks of texts; constants but for strings and infinity. No name is bound yet. -/
def Vocabulary.written : Vocabulary where
  word kind m := m.kind = kind ∧ m.Written
  operator kinds m := m.kind ∈ kinds ∧ m.Written
  literal x := x = .nil ∨ (∃ b, x = .bool b) ∨ ∃ d : Double, d.Countable ∧ x = .number d
  hops h := h = none

/-- No string stands in the text, and no number that is infinite. -/
structure Showable (source : String) : Prop where
  unquoted : ∀ t ∈ (scan source).tokens, t.kind ≠ .string
  finite : ∀ t ∈ (scan source).tokens, t.literal ≠ .number .infinity

/-! ### Marks -/

/-- The word says which mark it is. -/
theorem Mark.Written.markOf {m : Mark} (h : m.Written) (hkind : m.kind ≠ .eof) :
    markOf m.text = m.respell .unplaced := by
  obtain ⟨kind, text, offset⟩ := m
  obtain ⟨n, rfl⟩ := Option.isSome_iff_exists.mp h.placed
  obtain ⟨literal, hlexeme⟩ := h.lexeme hkind
  have hkind : kindOf text = kind := by
    unfold kindOf
    rw [chunk?_lexeme hlexeme]
  unfold Lox.markOf
  rw [hkind]
  rfl

section

variable {text : List Char} {kind : TokenKind} {literal : Literal}

/-- What is no name, number or string is spelled in one way. -/
theorem Lexeme.fixed (h : Lexeme text kind literal)
    (hkind : kind ∉ [TokenKind.identifier, .number, .string]) :
    (text, kind) ∈ operators ∨ (String.ofList text, kind) ∈ keywords := by
  cases h with
  | operator hop => exact .inl hop
  | keyword _ hword => exact .inr hword
  | numeral | name | string => exact absurd (by simp) hkind

theorem Lexeme.isWord (h : Lexeme text .identifier literal) :
    IsWord text ∧ String.ofList text ∉ keywords.map Prod.fst := by
  have operators_kinds : ∀ op ∈ operators, op.2 ≠ .identifier := by decide
  have keywords_kinds : ∀ word ∈ keywords, word.2 ≠ .identifier := by decide
  cases h with
  | operator hop => exact absurd rfl (operators_kinds _ hop)
  | keyword _ hword => exact absurd rfl (keywords_kinds _ hword)
  | name hword hno => exact ⟨hword, hno⟩

theorem Lexeme.exists_number (h : Lexeme text .number literal) :
    ∃ x, Double.ofPlain? text = some x ∧ literal = .number x := by
  have operators_kinds : ∀ op ∈ operators, op.2 ≠ .number := by decide
  have keywords_kinds : ∀ word ∈ keywords, word.2 ≠ .number := by decide
  cases h with
  | operator hop => exact absurd rfl (operators_kinds _ hop)
  | keyword _ hword => exact absurd rfl (keywords_kinds _ hword)
  | @numeral _ x hnumeral hx => exact ⟨x, hnumeral.ofNumeral?_eq ▸ hx, rfl⟩

end

/-- The spellings of operators. -/
def operatorWords : List String :=
  ["!", "-", "!=", "==", ">", ">=", "<", "<=", "+", "/", "*", "or", "and"]

theorem operatorWords_pieces : ∀ w ∈ operatorWords, pieces w = [w] := by
  decide

theorem mem_operatorWords {kinds : List TokenKind} {op : Mark}
    (h : Vocabulary.written.operator kinds op)
    (hkinds : kinds ⊆ unaryKinds ++ binaryKinds ++ logicalKinds) :
    op.text ∈ operatorWords ∧ markOf op.text = op.respell .unplaced := by
  obtain ⟨hkind, hwritten⟩ := h
  have hmem := hkinds hkind
  have hfixed : ∀ kind ∈ unaryKinds ++ binaryKinds ++ logicalKinds,
      kind ∉ [TokenKind.identifier, .number, .string] ∧ kind ≠ .eof := by decide
  have among_operators : ∀ o ∈ operators, o.2 ∈ unaryKinds ++ binaryKinds ++ logicalKinds →
      String.ofList o.1 ∈ operatorWords := by decide
  have among_keywords : ∀ word ∈ keywords, word.2 ∈ unaryKinds ++ binaryKinds ++ logicalKinds →
      word.1 ∈ operatorWords := by decide
  obtain ⟨hno, heof⟩ := hfixed _ hmem
  obtain ⟨literal, hlexeme⟩ := hwritten.lexeme heof
  refine ⟨?_, hwritten.markOf heof⟩
  rw [← String.ofList_toList (s := op.text)]
  obtain hop | hword := hlexeme.fixed hno
  · exact among_operators _ hop hmem
  · exact among_keywords _ hword hmem

/-- The words that stand in one place each of a tree, with their spellings. -/
def fixedWords : List (TokenKind × String) :=
  [(.rightParen, ")"), (.kwReturn, "return"), (.kwThis, "this"), (.kwSuper, "super")]

/-- Such a word is spelled so. -/
theorem markOf_fixedWord {m : Mark} {w : String} (h : Vocabulary.written.word kind m)
    (hw : (kind, w) ∈ fixedWords) : markOf w = m.respell .unplaced := by
  obtain ⟨rfl, hwritten⟩ := h
  have hfixed : ∀ word ∈ fixedWords,
      word.1 ∉ [TokenKind.identifier, .number, .string] ∧ word.1 ≠ .eof := by decide
  have among_operators : ∀ word ∈ fixedWords, ∀ o ∈ operators, o.2 = word.1 →
      String.ofList o.1 = word.2 := by decide
  have among_keywords : ∀ word ∈ fixedWords, ∀ k ∈ keywords, k.2 = word.1 → k.1 = word.2 := by
    decide
  obtain ⟨hno, heof⟩ := hfixed _ hw
  obtain ⟨literal, hlexeme⟩ := hwritten.lexeme heof
  have htext : m.text = w := by
    rw [← String.ofList_toList (s := m.text)]
    obtain hop | hword := hlexeme.fixed hno
    · exact among_operators _ hw _ hop rfl
    · exact among_keywords _ hw _ hword rfl
  rw [← htext, hwritten.markOf heof]

/-! ### Names -/

/-- A sort of characters that has no mark and no space among it. -/
theorem isSolid_of {p : Char → Bool} {c : Char} (h : p c = true)
    (hp : [' ', '(', ')', ';'].all (!p ·) = true) : isSolid c = true := by
  have hno : ∀ d ∈ [' ', '(', ')', ';'], c ≠ d := by
    rintro d hd rfl
    have hnot := List.all_eq_true.mp hp c hd
    rw [h] at hnot
    cases hnot
  simp [isSolid, hno ' ' (by simp), hno '(' (by simp), hno ')' (by simp), hno ';' (by simp)]

/-- A name begins with a letter or an underscore, is one piece, and no word of the language. -/
structure IsNameWord (w : String) : Prop extends IsPiece w where
  begins : ∃ c ∈ w.toList.head?, startsWord c = true
  free : w ∉ keywords.map Prod.fst

theorem Vocabulary.isNameWord {m : Mark} (h : written.word .identifier m) : IsNameWord m.text := by
  obtain ⟨hkind, hwritten⟩ := h
  obtain ⟨literal, hlexeme⟩ := hwritten.lexeme (by rw [hkind]; decide)
  rw [hkind] at hlexeme
  obtain ⟨hword, hno⟩ := hlexeme.isWord
  rw [String.ofList_toList] at hno
  generalize m.text = w at hword hno
  cases hw : w.toList with
  | nil =>
    rw [hw] at hword
    exact hword.elim
  | cons c cs =>
    rw [hw] at hword
    refine ⟨⟨by rw [hw]; exact List.cons_ne_nil c cs, ?_⟩, ⟨c, by rw [hw]; rfl, hword.1⟩, hno⟩
    rw [hw]
    have solid {d : Char} (hd : continuesWord d = true) : isSolid d = true :=
      isSolid_of hd (by decide)
    exact List.forall_mem_cons.mpr ⟨solid (continuesWord_of_startsWord hword.1),
      fun d hd => solid (hword.2 d hd)⟩

theorem Vocabulary.markOf_name {m : Mark} (h : written.word .identifier m) :
    markOf m.text = m.respell .unplaced :=
  h.2.markOf (by rw [h.1]; decide)

/-! ### Expressions of one word -/

/-- The word is one piece that is the expression, and tells no other form. -/
structure Leaf (w : String) (e : Expr) : Prop extends IsPiece w where
  plain : w ∉ ["\x7b", "\x7d", "print", "var"]
  reads : readLeaf w = e

theorem Leaf.not_closing {w : String} {e : Expr} (h : Leaf w e) : w ∉ [")", "\x7d"] := by
  intro hmem
  rcases List.mem_pair.mp hmem with rfl | rfl
  · exact absurd (h.solid ')' (by decide)) (by decide)
  · exact h.plain (by decide)

theorem IsNameWord.ne {w v : String} (h : IsNameWord w) (hv : v ∈ keywords.map Prod.fst) : w ≠ v :=
  fun heq => h.free (heq ▸ hv)

theorem IsNameWord.ne_of_head {w v : String} (h : IsNameWord w)
    (hv : v.toList.head?.all (!startsWord ·) = true) : w ≠ v := by
  rintro rfl
  obtain ⟨c, hc, hstarts⟩ := h.begins
  rw [Option.mem_def.mp hc, Option.all_some, hstarts] at hv
  cases hv

theorem leaf_variable {use : NameUse} (h : Vocabulary.written.Use .identifier use) :
    Leaf use.name.text (.variable (use.respell .unplaced)) := by
  have hname := Vocabulary.isNameWord h.name
  refine ⟨hname.toIsPiece, ?_, ?_⟩
  · simp only [List.mem_cons, List.not_mem_nil, or_false, not_or]
    exact ⟨hname.ne_of_head (by decide), hname.ne_of_head (by decide), hname.ne (by decide),
      hname.ne (by decide)⟩
  · have hdigit : use.name.text.toList.head?.any isAsciiDigit = false := by
      obtain ⟨c, hc, hstarts⟩ := hname.begins
      rw [Option.mem_def.mp hc, Option.any_some]
      exact not_isAsciiDigit_of_startsWord hstarts
    unfold readLeaf
    rw [if_neg (hname.ne (by decide)), if_neg (hname.ne (by decide)), if_neg (hname.ne (by decide)),
      if_neg (hname.ne (by decide)), hdigit, if_neg (by decide),
      Vocabulary.markOf_name h.name]
    obtain ⟨name, hops⟩ := use
    obtain rfl : hops = none := h.hops
    rfl

theorem leaf_receiver {use : NameUse} (h : Vocabulary.written.Use .kwThis use) :
    Leaf "this" (.receiver (use.respell .unplaced)) := by
  refine ⟨.of_all (by decide) (by decide), by decide, ?_⟩
  have hmark : markOf "this" = use.name.respell .unplaced := markOf_fixedWord h.name (by decide)
  unfold readLeaf
  rw [if_neg (by decide), if_neg (by decide), if_neg (by decide), if_pos rfl, hmark]
  obtain ⟨name, hops⟩ := use
  obtain rfl : hops = none := h.hops
  rfl

/-- A number is told by its first digit, and by its text which one it is. -/
theorem leaf_number {x : Double} (h : x.Countable) : Leaf x.display (.literal (.number x)) := by
  have htext : IsNumberText x.display.toList := by
    rw [h.display, String.toList_ofList]
    exact x.isNumberText_displayMagnitude
  have hdigit : x.display.toList.head?.any isAsciiDigit = true := by
    obtain ⟨c, hc, hdigit⟩ := htext.begins
    rw [Option.mem_def.mp hc, Option.any_some, hdigit]
  have hne {w : String} (hw : w.toList.head?.any isAsciiDigit = false) : x.display ≠ w := by
    intro heq
    rw [heq, hw] at hdigit
    cases hdigit
  refine ⟨⟨?_, fun c hc => ?_⟩, ?_, ?_⟩
  · intro hnil
    rw [hnil] at hdigit
    cases hdigit
  · obtain hc | hc := htext.chars c hc
    · exact isSolid_of hc (by decide)
    · have letters : ['.', 'e', '+', '-'].all isSolid = true := by decide
      exact List.all_eq_true.mp letters c hc
  · simp only [List.mem_cons, List.not_mem_nil, or_false, not_or]
    exact ⟨hne (by decide), hne (by decide), hne (by decide), hne (by decide)⟩
  · unfold readLeaf
    rw [if_neg (hne (by decide)), if_neg (hne (by decide)), if_neg (hne (by decide)),
      if_neg (hne (by decide)), if_pos hdigit, h.reread]

theorem leaf_literal {x : Literal} (h : Vocabulary.written.literal x) :
    Leaf x.display (.literal x) := by
  obtain rfl | ⟨b, rfl⟩ | ⟨d, hd, rfl⟩ := h
  · exact ⟨.of_all (by decide) (by decide), by decide, rfl⟩
  · cases b <;> exact ⟨.of_all (by decide) (by decide), by decide, rfl⟩
  · exact leaf_number hd

/-! ### The words of a text -/

theorem closed_scan (source : String) : closed (scan source).tokens = (scan source).tokens := by
  obtain ⟨ts, e, htokens, he, -⟩ := spelled_scan source
  rw [htokens]
  simp [closed, he]

/-- The tokens of a text are words, and its constants are shown. -/
theorem Vocabulary.Le.written {source : String} (h : Showable source) :
    (ofTokens (· ∈ closed (scan source).tokens)).Le .written := by
  rw [closed_scan]
  have hlexeme {t : Token} (ht : t ∈ (scan source).tokens) (hkind : t.kind ≠ .eof) :
      Lexeme t.lexeme.toList t.kind t.literal :=
    lexeme_of_standing source t (List.mem_filter.mpr ⟨ht, by simpa using hkind⟩)
  have hwritten {t : Token} (ht : t ∈ (scan source).tokens) : t.mark.Written :=
    ⟨rfl, fun hkind => ⟨t.literal, hlexeme ht hkind⟩⟩
  constructor
  · rintro kind m ⟨t, ht, hkind, rfl⟩
    exact ⟨hkind, hwritten ht⟩
  · rintro kinds m ⟨t, ht, hkind, rfl⟩
    exact ⟨hkind, hwritten ht⟩
  · rintro x (rfl | ⟨b, rfl⟩ | ⟨t, ht, hkind | hkind, rfl⟩)
    · exact .inl rfl
    · exact .inr (.inl ⟨b, rfl⟩)
    · have hnumber := hlexeme ht (by rw [hkind]; decide)
      have hfinite := h.finite t ht
      rw [hkind] at hnumber
      obtain ⟨x, hx, heq⟩ := hnumber.exists_number
      rw [heq] at hfinite ⊢
      exact .inr (.inr ⟨x, .of_plain hx fun h => hfinite (h ▸ rfl), rfl⟩)
    · exact absurd hkind (h.unquoted t ht)
  · exact fun hhops => hhops

end Lox
