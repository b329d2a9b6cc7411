/-
# Forms of tokens

Which texts are tokens, whatever stands around them: the operators, numerals
with digits on both sides of their point, words, and strings that are closed.
What a text begins with, if it is no comment, is the longest of its beginnings
that has one of the forms (`Lox.Longest`); if none has, it begins with white
space or is reported.

Key definitions: `Lox.IsNumeral`, `Lox.Lexeme`, `Lox.Longest`.
Key theorems: `Lox.lexeme_of_chunk`, `Lox.chunk_of_lexeme`, `Lox.longest_of_chunk`.
-/
import Lox.Proofs.Scanner.Seam

namespace Lox

open Scanner Text

/-- Digits, and a point with digits behind it, or no point. -/
inductive IsNumeral : List Char → Prop
  | whole {digits : List Char} : digits ≠ [] → (∀ c ∈ digits, isAsciiDigit c = true) →
      IsNumeral digits
  | fraction {digits more : List Char} : digits ≠ [] → (∀ c ∈ digits, isAsciiDigit c = true) →
      more ≠ [] → (∀ c ∈ more, isAsciiDigit c = true) → IsNumeral (digits ++ '.' :: more)

/-- A letter or underscore, and what goes on with a word. -/
def IsWord : List Char → Prop
  | [] => False
  | c :: cs => startsWord c = true ∧ ∀ d ∈ cs, continuesWord d = true

/-- The text is a token of the kind, with the value that it spells. -/
inductive Lexeme : List Char → TokenKind → Literal → Prop
  | operator {text : List Char} {kind : TokenKind} : (text, kind) ∈ operators → Lexeme text kind .nil
  | numeral {text : List Char} {x : Double} : IsNumeral text → Double.ofNumeral? text = some x →
      Lexeme text .number (.number x)
  | keyword {text : List Char} {kind : TokenKind} : IsWord text →
      (String.ofList text, kind) ∈ keywords → Lexeme text kind .nil
  | name {text : List Char} : IsWord text → String.ofList text ∉ keywords.map Prod.fst →
      Lexeme text .identifier .nil
  | string {inner : List Char} : '"' ∉ inner →
      Lexeme ('"' :: inner ++ ['"']) .string (.string (String.ofList inner))

/-- No longer beginning of the text and the rest is a token. -/
def Longest (text rest : List Char) : Prop :=
  ∀ more tail, rest = more ++ tail → more ≠ [] → ∀ kind literal, ¬ Lexeme (text ++ more) kind literal

/-! ### First characters -/

section

variable {c : Char} {cs text rest : List Char} {kind : TokenKind} {literal : Literal}

theorem nextItem_digit (h : isAsciiDigit c = true) : nextItem (c :: cs) = .number := by
  have hne : ∀ d, isAsciiDigit d = false → c ≠ d := by
    rintro _ hd rfl
    exact absurd h (by simp [hd])
  have hspace : isSpace c = false := by
    simp [isSpace, hne ' ' rfl, hne '\t' rfl, hne '\r' rfl, hne '\n' rfl]
  rw [nextItem_cons, if_neg fun h => hne '/' rfl h.1, if_neg (by simp [hspace]),
    if_neg (hne '"' rfl), if_pos h]

/-- A letter is no digit. -/
theorem not_isAsciiDigit_of_startsWord (h : startsWord c = true) : isAsciiDigit c = false := by
  cases hd : isAsciiDigit c with
  | false => rfl
  | true =>
    have hval : '0' ≤ c ∧ c ≤ '9' := by simpa [isAsciiDigit] using hd
    have hval : 48 ≤ c.toNat ∧ c.toNat ≤ 57 := hval
    simp only [startsWord, isLetter, Bool.or_eq_true, decide_eq_true_eq] at h
    rw [if_pos (by omega)] at h
    simp only [isAsciiLetter, Bool.or_eq_true, Bool.and_eq_true, decide_eq_true_eq] at h
    obtain (h | h) | rfl := h
    · have hlow : 97 ≤ c.toNat := h.1
      omega
    · have hlow : 65 ≤ c.toNat := h.1
      omega
    · exact absurd hval.2 (by decide)

/-- A letter is neither white space nor a quote. -/
theorem nextItem_of_startsWord (h : startsWord c = true) : nextItem (c :: cs) = .word := by
  have hne : ∀ d, startsWord d = false → c ≠ d := by
    rintro _ hd rfl
    exact absurd h (by simp [hd])
  have hspace : isSpace c = false := by
    simp [isSpace, hne ' ' (by decide), hne '\t' (by decide), hne '\r' (by decide),
      hne '\n' (by decide)]
  rw [nextItem_cons, if_neg fun h => hne '/' (by decide) h.1, if_neg (by simp [hspace]),
    if_neg (hne '"' (by decide)), if_neg (by simp [not_isAsciiDigit_of_startsWord h]), if_pos h]

/-- The character begins nothing but operators and comments. -/
def beginsOperator (c : Char) : Bool :=
  !isSpace c && c ≠ '"' && !isAsciiDigit c && !startsWord c

theorem operators_begin : ∀ op ∈ operators, ∃ c cs, op.1 = c :: cs ∧ beginsOperator c = true := by
  -- the table is searched, and not all characters
  have hall : (operators.all fun op => op.1.head?.any beginsOperator) = true := by decide
  intro op hop
  have h := List.all_eq_true.mp hall op hop
  cases htext : op.1 with
  | nil => simp [htext] at h
  | cons c cs => exact ⟨c, cs, rfl, by simpa [htext] using h⟩

theorem nextItem_of_beginsOperator (h : beginsOperator c = true)
    (hc : nextItem (c :: cs) ≠ .comment) : nextItem (c :: cs) = .operator := by
  simp only [beginsOperator, Bool.and_eq_true, Bool.not_eq_true', decide_eq_true_eq] at h
  obtain ⟨⟨⟨hspace, hquote⟩, hdigit⟩, hword⟩ := h
  rw [nextItem_cons] at hc ⊢
  split at hc
  · exact absurd rfl hc
  · rename_i hcomment
    rw [if_neg hcomment]
    simp [hspace, hquote, hdigit, hword]

end

/-! ### Numerals -/

section

variable {c : Char} {cs text rest digits more : List Char}

theorem IsNumeral.begins (h : IsNumeral text) :
    ∃ c cs, text = c :: cs ∧ isAsciiDigit c = true := by
  cases h with
  | whole hne hall =>
    obtain ⟨c, cs, rfl⟩ := List.exists_cons_of_ne_nil hne
    exact ⟨c, cs, rfl, hall c List.mem_cons_self⟩
  | fraction hne hall _ _ =>
    obtain ⟨c, cs, rfl⟩ := List.exists_cons_of_ne_nil hne
    exact ⟨c, _, rfl, hall c List.mem_cons_self⟩

/-- A numeral is a plain one. -/
theorem IsNumeral.exists_ofPlain? (h : IsNumeral text) : ∃ x, Double.ofPlain? text = some x := by
  unfold Double.ofPlain?
  cases h with
  | whole hne hall =>
    have htake : (text ++ []).takeWhile isAsciiDigit = text ++ [].takeWhile isAsciiDigit :=
      List.takeWhile_append_of_pos hall
    have hdrop : (text ++ []).dropWhile isAsciiDigit = [].dropWhile isAsciiDigit :=
      List.dropWhile_append_of_pos hall
    rw [List.append_nil] at htake hdrop
    rw [htake, hdrop]
    simp [hne]
  | @fraction digits more hne hall hne' hall' =>
    have htake : (digits ++ '.' :: more).takeWhile isAsciiDigit = digits := by
      rw [List.takeWhile_append_of_pos hall]
      simp [show isAsciiDigit '.' = false from rfl]
    have hdrop : (digits ++ '.' :: more).dropWhile isAsciiDigit = '.' :: more := by
      rw [List.dropWhile_append_of_pos hall]
      rfl
    have hmore : more.all isAsciiDigit = true := List.all_eq_true.mpr hall'
    rw [htake, hdrop]
    simp [hne, hne', hmore]

theorem IsNumeral.ofNumeral?_eq (h : IsNumeral text) :
    Double.ofNumeral? text = Double.ofPlain? text := by
  obtain ⟨x, hx⟩ := h.exists_ofPlain?
  rw [Double.ofNumeral?, hx, Option.some_or]

/-- A numeral spells a number. -/
theorem IsNumeral.exists_ofNumeral? (h : IsNumeral text) : ∃ x, Double.ofNumeral? text = some x :=
  h.ofNumeral?_eq ▸ h.exists_ofPlain?

/-- A numeral is no longer than the one that the scanner reads in its place. -/
theorem IsNumeral.length_le (h : IsNumeral text) : text.length ≤ numeralLength (text ++ rest) := by
  cases h with
  | whole _ hall =>
    have hspan := (numeralLength_bounds (text ++ rest)).1
    rw [spanLength_append_of_all hall] at hspan
    omega
  | @fraction digits more _ hall hne hall' =>
    have hwhole : spanLength isAsciiDigit (digits ++ '.' :: more ++ rest) = digits.length := by
      rw [List.append_assoc, spanLength_append_of_all hall, List.cons_append, spanLength_cons]
      rfl
    have hfraction : spanLength isAsciiDigit (more ++ rest) =
        more.length + spanLength isAsciiDigit rest := spanLength_append_of_all hall'
    have hpos : 0 < more.length := List.length_pos_iff.mpr hne
    unfold numeralLength
    rw [hwhole, List.append_assoc]
    dsimp only
    rw [List.drop_left]
    simp only [List.cons_append, hfraction, List.length_append, List.length_cons]
    rw [if_neg (by omega)]
    omega

/-- What the scanner reads where a digit stands is a numeral. -/
theorem isNumeral_take (h : isAsciiDigit c = true) :
    IsNumeral ((c :: cs).take (numeralLength (c :: cs))) := by
  have hpos : 0 < spanLength isAsciiDigit (c :: cs) := spanLength_pos h
  have hle : spanLength isAsciiDigit (c :: cs) ≤ (c :: cs).length := spanLength_le ..
  have hwhole : (c :: cs).take (spanLength isAsciiDigit (c :: cs)) ≠ [] := by
    rw [← List.length_pos_iff, List.length_take]
    omega
  unfold numeralLength
  dsimp only
  split
  · rename_i rest hrest
    split
    · exact .whole hwhole all_of_mem_span
    · rename_i hfraction
      have htake : (c :: cs).take
          (spanLength isAsciiDigit (c :: cs) + 1 + spanLength isAsciiDigit rest) =
          (c :: cs).take (spanLength isAsciiDigit (c :: cs)) ++
            '.' :: rest.take (spanLength isAsciiDigit rest) := by
        rw [Nat.add_assoc, List.take_add, hrest, Nat.add_comm 1, List.take_succ_cons]
      rw [htake]
      refine .fraction hwhole all_of_mem_span ?_ all_of_mem_span
      rw [← List.length_pos_iff, List.length_take]
      have := spanLength_le isAsciiDigit rest
      omega
  · exact .whole hwhole all_of_mem_span

end

/-! ### What a text begins with -/

section

variable {cs text rest : List Char} {kind : TokenKind} {literal : Literal} {p : Chunk}

/-- The operators stand in the table by their lengths, the longest first. -/
theorem operators_sorted : operators.Pairwise fun op op' => op'.1.length ≤ op.1.length := by
  decide

theorem find?_sorted {α : Type} {R : α → α → Prop} {q : α → Bool} {xs : List α}
    (h : xs.Pairwise R) {a b : α} (ha : xs.find? q = some a) (hb : b ∈ xs) (hq : q b = true) :
    b = a ∨ R a b := by
  induction xs with
  | nil => cases hb
  | cons x xs ih =>
    obtain ⟨hx, hxs⟩ := List.pairwise_cons.mp h
    rw [List.find?_cons] at ha
    split at ha
    · obtain rfl := Option.some.inj ha
      exact (List.mem_cons.mp hb).imp_right (hx b)
    · rename_i hfalse
      rcases List.mem_cons.mp hb with rfl | hb
      · rw [hfalse] at hq
        cases hq
      · exact ih hxs ha hb

/-- The operator that is read is the longest. -/
theorem exists_operatorAt? (h : (text, kind) ∈ operators) :
    ∃ op, operatorAt? (text ++ rest) = some op ∧ text.length ≤ op.1.length := by
  have hp : text.isPrefixOf (text ++ rest) = true :=
    List.isPrefixOf_iff_prefix.mpr (List.prefix_append text rest)
  cases hop : operatorAt? (text ++ rest) with
  | none =>
    have hnone := List.find?_eq_none.mp hop (text, kind) h
    exact absurd hp hnone
  | some op =>
    refine ⟨op, rfl, ?_⟩
    rcases find?_sorted operators_sorted hop h hp with rfl | hle
    · exact Nat.le_refl _
    · exact hle

/-- A word of letters only is a keyword or a name. -/
theorem lexeme_of_isWord (h : IsWord text) : Lexeme text (wordKind (String.ofList text)) .nil := by
  unfold wordKind
  cases hk : keywords.lookup (String.ofList text) with
  | none =>
    refine .name h fun hmem => ?_
    obtain ⟨word, hword, htext⟩ := List.mem_map.mp hmem
    have hne := List.lookup_eq_none_iff.mp hk word hword
    simp [htext] at hne
  | some kind =>
    obtain ⟨before, after, hk, -⟩ := List.lookup_eq_some_iff.mp hk
    exact .keyword h (by rw [hk]; simp)

/-- A text behind its first quote, up to the next one. -/
theorem take_string (h : cs.drop (spanLength (· ≠ '"') cs) ≠ []) :
    cs.take (spanLength (· ≠ '"') cs + 1) = cs.take (spanLength (· ≠ '"') cs) ++ ['"'] := by
  obtain ⟨c, tail, hdrop⟩ := List.exists_cons_of_ne_nil h
  obtain rfl : c = '"' := by simpa using not_of_drop_span hdrop
  rw [List.take_add, hdrop]
  rfl

/-- A token that is read has one of the forms. -/
theorem lexeme_of_chunk (hcs : cs ≠ []) (h : chunk? cs = some p)
    (ht : p.token = some (kind, literal)) : Lexeme (cs.take p.length) kind literal := by
  obtain ⟨c, tail, rfl⟩ := List.exists_cons_of_ne_nil hcs
  have hspec := nextItem_spec c tail
  unfold chunk? at h
  cases hitem : nextItem (c :: tail) with
  | space | comment =>
    rw [hitem] at h
    cases h
    cases ht
  | number =>
    rw [hitem] at h hspec
    cases h
    obtain ⟨x, hx, heq⟩ := Option.map_eq_some_iff.mp ht
    cases heq
    exact .numeral (isNumeral_take hspec) hx
  | word =>
    rw [hitem] at h hspec
    cases h
    cases ht
    refine lexeme_of_isWord ?_
    have hall : ∀ d ∈ (c :: tail).take (spanLength continuesWord (c :: tail)), continuesWord d = true :=
      all_of_mem_span
    have hpos : 0 < wordLength (c :: tail) := spanLength_pos (continuesWord_of_startsWord hspec)
    obtain ⟨n, hn⟩ : ∃ n, wordLength (c :: tail) = n + 1 := ⟨_, (Nat.succ_pred_eq_of_pos hpos).symm⟩
    rw [show spanLength continuesWord (c :: tail) = n + 1 from hn] at hall
    rw [hn]
    exact ⟨hspec, fun d hd => hall d (List.mem_cons_of_mem _ hd)⟩
  | string =>
    rw [hitem] at h hspec
    obtain rfl : c = '"' := hspec
    dsimp only at h
    split at h
    · cases h
    · rename_i hclosed
      cases h
      cases ht
      have hdrop : tail.drop (spanLength (· ≠ '"') tail) ≠ [] := by
        simpa [Nat.add_comm 1] using hclosed
      simp only [List.drop_succ_cons, List.drop_zero, Nat.add_comm 1, List.take_succ_cons]
      rw [take_string hdrop, List.dropLast_concat]
      exact .string quote_not_mem_span
  | operator =>
    rw [hitem] at h
    obtain ⟨op, hop, rfl⟩ := Option.map_eq_some_iff.mp h
    cases ht
    have hprefix : op.1 <+: c :: tail :=
      List.isPrefixOf_iff_prefix.mp (by simpa using List.find?_some hop)
    rw [← List.prefix_iff_eq_take.mp hprefix]
    exact .operator (List.mem_of_find?_eq_some hop)

/-- Where a token could be read one is read that is no shorter, unless a comment begins there. -/
theorem chunk_of_lexeme (h : Lexeme text kind literal) (hc : nextItem (text ++ rest) ≠ .comment) :
    ∃ p token, chunk? (text ++ rest) = some p ∧ p.token = some token ∧ text.length ≤ p.length := by
  have word (h : IsWord text) : ∃ p token, chunk? (text ++ rest) = some p ∧
      p.token = some token ∧ text.length ≤ p.length := by
    cases text with
    | nil => exact h.elim
    | cons c cs =>
      have hitem : nextItem (c :: cs ++ rest) = .word := nextItem_of_startsWord h.1
      have hspan : wordLength (c :: cs ++ rest) = (c :: cs).length + spanLength continuesWord rest :=
        spanLength_append_of_all (List.forall_mem_cons.mpr ⟨continuesWord_of_startsWord h.1, h.2⟩)
      rw [chunk?, hitem]
      exact ⟨_, _, rfl, rfl, by dsimp only; omega⟩
  cases h with
  | keyword h | name h => exact word h
  | operator h =>
    obtain ⟨c, cs, rfl, hc'⟩ := operators_begin _ h
    obtain ⟨op, hop, hle⟩ := @exists_operatorAt? _ rest _ h
    have hitem : nextItem (c :: cs ++ rest) = .operator := nextItem_of_beginsOperator hc' hc
    refine ⟨⟨op.1.length, some (op.2, .nil)⟩, _, ?_, rfl, hle⟩
    rw [chunk?, hitem, hop]
    rfl
  | numeral h =>
    obtain ⟨c, cs, rfl, hdigit⟩ := h.begins
    have hitem : nextItem (c :: cs ++ rest) = .number := nextItem_digit hdigit
    have hnumeral : IsNumeral ((c :: cs ++ rest).take (numeralLength (c :: cs ++ rest))) :=
      isNumeral_take hdigit
    obtain ⟨x, hx⟩ := hnumeral.exists_ofNumeral?
    rw [chunk?, hitem, hx]
    exact ⟨_, _, rfl, rfl, h.length_le⟩
  | @string inner h =>
    have hspan : spanLength (· ≠ '"') (inner ++ '"' :: rest) = inner.length :=
      spanLength_unquoted h ('"' :: rest)
    have htext : '"' :: inner ++ ['"'] ++ rest = '"' :: (inner ++ '"' :: rest) := by simp
    rw [htext]
    unfold chunk?
    rw [nextItem_quote]
    simp only [List.drop_succ_cons, List.drop_zero, hspan, Nat.add_comm 1]
    rw [List.drop_left, if_neg (by simp)]
    exact ⟨_, _, rfl, rfl, by simp⟩

/-- What is read as a token is the longest beginning that is one. -/
theorem longest_of_chunk (h : chunk? (text ++ rest) = some p) (hp : p.length = text.length)
    (hc : nextItem (text ++ rest) ≠ .comment) : Longest text rest := by
  rintro more tail rfl hmore kind literal hlexeme
  rw [← List.append_assoc] at h hc
  obtain ⟨q, _, hq, -, hle⟩ := chunk_of_lexeme hlexeme hc
  obtain rfl := Option.some.inj (h.symm.trans hq)
  rw [hp, List.length_append] at hle
  exact hmore (List.eq_nil_of_length_eq_zero (by omega))

/-- Where no chunk is read no token begins. -/
theorem not_lexeme_of_chunk (h : chunk? (text ++ rest) = none) : ¬ Lexeme text kind literal := by
  intro hlexeme
  have hc : nextItem (text ++ rest) ≠ .comment := by
    intro hitem
    rw [chunk?, hitem] at h
    cases h
  obtain ⟨q, _, hq, -⟩ := chunk_of_lexeme hlexeme hc
  rw [h] at hq
  cases hq

/-- A chunk that is no token is white space or a comment. -/
theorem blank_of_chunk (hcs : cs ≠ []) (h : chunk? cs = some p) (ht : p.token = none) :
    (∀ c ∈ cs.take p.length, isSpace c = true) ∨
      ∃ body, cs.take p.length = '/' :: '/' :: body ∧ (∀ c ∈ body, inComment c = true) ∧
        ∀ c ∈ (cs.drop p.length).head?, inComment c = false := by
  obtain ⟨c, tail, rfl⟩ := List.exists_cons_of_ne_nil hcs
  have hspec := nextItem_spec c tail
  unfold chunk? at h
  cases hitem : nextItem (c :: tail) with
  | space =>
    rw [hitem] at h
    cases h
    exact .inl all_of_mem_span
  | comment =>
    rw [hitem] at h hspec
    cases h
    obtain ⟨rfl, hhead⟩ := hspec
    obtain ⟨tail, rfl⟩ := List.head?_eq_some_iff.mp hhead
    refine .inr ⟨tail.take (spanLength inComment tail), ?_, all_of_mem_span, fun c hc => ?_⟩
    · have hspan : spanLength inComment ('/' :: '/' :: tail) = spanLength inComment tail + 2 := by
        rw [spanLength_cons, if_pos (by decide), spanLength_cons, if_pos (by decide)]
      rw [hspan]
      rfl
    · obtain ⟨more, hdrop⟩ := List.head?_eq_some_iff.mp hc
      exact not_of_drop_span hdrop
  | number =>
    rw [hitem] at h hspec
    cases h
    obtain ⟨x, hx⟩ := (@isNumeral_take c tail hspec).exists_ofNumeral?
    simp [hx] at ht
  | word =>
    rw [hitem] at h
    cases h
    cases ht
  | string =>
    rw [hitem] at h
    dsimp only at h
    split at h
    · cases h
    · cases h
      cases ht
  | operator =>
    rw [hitem] at h
    obtain ⟨op, -, rfl⟩ := Option.map_eq_some_iff.mp h
    cases ht

end

end Lox
