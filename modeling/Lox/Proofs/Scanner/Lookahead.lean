/-
# What stands behind a form

A text that has one of the forms of a token is read as that token where it
stands alone (`Lox.chunk?_lexeme`). In front of other text it is read if no
longer form stands there (`Lox.Lexeme.chunk?_append`), and since only strings
have white space in them, that depends on the text up to the next white space
at most (`Lox.Lexeme.longest_of`).

Key theorems: `Lox.chunk?_lexeme`, `Lox.Lexeme.chunk?_append`, `Lox.Lexeme.longest_of`.
-/
import Lox.Proofs.Scanner.Forms

namespace Lox

open Scanner Text

/-! ### A form alone -/

section

variable {cs text rest : List Char} {kind : TokenKind} {literal : Literal}

theorem operatorAt?_self : ∀ op ∈ operators, operatorAt? op.1 = some op := by
  decide

theorem wordKind_keyword : ∀ word ∈ keywords, wordKind word.1 = word.2 := by
  decide

theorem wordKind_name (h : String.ofList text ∉ keywords.map Prod.fst) :
    wordKind (String.ofList text) = .identifier := by
  unfold wordKind
  rw [List.lookup_eq_none_iff.mpr fun word hword => ?_]
  · rfl
  · rw [bne_iff_ne]
    intro heq
    exact h (heq ▸ List.mem_map_of_mem hword)

theorem wordLength_of_isWord (h : IsWord text) : wordLength text = text.length := by
  cases text with
  | nil => rfl
  | cons c cs =>
    have hall : ∀ d ∈ c :: cs, continuesWord d = true :=
      List.forall_mem_cons.mpr ⟨continuesWord_of_startsWord h.1, h.2⟩
    have hspan := @spanLength_append_of_all continuesWord (c :: cs) [] hall
    rwa [List.append_nil] at hspan

theorem chunk?_of_isWord (h : IsWord text) :
    chunk? text = some ⟨text.length, some (wordKind (String.ofList text), .nil)⟩ := by
  have hlength := wordLength_of_isWord h
  cases text with
  | nil => exact h.elim
  | cons c cs => rw [chunk?, nextItem_of_startsWord h.1, hlength, List.take_length]

theorem numeralLength_of_isNumeral (h : IsNumeral text) : numeralLength text = text.length := by
  have hle := @IsNumeral.length_le _ [] h
  rw [List.append_nil] at hle
  exact Nat.le_antisymm (numeralLength_bounds text).2 hle

/-- A text of one of the forms is read as what it is. -/
theorem chunk?_lexeme (h : Lexeme text kind literal) :
    chunk? text = some ⟨text.length, some (kind, literal)⟩ := by
  cases h with
  | operator hop =>
    obtain ⟨c, cs, rfl, hc⟩ := operators_begin _ hop
    have hcomment : ∀ op ∈ operators, nextItem op.1 ≠ .comment := by decide
    rw [chunk?, nextItem_of_beginsOperator hc (hcomment _ hop), operatorAt?_self _ hop]
    rfl
  | @numeral _ x hnumeral hx =>
    have hlength := numeralLength_of_isNumeral hnumeral
    obtain ⟨c, cs, rfl, hc⟩ := hnumeral.begins
    rw [chunk?, nextItem_digit hc, hlength, List.take_length, hx]
    rfl
  | keyword hword hmem => rw [chunk?_of_isWord hword, wordKind_keyword _ hmem]
  | name hword hno => rw [chunk?_of_isWord hword, wordKind_name hno]
  | @string inner hinner =>
    have hspan : spanLength (· ≠ '"') (inner ++ ['"']) = inner.length :=
      spanLength_unquoted hinner ['"']
    have htext : '"' :: inner ++ ['"'] = '"' :: (inner ++ ['"']) := rfl
    have hlength : inner.length + 1 + 1 = ('"' :: (inner ++ ['"'])).length := by simp
    rw [htext, chunk?, nextItem_quote]
    simp only [List.drop_succ_cons, List.drop_zero, hspan, Nat.add_comm 1]
    rw [List.drop_left, if_neg (by simp), hlength, List.take_length]
    simp

/-- A text has at most one form. -/
theorem Lexeme.unique {kind' : TokenKind} {literal' : Literal} (h : Lexeme text kind literal)
    (h' : Lexeme text kind' literal') : kind = kind' ∧ literal = literal' := by
  have heq := (chunk?_lexeme h).symm.trans (chunk?_lexeme h')
  simpa using heq

theorem Lexeme.ne_nil (h : Lexeme text kind literal) : text ≠ [] := by
  rintro rfl
  cases chunk?_lexeme h

/-! ### A form in front of other text -/

/-- The longest form that a text begins with is what is read, if it is no comment. -/
theorem Lexeme.chunk?_append (h : Lexeme text kind literal) (hlongest : Longest text rest)
    (hcomment : nextItem (text ++ rest) ≠ .comment) :
    chunk? (text ++ rest) = some ⟨text.length, some (kind, literal)⟩ := by
  obtain ⟨⟨n, _⟩, ⟨kind', literal'⟩, hp, rfl, hle⟩ := chunk_of_lexeme h hcomment
  have hne : text ++ rest ≠ [] := List.append_ne_nil_of_left_ne_nil h.ne_nil rest
  have hread := lexeme_of_chunk hne hp rfl
  dsimp only at hle hread
  have htake : (text ++ rest).take n = text ++ rest.take (n - text.length) := by
    rw [List.take_append, List.take_of_length_le hle]
  have hmore : rest.take (n - text.length) = [] := by
    refine Classical.byContradiction fun hmore => ?_
    rw [htake] at hread
    exact hlongest _ _ (List.take_append_drop (n - text.length) rest).symm hmore _ _ hread
  rw [htake, hmore, List.append_nil] at hread
  obtain ⟨rfl, rfl⟩ := h.unique hread
  have hbound : n ≤ (text ++ rest).length := (chunk?_bounds hne hp).2
  have hlength := congrArg List.length htake
  rw [hmore, List.append_nil, List.length_take, Nat.min_eq_left hbound] at hlength
  rw [hp, hlength]

/-- Only strings have white space in them. -/
theorem Lexeme.solid (h : Lexeme text kind literal) (hkind : kind ≠ .string) :
    ∀ c ∈ text, isSpace c = false := by
  -- the table is searched, and not all characters
  have operators_solid : (operators.all fun op => op.1.all (!isSpace ·)) = true := by decide
  have digit {c : Char} (hc : isAsciiDigit c = true) : isSpace c = false :=
    Bool.eq_false_iff.mpr fun hspace => by
      rw [isSpace_iff] at hspace
      rcases hspace with rfl | rfl | rfl | rfl <;> exact absurd hc (by decide)
  have goesOn {c : Char} (hc : continuesWord c = true) : isSpace c = false :=
    Bool.eq_false_iff.mpr fun hspace => by
      rw [isSpace_iff] at hspace
      rcases hspace with rfl | rfl | rfl | rfl <;> exact absurd hc (by decide)
  have word (h : IsWord text) : ∀ c ∈ text, isSpace c = false := by
    cases text with
    | nil => exact fun _ hc => nomatch hc
    | cons c cs =>
      exact List.forall_mem_cons.mpr
        ⟨goesOn (continuesWord_of_startsWord h.1), fun d hd => goesOn (h.2 d hd)⟩
  cases h with
  | operator hop =>
    intro c hc
    have hsolid := List.all_eq_true.mp (List.all_eq_true.mp operators_solid _ hop) c hc
    rwa [Bool.not_eq_true'] at hsolid
  | keyword hword | name hword => exact word hword
  | string => exact absurd rfl hkind
  | numeral hnumeral =>
    cases hnumeral with
    | whole _ hall => exact fun c hc => digit (hall c hc)
    | fraction _ hall _ hall' =>
      refine List.forall_mem_append.mpr ⟨fun c hc => digit (hall c hc), ?_⟩
      exact List.forall_mem_cons.mpr ⟨rfl, fun c hc => digit (hall' c hc)⟩

/-- A string has its second quote at its end. -/
theorem Lexeme.of_quote (h : Lexeme ('"' :: cs) kind literal) :
    ∃ inner, '"' ∉ inner ∧ cs = inner ++ ['"'] := by
  generalize htext : '"' :: cs = text at h
  have hquote : ∀ op ∈ operators, op.1.head? ≠ some '"' := by decide
  cases h with
  | operator hop => exact absurd rfl (htext ▸ hquote _ hop)
  | numeral hnumeral =>
    obtain ⟨c, tail, rfl, hc⟩ := hnumeral.begins
    obtain ⟨rfl, -⟩ := List.cons.inj htext
    exact absurd hc (by decide)
  | keyword hword | name hword =>
    subst htext
    exact absurd hword.1 (by decide)
  | @string inner hinner => exact ⟨inner, hinner, (List.cons.inj htext).2⟩

/-- A string does not go on behind its quotes, and nothing else goes on to be one. -/
theorem Lexeme.append_ne_string (h : Lexeme text kind literal) (hrest : rest ≠ [])
    {kind' : TokenKind} {literal' : Literal} (h' : Lexeme (text ++ rest) kind' literal') :
    kind' ≠ .string := by
  rintro rfl
  obtain ⟨c, cs, rfl⟩ := List.exists_cons_of_ne_nil h.ne_nil
  obtain rfl : c = '"' := by
    generalize htext : c :: cs ++ rest = text' at h'
    cases h' with
    | operator hop =>
      have operators_kinds : ∀ op ∈ operators, op.2 ≠ .string := by decide
      exact absurd rfl (operators_kinds _ hop)
    | keyword _ hword =>
      have keywords_kinds : ∀ word ∈ keywords, word.2 ≠ .string := by decide
      exact absurd rfl (keywords_kinds _ hword)
    | string => exact (List.cons.inj htext).1
  -- so both are strings, and the quote that closes the first lies in the second
  obtain ⟨inner, -, rfl⟩ := h.of_quote
  obtain ⟨inner', hinner', hwhole⟩ := h'.of_quote
  have hmem : inner' = inner ++ '"' :: rest.dropLast := by
    have hwhole : inner ++ ['"'] ++ rest = inner' ++ ['"'] := hwhole
    have hdrop := congrArg List.dropLast hwhole
    rw [List.dropLast_concat, List.append_assoc, List.dropLast_append_of_ne_nil (by simp),
      List.singleton_append, List.dropLast_cons_of_ne_nil hrest] at hdrop
    exact hdrop.symm
  exact hinner' (hmem ▸ List.mem_append_right _ List.mem_cons_self)

/-- Only what stands in front of white space can make a form longer. -/
theorem Lexeme.longest_of (h : Lexeme text kind literal) (hlongest : Longest text rest)
    {rest' : List Char} (hsame : ∀ more tail, rest' = more ++ tail →
      (∀ c ∈ more, isSpace c = false) → more <+: rest) : Longest text rest' := by
  intro more tail heq hne kind' literal' h'
  have hsolid := h'.solid (h.append_ne_string hne h')
  obtain ⟨tail', hprefix⟩ :=
    hsame more tail heq fun c hc => hsolid c (List.mem_append_right _ hc)
  exact hlongest more tail' hprefix.symm hne _ _ h'

/-- No form goes on behind a space. -/
theorem Lexeme.longest_space (h : Lexeme text kind literal) (rest : List Char) :
    Longest text (' ' :: rest) := by
  have hend : Longest text [] := by
    intro more tail heq hne
    exact absurd (List.append_eq_nil_iff.mp heq.symm).1 hne
  refine h.longest_of hend fun more tail heq hmore => ?_
  cases more with
  | nil => exact List.nil_prefix
  | cons c more =>
    obtain ⟨rfl, -⟩ := List.cons.inj heq
    exact absurd (hmore ' ' List.mem_cons_self) (by decide)

/-- No form begins a comment, unless it is a slash in front of another. -/
theorem Lexeme.not_comment (h : Lexeme text kind literal)
    (hrest : text = ['/'] → rest.head? ≠ some '/') :
    nextItem (text ++ rest) ≠ .comment := by
  intro hitem
  have hself : nextItem text ≠ .comment := by
    intro hself
    have hp := chunk?_lexeme h
    rw [chunk?, hself] at hp
    cases congrArg Chunk.token (Option.some.inj hp)
  obtain ⟨c, cs, rfl⟩ := List.exists_cons_of_ne_nil h.ne_nil
  have hspec := nextItem_spec c (cs ++ rest)
  rw [← List.cons_append, hitem] at hspec
  obtain ⟨rfl, hhead⟩ := hspec
  cases cs with
  | nil => exact hrest rfl hhead
  | cons d cs =>
    obtain rfl : d = '/' := Option.some.inj hhead
    exact hself rfl

end

end Lox
