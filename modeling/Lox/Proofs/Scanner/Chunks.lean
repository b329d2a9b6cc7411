/-
# What a text begins with

What the scanner does next is told by the rest of the text alone: it reads a
chunk of it (`Lox.chunk?`), white space, a comment or a token, or where there
is none it reports a string that is not closed or a character that begins
nothing.

Key definitions: `Lox.Chunk`, `Lox.chunk?`.
Key theorems: `Lox.chunk?_bounds`, `Lox.Scanner.scanToken_of_chunk`,
`Lox.Scanner.scanToken_reported`.
-/
import Lox.Scanner

namespace Lox

open Scanner Text

/-! ### Leading characters -/

section

variable {p : Char → Bool} {cs more : List Char} {c : Char}

theorem spanLength_le (p : Char → Bool) (cs : List Char) : spanLength p cs ≤ cs.length :=
  (List.takeWhile_prefix p).length_le

theorem spanLength_cons (p : Char → Bool) (c : Char) (cs : List Char) :
    spanLength p (c :: cs) = if p c then spanLength p cs + 1 else 0 := by
  unfold spanLength
  rw [List.takeWhile_cons]
  split <;> rfl

theorem spanLength_pos (h : p c = true) : 0 < spanLength p (c :: cs) := by
  rw [spanLength_cons, if_pos h]
  omega

/-- A span that ends within a text ends there whatever follows. -/
theorem spanLength_append_of_lt (h : spanLength p cs < cs.length) :
    spanLength p (cs ++ more) = spanLength p cs := by
  unfold spanLength at *
  rw [List.takeWhile_append, if_neg (by omega)]

/-- A character that is not of the span ends it. -/
theorem spanLength_append_cons (h : p c = false) :
    spanLength p (cs ++ c :: more) = spanLength p cs := by
  unfold spanLength
  rw [List.takeWhile_append]
  split
  · rename_i hall
    rw [List.takeWhile_cons_of_neg (by simp [h]), List.append_nil, hall]
  · rfl

/-- A span goes on behind characters that all belong to it. -/
theorem spanLength_append_of_all (h : ∀ d ∈ cs, p d = true) :
    spanLength p (cs ++ more) = cs.length + spanLength p more := by
  unfold spanLength
  rw [List.takeWhile_append_of_pos h, List.length_append]

theorem all_of_mem_span : ∀ d ∈ cs.take (spanLength p cs), p d = true := by
  have htake : cs.take (spanLength p cs) = cs.takeWhile p :=
    (List.prefix_iff_eq_take.mp (List.takeWhile_prefix p)).symm
  rw [htake]
  exact List.all_eq_true.mp List.all_takeWhile

/-- A span ends before a character that does not belong to it. -/
theorem not_of_drop_span {q : Char → Bool} {c : Char} : ∀ {cs tail : List Char},
    cs.drop (spanLength q cs) = c :: tail → q c = false
  | [], _, h => by simp at h
  | d :: cs, tail, h => by
    rw [spanLength_cons] at h
    split at h
    · exact not_of_drop_span h
    · rename_i hd
      obtain ⟨rfl, -⟩ := List.cons.inj h
      simpa using hd

/-- What has no quote in it goes up to the next quote. -/
theorem spanLength_unquoted {inner : List Char} (h : '"' ∉ inner) (rest : List Char) :
    spanLength (· ≠ '"') (inner ++ rest) = inner.length + spanLength (· ≠ '"') rest := by
  refine spanLength_append_of_all fun d hd => ?_
  rw [decide_eq_true_eq]
  rintro rfl
  exact h hd

theorem quote_not_mem_span : '"' ∉ cs.take (spanLength (· ≠ '"') cs) := by
  intro hmem
  have h := all_of_mem_span (p := (· ≠ '"')) '"' hmem
  simp at h

end

/-! ### Chunks -/

/-- What a text begins with: so many characters, and the kind of the token that they are, with its
value, if they are one. -/
structure Chunk where
  length : Nat
  token : Option (TokenKind × Literal)

/-- The token of the chunk, at a position. -/
def Chunk.tokens (p : Chunk) (pos : Nat) (cs : List Char) : List Token :=
  (p.token.map fun t => ⟨t.1, String.ofList (cs.take p.length), t.2, pos⟩).toList

/-- What the text begins with, unless it is reported. -/
def chunk? (cs : List Char) : Option Chunk :=
  match nextItem cs with
  | .space => some ⟨spanLength isSpace cs, none⟩
  | .comment => some ⟨spanLength inComment cs, none⟩
  | .string =>
    let inner := spanLength (· ≠ '"') (cs.drop 1)
    if (cs.drop (1 + inner)).isEmpty then none
    else
      let text := cs.take (1 + inner + 1)
      some ⟨1 + inner + 1, some (.string, .string (String.ofList (text.drop 1).dropLast))⟩
  | .number =>
    some ⟨numeralLength cs,
      (Double.ofNumeral? (cs.take (numeralLength cs))).map fun x => (.number, .number x)⟩
  | .word =>
    some ⟨wordLength cs, some (wordKind (String.ofList (cs.take (wordLength cs))), .nil)⟩
  | .operator => (operatorAt? cs).map fun op => ⟨op.1.length, some (op.2, .nil)⟩

theorem nextItem_cons (c : Char) (cs : List Char) : nextItem (c :: cs) =
    if c = '/' ∧ cs.head? = some '/' then .comment
    else if isSpace c then .space
    else if c = '"' then .string
    else if isAsciiDigit c then .number
    else if startsWord c then .word
    else .operator := by
  unfold nextItem
  split
  · rename_i heq
    obtain ⟨rfl, rfl⟩ := List.cons.inj heq
    rfl
  · rename_i heq
    cases heq
  · rename_i hcomment heq
    obtain ⟨rfl, rfl⟩ := List.cons.inj heq
    refine (if_neg fun ⟨hc, hcs⟩ => ?_).symm
    obtain ⟨rest, rfl⟩ := List.head?_eq_some_iff.mp hcs
    exact hcomment rest hc rfl

/-- How what comes next begins. -/
theorem nextItem_spec (c : Char) (cs : List Char) :
    match nextItem (c :: cs) with
    | .comment => c = '/' ∧ cs.head? = some '/'
    | .space => isSpace c = true
    | .string => c = '"'
    | .number => isAsciiDigit c = true
    | .word => startsWord c = true
    | .operator => True := by
  rw [nextItem_cons]
  by_cases hcomment : c = '/' ∧ cs.head? = some '/'
  · rwa [if_pos hcomment]
  rw [if_neg hcomment]
  by_cases hspace : isSpace c = true
  · rwa [if_pos hspace]
  rw [if_neg hspace]
  by_cases hquote : c = '"'
  · rwa [if_pos hquote]
  rw [if_neg hquote]
  by_cases hdigit : isAsciiDigit c = true
  · rwa [if_pos hdigit]
  rw [if_neg hdigit]
  by_cases hword : startsWord c = true
  · rwa [if_pos hword]
  · rw [if_neg hword]
    trivial

theorem nextItem_quote : nextItem ('"' :: cs) = .string := rfl

theorem isSpace_iff {c : Char} : isSpace c = true ↔ c = ' ' ∨ c = '\t' ∨ c = '\r' ∨ c = '\n' := by
  simp [isSpace, or_assoc]

theorem isSpace_of_nextItem {c : Char} {cs : List Char} :
    nextItem (c :: cs) = .space ↔ isSpace c = true := by
  rw [nextItem_cons]
  by_cases hcomment : c = '/' ∧ cs.head? = some '/'
  · rw [if_pos hcomment]
    obtain ⟨rfl, -⟩ := hcomment
    decide
  · rw [if_neg hcomment]
    by_cases hspace : isSpace c = true
    · simp [hspace]
    · rw [if_neg hspace]
      simp only [hspace]
      split
      · simp
      · split
        · simp
        · split <;> simp

theorem continuesWord_of_startsWord {c : Char} (h : startsWord c = true) :
    continuesWord c = true := by
  unfold startsWord at h
  unfold continuesWord
  simp only [Bool.or_eq_true] at h ⊢
  exact h.imp_left isWordChar_of_isLetter

theorem operators_bounds : ∀ op ∈ operators, 0 < op.1.length ∧ '\n' ∉ op.1 := by
  decide

theorem operatorAt?_bounds {cs : List Char} {op : List Char × TokenKind}
    (h : operatorAt? cs = some op) : 0 < op.1.length ∧ op.1.length ≤ cs.length := by
  have hprefix : op.1.isPrefixOf cs = true := by simpa using List.find?_some h
  rw [List.isPrefixOf_iff_prefix] at hprefix
  exact ⟨(operators_bounds op (List.mem_of_find?_eq_some h)).1, hprefix.length_le⟩

theorem numeralLength_bounds (cs : List Char) :
    spanLength isAsciiDigit cs ≤ numeralLength cs ∧ numeralLength cs ≤ cs.length := by
  have hwhole := spanLength_le isAsciiDigit cs
  unfold numeralLength
  dsimp only
  split
  · rename_i rest hrest
    have hlength := congrArg List.length hrest
    have hfraction := spanLength_le isAsciiDigit rest
    simp only [List.length_drop, List.length_cons] at hlength
    split <;> omega
  · omega

/-- A chunk has a character at least, and no more than there are. -/
theorem chunk?_bounds {cs : List Char} {p : Chunk} (hcs : cs ≠ []) (h : chunk? cs = some p) :
    0 < p.length ∧ p.length ≤ cs.length := by
  cases cs with
  | nil => exact absurd rfl hcs
  | cons c cs =>
    unfold chunk? at h
    rw [nextItem_cons] at h
    by_cases hcomment : c = '/' ∧ cs.head? = some '/'
    · rw [if_pos hcomment] at h
      cases h
      obtain ⟨rfl, -⟩ := hcomment
      exact ⟨spanLength_pos rfl, spanLength_le ..⟩
    rw [if_neg hcomment] at h
    by_cases hspace : isSpace c = true
    · rw [if_pos hspace] at h
      cases h
      exact ⟨spanLength_pos hspace, spanLength_le ..⟩
    rw [if_neg hspace] at h
    by_cases hquote : c = '"'
    · rw [if_pos hquote] at h
      dsimp only at h
      split at h
      · cases h
      · rename_i hrest
        cases h
        have hlt : 1 + spanLength (· ≠ '"') ((c :: cs).drop 1) < (c :: cs).length := by
          simpa using hrest
        dsimp only
        omega
    rw [if_neg hquote] at h
    by_cases hdigit : isAsciiDigit c = true
    · rw [if_pos hdigit] at h
      cases h
      have hbounds := numeralLength_bounds (c :: cs)
      have hpos : 0 < spanLength isAsciiDigit (c :: cs) := spanLength_pos hdigit
      dsimp only
      omega
    rw [if_neg hdigit] at h
    by_cases hword : startsWord c = true
    · rw [if_pos hword] at h
      cases h
      exact ⟨spanLength_pos (continuesWord_of_startsWord hword), spanLength_le ..⟩
    · rw [if_neg hword] at h
      obtain ⟨op, hop, rfl⟩ := Option.map_eq_some_iff.mp h
      exact operatorAt?_bounds hop

/-! ### The scanner reads chunks -/

namespace Scanner

variable {s : Scanner}

theorem advance_nil (h : s.rest = []) (n : Nat) : s.advance n = s := by
  cases n with
  | zero => rfl
  | succ n => rw [advance, h]

theorem advance_cons {c : Char} {cs : List Char} (h : s.rest = c :: cs) (n : Nat) :
    s.advance (n + 1) =
      advance n { s with behind := c :: s.behind, rest := cs, pos := s.pos + 1 } := by
  rw [advance, h]

theorem advance_eq : ∀ {n : Nat} {s : Scanner}, n ≤ s.rest.length → s.advance n =
    { s with
      behind := (s.rest.take n).reverse ++ s.behind
      rest := s.rest.drop n
      pos := s.pos + n }
  | 0, _, _ => rfl
  | n + 1, s, h => by
    cases hrest : s.rest with
    | nil =>
      rw [hrest] at h
      exact absurd h (Nat.not_succ_le_zero n)
    | cons c cs =>
      rw [hrest] at h
      have hn : n ≤ cs.length := Nat.le_of_succ_le_succ h
      rw [advance_cons hrest, advance_eq hn]
      simp only [List.take_succ_cons, List.reverse_cons, List.append_assoc, List.cons_append,
        List.nil_append, List.drop_succ_cons]
      rw [Nat.add_assoc, Nat.add_comm 1 n]

theorem advance_advance (n : Nat) : ∀ (m : Nat) (s : Scanner),
    (s.advance m).advance n = s.advance (m + n)
  | 0, s => by
    rw [Nat.zero_add]
    rfl
  | m + 1, s => by
    cases hrest : s.rest with
    | nil => rw [advance_nil hrest, advance_nil hrest, advance_nil hrest]
    | cons c cs => rw [Nat.succ_add, advance_cons hrest, advance_cons hrest, advance_advance n m]

/-- The scanner behind a chunk of the rest. -/
def past (s : Scanner) (p : Chunk) : Scanner :=
  { s with
    behind := (s.rest.take p.length).reverse ++ s.behind
    rest := s.rest.drop p.length
    pos := s.pos + p.length
    tokens := s.tokens ++ (p.tokens s.start s.rest).toArray }

theorem taken_advance {n : Nat} (hstart : s.start = s.pos) (h : n ≤ s.rest.length) :
    (s.advance n).taken = s.rest.take n := by
  rw [advance_eq h, taken]
  dsimp only
  rw [hstart, Nat.add_sub_cancel_left, List.take_append_of_le_length (by simp [h])]
  rw [List.take_of_length_le (by simp [h]), List.reverse_reverse]

theorem emit_advance {n : Nat} (hstart : s.start = s.pos) (h : n ≤ s.rest.length)
    (kind : TokenKind) (literal : Literal) :
    (s.advance n).emit kind literal = s.past ⟨n, some (kind, literal)⟩ := by
  unfold emit
  rw [taken_advance hstart h, advance_eq h]
  simp [past, Chunk.tokens]

theorem advance_eq_past {n : Nat} (h : n ≤ s.rest.length) : s.advance n = s.past ⟨n, none⟩ := by
  rw [advance_eq h]
  simp [past, Chunk.tokens]

/-- From where a token begins the scanner reads a chunk. -/
theorem scanToken_of_chunk {p : Chunk} (hstart : s.start = s.pos) (hrest : s.rest ≠ [])
    (hp : chunk? s.rest = some p) : s.scanToken = s.past p := by
  obtain ⟨_, hle⟩ := chunk?_bounds hrest hp
  unfold chunk? at hp
  unfold scanToken
  cases hitem : nextItem s.rest with
  | space | comment =>
    rw [hitem] at hp
    cases hp
    exact advance_eq_past hle
  | string =>
    rw [hitem] at hp
    dsimp only at hp ⊢
    split at hp
    · cases hp
    · rename_i hopen
      cases hp
      have hone : 1 ≤ s.rest.length := by
        dsimp only at hle
        omega
      unfold scanString
      dsimp only
      rw [show (s.advance 1).rest = s.rest.drop 1 by rw [advance_eq hone], advance_advance,
        advance_eq (n := 1 + spanLength (· ≠ '"') (s.rest.drop 1)) (Nat.le_of_succ_le hle)]
      rw [if_neg hopen, ← advance_eq (Nat.le_of_succ_le hle), advance_advance,
        taken_advance hstart hle, emit_advance hstart hle]
  | number =>
    rw [hitem] at hp
    cases hp
    unfold scanNumber takeNumeral
    dsimp only
    rw [taken_advance hstart hle]
    cases Double.ofNumeral? (s.rest.take (numeralLength s.rest)) with
    | none => exact advance_eq_past hle
    | some x => exact emit_advance hstart hle ..
  | word =>
    rw [hitem] at hp
    cases hp
    unfold scanWord
    dsimp only
    rw [taken_advance hstart hle]
    exact emit_advance hstart hle ..
  | operator =>
    rw [hitem] at hp
    obtain ⟨op, hop, rfl⟩ := Option.map_eq_some_iff.mp hp
    unfold scanOperator
    dsimp only
    rw [hop]
    exact emit_advance hstart hle ..

theorem scanAll_nil (hrest : s.rest = []) : ∀ fuel, scanAll fuel s = s
  | 0 => rfl
  | fuel + 1 => by
    unfold scanAll
    rw [if_pos (by rw [hrest]; rfl)]

theorem scanAll_cons (hrest : s.rest ≠ []) (fuel : Nat) :
    scanAll (fuel + 1) s = scanAll fuel s.mark.scanToken := by
  rw [scanAll, if_neg (by simpa using hrest)]

/-- What the scanner does where it reads no chunk: it reports a string that is not closed at the end
of the text, or else one character. -/
theorem scanToken_reported (hstart : s.start = s.pos) (hrest : s.rest ≠ [])
    (hp : chunk? s.rest = none) :
    (∃ inner, s.rest = '"' :: inner ∧ '"' ∉ inner ∧ s.scanToken =
      (s.advance s.rest.length).error (s.pos + s.rest.length : Nat) "Unterminated string.") ∨
    ∃ c tail, s.rest = c :: tail ∧ c ≠ '"' ∧ s.scanToken =
      (s.advance 1).error s.pos ("Unexpected character '" ++ String.ofList [c] ++ "'.") := by
  obtain ⟨c, tail, hcons⟩ := List.exists_cons_of_ne_nil hrest
  have hspec := nextItem_spec c tail
  unfold chunk? at hp
  unfold scanToken
  rw [hcons] at hp ⊢
  cases hitem : nextItem (c :: tail) with
  | space | comment | number | word =>
    rw [hitem] at hp
    cases hp
  | string =>
    rw [hitem] at hp hspec
    obtain rfl : c = '"' := hspec
    dsimp only at hp
    split at hp
    · rename_i hopen
      have hspan : spanLength (· ≠ '"') tail = tail.length := by
        have hle := spanLength_le (· ≠ '"') tail
        rw [List.isEmpty_iff, List.drop_eq_nil_iff] at hopen
        simp only [List.length_cons, List.drop_succ_cons, List.drop_zero] at hopen
        omega
      refine .inl ⟨tail, rfl, ?_, ?_⟩
      · have hmem := @quote_not_mem_span tail
        rwa [hspan, List.take_length] at hmem
      · have hone : (s.advance 1).rest = tail := by
          rw [advance_eq (by simp [hcons]), hcons]
          rfl
        have hall : s.advance (1 + tail.length) = s.advance ('"' :: tail).length := by
          rw [Nat.add_comm, List.length_cons]
        have hend : s.advance ('"' :: tail).length = { s with
            behind := ('"' :: tail).reverse ++ s.behind
            rest := []
            pos := s.pos + ('"' :: tail).length } := by
          rw [advance_eq (Nat.le_of_eq (by rw [hcons])), hcons, List.take_length, List.drop_length]
        dsimp only
        unfold scanString
        dsimp only
        rw [hone, hspan, advance_advance, hall, hend]
        rfl
    · cases hp
  | operator =>
    rw [hitem] at hp
    have hop : operatorAt? s.rest = none := by
      rw [hcons]
      exact Option.map_eq_none_iff.mp hp
    refine .inr ⟨c, tail, rfl, ?_, ?_⟩
    · rintro rfl
      rw [nextItem_quote] at hitem
      cases hitem
    dsimp only
    unfold scanOperator
    rw [hop, hstart, hcons]
    rfl

end Scanner

end Lox
