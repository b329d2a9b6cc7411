/-
# A text cut before a token

The scanner looks further than a chunk only to see that it ends there. So a
text that is cut before a token is scanned to the tokens before it, and the
rest of it to that token and those behind it. A declaration may be put there on
a line of its own: its tokens stand between, and those behind it are the same
further on.

Key definitions: `Lox.withDeclaration`, `Lox.declarationTokens`.
Key theorems: `Lox.chunk?_take`, `Lox.Scans.cut`, `Lox.Scans.scan_withDeclaration`.
-/
import Lox.Proofs.Scanner.Replacing

namespace Lox

open Scanner Text

/-! ### Chunks of a text that is cut -/

section

variable {cs : List Char} {n : Nat}

/-- A span that ends before the cut. -/
theorem spanLength_take {p : Char → Bool} (h : spanLength p cs ≤ n) :
    spanLength p (cs.take n) = spanLength p cs := by
  unfold spanLength at h ⊢
  rw [← List.take_takeWhile, List.take_of_length_le h]

theorem numeralLength_take (h : numeralLength cs ≤ n) : numeralLength (cs.take n) = numeralLength cs := by
  have hwhole : spanLength isAsciiDigit cs ≤ n := Nat.le_trans (numeralLength_bounds cs).1 h
  unfold numeralLength at h ⊢
  dsimp only at h ⊢
  rw [spanLength_take hwhole, List.drop_take]
  generalize spanLength isAsciiDigit cs = whole at *
  cases hrest : cs.drop whole with
  | nil => rw [List.take_nil]
  | cons c rest =>
    by_cases hc : c = '.'
    · subst hc
      simp only [hrest] at h
      cases hcut : n - whole with
      | zero =>
        -- no room is left behind the point, so there are no digits
        have hnone : spanLength isAsciiDigit rest = 0 := by
          split at h <;> omega
        simp only [List.take_zero, hnone, if_pos]
      | succ m =>
        have hfraction : spanLength isAsciiDigit rest ≤ m := by
          split at h <;> omega
        simp only [List.take_succ_cons, spanLength_take hfraction]
    · cases n - whole <;> simp [hc]

theorem operatorAt?_take {op : List Char × TokenKind} (h : operatorAt? cs = some op)
    (hn : op.1.length ≤ n) : operatorAt? (cs.take n) = some op := by
  unfold operatorAt? at h ⊢
  obtain ⟨hop, before, after, hall, hbefore⟩ := List.find?_eq_some_iff_append.mp h
  refine List.find?_eq_some_iff_append.mpr ⟨?_, before, after, hall, fun other hother => ?_⟩
  · rw [List.isPrefixOf_iff_prefix] at hop ⊢
    exact List.prefix_take_iff.mpr ⟨hop, hn⟩
  · have hnot := hbefore other hother
    rw [Bool.not_eq_true', Bool.eq_false_iff, ne_eq, List.isPrefixOf_iff_prefix] at hnot ⊢
    exact fun hshort => hnot (hshort.trans (List.take_prefix ..))

/-- A comment has two characters at least. -/
theorem nextItem_take_of_le {p : Chunk} (hcs : cs ≠ []) (h : chunk? cs = some p) (hn : p.length ≤ n) :
    nextItem (cs.take n) = nextItem cs := by
  have hpos := (chunk?_bounds hcs h).1
  match cs, n with
  | [], _ => exact absurd rfl hcs
  | _ :: _, 0 => omega
  | c :: cs, 1 =>
    have hno : ¬ (c = '/' ∧ cs.head? = some '/') := by
      rintro ⟨rfl, hhead⟩
      obtain ⟨rest, rfl⟩ := List.head?_eq_some_iff.mp hhead
      cases h
      have hlength : 2 ≤ spanLength inComment ('/' :: '/' :: rest) := by
        rw [spanLength_cons, spanLength_cons]
        simp [show inComment '/' = true from rfl]
      exact absurd (Nat.le_trans hlength hn) (by decide)
    rw [List.take_succ_cons, List.take_zero, nextItem_cons, nextItem_cons, if_neg hno, if_neg (by simp)]
  | c :: [], n + 2 => rfl
  | c :: c' :: cs, n + 2 =>
    rw [List.take_succ_cons, List.take_succ_cons, nextItem_cons, nextItem_cons]
    rfl

/-- A chunk that ends before the cut. -/
theorem chunk?_take {p : Chunk} (hcs : cs ≠ []) (h : chunk? cs = some p) (hn : p.length ≤ n) :
    chunk? (cs.take n) = some p := by
  have hitem := nextItem_take_of_le hcs h hn
  have htake : ∀ m ≤ n, (cs.take n).take m = cs.take m := fun m hm => by
    rw [List.take_take, Nat.min_eq_left hm]
  unfold chunk? at h ⊢
  rw [hitem]
  cases hnext : nextItem cs with
  | space | comment =>
    rw [hnext] at h
    cases h
    simp only [spanLength_take hn]
  | string =>
    rw [hnext] at h
    dsimp only at h ⊢
    split at h
    · cases h
    · rename_i hrest
      cases h
      dsimp only at hn
      have hspan : spanLength (· ≠ '"') ((cs.take n).drop 1) = spanLength (· ≠ '"') (cs.drop 1) := by
        rw [List.drop_take]
        exact spanLength_take (by omega)
      rw [hspan, htake _ hn, if_neg]
      simp only [List.isEmpty_iff, List.drop_eq_nil_iff, List.length_take] at hrest ⊢
      omega
  | number =>
    rw [hnext] at h
    cases h
    dsimp only at hn ⊢
    rw [numeralLength_take hn, htake _ hn]
  | word =>
    rw [hnext] at h
    cases h
    have hlength : wordLength (cs.take n) = wordLength cs := spanLength_take hn
    dsimp only at hn ⊢
    rw [hlength, htake _ hn]
  | operator =>
    rw [hnext] at h
    dsimp only at h ⊢
    obtain ⟨op, hop, rfl⟩ := Option.map_eq_some_iff.mp h
    rw [operatorAt?_take hop hn]
    rfl

end

/-- **A text cut before a token.** The text before it has the tokens before it, and the rest of the text
those from it on. -/
theorem Scans.cut {pos : Nat} {cs : List Char} {before behind : List Token} {t : Token}
    (h : Scans pos cs (before ++ t :: behind)) : ∃ n : Nat, t.offset = (pos + n : Nat) ∧
      n < cs.length ∧ Scans pos (cs.take n) before ∧ Scans (pos + n) (cs.drop n) (t :: behind) := by
  generalize hts : before ++ t :: behind = ts at h
  induction h generalizing before with
  | done => cases before <;> cases hts
  | @chunk pos cs p ts hcs hp hrest ih =>
    obtain ⟨hpos, hle⟩ := chunk?_bounds hcs hp
    -- where the cut is behind the first chunk, with the tokens of that
    have further : ∀ {rest : List Token}, rest ++ t :: behind = ts →
        ∃ n : Nat, t.offset = (pos + n : Nat) ∧ n < cs.length ∧
          Scans pos (cs.take n) (p.tokens pos cs ++ rest) ∧
            Scans (pos + n) (cs.drop n) (t :: behind) := by
      intro rest heq
      obtain ⟨n, hoffset, hlt, hbefore, hbehind⟩ := ih heq
      rw [List.length_drop] at hlt
      have htokens : p.tokens pos (cs.take (p.length + n)) = p.tokens pos cs := by
        unfold Chunk.tokens
        rw [List.take_take, Nat.min_eq_left (Nat.le_add_right ..)]
      refine ⟨p.length + n, by rw [hoffset, Nat.add_assoc], by omega, ?_, ?_⟩
      · rw [← htokens]
        refine .chunk ?_ (chunk?_take hcs hp (Nat.le_add_right ..)) ?_
        · rw [← List.length_pos_iff, List.length_take]
          omega
        · rwa [List.drop_take, Nat.add_sub_cancel_left]
      · rwa [← Nat.add_assoc, ← List.drop_drop]
    obtain ⟨more, hfirst, hmore⟩ | ⟨rest, rfl, heq⟩ := List.append_eq_append_iff.mp hts
    · cases more with
      | nil =>
        obtain ⟨n, hn⟩ := @further [] hmore
        rw [hfirst, List.append_nil, List.append_nil] at hn
        exact ⟨n, hn⟩
      | cons u more =>
        -- the chunk has one token at most, so the cut is in front of it
        obtain ⟨rfl, -⟩ := List.cons.inj hmore
        have hone : (p.tokens pos cs).length ≤ 1 := by
          unfold Chunk.tokens
          cases p.token <;> simp
        rw [hfirst, List.length_append, List.length_cons] at hone
        obtain rfl : before = [] := List.length_eq_zero_iff.mp (by omega)
        have ht : t ∈ p.tokens pos cs := by
          rw [hfirst]
          exact List.mem_cons_self ..
        refine ⟨0, Chunk.offset_tokens t ht, List.length_pos_iff.mpr hcs, .done, ?_⟩
        rw [List.nil_append] at hts
        rw [hts, List.drop_zero]
        exact .chunk hcs hp hrest
    · exact further heq.symm

/-! ### A declaration on a line of its own -/

/-- The text with a declaration of the name on a line of its own, before the character at the place. -/
def withDeclaration (source : String) (place : Nat) (name : String) : String :=
  String.ofList (source.toList.take place) ++ "\nvar " ++ name ++ ";\n" ++
    String.ofList (source.toList.drop place)

/-- The tokens of a declaration without an initializer, at offsets that no text has. -/
def declarationTokens (name : String) : List Token :=
  [⟨.kwVar, "var", .nil, -2⟩, ⟨.identifier, name, .nil, -1⟩, ⟨.semicolon, ";", .nil, -3⟩]

/-- White space of one character in front. -/
theorem Scans.ahead_char {pos : Nat} {c : Char} {cs : List Char} {ts : List Token} (hc : isSpace c = true)
    (h : Scans (pos + 1) cs ts) : Scans pos (c :: cs) ts := by
  have hgap : ∀ d ∈ [c], isSpace d = true := fun d hd => by rwa [List.mem_singleton.mp hd]
  exact Scans.ahead_space hgap h

/-- The line of a declaration and behind it the rest of a text. -/
theorem Scans.declaration {pos : Nat} {name : String} (hname : IsName name) {cs : List Char}
    {ts : List Token} (h : Scans (pos + name.toList.length + 6) cs ts) : ∃ us,
      Scans pos ('v' :: 'a' :: 'r' :: ' ' :: (name.toList ++ ';' :: '\n' :: cs)) (us ++ ts) ∧
        us.map Token.word = (declarationTokens name).map Token.word := by
  have hline : Scans (pos + name.toList.length + 5) ('\n' :: cs) ts := .ahead_char rfl h
  have hsemi : Scans (pos + name.toList.length + 4) (';' :: '\n' :: cs)
      (⟨.semicolon, ";", .nil, (pos + name.toList.length + 4 : Nat)⟩ :: ts) :=
    .chunk (p := ⟨1, some (.semicolon, .nil)⟩) (List.cons_ne_nil _ _) rfl hline
  have hsame : SameToWord (';' :: '\n' :: cs) (';' :: '\n' :: cs) := by
    have happend := SameToWord.done.append (';' :: '\n' :: cs)
    rwa [List.append_nil] at happend
  have hword : Scans (pos + 4) (name.toList ++ ';' :: '\n' :: cs)
      (⟨.identifier, name, .nil, (pos + 4 : Nat)⟩ :: _) :=
    .name hname hsame (by rw [spanLength_cons]; rfl) (by rwa [Nat.add_right_comm])
  have hspace : Scans (pos + 3) (' ' :: (name.toList ++ ';' :: '\n' :: cs)) _ := .ahead_char rfl hword
  have hvar : Scans pos ('v' :: 'a' :: 'r' :: ' ' :: (name.toList ++ ';' :: '\n' :: cs))
      (⟨.kwVar, "var", .nil, pos⟩ :: _) :=
    .chunk (p := ⟨3, some (.kwVar, .nil)⟩) (List.cons_ne_nil _ _) rfl hspace
  exact ⟨[_, _, _], hvar, rfl⟩

/-- The tokens of a text with a declaration before one of them. -/
theorem Scans.scan_withDeclaration {source name : String} (hname : IsName name)
    {before behind : List Token} {t : Token} (h : Scans 0 source.toList (before ++ t :: behind)) :
    ∃ ts e, scan (withDeclaration source t.offset.toNat name) = ⟨ts ++ [.eof e], []⟩ ∧
      ts.map Token.word = (before ++ declarationTokens name ++ t :: behind).map Token.word := by
  obtain ⟨n, hoffset, hlt, hbefore, hbehind⟩ := h.cut
  have hplace : t.offset.toNat = n := by
    rw [hoffset]
    omega
  have hlength : (source.toList.take n).length = n := List.length_take_of_le (Nat.le_of_lt hlt)
  have hmoved := hbehind.shift (name.toList.length + 7)
  rw [show 0 + n + (name.toList.length + 7) = n + 1 + name.toList.length + 6 by omega] at hmoved
  obtain ⟨us, hus, hwords⟩ := Scans.declaration hname hmoved
  have hall := hbefore.join (by rwa [hlength, Nat.zero_add])
  have htext : (withDeclaration source t.offset.toNat name).toList = source.toList.take n ++
      '\n' :: 'v' :: 'a' :: 'r' :: ' ' :: (name.toList ++ ';' :: '\n' :: source.toList.drop n) := by
    simp [withDeclaration, hplace]
  rw [← htext] at hall
  refine ⟨_, _, scan_of_scans hall, ?_⟩
  rw [List.map_append, List.map_append, List.map_append, List.map_append, hwords, List.append_assoc,
    List.map_map]
  rfl

end Lox
