/-
# Where two texts meet

A line feed is part of no token but a string and ends every comment. So what is
read of two texts with a line feed between them is what is read of the first
and behind it what is read of the second, moved by as much as stands before it,
provided that the first leaves no string open.

Key theorems: `Lox.chunk?_append`, `Lox.Reads.join`, `Lox.scan_join`.
-/
import Lox.Proofs.Spelling.Respelling
import Lox.Proofs.Scanner.Reads

namespace Lox

open Scanner Text

/-! ### What follows a chunk -/

/-- An operator has no line feed, so it ends where it did. -/
theorem operatorAt?_append (cs more : List Char) :
    operatorAt? (cs ++ '\n' :: more) = operatorAt? cs := by
  unfold operatorAt?
  have hsame : ∀ op ∈ operators, op.1.isPrefixOf (cs ++ '\n' :: more) = op.1.isPrefixOf cs := by
    intro op hop
    have hnl := (operators_bounds op hop).2
    rw [Bool.eq_iff_iff, List.isPrefixOf_iff_prefix, List.isPrefixOf_iff_prefix]
    refine ⟨fun h => ?_, fun h => h.trans (List.prefix_append ..)⟩
    by_cases hle : op.1.length ≤ cs.length
    · exact List.prefix_of_prefix_length_le h (List.prefix_append ..) hle
    · have hone : cs ++ ['\n'] <+: op.1 := by
        refine List.prefix_of_prefix_length_le ⟨more, by simp⟩ h ?_
        simp only [List.length_append, List.length_singleton]
        omega
      exact absurd (hone.subset (by simp)) hnl
  generalize operators = ops at hsame
  induction ops with
  | nil => rfl
  | cons op ops ih =>
    rw [List.find?_cons, List.find?_cons, hsame op List.mem_cons_self,
      ih fun op' h => hsame op' (List.mem_cons_of_mem _ h)]

theorem numeralLength_append (cs more : List Char) :
    numeralLength (cs ++ '\n' :: more) = numeralLength cs := by
  have hwhole : spanLength isAsciiDigit (cs ++ '\n' :: more) = spanLength isAsciiDigit cs :=
    spanLength_append_cons rfl
  have hdrop : (cs ++ '\n' :: more).drop (spanLength isAsciiDigit cs) =
      cs.drop (spanLength isAsciiDigit cs) ++ '\n' :: more :=
    List.drop_append_of_le_length (spanLength_le ..)
  unfold numeralLength
  dsimp only
  rw [hwhole, hdrop]
  generalize cs.drop (spanLength isAsciiDigit cs) = rest
  cases rest with
  | nil => rfl
  | cons c rest =>
    by_cases hc : c = '.'
    · subst hc
      have hfraction : spanLength isAsciiDigit (rest ++ '\n' :: more) = spanLength isAsciiDigit rest :=
        spanLength_append_cons rfl
      simp only [List.cons_append, hfraction]
    · simp [hc]

theorem nextItem_append {cs : List Char} (hcs : cs ≠ []) (more : List Char) :
    nextItem (cs ++ '\n' :: more) = nextItem cs := by
  cases cs with
  | nil => exact absurd rfl hcs
  | cons c cs =>
    have hhead : (cs ++ '\n' :: more).head? = some '/' ↔ cs.head? = some '/' := by
      cases cs <;> simp
    rw [List.cons_append, nextItem_cons, nextItem_cons]
    simp only [hhead]

/-- A chunk that is no white space ends where it did if a line feed follows. -/
theorem chunk?_append {cs : List Char} {p : Chunk} (hcs : cs ≠ []) (hspace : nextItem cs ≠ .space)
    (h : chunk? cs = some p) (more : List Char) : chunk? (cs ++ '\n' :: more) = some p := by
  have htake : ∀ n ≤ cs.length, (cs ++ '\n' :: more).take n = cs.take n :=
    fun n hn => List.take_append_of_le_length hn
  unfold chunk? at h ⊢
  rw [nextItem_append hcs]
  cases hitem : nextItem cs with
  | space => exact absurd hitem hspace
  | comment =>
    rw [hitem] at h
    have hspan : spanLength inComment (cs ++ '\n' :: more) = spanLength inComment cs :=
      spanLength_append_cons rfl
    rw [← h]
    simp only [hspan]
  | string =>
    rw [hitem] at h
    dsimp only at h ⊢
    split at h
    · cases h
    · rename_i hrest
      have hlt : 1 + spanLength (· ≠ '"') (cs.drop 1) < cs.length := by
        simpa using hrest
      have hdrop : (cs ++ '\n' :: more).drop 1 = cs.drop 1 ++ '\n' :: more :=
        List.drop_append_of_le_length (by omega)
      have hspan : spanLength (· ≠ '"') (cs.drop 1 ++ '\n' :: more) =
          spanLength (· ≠ '"') (cs.drop 1) := by
        refine spanLength_append_of_lt ?_
        rw [List.length_drop]
        omega
      rw [hdrop, hspan, htake _ (by omega), if_neg ?_]
      · exact h
      · simp only [List.isEmpty_iff, List.drop_eq_nil_iff, List.length_append, List.length_cons]
        omega
  | number =>
    rw [hitem] at h
    dsimp only at h ⊢
    rw [numeralLength_append, htake _ (numeralLength_bounds cs).2]
    exact h
  | word =>
    rw [hitem] at h
    have hspan : wordLength (cs ++ '\n' :: more) = wordLength cs :=
      spanLength_append_cons (by decide)
    have hle : wordLength cs ≤ cs.length := spanLength_le ..
    dsimp only at h ⊢
    rw [hspan, htake _ hle]
    exact h
  | operator =>
    rw [hitem] at h
    dsimp only at h ⊢
    rw [operatorAt?_append]
    exact h

/-- A character that begins nothing begins nothing if a line feed follows. -/
theorem chunk?_append_none {c : Char} {cs : List Char} (hc : c ≠ '"') (h : chunk? (c :: cs) = none)
    (more : List Char) : chunk? (c :: cs ++ '\n' :: more) = none := by
  have hspec := nextItem_spec c cs
  unfold chunk? at h ⊢
  rw [nextItem_append (List.cons_ne_nil c cs)]
  cases hitem : nextItem (c :: cs) with
  | space | comment | number | word =>
    rw [hitem] at h
    cases h
  | string =>
    rw [hitem] at hspec
    exact absurd hspec hc
  | operator =>
    rw [hitem] at h
    dsimp only at h ⊢
    rw [operatorAt?_append]
    exact h

/-! ### Two texts -/

/-- The tokens and the reports of two texts with a line feed between them, if no string of the first
one is left open. -/
theorem Reads.join {pos : Nat} {cs more : List Char} {ts us : List Token} {ds es : List Diagnostic}
    (h : Reads pos cs ts ds) (hclosed : ∀ d ∈ ds, d.message ≠ "Unterminated string.")
    (hmore : Reads (pos + cs.length + 1) more us es) :
    Reads pos (cs ++ '\n' :: more) (ts ++ us) (ds ++ es) := by
  induction h with
  | @done pos =>
    have hgap : ∀ c ∈ ['\n'], isSpace c = true := by
      intro c hc
      rw [List.mem_singleton.mp hc]
      rfl
    show Reads pos (['\n'] ++ more) us es
    exact .ahead_space hgap hmore
  | @chunk pos cs p ts ds hcs hp _ ih =>
    obtain ⟨_, hle⟩ := chunk?_bounds hcs hp
    have hpos : pos + p.length + (cs.drop p.length).length + 1 = pos + cs.length + 1 := by
      rw [List.length_drop]
      omega
    have hrest := ih hclosed (by rwa [hpos])
    by_cases hspace : nextItem cs = .space
    · -- white space may run on behind the line feed, so it is read as a gap
      unfold chunk? at hp
      rw [hspace] at hp
      cases hp
      rw [show cs ++ '\n' :: more = cs.take (spanLength isSpace cs) ++
        (cs.drop (spanLength isSpace cs) ++ '\n' :: more) by
          rw [← List.append_assoc, List.take_append_drop]]
      refine .ahead_space all_of_mem_span ?_
      rw [List.length_take, Nat.min_eq_left (spanLength_le ..)]
      exact hrest
    · have htokens : p.tokens pos (cs ++ '\n' :: more) = p.tokens pos cs := by
        unfold Chunk.tokens
        rw [List.take_append_of_le_length hle]
      rw [List.append_assoc, ← htokens]
      refine .chunk (by simp) (chunk?_append hcs hspace hp more) ?_
      rw [List.drop_append_of_le_length hle]
      exact hrest
  | @strange pos c cs ts ds hne hnone _ ih =>
    have hpos : pos + 1 + cs.length + 1 = pos + (c :: cs).length + 1 := by
      rw [List.length_cons]
      omega
    refine .strange hne (chunk?_append_none hne hnone more) ?_
    exact ih (fun d hd => hclosed d (List.mem_cons_of_mem _ hd)) (by rwa [hpos])
  | openString => exact absurd rfl (hclosed _ List.mem_cons_self)

/-- The tokens of two texts with a line feed between them. -/
theorem Scans.join {pos : Nat} {cs more : List Char} {ts us : List Token} (h : Scans pos cs ts)
    (hmore : Scans (pos + cs.length + 1) more us) :
    Scans pos (cs ++ '\n' :: more) (ts ++ us) :=
  (h.reads.join (fun _ hd => nomatch hd) hmore.reads).scans rfl

/-- The same characters further on make the same tokens further on. -/
theorem Scans.shift {pos : Nat} {cs : List Char} {ts : List Token} (h : Scans pos cs ts) (k : Nat) :
    Scans (pos + k) cs (ts.map (Token.respell (.moving (· + k)))) := by
  induction h with
  | done => exact .done
  | @chunk pos cs p ts hcs hp _ ih =>
    have htokens : (p.tokens pos cs).map (Token.respell (.moving (· + k))) = p.tokens (pos + k) cs := by
      unfold Chunk.tokens
      cases p.token <;> simp [Token.respell, Respelling.moving]
    rw [List.map_append, htokens]
    refine .chunk hcs hp ?_
    rwa [Nat.add_right_comm]

/-- The tokens of a chunk begin where it begins. -/
theorem Chunk.offset_tokens {p : Chunk} {pos : Nat} {cs : List Char} :
    ∀ t ∈ p.tokens pos cs, t.offset = pos := by
  intro t ht
  obtain ⟨_, _, rfl⟩ := Option.map_eq_some_iff.mp (Option.mem_toList.mp ht)
  rfl

/-- The tokens from a position on stand there or behind, one behind the other. -/
theorem Scans.increasing {pos : Nat} {cs : List Char} {ts : List Token} (h : Scans pos cs ts) :
    (∀ t ∈ ts, (pos : Int) ≤ t.offset) ∧ (ts.map Token.offset).Pairwise (· < ·) := by
  induction h with
  | done => simp
  | @chunk pos cs p ts hcs hchunk _ ih =>
    obtain ⟨hlater, hsorted⟩ := ih
    have hpos := (chunk?_bounds hcs hchunk).1
    have hbehind : ∀ t ∈ ts, (pos : Int) < t.offset := by
      intro t ht
      have hle := hlater t ht
      push_cast at hle
      omega
    unfold Chunk.tokens
    cases p.token with
    | none => exact ⟨fun t ht => Int.le_of_lt (hbehind t ht), hsorted⟩
    | some _ =>
      refine ⟨List.forall_mem_cons.mpr ⟨Int.le_refl _, fun t ht => Int.le_of_lt (hbehind t ht)⟩, ?_⟩
      refine List.pairwise_cons.mpr ⟨fun offset ho => ?_, hsorted⟩
      obtain ⟨t, ht, rfl⟩ := List.mem_map.mp ho
      exact hbehind t ht

/-- The tokens stand before the end of the characters. -/
theorem Scans.offset_lt {pos : Nat} {cs : List Char} {ts : List Token} (h : Scans pos cs ts) :
    ∀ t ∈ ts, t.offset < (pos + cs.length : Nat) := by
  induction h with
  | done => exact fun _ ht => nomatch ht
  | @chunk pos cs p ts hcs hchunk _ ih =>
    obtain ⟨hpos, hle⟩ := chunk?_bounds hcs hchunk
    intro t ht
    obtain ht | ht := List.mem_append.mp ht
    · rw [Chunk.offset_tokens t ht]
      omega
    · have hlt := ih t ht
      rw [List.length_drop] at hlt
      omega

/-- **Where two texts meet.** If nothing is reported of two texts, the tokens of both with a line feed
between them are those of the first and, moved, those of the second. -/
theorem scan_join {source more : String} (h : (scan source).diagnostics = [])
    (hmore : (scan more).diagnostics = []) :
    ∃ ts us a b c, scan source = ⟨ts ++ [.eof a], []⟩ ∧ scan more = ⟨us ++ [.eof b], []⟩ ∧
      scan (source ++ "\n" ++ more) =
        ⟨ts ++ us.map (Token.respell (.moving (· + (source.toList.length + 1 : Nat)))) ++ [.eof c], []⟩ := by
  obtain ⟨ts, hts⟩ := scans_of_scan h
  obtain ⟨us, hus⟩ := scans_of_scan hmore
  have hshift := hus.shift (source.toList.length + 1)
  rw [Nat.zero_add] at hshift
  have hboth := hts.join (by rwa [Nat.zero_add])
  have htext : (source ++ "\n" ++ more).toList = source.toList ++ '\n' :: more.toList := by
    simp
  rw [← htext] at hboth
  exact ⟨ts, us, _, _, _, scan_of_scans hts, scan_of_scans hus, scan_of_scans hboth⟩

end Lox
