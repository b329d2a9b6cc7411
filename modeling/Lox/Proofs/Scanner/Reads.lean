/-
# Reading a text to its end

The scanner reads a text chunk by chunk, reports the characters that begin
none, and stops at a string that is not closed. `Lox.Reads` says so without
the scanner's state: which tokens and which reports there are from a position
on. There is exactly one reading of every text (`Lox.scan_reads`,
`Lox.Reads.unique`), so a scan is known as soon as a reading is
(`Lox.scan_of_reads`). `Lox.Scans` is a reading without reports.

Key definitions: `Lox.Reads`, `Lox.Scans`.
Key theorems: `Lox.scan_reads`, `Lox.Reads.unique`, `Lox.scan_of_reads`, `Lox.scan_of_scans`.
-/
import Lox.Proofs.Scanner.Chunks

namespace Lox

open Scanner Text

/-- The report of a character that begins nothing. -/
def unexpected (c : Char) (offset : Nat) : Diagnostic :=
  ⟨.lexical, offset, "Unexpected character '" ++ String.ofList [c] ++ "'."⟩

/-- The report of a string that is not closed. -/
def unterminated (offset : Nat) : Diagnostic :=
  ⟨.lexical, offset, "Unterminated string."⟩

/-- The tokens and the reports of the characters from a position on. -/
inductive Reads : Nat → List Char → List Token → List Diagnostic → Prop
  | done {pos : Nat} : Reads pos [] [] []
  | chunk {pos : Nat} {cs : List Char} {p : Chunk} {ts : List Token} {ds : List Diagnostic} :
      cs ≠ [] → chunk? cs = some p → Reads (pos + p.length) (cs.drop p.length) ts ds →
      Reads pos cs (p.tokens pos cs ++ ts) ds
  | strange {pos : Nat} {c : Char} {cs : List Char} {ts : List Token} {ds : List Diagnostic} :
      c ≠ '"' → chunk? (c :: cs) = none → Reads (pos + 1) cs ts ds →
      Reads pos (c :: cs) ts (unexpected c pos :: ds)
  | openString {pos : Nat} {inner : List Char} : '"' ∉ inner →
      Reads pos ('"' :: inner) [] [unterminated (pos + ('"' :: inner).length)]

/-- The tokens of the characters from a position on, none of which is reported. -/
inductive Scans : Nat → List Char → List Token → Prop
  | done {pos : Nat} : Scans pos [] []
  | chunk {pos : Nat} {cs : List Char} {p : Chunk} {ts : List Token} : cs ≠ [] →
      chunk? cs = some p → Scans (pos + p.length) (cs.drop p.length) ts →
      Scans pos cs (p.tokens pos cs ++ ts)

/-! ### One reading -/

/-- A string that is not closed is no chunk. -/
theorem chunk?_openString {inner : List Char} (h : '"' ∉ inner) : chunk? ('"' :: inner) = none := by
  have hspan := spanLength_unquoted h []
  rw [List.append_nil] at hspan
  have hspan : spanLength (· ≠ '"') inner = inner.length := hspan
  rw [chunk?, nextItem_quote]
  simp only [List.drop_succ_cons, List.drop_zero, hspan, Nat.add_comm 1, List.drop_length]
  rfl

section

variable {pos : Nat} {cs : List Char} {ts us : List Token} {ds es : List Diagnostic}

/-- There is one reading of a text. -/
theorem Reads.unique (h : Reads pos cs ts ds) : ∀ {us es}, Reads pos cs us es → us = ts ∧ es = ds := by
  induction h with
  | done =>
    intro us es h'
    cases h' with
    | done => exact ⟨rfl, rfl⟩
    | chunk hcs => exact absurd rfl hcs
  | chunk hcs hp _ ih =>
    intro us es h'
    cases h' with
    | done => exact absurd rfl hcs
    | chunk _ hp' h' =>
      obtain rfl := Option.some.inj (hp.symm.trans hp')
      obtain ⟨rfl, rfl⟩ := ih h'
      exact ⟨rfl, rfl⟩
    | strange _ hp' => rw [hp] at hp'; cases hp'
    | openString hinner => rw [chunk?_openString hinner] at hp; cases hp
  | strange hc hp _ ih =>
    intro us es h'
    cases h' with
    | chunk _ hp' => rw [hp] at hp'; cases hp'
    | strange _ _ h' =>
      obtain ⟨rfl, rfl⟩ := ih h'
      exact ⟨rfl, rfl⟩
    | openString => exact absurd rfl hc
  | openString hinner =>
    intro us es h'
    cases h' with
    | chunk _ hp' => rw [chunk?_openString hinner] at hp'; cases hp'
    | strange hc => exact absurd rfl hc
    | openString => exact ⟨rfl, rfl⟩

/-- The reports point to the position or behind it. -/
theorem Reads.reported (h : Reads pos cs ts ds) : ∀ d ∈ ds, (pos : Int) ≤ d.offset := by
  induction h with
  | done => exact fun _ hd => nomatch hd
  | chunk _ _ _ ih =>
    intro d hd
    have hle := ih d hd
    omega
  | @strange pos c _ _ ds _ _ _ ih =>
    refine List.forall_mem_cons.mpr ⟨Int.le_refl _, fun d hd => ?_⟩
    have hle := ih d hd
    omega
  | openString =>
    intro d hd
    rw [List.mem_singleton.mp hd]
    exact Int.ofNat_le.mpr (Nat.le_add_right ..)

theorem Scans.reads (h : Scans pos cs ts) : Reads pos cs ts [] := by
  induction h with
  | done => exact .done
  | chunk hcs hp _ ih => exact .chunk hcs hp ih

theorem Reads.scans (h : Reads pos cs ts ds) (hds : ds = []) : Scans pos cs ts := by
  induction h with
  | done => exact .done
  | chunk hcs hp _ ih => exact .chunk hcs hp (ih hds)
  | strange | openString => cases hds

end

/-! ### White space -/

section

variable {pos : Nat} {gap cs : List Char} {ts : List Token} {ds : List Diagnostic}

/-- White space may be left out in front. -/
theorem Reads.behind_space (h : Reads pos cs ts ds) :
    Reads (pos + spanLength isSpace cs) (cs.drop (spanLength isSpace cs)) ts ds := by
  -- only a chunk can begin with white space
  have solid {c : Char} {cs : List Char} (hc : isSpace c = false)
      (h : Reads pos (c :: cs) ts ds) :
      Reads (pos + spanLength isSpace (c :: cs))
        ((c :: cs).drop (spanLength isSpace (c :: cs))) ts ds := by
    rw [spanLength_cons, if_neg (by simp [hc])]
    exact h
  cases h with
  | done => exact .done
  | @chunk _ _ p ts _ hcs hp h =>
    obtain ⟨c, cs, rfl⟩ := List.exists_cons_of_ne_nil hcs
    cases hc : isSpace c with
    | false => exact solid hc (.chunk hcs hp h)
    | true =>
      rw [chunk?, isSpace_of_nextItem.mpr hc] at hp
      cases hp
      exact h
  | @strange _ c cs _ _ hne hp h =>
    refine solid (Bool.eq_false_iff.mpr fun hc => ?_) (.strange hne hp h)
    rw [chunk?, isSpace_of_nextItem.mpr hc] at hp
    cases hp
  | openString hinner => exact solid rfl (.openString hinner)

/-- White space may stand in front. -/
theorem Reads.ahead_space (hgap : ∀ c ∈ gap, isSpace c = true)
    (h : Reads (pos + gap.length) cs ts ds) : Reads pos (gap ++ cs) ts ds := by
  cases gap with
  | nil => exact h
  | cons c gap =>
    have hspan : spanLength isSpace (c :: gap ++ cs) = (c :: gap).length + spanLength isSpace cs :=
      spanLength_append_of_all hgap
    have hp : chunk? (c :: gap ++ cs) = some ⟨spanLength isSpace (c :: gap ++ cs), none⟩ := by
      unfold chunk?
      rw [List.cons_append, isSpace_of_nextItem.mpr (hgap c List.mem_cons_self)]
    refine Reads.chunk (by simp) hp ?_
    have hbehind := h.behind_space
    rw [hspan, ← Nat.add_assoc, ← List.drop_drop, List.drop_left]
    exact hbehind

theorem Scans.ahead_space (hgap : ∀ c ∈ gap, isSpace c = true)
    (h : Scans (pos + gap.length) cs ts) : Scans pos (gap ++ cs) ts :=
  (h.reads.ahead_space hgap).scans rfl

end

/-! ### The scanner reads -/

/-- The scanner reads a text to its end. -/
theorem Scanner.scanAll_reads : ∀ {fuel : Nat} {s : Scanner}, s.rest.length ≤ fuel →
    ∃ ts ds, Reads s.pos s.rest ts ds ∧ (scanAll fuel s).tokens = s.tokens ++ ts.toArray ∧
      (scanAll fuel s).diagnostics = s.diagnostics ++ ds.toArray ∧ (scanAll fuel s).rest = [] ∧
      (scanAll fuel s).pos = s.pos + s.rest.length := by
  intro fuel
  induction fuel with
  | zero =>
    intro s hfuel
    have hrest := List.eq_nil_of_length_eq_zero (Nat.le_zero.mp hfuel)
    rw [scanAll_nil hrest, hrest]
    exact ⟨[], [], .done, by simp, by simp, rfl, rfl⟩
  | succ fuel ih =>
    intro s hfuel
    by_cases hrest : s.rest = []
    · rw [scanAll_nil hrest, hrest]
      exact ⟨[], [], .done, by simp, by simp, rfl, rfl⟩
    rw [scanAll_cons hrest]
    cases hp : chunk? s.rest with
    | some p =>
      obtain ⟨hpos, hle⟩ := chunk?_bounds hrest hp
      have hstep : s.mark.scanToken = s.mark.past p := scanToken_of_chunk rfl hrest hp
      have hlength : (s.mark.past p).rest.length = s.rest.length - p.length := List.length_drop
      obtain ⟨ts, ds, hreads, htokens, hreports, hnil, hend⟩ :=
        ih (s := s.mark.past p) (by omega)
      rw [hstep]
      refine ⟨_, ds, .chunk hrest hp hreads, ?_, hreports, hnil, ?_⟩
      · rw [htokens]
        simp [past, mark]
      · rw [hend, hlength]
        show s.pos + p.length + _ = _
        omega
    | none =>
      rcases scanToken_reported (s := s.mark) rfl hrest hp with
        ⟨inner, hinner, hquote, hstep⟩ | ⟨c, tail, hcons, hc, hstep⟩
      · -- nothing is left to be read
        have hinner : s.rest = '"' :: inner := hinner
        have hnil : s.mark.scanToken.rest = [] := by
          rw [hstep, advance_eq (Nat.le_refl _)]
          exact List.drop_length
        rw [scanAll_nil hnil, hnil, hstep, advance_eq (Nat.le_refl _)]
        refine ⟨[], _, by rw [hinner]; exact .openString hquote, ?_, ?_, rfl, rfl⟩
        · simp [error, mark]
        · simp [error, mark, unterminated, hinner]
      · have hcons : s.rest = c :: tail := hcons
        have hone : 1 ≤ s.mark.rest.length := List.length_pos_iff.mpr hrest
        have htail : s.mark.scanToken.rest = tail := by
          rw [hstep, advance_eq hone]
          show s.rest.drop 1 = tail
          rw [hcons]
          rfl
        have hplace : s.mark.scanToken.pos = s.pos + 1 := by
          rw [hstep, advance_eq hone]
          rfl
        have hless : tail.length ≤ fuel := by
          rw [hcons] at hfuel
          exact Nat.le_of_succ_le_succ hfuel
        obtain ⟨ts, ds, hreads, htokens, hreports, hnil, hend⟩ :=
          ih (s := s.mark.scanToken) (by rwa [htail])
        rw [htail, hplace] at hreads hend
        rw [hcons] at hp ⊢
        refine ⟨ts, _, .strange hc hp hreads, ?_, ?_, hnil, ?_⟩
        · rw [htokens, hstep, advance_eq hone]
          rfl
        · rw [hreports, hstep, advance_eq hone]
          simp [error, mark, unexpected]
        · rw [hend, List.length_cons]
          omega

/-- Every text has a reading, and it is what the scanner finds. -/
theorem scan_reads (source : String) : ∃ ts ds, Reads 0 source.toList ts ds ∧
    scan source = ⟨ts ++ [.eof source.toList.length], ds⟩ := by
  obtain ⟨ts, ds, hreads, htokens, hreports, hnil, hend⟩ :=
    scanAll_reads (s := .ofText source) (Nat.le_refl _)
  refine ⟨ts, ds, hreads, ?_⟩
  unfold scan tokenize
  dsimp only
  rw [htokens, hreports, hnil, hend]
  simp [ofText]

theorem scan_of_reads {source : String} {ts : List Token} {ds : List Diagnostic}
    (h : Reads 0 source.toList ts ds) : scan source = ⟨ts ++ [.eof source.toList.length], ds⟩ := by
  obtain ⟨us, es, hreads, hscan⟩ := scan_reads source
  obtain ⟨rfl, rfl⟩ := h.unique hreads
  exact hscan

/-- The tokens of a text of which nothing is reported, with the one that ends it. -/
theorem scan_of_scans {source : String} {ts : List Token} (h : Scans 0 source.toList ts) :
    scan source = ⟨ts ++ [.eof source.toList.length], []⟩ :=
  scan_of_reads h.reads

theorem scans_of_scan {source : String} (h : (scan source).diagnostics = []) :
    ∃ ts, Scans 0 source.toList ts := by
  obtain ⟨ts, ds, hreads, hscan⟩ := scan_reads source
  rw [hscan] at h
  exact ⟨ts, hreads.scans h⟩

end Lox
