/-
# Segments of a text

Reading cuts a text into segments that lie one behind the other: tokens, white
space, comments, characters that begin nothing, and at the end perhaps a string
that is never closed (`Lox.Segment`). A reading goes over them one by one, so
that the scan of a text is a list of them from its start to its end
(`Lox.Segments`). Everything that is said here of the tokens and of the reports
of a text is read off the segment that a place of the text lies in
(`Lox.Segments.locate`).

Key definitions: `Lox.Segment`, `Lox.Segments`, `Lox.Skipped`, `Lox.Segmentation`.
Key theorems: `Lox.Reads.segments`, `Lox.Segments.locate`, `Lox.scan_segmentation`.
-/
import Lox.Proofs.Scanner.Forms

namespace Lox

open Scanner Text

/-! ### What there is in a text -/

/-- The reports that point to the place. -/
def reportsAt (ds : List Diagnostic) (i : Nat) : List Diagnostic :=
  ds.filter fun d => d.offset = (i : Int)

/-- The token takes up the place. -/
def Token.Covers (t : Token) (i : Nat) : Prop := t.offset ≤ i ∧ i < t.stop

/-- A piece of the text between two places, with the token that it is and the report that it
causes, if any. A token is as long as can be; a comment ends where its line does, or at a NUL. -/
inductive Segment (cs : List Char) (start : Nat) :
    Nat → List Token → List Diagnostic → Prop
  | token {text rest : List Char} {kind : TokenKind} {literal : Literal} :
      cs.drop start = text ++ rest → text ≠ [] → Lexeme text kind literal → Longest text rest →
      Segment cs start (start + text.length) [⟨kind, String.ofList text, literal, start⟩] []
  | space {text rest : List Char} : cs.drop start = text ++ rest → text ≠ [] →
      (∀ c ∈ text, isSpace c = true) → Segment cs start (start + text.length) [] []
  | comment {body rest : List Char} : cs.drop start = '/' :: '/' :: body ++ rest →
      (∀ c ∈ body, inComment c = true) → (∀ c ∈ rest.head?, inComment c = false) →
      Segment cs start (start + (body.length + 2)) [] []
  | unexpected {c : Char} {rest : List Char} : cs.drop start = c :: rest →
      (∀ text tail, c :: rest = text ++ tail → ∀ kind literal, ¬ Lexeme text kind literal) →
      Segment cs start (start + 1) [] [Lox.unexpected c start]
  | openString {inner : List Char} : cs.drop start = '"' :: inner → '"' ∉ inner →
      Segment cs start cs.length [] [unterminated cs.length]

/-- The segments of the text from a place on, with their tokens and reports. -/
inductive Segments (cs : List Char) : Nat → List Token → List Diagnostic → Prop
  | done : Segments cs cs.length [] []
  | step {start stop : Nat} {ts us : List Token} {ds es : List Diagnostic} :
      Segment cs start stop ts ds → Segments cs stop us es → Segments cs start (ts ++ us) (ds ++ es)

section

variable {cs : List Char} {start stop i : Nat} {ts us : List Token} {ds es : List Diagnostic}

theorem Segment.bounds (h : Segment cs start stop ts ds) : start < stop ∧ stop ≤ cs.length := by
  have hlength : (cs.drop start).length = cs.length - start := List.length_drop
  cases h with
  | token hdrop hne | space hdrop hne =>
    have hpos := List.length_pos_iff.mpr hne
    rw [hdrop, List.length_append] at hlength
    omega
  | comment hdrop | unexpected hdrop | openString hdrop =>
    rw [hdrop] at hlength
    simp only [List.length_append, List.length_cons] at hlength
    omega

/-- A token of a segment takes up the whole of it. -/
theorem Segment.extent (h : Segment cs start stop ts ds) :
    ∀ t ∈ ts, t.offset = start ∧ t.stop = stop := by
  cases h with
  | token =>
    intro t ht
    rw [List.mem_singleton.mp ht]
    exact ⟨rfl, by simp [Token.stop]⟩
  | space | comment | unexpected | openString => exact fun t ht => nomatch ht

/-- A report of a segment points into it, or to the end of the text that it reaches. -/
theorem Segment.reported (h : Segment cs start stop ts ds) :
    ∀ d ∈ ds, (start : Int) ≤ d.offset ∧ (d.offset < stop ∨ stop = cs.length ∧ d.offset = stop) := by
  have hbounds := h.bounds
  cases h with
  | token | space | comment => exact fun d hd => nomatch hd
  | unexpected =>
    intro d hd
    rw [List.mem_singleton.mp hd]
    exact ⟨Int.le_refl _, .inl (Int.ofNat_lt.mpr hbounds.1)⟩
  | openString =>
    intro d hd
    rw [List.mem_singleton.mp hd]
    exact ⟨Int.ofNat_le.mpr (Nat.le_of_lt hbounds.1), .inr ⟨rfl, rfl⟩⟩

end

/-! ### The scanner reads segments -/

section

variable {cs text rest : List Char} {p : Chunk}

/-- A chunk is a segment. -/
theorem Segment.of_chunk {pos : Nat} (hrest : cs.drop pos ≠ []) (hp : chunk? (cs.drop pos) = some p) :
    Segment cs pos (pos + p.length) (p.tokens pos (cs.drop pos)) [] := by
  obtain ⟨hpos, hle⟩ := chunk?_bounds hrest hp
  have hsplit : cs.drop pos = (cs.drop pos).take p.length ++ (cs.drop pos).drop p.length :=
    (List.take_append_drop ..).symm
  have htext : (cs.drop pos).take p.length ≠ [] := by
    rw [← List.length_pos_iff, List.length_take]
    omega
  have hlength : ((cs.drop pos).take p.length).length = p.length := by
    rw [List.length_take, Nat.min_eq_left hle]
  cases ht : p.token with
  | some token =>
    have hlexeme := lexeme_of_chunk hrest hp ht
    have hc : nextItem (cs.drop pos) ≠ .comment := by
      intro hitem
      rw [chunk?, hitem] at hp
      cases hp
      cases ht
    have hlongest : Longest ((cs.drop pos).take p.length) ((cs.drop pos).drop p.length) :=
      longest_of_chunk (by rwa [List.take_append_drop]) hlength.symm (by rwa [List.take_append_drop])
    have hsegment := Segment.token hsplit htext hlexeme hlongest
    rw [hlength] at hsegment
    simpa [Chunk.tokens, ht] using hsegment
  | none =>
    have htokens : p.tokens pos (cs.drop pos) = [] := by simp [Chunk.tokens, ht]
    rw [htokens]
    rcases blank_of_chunk hrest hp ht with hspace | ⟨body, hbody, hin, hend⟩
    · rw [← hlength]
      exact .space hsplit htext hspace
    · rw [hbody] at hsplit hlength
      rw [← hlength]
      exact .comment hsplit hin hend

/-- A reading goes over the segments. -/
theorem Reads.segments {pos : Nat} {rest : List Char} {ts : List Token} {ds : List Diagnostic}
    (h : Reads pos rest ts ds) (hle : pos ≤ cs.length) (hrest : rest = cs.drop pos) :
    Segments cs pos ts ds := by
  induction h with
  | @done pos =>
    obtain rfl : pos = cs.length := Nat.le_antisymm hle (List.drop_eq_nil_iff.mp hrest.symm)
    exact .done
  | @chunk pos rest p ts ds hne hp _ ih =>
    subst hrest
    have hbound := (chunk?_bounds hne hp).2
    rw [List.length_drop] at hbound
    exact .step (.of_chunk hne hp) (ih (by omega) List.drop_drop)
  | @strange pos c rest ts ds _ hp _ ih =>
    have hstep : Segment cs pos (pos + 1) [] [unexpected c pos] := by
      refine .unexpected hrest.symm fun text tail htext kind literal => ?_
      rw [htext] at hp
      exact not_lexeme_of_chunk hp
    have hlt : pos < cs.length := by
      have hlength := congrArg List.length hrest
      rw [List.length_cons, List.length_drop] at hlength
      omega
    have hrest : rest = cs.drop (pos + 1) := by
      rw [← List.drop_drop, ← hrest]
      rfl
    exact .step hstep (ih hlt hrest)
  | @openString pos inner hquote =>
    have hend : pos + ('"' :: inner).length = cs.length := by
      rw [hrest, List.length_drop]
      omega
    rw [hend]
    exact .step (.openString hrest.symm hquote) .done

end

/-- The scan of a text: its segments, and the token at its end. -/
theorem scan_segments (source : String) : ∃ ts ds, Segments source.toList 0 ts ds ∧
    (scan source).tokens = ts ++ [.eof source.toList.length] ∧ (scan source).diagnostics = ds := by
  obtain ⟨ts, ds, hreads, hscan⟩ := scan_reads source
  rw [hscan]
  exact ⟨ts, ds, hreads.segments (Nat.zero_le _) rfl, rfl, rfl⟩

/-! ### The segment of a place -/

section

variable {cs : List Char} {start stop pos i : Nat} {ts us : List Token} {ds es : List Diagnostic}

theorem Segments.pos_le (h : Segments cs pos ts ds) : pos ≤ cs.length := by
  cases h with
  | done => exact Nat.le_refl _
  | step hsegment => exact Nat.le_of_lt (Nat.lt_of_lt_of_le hsegment.bounds.1 hsegment.bounds.2)

/-- From the end on there is nothing. -/
theorem Segments.of_length (h : Segments cs cs.length ts ds) : ts = [] ∧ ds = [] := by
  generalize hpos : cs.length = pos at h
  cases h with
  | done => exact ⟨rfl, rfl⟩
  | step hsegment =>
    have hbounds := hsegment.bounds
    omega

/-- The tokens from a place on lie behind it, one behind the other. -/
theorem Segments.ordered (h : Segments cs pos ts ds) :
    (∀ t ∈ ts, (pos : Int) ≤ t.offset) ∧ ts.Pairwise fun t u => t.stop ≤ u.offset := by
  induction h with
  | done => exact ⟨fun t ht => (nomatch ht), .nil⟩
  | @step start stop ts us ds es hsegment _ ih =>
    have hextent := hsegment.extent
    have hlt := hsegment.bounds.1
    constructor
    · intro t ht
      rcases List.mem_append.mp ht with ht | ht
      · exact Int.le_of_eq (hextent t ht).1.symm
      · have hle := ih.1 t ht
        omega
    · refine List.pairwise_append.mpr ⟨?_, ih.2, fun t ht u hu => ?_⟩
      · cases hsegment with
        | token => exact List.pairwise_singleton ..
        | space | comment | unexpected | openString => exact .nil
      · rw [(hextent t ht).2]
        exact ih.1 u hu

/-- The reports from a place on point there or behind, one behind the other. -/
theorem Segments.reported (h : Segments cs pos ts ds) :
    (∀ d ∈ ds, (pos : Int) ≤ d.offset) ∧ ds.Pairwise fun d e => d.offset < e.offset := by
  induction h with
  | done => exact ⟨fun d hd => (nomatch hd), .nil⟩
  | @step start stop ts us ds es hsegment hmore ih =>
    have hreported := hsegment.reported
    have hlt := hsegment.bounds.1
    constructor
    · intro d hd
      rcases List.mem_append.mp hd with hd | hd
      · exact (hreported d hd).1
      · have hle := ih.1 d hd
        omega
    · refine List.pairwise_append.mpr ⟨?_, ih.2, fun d hd e he => ?_⟩
      · cases hsegment with
        | token | space | comment => exact .nil
        | unexpected | openString => exact List.pairwise_singleton ..
      · rcases (hreported d hd).2 with hbefore | ⟨rfl, -⟩
        · exact Int.lt_of_lt_of_le hbefore (ih.1 e he)
        · rw [hmore.of_length.2] at he
          cases he

/-- A segment among all, with what is found before it and behind it. -/
structure Located (cs : List Char) (start stop : Nat) (ts us : List Token)
    (ds es : List Diagnostic) : Prop where
  segment : Segment cs start stop us es
  tokens : ∃ before after, ts = before ++ us ++ after ∧ (∀ t ∈ before, t.stop ≤ start) ∧
    ∀ t ∈ after, (stop : Int) ≤ t.offset
  reports : ∃ before after, ds = before ++ es ++ after ∧ (∀ d ∈ before, d.offset < start) ∧
    ∀ d ∈ after, (stop : Int) ≤ d.offset ∧ stop < cs.length

/-- A place of the text lies in one of its segments. -/
theorem Segments.locate (h : Segments cs pos ts ds) (hle : pos ≤ i) (hlt : i < cs.length) :
    ∃ start stop us es, pos ≤ start ∧ start ≤ i ∧ i < stop ∧ Located cs start stop ts us ds es := by
  induction h with
  | done => omega
  | @step pos stop ts us ds es hsegment hmore ih =>
    by_cases hhere : i < stop
    · refine ⟨pos, stop, ts, ds, Nat.le_refl _, hle, hhere, hsegment, ?_, ?_⟩
      · exact ⟨[], us, rfl, fun t ht => (nomatch ht), hmore.ordered.1⟩
      · refine ⟨[], es, rfl, fun d hd => (nomatch hd), fun d hd => ⟨hmore.reported.1 d hd, ?_⟩⟩
        refine Nat.lt_of_le_of_ne hmore.pos_le fun hstop => ?_
        subst hstop
        rw [hmore.of_length.2] at hd
        cases hd
    · obtain ⟨start, stop', us', es', hstart, hle', hlt', hlocated⟩ := ih (Nat.not_lt.mp hhere)
      obtain ⟨before, after, rfl, hbefore, hafter⟩ := hlocated.tokens
      obtain ⟨before', after', rfl, hbefore', hafter'⟩ := hlocated.reports
      have hpos := hsegment.bounds.1
      refine ⟨start, stop', us', es', by omega, hle', hlt', hlocated.segment, ?_, ?_⟩
      · refine ⟨ts ++ before, after, by simp, fun t ht => ?_, hafter⟩
        rcases List.mem_append.mp ht with ht | ht
        · rw [(hsegment.extent t ht).2]
          omega
        · exact hbefore t ht
      · refine ⟨ds ++ before', after', by simp, fun d hd => ?_, hafter'⟩
        rcases List.mem_append.mp hd with hd | hd
        · have hd := (hsegment.reported d hd).2
          omega
        · exact hbefore' d hd

end

/-! ### Segmentation -/

/-- No token takes up a place between the two. -/
def Clear (ts : List Token) (start stop : Nat) : Prop := ∀ t ∈ ts, t.stop ≤ start ∨ stop ≤ t.offset

/-- What stands at a place that belongs to no token. -/
inductive Skipped (cs : List Char) (ts : List Token) (ds : List Diagnostic) (i : Nat) : Prop
  | space {c : Char} : cs[i]? = some c → isSpace c = true → (∀ d ∈ ds, d.offset ≠ i) → Skipped cs ts ds i
  | comment {start : Nat} {body rest : List Char} : cs.drop start = '/' :: '/' :: body ++ rest →
      (∀ c ∈ body, inComment c = true) → (∀ c ∈ rest.head?, inComment c = false) →
      start ≤ i → i < start + (body.length + 2) → Clear ts start (start + (body.length + 2)) →
      (∀ d ∈ ds, d.offset ≠ i) → Skipped cs ts ds i
  | unexpected {c : Char} : cs[i]? = some c →
      (∀ text tail, cs.drop i = text ++ tail → ∀ kind literal, ¬ Lexeme text kind literal) →
      reportsAt ds i = [Lox.unexpected c i] → Skipped cs ts ds i
  | openString {start : Nat} {inner : List Char} : cs.drop start = '"' :: inner → '"' ∉ inner →
      start ≤ i → Clear ts start cs.length → (∀ d ∈ ds, d.offset ≠ i) →
      reportsAt ds cs.length = [unterminated cs.length] → Skipped cs ts ds i

/-- Where a report comes from. -/
inductive Reported (cs : List Char) (ts : List Token) : Diagnostic → Prop
  | unexpected {c : Char} {i : Nat} : cs[i]? = some c → (∀ t ∈ ts, ¬ t.Covers i) →
      Reported cs ts (Lox.unexpected c i)
  | openString {start : Nat} {inner : List Char} : cs.drop start = '"' :: inner → '"' ∉ inner →
      Clear ts start cs.length → Reported cs ts (unterminated cs.length)

/-- The tokens cut the text up: each of them is the text from its offset on, as far as it can go,
they lie one behind the other, and between them stands nothing but white space, comments and what is
reported. -/
structure Segmentation (cs : List Char) (ts : List Token) (ds : List Diagnostic) : Prop where
  sliced : ∀ t ∈ ts, ∃ (start : Nat) (text rest : List Char), t.offset = start ∧
    cs.drop start = text ++ rest ∧ text ≠ [] ∧ t.lexeme = String.ofList text ∧
    Lexeme text t.kind t.literal ∧ Longest text rest
  apart : ts.Pairwise fun t u => t.stop ≤ u.offset
  keyword : ∀ t ∈ ts, (t.kind ∈ keywords.map Prod.snd ↔ t.lexeme ∈ keywords.map Prod.fst) ∧
    (t.lexeme ∈ keywords.map Prod.fst → (t.lexeme, t.kind) ∈ keywords)
  running : ∀ t ∈ ts, t.kind ≠ .eof
  skipped : ∀ i < cs.length, (∀ t ∈ ts, ¬ t.Covers i) → Skipped cs ts ds i
  reported : ∀ d ∈ ds, Reported cs ts d
  increasing : ds.Pairwise fun d e => d.offset < e.offset

section

variable {cs text : List Char} {pos start stop i : Nat} {ts us : List Token} {ds es : List Diagnostic}
  {kind : TokenKind} {literal : Literal}

theorem Located.clear (h : Located cs start stop ts [] ds es) : Clear ts start stop := by
  obtain ⟨before, after, rfl, hbefore, hafter⟩ := h.tokens
  intro t ht
  rw [List.append_nil] at ht
  exact (List.mem_append.mp ht).imp (hbefore t) (hafter t)

theorem Clear.uncovered (h : Clear ts start stop) (hle : start ≤ i) (hlt : i < stop) :
    ∀ t ∈ ts, ¬ t.Covers i := by
  intro t ht hcovers
  obtain ⟨hoffset, hstop⟩ := hcovers
  have hclear := h t ht
  omega

/-- Reports at a place of the segment are those of the segment. -/
theorem Located.reportsAt_eq (h : Located cs start stop ts us ds es) (hle : start ≤ i)
    (hlt : i < stop ∨ i = stop ∧ stop = cs.length) :
    reportsAt ds i = reportsAt es i := by
  obtain ⟨before, after, rfl, hbefore, hafter⟩ := h.reports
  have hbefore : reportsAt before i = [] := by
    refine List.filter_eq_nil_iff.mpr fun d hd => ?_
    have hd := hbefore d hd
    rw [decide_eq_true_eq]
    omega
  have hafter : reportsAt after i = [] := by
    refine List.filter_eq_nil_iff.mpr fun d hd => ?_
    have hd := hafter d hd
    rw [decide_eq_true_eq]
    omega
  unfold reportsAt at *
  rw [List.filter_append, List.filter_append, hbefore, hafter, List.nil_append, List.append_nil]

theorem getElem?_of_drop {c : Char} {rest : List Char} (h : cs.drop i = c :: rest) :
    cs[i]? = some c := by
  rw [← Nat.add_zero i, ← List.getElem?_drop, h]
  rfl

/-- A place where no token is belongs to a segment that is no token. -/
theorem Segments.skipped (h : Segments cs pos ts ds) (hle : pos ≤ i) (hlt : i < cs.length)
    (hi : ∀ t ∈ ts, ¬ t.Covers i) : Skipped cs ts ds i := by
  obtain ⟨start, stop, us, es, -, hstart, hstop, hlocated⟩ := h.locate hle hlt
  have hfilter := hlocated.reportsAt_eq hstart (.inl hstop)
  have silent (hes : reportsAt es i = []) : ∀ d ∈ ds, d.offset ≠ i := by
    intro d hd hoffset
    have hmem : d ∈ reportsAt ds i := List.mem_filter.mpr ⟨hd, decide_eq_true hoffset⟩
    rw [hfilter, hes] at hmem
    cases hmem
  cases hlocated.segment with
  | @token text rest kind literal hdrop =>
    obtain ⟨before, after, rfl, -⟩ := hlocated.tokens
    refine absurd ⟨Int.ofNat_le.mpr hstart, ?_⟩ (hi ⟨kind, String.ofList text, literal, start⟩ (by simp))
    simp only [Token.stop, String.length_ofList]
    omega
  | @space text rest hdrop hne hall =>
    have hget : cs[i]? = (text ++ rest)[i - start]? := by
      rw [← hdrop, List.getElem?_drop, Nat.add_sub_cancel' hstart]
    have hin : i - start < text.length := by omega
    rw [List.getElem?_append_left hin, List.getElem?_eq_getElem hin] at hget
    exact .space hget (hall _ (List.getElem_mem hin)) (silent rfl)
  | comment hdrop hin hend =>
    exact .comment hdrop hin hend hstart hstop hlocated.clear (silent rfl)
  | @unexpected c rest hdrop hnone =>
    obtain rfl : i = start := by omega
    refine .unexpected (getElem?_of_drop hdrop) (fun text tail htext => ?_) ?_
    · exact hnone text tail (hdrop.symm.trans htext)
    · rw [hfilter]
      simp [reportsAt, Lox.unexpected]
  | openString hdrop hquote =>
    refine .openString hdrop hquote hstart hlocated.clear (silent ?_) ?_
    · simp [reportsAt, unterminated]
      omega
    · rw [hlocated.reportsAt_eq (Nat.le_trans hstart (Nat.le_of_lt hlt)) (.inr ⟨rfl, rfl⟩)]
      simp [reportsAt, unterminated]

/-- A report comes from the segment that it points into, or from the last one. -/
theorem Segments.origin (h : Segments cs pos ts ds) {d : Diagnostic} (hd : d ∈ ds) :
    ∃ start stop us es, Located cs start stop ts us ds es ∧ d ∈ es := by
  have hoffset := h.reported.1 d hd
  have hpos : pos < cs.length := by
    refine Nat.lt_of_le_of_ne h.pos_le fun hpos => ?_
    subst hpos
    rw [h.of_length.2] at hd
    cases hd
  have hplace : ∃ i, pos ≤ i ∧ i < cs.length ∧
      (d.offset = i ∨ i + 1 = cs.length ∧ (i : Int) ≤ d.offset) := by
    by_cases hlt : d.offset < cs.length
    · exact ⟨d.offset.toNat, by omega, by omega, .inl (by omega)⟩
    · exact ⟨cs.length - 1, by omega, by omega, .inr (by omega)⟩
  obtain ⟨i, hle, hlt, hi⟩ := hplace
  obtain ⟨start, stop, us, es, -, hstart, hstop, hlocated⟩ := h.locate hle hlt
  refine ⟨start, stop, us, es, hlocated, ?_⟩
  obtain ⟨before, after, rfl, hbefore, hafter⟩ := hlocated.reports
  rcases List.mem_append.mp hd with hd | hd
  · rcases List.mem_append.mp hd with hd | hd
    · have hd := hbefore d hd
      omega
    · exact hd
  · have hd := hafter d hd
    omega

theorem Segments.comes_from (h : Segments cs pos ts ds) : ∀ d ∈ ds, Reported cs ts d := by
  intro d hd
  obtain ⟨start, stop, us, es, hlocated, hd⟩ := h.origin hd
  have hbounds := hlocated.segment.bounds
  cases hlocated.segment with
  | token | space | comment => cases hd
  | unexpected hdrop =>
    rw [List.mem_singleton.mp hd]
    exact .unexpected (getElem?_of_drop hdrop) (hlocated.clear.uncovered (Nat.le_refl _) hbounds.1)
  | openString hdrop hquote =>
    rw [List.mem_singleton.mp hd]
    exact .openString hdrop hquote hlocated.clear

/-- A token is the text from its offset on, as far as a token can go. -/
theorem Segments.sliced (h : Segments cs pos ts ds) :
    ∀ t ∈ ts, ∃ (start : Nat) (text rest : List Char), t.offset = start ∧
      cs.drop start = text ++ rest ∧ text ≠ [] ∧ t.lexeme = String.ofList text ∧
      Lexeme text t.kind t.literal ∧ Longest text rest := by
  induction h with
  | done => exact fun t ht => nomatch ht
  | step hsegment _ ih =>
    intro t ht
    rcases List.mem_append.mp ht with ht | ht
    · cases hsegment with
      | token hdrop hne hlexeme hlongest =>
        rw [List.mem_singleton.mp ht]
        exact ⟨_, _, _, rfl, hdrop, hne, rfl, hlexeme, hlongest⟩
      | space | comment | unexpected | openString => cases ht
    · exact ih t ht

/-- The words are spelled as words, and not as operators or numerals. -/
theorem keywords_begin : ∀ word ∈ keywords, ∃ c cs, word.1 = String.ofList (c :: cs) ∧
    startsWord c = true := by
  have hall : (keywords.all fun word => word.1.toList.head?.any startsWord) = true := by decide
  intro word hword
  have h := List.all_eq_true.mp hall word hword
  cases htext : word.1.toList with
  | nil => simp [htext] at h
  | cons c cs => exact ⟨c, cs, by rw [← htext, String.ofList_toList], by simpa [htext] using h⟩

/-- A token is of a keyword just if it is spelled like one. -/
theorem Lexeme.keyword_iff (h : Lexeme text kind literal) :
    (kind ∈ keywords.map Prod.snd ↔ String.ofList text ∈ keywords.map Prod.fst) ∧
      (String.ofList text ∈ keywords.map Prod.fst → (String.ofList text, kind) ∈ keywords) := by
  have operators_kinds : ∀ op ∈ operators, op.2 ∉ keywords.map Prod.snd := by decide
  have hbegin (hmem : String.ofList text ∈ keywords.map Prod.fst) :
      ∃ c cs, text = c :: cs ∧ startsWord c = true := by
    obtain ⟨word, hword, htext⟩ := List.mem_map.mp hmem
    obtain ⟨c, cs, hspelled, hstarts⟩ := keywords_begin word hword
    exact ⟨c, cs, String.ofList_injective (htext.symm.trans hspelled), hstarts⟩
  cases h with
  | operator hop =>
    obtain ⟨c, cs, rfl, hc⟩ := operators_begin _ hop
    have hno : String.ofList (c :: cs) ∉ keywords.map Prod.fst := by
      intro hmem
      obtain ⟨_, _, heq, hstarts⟩ := hbegin hmem
      cases heq
      simp [beginsOperator, hstarts] at hc
    exact ⟨iff_of_false (operators_kinds _ hop) hno, fun hmem => absurd hmem hno⟩
  | numeral hnumeral =>
    obtain ⟨c, cs, rfl, hc⟩ := hnumeral.begins
    have hno : String.ofList (c :: cs) ∉ keywords.map Prod.fst := by
      intro hmem
      obtain ⟨_, _, heq, hstarts⟩ := hbegin hmem
      cases heq
      rw [not_isAsciiDigit_of_startsWord hstarts] at hc
      cases hc
    exact ⟨iff_of_false (by decide) hno, fun hmem => absurd hmem hno⟩
  | keyword _ hword =>
    exact ⟨iff_of_true (List.mem_map_of_mem hword) (List.mem_map_of_mem hword), fun _ => hword⟩
  | name _ hno => exact ⟨iff_of_false (by decide) hno, fun hmem => absurd hmem hno⟩
  | @string inner =>
    have hno : String.ofList ('"' :: inner ++ ['"']) ∉ keywords.map Prod.fst := by
      intro hmem
      obtain ⟨_, _, heq, hstarts⟩ := hbegin hmem
      cases heq
      exact absurd hstarts (by decide)
    exact ⟨iff_of_false (by decide) hno, fun hmem => absurd hmem hno⟩

theorem Lexeme.ne_eof (h : Lexeme text kind literal) : kind ≠ .eof := by
  have operators_kinds : ∀ op ∈ operators, op.2 ≠ .eof := by decide
  have keywords_kinds : ∀ word ∈ keywords, word.2 ≠ .eof := by decide
  cases h with
  | operator hop => exact operators_kinds _ hop
  | keyword _ hword => exact keywords_kinds _ hword
  | numeral | name | string => decide

end

/-- The scanner cuts every text up: its tokens are the longest that there are, and what is left over
is white space, comments and what it reports. -/
theorem scan_segmentation (source : String) :
    ∃ ts, (scan source).tokens = ts ++ [.eof source.toList.length] ∧
      Segmentation source.toList ts (scan source).diagnostics := by
  obtain ⟨ts, ds, h, htokens, rfl⟩ := scan_segments source
  refine ⟨ts, htokens, ?_⟩
  exact {
    sliced := h.sliced
    apart := h.ordered.2
    keyword := fun t ht => by
      obtain ⟨_, _, _, -, -, -, htext, hlexeme, -⟩ := h.sliced t ht
      rw [htext]
      exact hlexeme.keyword_iff
    running := fun t ht => by
      obtain ⟨_, _, _, -, -, -, -, hlexeme, -⟩ := h.sliced t ht
      exact hlexeme.ne_eof
    skipped := fun i hlt hi => h.skipped (Nat.zero_le i) hlt hi
    reported := h.comes_from
    increasing := h.reported.2 }

end Lox
