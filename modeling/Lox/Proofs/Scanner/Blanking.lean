/-
# Characters that are reported, blanked out

A character that begins nothing is reported, and the scanner goes on behind it
as it does behind white space: nothing before the character goes on into it,
for else it would have been read with it. So with line feeds in the places of
all such characters the text has the same tokens, in the same places, and of
the reports only a string that is not closed is left (`Lox.scan_blanked`).

Key definitions: `Lox.Diagnostic.isUnexpected`, `Lox.withFeeds`, `Lox.blanked`.
Key theorems: `Lox.Reads.withFeeds`, `Lox.scan_blanked`.
-/
import Lox.Proofs.Scanner.Lookahead

namespace Lox

open Scanner Text

/-- The report is one of a character that begins nothing. -/
def Diagnostic.isUnexpected (d : Diagnostic) : Bool :=
  "Unexpected character '".toList.isPrefixOf d.message.toList

/-- A character is reported in the place. -/
def unexpectedAt (ds : List Diagnostic) (place : Int) : Bool :=
  ds.any fun d => d.isUnexpected && d.offset = place

/-- The characters from a position on, with line feeds in the places that are picked. -/
def withFeeds (picked : Int → Bool) : Nat → List Char → List Char
  | _, [] => []
  | pos, c :: cs => (if picked pos then '\n' else c) :: withFeeds picked (pos + 1) cs

/-- The text with a line feed for every character that is reported. -/
def blanked (source : String) : String :=
  String.ofList (withFeeds (unexpectedAt (scan source).diagnostics) 0 source.toList)

/-! ### Line feeds in a text -/

section

variable {picked : Int → Bool} {pos : Nat} {cs rest text : List Char} {kind : TokenKind}
  {literal : Literal}

theorem length_withFeeds : ∀ (pos : Nat) (cs : List Char),
    (withFeeds picked pos cs).length = cs.length
  | _, [] => rfl
  | pos, _ :: cs => congrArg Nat.succ (length_withFeeds (pos + 1) cs)

theorem withFeeds_of_pass : ∀ {pos : Nat} {cs : List Char},
    (∀ i : Int, pos ≤ i → picked i = false) → withFeeds picked pos cs = cs
  | _, [], _ => rfl
  | pos, c :: cs, h => by
    have hmore : ∀ i : Int, (pos + 1 : Nat) ≤ i → picked i = false := fun i hi => h i (by omega)
    rw [withFeeds, h pos (Int.le_refl _), withFeeds_of_pass hmore]
    rfl

/-- The characters in front of the places that are picked stay. -/
theorem withFeeds_skip : ∀ {n pos : Nat} {cs : List Char},
    (∀ i : Int, pos ≤ i → i < (pos + n : Nat) → picked i = false) → n ≤ cs.length →
    withFeeds picked pos cs = cs.take n ++ withFeeds picked (pos + n) (cs.drop n)
  | 0, _, _, _, _ => rfl
  | n + 1, pos, [], _, hn => absurd hn (Nat.not_succ_le_zero n)
  | n + 1, pos, c :: cs, h, hn => by
    have hskip : withFeeds picked (pos + 1) cs =
        cs.take n ++ withFeeds picked (pos + 1 + n) (cs.drop n) :=
      withFeeds_skip (fun i hi hlt => h i (by omega) (by omega)) (Nat.le_of_succ_le_succ hn)
    rw [withFeeds, h pos (Int.le_refl _) (by omega), hskip, Nat.add_right_comm]
    rfl

/-- Up to the first white space the characters are those that were there. -/
theorem prefix_of_withFeeds : ∀ {pos : Nat} {rest more tail : List Char},
    withFeeds picked pos rest = more ++ tail → (∀ c ∈ more, isSpace c = false) → more <+: rest
  | _, _, [], _, _, _ => List.nil_prefix
  | _, [], _ :: _, _, h, _ => nomatch h
  | pos, c :: rest, d :: more, tail, h, hsolid => by
    obtain ⟨hd, hmore⟩ := List.cons.inj h
    obtain ⟨hspace, hsolid⟩ := List.forall_mem_cons.mp hsolid
    by_cases hpicked : picked pos = true
    · rw [if_pos hpicked] at hd
      rw [← hd] at hspace
      cases hspace
    · rw [if_neg hpicked] at hd
      exact List.cons_prefix_cons.mpr ⟨hd.symm, prefix_of_withFeeds hmore hsolid⟩

theorem head?_withFeeds {d : Char} (h : (withFeeds picked pos cs).head? = some d) :
    d = '\n' ∨ cs.head? = some d := by
  cases cs with
  | nil => cases h
  | cons c cs =>
    obtain rfl := Option.some.inj h
    by_cases hpicked : picked pos = true
    · exact .inl (if_pos hpicked)
    · exact .inr (congrArg some (if_neg hpicked).symm)

/-- A token is read in front of line feeds as it was in front of what they replace. -/
theorem Lexeme.chunk?_withFeeds (h : Lexeme text kind literal) (hlongest : Longest text rest)
    (hcomment : nextItem (text ++ rest) ≠ .comment) :
    chunk? (text ++ withFeeds picked pos rest) = some ⟨text.length, some (kind, literal)⟩ := by
  have hlonger : Longest text (withFeeds picked pos rest) :=
    h.longest_of hlongest fun more tail => prefix_of_withFeeds
  refine h.chunk?_append hlonger (h.not_comment ?_)
  rintro rfl hhead
  rcases head?_withFeeds hhead with hfeed | hhead
  · exact absurd hfeed (by decide)
  · obtain ⟨tail, rfl⟩ := List.head?_eq_some_iff.mp hhead
    exact hcomment rfl

/-- A comment goes on to where it does not. -/
theorem chunk?_comment {body : List Char} (hbody : ∀ c ∈ body, inComment c = true)
    (hrest : ∀ c ∈ rest.head?, inComment c = false) :
    chunk? ('/' :: '/' :: body ++ rest) = some ⟨('/' :: '/' :: body).length, none⟩ := by
  have hall : ∀ c ∈ '/' :: '/' :: body, inComment c = true :=
    List.forall_mem_cons.mpr ⟨rfl, List.forall_mem_cons.mpr ⟨rfl, hbody⟩⟩
  have hend : spanLength inComment rest = 0 := by
    cases rest with
    | nil => rfl
    | cons c rest => rw [spanLength_cons, hrest c rfl]; rfl
  have hspan := @spanLength_append_of_all inComment ('/' :: '/' :: body) rest hall
  rw [hend] at hspan
  exact congrArg (fun n => some (Chunk.mk n none)) hspan

end

/-! ### The reading of the blanked text -/

theorem isUnexpected_unexpected (c : Char) (pos : Nat) : (unexpected c pos).isUnexpected = true := by
  unfold unexpected Diagnostic.isUnexpected
  rw [List.isPrefixOf_iff_prefix, String.append_assoc, String.toList_append]
  exact List.prefix_append ..

theorem isUnexpected_unterminated (pos : Nat) : (unterminated pos).isUnexpected = false := by
  show "Unexpected character '".toList.isPrefixOf "Unterminated string.".toList = false
  decide

section

variable {pos : Nat} {cs : List Char} {ts : List Token} {ds : List Diagnostic}

/-- What is read behind a chunk is read behind it where line feeds follow. -/
theorem Reads.chunk_withFeeds {picked : Int → Bool} {p : Chunk} (hcs : cs ≠ [])
    (hp : chunk? cs = some p)
    (h : Reads (pos + p.length) (withFeeds picked (pos + p.length) (cs.drop p.length)) ts ds) :
    Reads pos (cs.take p.length ++ withFeeds picked (pos + p.length) (cs.drop p.length))
      (p.tokens pos cs ++ ts) ds := by
  obtain ⟨hpos, hle⟩ := chunk?_bounds hcs hp
  have hlength : (cs.take p.length).length = p.length := List.length_take_of_le hle
  have hne : cs.take p.length ≠ [] := by
    rw [← List.length_pos_iff]
    omega
  have hread {q : Chunk} (hq : q.length = p.length)
      (hchunk : chunk? (cs.take p.length ++ withFeeds picked (pos + p.length) (cs.drop p.length)) =
        some q) : Reads pos (cs.take p.length ++ withFeeds picked (pos + p.length) (cs.drop p.length))
          (q.tokens pos (cs.take p.length ++
            withFeeds picked (pos + p.length) (cs.drop p.length)) ++ ts) ds := by
    refine .chunk (List.append_ne_nil_of_left_ne_nil hne _) hchunk ?_
    rw [hq, List.drop_left' hlength]
    exact h
  cases ht : p.token with
  | some token =>
    obtain ⟨kind, literal⟩ := token
    have hlexeme := lexeme_of_chunk hcs hp ht
    have hcomment : nextItem (cs.take p.length ++ cs.drop p.length) ≠ .comment := by
      rw [List.take_append_drop]
      intro hitem
      rw [chunk?, hitem] at hp
      cases hp
      cases ht
    have hlongest : Longest (cs.take p.length) (cs.drop p.length) :=
      longest_of_chunk (by rwa [List.take_append_drop]) hlength.symm hcomment
    have hchunk := hread hlength (hlexeme.chunk?_withFeeds hlongest hcomment)
    simpa [Chunk.tokens, ht, hlength, List.take_left' hlength] using hchunk
  | none =>
    have htokens : p.tokens pos cs = [] := by simp [Chunk.tokens, ht]
    rw [htokens]
    rcases blank_of_chunk hcs hp ht with hspace | ⟨body, hbody, hin, hend⟩
    · refine Reads.ahead_space hspace ?_
      rwa [hlength]
    · have hfeeds : ∀ c ∈ (withFeeds picked (pos + p.length) (cs.drop p.length)).head?,
          inComment c = false := by
        intro c hc
        rcases head?_withFeeds hc with rfl | hc
        · rfl
        · exact hend c hc
      rw [hbody] at hlength hread ⊢
      exact hread hlength (chunk?_comment hin hfeeds)

/-- With line feeds for the characters that are reported the tokens are read as they were, and what
is still reported is what else there was. -/
theorem Reads.withFeeds (h : Reads pos cs ts ds) : ∀ {picked : Int → Bool},
    (∀ i : Int, pos ≤ i → picked i = unexpectedAt ds i) →
    Reads pos (Lox.withFeeds picked pos cs) ts (ds.filter (!·.isUnexpected)) := by
  induction h with
  | done => exact fun _ => .done
  | @chunk pos cs p ts ds hcs hp h ih =>
    intro picked hpicked
    obtain ⟨_, hle⟩ := chunk?_bounds hcs hp
    have hlater : ∀ d ∈ ds, (pos + p.length : Nat) ≤ d.offset := h.reported
    have hskip : ∀ i : Int, pos ≤ i → i < (pos + p.length : Nat) → picked i = false := by
      intro i hi hlt
      rw [hpicked i hi, unexpectedAt, List.any_eq_false]
      intro d hd
      have hle := hlater d hd
      have hne : d.offset ≠ i := by omega
      simp [hne]
    rw [withFeeds_skip hskip hle]
    exact .chunk_withFeeds hcs hp (ih fun i hi => hpicked i (by omega))
  | @strange pos c cs ts ds _ _ _ ih =>
    intro picked hpicked
    have hhere : picked pos = true := by
      rw [hpicked pos (Int.le_refl _), unexpectedAt, List.any_cons, isUnexpected_unexpected]
      simp [unexpected]
    have hrest : ∀ i : Int, (pos + 1 : Nat) ≤ i → picked i = unexpectedAt ds i := by
      intro i hi
      have hne : (pos : Int) ≠ i := by omega
      rw [hpicked i (by omega)]
      simp [unexpectedAt, unexpected, hne]
    have hfeed : ∀ d ∈ ['\n'], isSpace d = true := List.forall_mem_singleton.mpr rfl
    rw [Lox.withFeeds, if_pos hhere, List.filter_cons_of_neg (by simp [isUnexpected_unexpected])]
    exact Reads.ahead_space hfeed (ih hrest)
  | @openString pos inner hinner =>
    intro picked hpicked
    have hpass : ∀ i : Int, pos ≤ i → picked i = false := by
      intro i hi
      rw [hpicked i hi]
      simp [unexpectedAt, isUnexpected_unterminated]
    rw [withFeeds_of_pass hpass, List.filter_cons_of_pos (by simp [isUnexpected_unterminated])]
    exact .openString hinner

/-- Besides such characters there is at most one report, of a string that is open at the end. -/
theorem Reads.others (h : Reads pos cs ts ds) : ds.filter (!·.isUnexpected) = [] ∨
    ds.filter (!·.isUnexpected) = [unterminated (pos + cs.length)] := by
  induction h with
  | done => exact .inl rfl
  | @chunk pos cs p ts ds hcs hp _ ih =>
    have hle := (chunk?_bounds hcs hp).2
    have hend : pos + p.length + (cs.drop p.length).length = pos + cs.length := by
      rw [List.length_drop]
      omega
    rwa [hend] at ih
  | @strange pos c cs ts ds _ _ _ ih =>
    rw [List.filter_cons_of_neg (by simp [isUnexpected_unexpected])]
    have hend : pos + 1 + cs.length = pos + (c :: cs).length := by
      rw [List.length_cons]
      omega
    rwa [hend] at ih
  | openString =>
    rw [List.filter_cons_of_pos (by simp [isUnexpected_unterminated])]
    exact .inr rfl

end

/-- **A character that is reported disturbs nothing.** With line feeds for all such characters a text
has the same tokens, and what is left of the reports is nothing, or that a string is open at the end. -/
theorem scan_blanked (source : String) :
    scan (blanked source) =
        ⟨(scan source).tokens, (scan source).diagnostics.filter (!·.isUnexpected)⟩ ∧
      ((scan source).diagnostics.filter (!·.isUnexpected) = [] ∨
        (scan source).diagnostics.filter (!·.isUnexpected) =
          [unterminated source.toList.length]) := by
  obtain ⟨ts, ds, hreads, hscan⟩ := scan_reads source
  have hblanked : Reads 0 (blanked source).toList ts (ds.filter (!·.isUnexpected)) := by
    unfold blanked
    rw [String.toList_ofList, hscan]
    exact hreads.withFeeds fun i _ => rfl
  have hlength : (blanked source).toList.length = source.toList.length := by
    unfold blanked
    rw [String.toList_ofList, length_withFeeds]
  rw [scan_of_reads hblanked, hlength, hscan]
  have hothers := hreads.others
  rw [Nat.zero_add] at hothers
  exact ⟨rfl, hothers⟩

end Lox
