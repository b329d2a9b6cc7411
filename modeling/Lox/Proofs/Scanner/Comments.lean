/-
# What a comment hides

A comment goes on to the end of its line, unless it has a NUL in it: there it
ends, the NUL is reported, and the rest of the line is read like any other
text. So the tokens and messages of a text with a comment line are those of the
text with an empty line in its place, or with what stands from the first NUL on
(`Lox.exposed`).

Key definitions: `Lox.Scanned.Agrees`, `Lox.exposed`.
Key theorems: `Lox.Reads.elsewhere`, `Lox.Reads.comment`, `Lox.scan_comment_line`.
-/
import Mathlib.Data.List.TakeWhile
import Lox.Proofs.Scanner.Blanking
import Lox.Proofs.Scanner.Words

namespace Lox

open Scanner Text

/-- The same words and messages in the same order, wherever they stand. -/
structure Scanned.Agrees (a b : Scanned) : Prop where
  words : a.tokens.map Token.word = b.tokens.map Token.word
  messages : a.diagnostics.map Diagnostic.message = b.diagnostics.map Diagnostic.message

/-- The part of a comment's text that is hidden: all in front of the first NUL. -/
def hidden (c : String) : List Char := c.toList.takeWhile (· ≠ '\x00')

/-- The part of a comment's text that is read: from the first NUL on. -/
def exposed (c : String) : String := String.ofList (c.toList.dropWhile (· ≠ '\x00'))

/-! ### Readings at other places -/

section

variable {pos : Nat} {cs : List Char} {ts : List Token} {ds : List Diagnostic}

theorem Chunk.map_word_tokens (p : Chunk) (pos place : Nat) (cs : List Char) :
    (p.tokens place cs).map Token.word = (p.tokens pos cs).map Token.word := by
  unfold Chunk.tokens
  cases p.token <;> rfl

/-- The same characters at another place are read as the same words with the same messages. -/
theorem Reads.elsewhere (h : Reads pos cs ts ds) : ∀ place, ∃ us es, Reads place cs us es ∧
    us.map Token.word = ts.map Token.word ∧
    es.map Diagnostic.message = ds.map Diagnostic.message := by
  induction h with
  | done => exact fun place => ⟨[], [], .done, rfl, rfl⟩
  | @chunk pos cs p ts ds hcs hp _ ih =>
    intro place
    obtain ⟨us, es, hreads, hwords, hmessages⟩ := ih (place + p.length)
    refine ⟨_, es, .chunk hcs hp hreads, ?_, hmessages⟩
    rw [List.map_append, List.map_append, hwords, p.map_word_tokens pos place]
  | strange hc hnone _ ih =>
    intro place
    obtain ⟨us, es, hreads, hwords, hmessages⟩ := ih (place + 1)
    refine ⟨us, _, .strange hc hnone hreads, hwords, ?_⟩
    rw [List.map_cons, List.map_cons, hmessages]
    rfl
  | openString hinner => exact fun place => ⟨[], _, .openString hinner, rfl, rfl⟩

/-- Every text has a reading at every place. -/
theorem exists_reads (place : Nat) (cs : List Char) : ∃ ts ds, Reads place cs ts ds := by
  obtain ⟨ts, ds, hreads, -⟩ := scan_reads (String.ofList cs)
  rw [String.toList_ofList] at hreads
  obtain ⟨us, es, hplace, -, -⟩ := hreads.elsewhere place
  exact ⟨us, es, hplace⟩

/-- A comment in front of a line feed or a NUL is left out. -/
theorem Reads.comment {body : List Char} (hbody : ∀ c ∈ body, inComment c = true)
    (hrest : ∀ c ∈ cs.head?, inComment c = false)
    (h : Reads (pos + (2 + body.length)) cs ts ds) : Reads pos ('/' :: '/' :: body ++ cs) ts ds := by
  have hlength : ('/' :: '/' :: body).length = 2 + body.length := by
    rw [List.length_cons, List.length_cons]
    omega
  have hchunk := chunk?_comment hbody hrest
  rw [hlength] at hchunk
  refine Reads.chunk (by simp) hchunk ?_
  rw [List.drop_left' hlength]
  exact h

/-- A NUL begins nothing. -/
theorem chunk?_nul (cs : List Char) : chunk? ('\x00' :: cs) = none := by
  have hitem : nextItem ('\x00' :: cs) = .operator := by
    rw [nextItem_cons, if_neg (by simp)]
    rfl
  have hnone : operatorAt? ('\x00' :: cs) = none := by
    simp [operatorAt?, operators]
  unfold chunk?
  rw [hitem, hnone]
  rfl

/-- A NUL in front is the first thing reported. -/
theorem Reads.nul (h : Reads pos ('\x00' :: cs) ts ds) : unexpected '\x00' pos ∈ ds := by
  cases h with
  | chunk _ hp =>
    rw [chunk?_nul] at hp
    cases hp
  | strange => exact List.mem_cons_self

end

/-! ### Lines with a comment -/

section

variable {p c r : String}

theorem hidden_append_exposed (c : String) : hidden c ++ (exposed c).toList = c.toList := by
  rw [exposed, String.toList_ofList]
  exact List.takeWhile_append_dropWhile

/-- Nothing is read of a comment without a NUL. -/
theorem exposed_eq_empty (h : '\x00' ∉ c.toList) : exposed c = "" := by
  have hall : ∀ d ∈ c.toList, (decide (d ≠ '\x00')) = true := by
    intro d hd
    rw [decide_eq_true_eq]
    rintro rfl
    exact h hd
  unfold exposed
  rw [List.dropWhile_eq_nil_iff.mpr hall]

/-- What is read of a comment with a NUL begins with it. -/
theorem exists_exposed (h : '\x00' ∈ c.toList) : ∃ rest, (exposed c).toList = '\x00' :: rest := by
  have hne : c.toList.dropWhile (· ≠ '\x00') ≠ [] := by
    rw [Ne, List.dropWhile_eq_nil_iff]
    intro hall
    exact absurd (hall _ h) (by decide)
  have hhead := List.head_dropWhile_not (· ≠ '\x00') hne
  have hnul : (c.toList.dropWhile (· ≠ '\x00')).head hne = '\x00' := by
    rw [decide_eq_false_iff_not, not_not] at hhead
    exact hhead
  have hsplit := List.cons_head_tail hne
  rw [hnul] at hsplit
  exact ⟨_, String.toList_ofList.trans hsplit.symm⟩

/-- **What a comment hides.** Behind a text that leaves no string open, a line that is a comment is read
like the part of it from its first NUL on: an empty line, if it has none. A NUL in it is reported. -/
theorem scan_comment_line (hp : ∀ d ∈ (scan p).diagnostics, d.message ≠ "Unterminated string.")
    (hc : '\n' ∉ c.toList) :
    (scan (p ++ "\n//" ++ c ++ "\n" ++ r)).Agrees (scan (p ++ "\n" ++ exposed c ++ "\n" ++ r)) ∧
      ('\x00' ∉ c.toList →
        (scan (p ++ "\n//" ++ c ++ "\n" ++ r)).Agrees (scan (p ++ "\n\n" ++ r))) ∧
      ('\x00' ∈ c.toList →
        unexpected '\x00' (p.toList.length + 3 + (hidden c).length) ∈
          (scan (p ++ "\n//" ++ c ++ "\n" ++ r)).diagnostics) := by
  obtain ⟨ts, ds, hfirst, hscan⟩ := scan_reads p
  have hclosed : ∀ d ∈ ds, d.message ≠ "Unterminated string." := by
    intro d hd
    refine hp d ?_
    rw [hscan]
    exact hd
  -- what is hidden is a comment, which ends before what is exposed
  have hinside : ∀ d ∈ hidden c, inComment d = true := by
    intro d hd
    have hnul : d ≠ '\x00' := by
      have hall := List.all_takeWhile (p := (· ≠ '\x00')) (l := c.toList)
      simpa using List.all_eq_true.mp hall d hd
    have hfeed : d ≠ '\n' := by
      rintro rfl
      exact hc ((List.takeWhile_prefix _).subset hd)
    simp [inComment, hnul, hfeed]
  have hends : ∀ d ∈ ((exposed c).toList ++ '\n' :: r.toList).head?, inComment d = false := by
    by_cases hnul : '\x00' ∈ c.toList
    · obtain ⟨rest, hrest⟩ := exists_exposed hnul
      rw [hrest]
      intro d hd
      cases hd
      rfl
    · rw [exposed_eq_empty hnul]
      intro d hd
      cases hd
      rfl
  obtain ⟨us, es, hrest⟩ := exists_reads (0 + p.toList.length + 1 + (2 + (hidden c).length))
    ((exposed c).toList ++ '\n' :: r.toList)
  have hcomment := hfirst.join hclosed (hrest.comment hinside hends)
  obtain ⟨us', es', hbare, hwords, hmessages⟩ := hrest.elsewhere (0 + p.toList.length + 1)
  have hline := hfirst.join hclosed hbare
  have hcommentText : (p ++ "\n//" ++ c ++ "\n" ++ r).toList = p.toList ++
      '\n' :: ('/' :: '/' :: hidden c ++ ((exposed c).toList ++ '\n' :: r.toList)) := by
    simp [← hidden_append_exposed c]
  have hlineText : (p ++ "\n" ++ exposed c ++ "\n" ++ r).toList = p.toList ++
      '\n' :: ((exposed c).toList ++ '\n' :: r.toList) := by
    simp
  have hscanComment := scan_of_reads (hcommentText ▸ hcomment)
  have hscanLine := scan_of_reads (hlineText ▸ hline)
  have hagrees : (scan (p ++ "\n//" ++ c ++ "\n" ++ r)).Agrees
      (scan (p ++ "\n" ++ exposed c ++ "\n" ++ r)) := by
    rw [hscanComment, hscanLine]
    refine ⟨?_, ?_⟩
    · simp [hwords, Token.word, Token.eof]
    · simp [hmessages]
  refine ⟨hagrees, fun hnul => ?_, fun hnul => ?_⟩
  · have hempty : p ++ "\n" ++ exposed c ++ "\n" ++ r = p ++ "\n\n" ++ r := by
      rw [exposed_eq_empty hnul, String.append_empty, @String.append_assoc p]
      rfl
    rwa [hempty] at hagrees
  · obtain ⟨rest, hexposed⟩ := exists_exposed hnul
    rw [hexposed] at hrest
    rw [hscanComment]
    refine List.mem_append_right ds ?_
    have hplace : 0 + p.toList.length + 1 + (2 + (hidden c).length) =
        p.toList.length + 3 + (hidden c).length := by omega
    rw [← hplace]
    exact Reads.nul hrest

/-- What stands behind a NUL in a comment is read, so the line is not read like an empty one. -/
theorem scan_comment_line_with_nul :
    (scan "\n//\x00print 1;\n").Agrees (scan "\n\x00print 1;\n") ∧
      unexpected '\x00' 3 ∈ (scan "\n//\x00print 1;\n").diagnostics ∧
      ¬ (scan "\n//\x00print 1;\n").Agrees (scan "\n\n") := by
  have hempty : ∀ d ∈ (scan "").diagnostics, d.message ≠ "Unterminated string." := by decide +kernel
  have hfeeds : (scan "\n\n").diagnostics = [] := by decide +kernel
  have hread := scan_comment_line (p := "") (c := "\x00print 1;") (r := "") hempty (by decide)
  have hnul : unexpected '\x00' 3 ∈ (scan "\n//\x00print 1;\n").diagnostics :=
    hread.2.2 (by decide)
  refine ⟨hread.1, hnul, fun h => ?_⟩
  have hmessages := h.messages
  rw [hfeeds] at hmessages
  rw [List.map_eq_nil_iff.mp hmessages] at hnul
  cases hnul

end

end Lox
