/-
# Where reading goes on after a refusal

A declaration is refused at some token, by whatever production reads it. That
token is dropped whatever it is, also where it begins a statement itself. From
the next one on no token that begins a statement is dropped, and none behind a
semicolon.

Key definitions: `Lox.Cursor.Resumes`.
Key theorems: `Lox.Cursor.resumes_synchronized`, `Lox.Parse.Confined.refused`,
`Lox.refused_token_is_dropped`.
-/
import Lox.Proofs.Grammar.Confinement

namespace Lox

open Procedure

namespace Cursor

/-- From the place where a token is refused to the place where reading goes on. -/
structure Resumes (c : Cursor) (lost : List Token) (c' : Cursor) : Prop where
  /-- The tokens between are dropped, without a report. -/
  passes : c.Passes lost c'
  /-- The token in question is among them, unless it ends the text. -/
  refused : lost = [] ↔ c.atEnd = true
  /-- No other one begins a statement. -/
  kept : ∀ t ∈ lost.tail, startsStatement t.kind = false
  /-- None is behind a semicolon. -/
  sentence : ∀ t ∈ lost.dropLast, t.kind ≠ .semicolon
  /-- Reading goes on at the end, behind a semicolon or before a token that begins a statement. -/
  resumed : c'.atEnd = true ∨ (∃ t ∈ lost.getLast?, t.kind = .semicolon) ∨
    startsStatement c'.here.kind = true

end Cursor

/-! ### The tokens that are dropped -/

section Dropped

open Cursor (startsStatement)

variable {t : Token}

theorem starts_of_mem_toResume : ∀ {ts : List Token}, t ∈ toResume ts → startsStatement t.kind = false
  | [], h => by cases h
  | x :: ts, h => by
    rw [toResume] at h
    split at h
    · cases h
    · rename_i hstop
      have hx : startsStatement x.kind = false := by
        simp only [Bool.or_eq_true, not_or, Bool.not_eq_true] at hstop
        exact hstop.2
      split at h
      · obtain rfl := List.mem_singleton.mp h
        exact hx
      · rcases List.mem_cons.mp h with rfl | h
        · exact hx
        · exact starts_of_mem_toResume h

theorem ne_semicolon_of_mem_toResume : ∀ {ts : List Token},
    t ∈ (toResume ts).dropLast → t.kind ≠ .semicolon
  | [], h => by cases h
  | x :: ts, h => by
    rw [toResume] at h
    split at h
    · cases h
    · split at h
      · cases h
      · rename_i hx
        cases hts : toResume ts with
        | nil =>
          rw [hts] at h
          cases h
        | cons y ys =>
          rw [hts, List.dropLast_cons_cons] at h
          rcases List.mem_cons.mp h with rfl | h
          · exact hx
          · exact ne_semicolon_of_mem_toResume (hts ▸ h)

/-- What is dropped ends with a semicolon, or before the end or a token that begins a statement. -/
theorem resumes_toResume {e : Token} (he : e.kind = .eof) : ∀ {ts us : List Token},
    ts = toResume (ts ++ [e]) ++ us →
      (us.headD e).kind = .eof ∨ (∃ t ∈ (toResume (ts ++ [e])).getLast?, t.kind = .semicolon) ∨
        startsStatement (us.headD e).kind = true
  | [], us, h => by
    obtain rfl : us = [] := (List.append_eq_nil_iff.mp h.symm).2
    exact .inl he
  | x :: ts, us, h => by
    rw [List.cons_append, toResume] at h ⊢
    split at h
    · rename_i hstop
      obtain rfl : x :: ts = us := h
      rcases Bool.or_eq_true_iff.mp hstop with hx | hx
      · exact .inl (by simpa using hx)
      · exact .inr (.inr hx)
    · rename_i hstop
      rw [if_neg hstop]
      split at h
      · rename_i hx
        rw [if_pos hx]
        exact .inr (.inl ⟨x, rfl, hx⟩)
      · rename_i hx
        rw [if_neg hx]
        rcases resumes_toResume he (List.cons.inj h).2 with hr | ⟨y, hy, hk⟩ | hr
        · exact .inl hr
        · refine .inr (.inl ⟨y, ?_, hk⟩)
          rw [List.getLast?_cons]
          rw [Option.mem_def] at hy ⊢
          rw [hy]
          rfl
        · exact .inr (.inr hr)

end Dropped

namespace Cursor

variable {c : Cursor}

theorem resumes_synchronized (hc : c.Ended) : ∃ lost, c.Resumes lost c.synchronized := by
  obtain ⟨ts, e, later, hahead, hts, he⟩ := hc.split
  have hm := moves_synchronized he hahead
  obtain ⟨us, hus, -⟩ := dropped_append he ts []
  have hresumed : c.synchronized.here = us.headD e :=
    here_eq (show c.synchronized.ahead = us ++ e :: later from hm.ahead_eq (by rw [← hus]; exact hahead))
  cases ts with
  | nil =>
    have hend := atEnd_of_ahead he hahead
    rw [List.nil_append, dropped, if_pos he] at hm
    refine ⟨[], hm.passes, by simp [hend], by simp, by simp, .inl ?_⟩
    obtain rfl : us = [] := (List.append_eq_nil_iff.mp hus.symm).2
    rw [atEnd_iff, hresumed]
    exact he
  | cons x ts =>
    have hx : x.kind ≠ .eof := hts x List.mem_cons_self
    have hend : c.atEnd = false := atEnd_eq_false (by rw [here_eq hahead]; exact hx)
    rw [List.cons_append, dropped, if_neg hx] at hm hus
    by_cases hs : x.kind = .semicolon
    · rw [if_pos hs] at hm
      exact ⟨[x], hm.passes, by simp [hend], by simp, by simp, .inr (.inl ⟨x, rfl, hs⟩)⟩
    · rw [if_neg hs] at hm hus
      refine ⟨x :: toResume (ts ++ [e]), hm.passes, by simp [hend],
        fun t ht => starts_of_mem_toResume ht, fun t ht => ?_, ?_⟩
      · cases hl : toResume (ts ++ [e]) with
        | nil =>
          rw [hl] at ht
          cases ht
        | cons y ys =>
          rw [hl, List.dropLast_cons_cons] at ht
          rcases List.mem_cons.mp ht with rfl | ht
          · exact hs
          · exact ne_semicolon_of_mem_toResume (hl ▸ ht)
      · rw [atEnd_iff, hresumed]
        rcases resumes_toResume he (List.cons.inj hus).2 with h | ⟨y, hy, hk⟩ | h
        · exact .inl h
        · refine .inr (.inl ⟨y, ?_, hk⟩)
          rw [Option.mem_def] at hy ⊢
          rw [List.getLast?_cons, hy]
          rfl
        · exact .inr (.inr h)

variable {c' : Cursor} {lost : List Token}

/-- A token that begins a statement is dropped exactly if it is the one that was refused. -/
theorem Resumes.starts_iff (h : c.Resumes lost c') :
    (∃ t ∈ lost, startsStatement t.kind = true) ↔ startsStatement c.here.kind = true := by
  cases lost with
  | nil =>
    have hend := atEnd_iff.mp (h.refused.mp rfl)
    simp [hend, startsStatement]
  | cons x lost =>
    have hx : c.here = x := h.passes.here
    have hkept : ∀ t ∈ lost, startsStatement t.kind = false := h.kept
    rw [hx]
    constructor
    · rintro ⟨t, ht, hk⟩
      rcases List.mem_cons.mp ht with rfl | ht
      · exact hk
      · rw [hkept t ht] at hk
        cases hk
    · exact fun hk => ⟨x, List.mem_cons_self, hk⟩

end Cursor

/-! ### Refusals -/

namespace Parse

variable {α : Type} {p : Parse α} {c c' : Cursor} {e : ParseError}

/-- The refusal that a production ends with, if it does. -/
def refusal? (p : Parse α) (c : Cursor) : Option ParseError :=
  match (p c).1 with
  | .error (.refused e) => some e
  | _ => none

theorem refused_of_refusal? (h : refusal? p c = some e) : p c = (.error (.refused e), (p c).2) := by
  unfold refusal? at h
  refine Prod.ext ?_ rfl
  revert h
  rcases (p c).1 with (_ | _) | _ <;> simp

/-- What is refused is the token ahead, and that is the last report. -/
theorem Confined.refused (h : Confined .text p) (hc : c.Ended)
    (hrun : p c = (.error (.refused e), c')) :
    c'.Ended ∧ e.offset = some c'.here.offset ∧
      c'.diagnostics.toList.getLast? = some ⟨.grammar, c'.here.offset, e.message⟩ := by
  obtain ⟨ts, t, later, hahead, hts, ht⟩ := hc.split
  obtain ⟨⟨r, read, left, ds⟩, rfl, hb, hdo⟩ := h ts t hts ht
  obtain ⟨c₁, hrun₁, hm⟩ := hdo c later hahead
  obtain ⟨rfl, rfl⟩ := Prod.mk.inj (hrun.symm.trans hrun₁)
  have hleft : c'.ahead = left ++ t :: later := hm.ahead_eq hahead
  obtain ⟨es, hes, ho, -⟩ := hb.refused e rfl
  rw [Cursor.here_eq hleft]
  refine ⟨⟨t, by rw [hleft]; simp, ht⟩, ho, ?_⟩
  rw [hm.diagnostics, hes, ← List.append_assoc, List.getLast?_concat]

end Parse

/-- At every place that is reached from the start of a list of tokens, and at every depth of nesting,
a declaration that is refused is given up at the token in question, which was reported last. This
token is dropped and no other one that begins a statement is: reading goes on behind the next
semicolon, or before the first such token behind the one in question, or at the end. -/
theorem refused_token_is_dropped (tokens : List Token) (bound steps spent : Nat) (c c' : Cursor)
    (e : ParseError) (hc : (Cursor.ofTokens tokens).Reaches c)
    (hrun : Parse.undertaking (Inner.within bound steps spent) c = (.error (.refused e), c')) :
    Parse.declaration (Inner.within bound steps spent) c = (.ok none, c'.synchronized) ∧
    e.offset = some c'.here.offset ∧
    c'.diagnostics.toList.getLast? = some ⟨.grammar, c'.here.offset, e.message⟩ ∧
    ∃ lost, c'.Resumes lost c'.synchronized ∧
      ((∃ t ∈ lost, Cursor.startsStatement t.kind = true) ↔
        Cursor.startsStatement c'.here.kind = true) := by
  have hended := hc.ended (Cursor.ended_ofTokens tokens)
  have hconfined := Parse.Confined.undertaking (Inner.confinedStmt_within bound steps spent)
  obtain ⟨hended', hoffset, hlast⟩ := hconfined.refused hended hrun
  obtain ⟨lost, hlost⟩ := Cursor.resumes_synchronized hended'
  refine ⟨?_, hoffset, hlast, lost, hlost, hlost.starts_iff⟩
  rw [Parse.declaration_eq, Parse.recovering, hrun]

/-- Without the semicolon between them, the second of two print statements is lost. -/
theorem refused_keyword_is_dropped :
    let tokens : List Token := [⟨.kwPrint, "print", .nil, 0⟩, ⟨.identifier, "a", .nil, 6⟩,
      ⟨.kwPrint, "print", .nil, 8⟩, ⟨.identifier, "b", .nil, 14⟩, ⟨.semicolon, ";", .nil, 15⟩, .eof 16]
    let inner := Inner.within 7 20 0
    let stuck := (Parse.undertaking inner (.ofTokens tokens)).2
    Parse.declaration inner (.ofTokens tokens) = (.ok none, stuck.synchronized) ∧
      stuck.here.kind = .kwPrint ∧ stuck.synchronized.atEnd = true := by
  intro tokens inner stuck
  have h := refused_token_is_dropped tokens 7 20 0 (.ofTokens tokens) stuck
    ⟨"Expect ';' after value.", some 8⟩ (.refl _) (Parse.refused_of_refusal? (by decide +kernel))
  exact ⟨h.1, by decide +kernel, by decide +kernel⟩

end Lox
