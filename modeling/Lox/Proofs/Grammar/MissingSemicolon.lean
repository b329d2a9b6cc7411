/-
# What is reported where a semicolon is missing

A text without reports, but for the semicolon of one statement. If an expression
statement is behind the gap and goes on with the one before it, both are read
as one, and at most its target is reported. Otherwise the token behind the gap
is refused, with one report; the declaration that lacks its semicolon and the
tokens that are dropped behind it are read as an empty block, and all other
reports are those of the text with that block. So there is no second report
exactly where that text has none. But closing braces are dropped as well, and so
are the keywords that are refused.

Key definitions: `Lox.Gap.Placed`.
Key theorems: `Lox.Gap.Opens.next`, `Lox.Gap.Opens.exists_placed`, `Lox.Gap.Placed.refused`,
`Lox.Gap.Placed.goes_on`, `Lox.missing_semicolon_reports`.
-/
import Lox.Proofs.Grammar.Acceptance
import Lox.Proofs.Grammar.Gaps
import Lox.Proofs.Grammar.Isolation

namespace Lox

open Procedure Phrases

/-! ### The token behind the gap -/

/-- A row goes on with a declaration, or it ends. -/
theorem Derives.row_goes_on {row post : List Token} (h : Derives (.star (.symbol .declaration)) row)
    (hpost : Begins endsRow post) :
    Begins (fun k => beginsDeclaration k || endsRow k) (row ++ post) := by
  cases h with
  | done => exact hpost.mono fun k hk => by simp [hk]
  | again hfirst hrest =>
    obtain ⟨isOpen, s, hs⟩ := hfirst.parses _ (Nat.le_refl _)
    exact ((hs.begins.append _).append _).mono fun k hk => by simp [hk]

/-- Where a row is ahead there is no `else`. -/
theorem Derives.ne_else_of_row {row post : List Token} {c : Cursor}
    (h : Derives (.star (.symbol .declaration)) row) (hpost : Begins endsRow post)
    (hc : c.ahead = row ++ post) : c.here.kind ≠ .kwElse := by
  obtain ⟨t, us, hts, ht⟩ := h.row_goes_on hpost
  rw [(List.cons.inj (hc.trans hts)).1]
  rintro hk
  rw [hk] at ht
  cases ht

theorem stuck_of {k : TokenKind} (h : k = .kwElse ∨ endsRow k ∨ beginsDeclaration k ∧ ¬ beginsExpr k) :
    Stuck k := by
  refine ⟨?_, ?_, ?_⟩ <;> revert h <;> cases k <;> decide

section Next

variable {α : Type} {p : Parse α} {P : List Token → Prop} {bound room : Nat} {semi : Token}
  {u v : List Token} {x : Gap}

/-- Behind the gap is a token that does not go on with an expression, or an expression statement. -/
theorem Gap.Opens.next (h : x.Opens bound room p P semi u v) :
    (∃ t us, v = t :: us ∧ Stuck t.kind ∧ ¬ beginsExpr t.kind) ∨
    ∃ w semi' row, x.after = [] ∧ x.row = w ++ semi' :: row ∧ Derives (.symbol .assignment) w ∧
      semi'.kind = .semicolon ∧ Derives (.star (.symbol .declaration)) row := by
  have stuck {t : Token} {us : List Token} (hv : v = t :: us)
      (hk : t.kind = .kwElse ∨ endsRow t.kind ∨ beginsDeclaration t.kind ∧ ¬ beginsExpr t.kind) :
      ∃ t us, v = t :: us ∧ Stuck t.kind ∧ ¬ beginsExpr t.kind :=
    ⟨t, us, hv, stuck_of hk, by rw [(stuck_of hk).begins]; decide⟩
  rcases h.after with hafter | ⟨t, us, hafter, ht⟩
  · obtain ⟨z, zs, hpost, hz⟩ := h.post
    generalize hrow : x.row = row
    have hd := h.row
    rw [hrow] at hd
    have hv := h.behind_eq
    rw [hafter, hrow, hpost, List.nil_append] at hv
    cases hd with
    | done => exact .inl (stuck hv (.inr (.inl hz)))
    | @again _ ts row hfirst hrest =>
      obtain ⟨isOpen, s, hs⟩ := hfirst.parses _ (Nat.le_refl _)
      obtain ⟨t, us, rfl, ht⟩ := hs.begins
      by_cases hk : beginsExpr t.kind
      · obtain ⟨w, semi', e, he, hsemi, hw⟩ := (hs.toExprStmt hk).split
        exact .inr ⟨w, semi', row, hafter, by simp [hw], he.derives (derived_within _ _), hsemi, hrest⟩
      · exact .inl (stuck hv (.inr (.inr ⟨ht, hk⟩)))
  · exact .inl (stuck (by rw [h.behind_eq, hafter]; rfl) (.inl (by simpa using ht)))

end Next

/-! ### From the declaration to the text -/

namespace Cursor

variable {c : Cursor} {ts us : List Token} {e : Token}

/-- The place behind some of the tokens ahead. -/
theorem exists_passes (h : c.ahead = ts ++ us) (hus : us ≠ []) :
    ∃ c', c.Passes ts c' ∧ c'.ahead = us := by
  obtain ⟨u, us, rfl⟩ := List.exists_cons_of_ne_nil hus
  exact ⟨⟨ts.reverse ++ c.done, u, us, c.diagnostics⟩, ⟨h, rfl, rfl⟩, rfl⟩

theorem bound_ofTokens (ts : List Token) (he : e.kind = .eof) :
    (ofTokens (ts ++ [e])).bound = ts.length + 2 := by
  have hs := starts_ofTokens ts he
  have ha := congrArg List.length hs.ahead
  simp only [ahead, List.length_cons, List.length_append, List.length_nil] at ha
  rw [bound, hs.done, List.length_nil]
  omega

end Cursor

section Carry

variable {P : List Token → Prop} {bound room fuel : Nat} {semi e : Token} {u v : List Token} {x : Gap}
  {limits : Limits}

/-- The place is behind what is kept of a text, and so there is one behind it in every other text that
is the same up to there; the reports of the texts differ by those of the declarations that are read
from these places, if these leave the same tokens. -/
structure Gap.Placed (x : Gap) (limits : Limits) (bound size : Nat) (e : Token) (y : List Token)
    (c : Cursor) : Prop where
  bound : c.bound ≤ bound
  ahead : c.ahead = y ++ [e]
  diagnostics : c.diagnostics = #[]
  others : ∀ z, Begins inRow z → (x.kept ++ z).length + 2 ≤ size →
    ∃ d : Cursor, d.ahead = z ++ [e] ∧ d.diagnostics = #[] ∧
      ∀ ds, Parse.Same ds Parse.Any (Parse.recovering (Parse.undertaking x.inner) c)
          (Parse.recovering (Parse.undertaking x.inner) d) →
        (parse limits (x.kept ++ y ++ [e])).diagnostics =
          ds ++ (parse limits (x.kept ++ z ++ [e])).diagnostics

/-- A text with a gap has such a place. -/
theorem Gap.Opens.exists_placed
    (h : x.Opens bound room (Parse.program (Inner.within bound limits.steps 0) fuel) P semi u v)
    (he : e.kind = .eof) {y : List Token} (hy : Begins inRow y)
    (hyb : (x.kept ++ y).length + 2 ≤ min bound fuel) :
    ∃ c, x.Placed limits bound (min bound fuel) e y c := by
  -- Behind what is kept of a text there is a place, and the text is read through.
  have place (y : List Token) (hy : Begins inRow y) (hyb : (x.kept ++ y).length + 2 ≤ min bound fuel) :
      ∃ c c₁ : Cursor, c.bound ≤ bound ∧ c.Passes x.kept c₁ ∧ c₁.ahead = y ++ [e] ∧
        c₁.diagnostics = #[] ∧ inRow c₁.here.kind = true ∧ (parse limits (x.kept ++ y ++ [e])).diagnostics =
          (Parse.program (Inner.within bound limits.steps 0) fuel c).2.diagnostics.toList := by
    have hs := Cursor.starts_ofTokens (x.kept ++ y) he
    have hlt := endsAt_lt_bound (x.kept ++ y ++ [e])
    have hbound := Cursor.bound_ofTokens (x.kept ++ y) he
    have ha : (Cursor.ofTokens (x.kept ++ y ++ [e])).ahead = x.kept ++ (y ++ [e]) := by
      rw [hs.ahead, List.append_assoc]
    obtain ⟨c₁, hc₁, hahead⟩ := Cursor.exists_passes ha (by simp)
    obtain ⟨stmts, last, hrun⟩ : ∃ stmts last, Parse.program (Inner.within bound limits.steps 0) fuel
        (.ofTokens (x.kept ++ y ++ [e])) = (.ok stmts, last) := Parse.program_ok fuel _
    refine ⟨_, c₁, by omega, hc₁, hahead, hc₁.diagnostics.trans hs.diagnostics, ?_, ?_⟩
    · obtain ⟨t, us, rfl, ht⟩ := hy
      rwa [(List.cons.inj hahead).1]
    · rw [parse_of_program_eq (by omega) (by omega) hrun, hrun]
  obtain ⟨c, c₁, hcb, hc, hcy, hcd, hck, hparse⟩ := place y hy hyb
  refine ⟨c₁, hc.bound ▸ hcb, hcy, hcd, fun z hz hzb => ?_⟩
  obtain ⟨d, d₁, hdb, hd, hdz, hdd, hdk, hparse'⟩ := place z hz hzb
  refine ⟨d₁, hdz, hdd, fun ds hsame => ?_⟩
  rw [hparse, hparse']
  exact (h.carries ds c c₁ d d₁ hcb hdb hc hd hck hdk hsame).places.diagnostics

end Carry

/-! ### An empty block in its place -/

namespace Parse

variable {inner : Inner} {c c' d : Cursor} {l r : Token} {begun v rest : List Token} {e : Token}

/-- Two braces are a block, whatever is further in. -/
theorem undertaking_braces (hl : l.kind = .leftBrace) (hr : r.kind = .rightBrace)
    (h : c.Passes [l, r] c') : undertaking inner c = (.ok (.block []), c') := by
  obtain ⟨c₁, h₁, h₂⟩ := h.uncons
  have hbody : declarations inner inner.bound c₁ = (.ok [], c₁) := by
    cases inner.bound with
    | zero => rfl
    | succ fuel =>
      refine (bind_ok (check_eq _ c₁)).trans ?_
      refine (bind_ok (show atEnd c₁ = (.ok c₁.atEnd, c₁) from rfl)).trans ?_
      rw [if_pos (by simp [h₂.here, hr])]
      rfl
  rw [takes_undertaking inner c (by rw [h₁.here, hl]; rfl), statement_eq_block h₁ hl]
  exact bind_ok ((bind_ok hbody).trans (bind_ok (discard_eq (expect_eq h₂ hr (by decide) _))))

/-- What is refused and dropped is one report, and no more than an empty block. -/
theorem same_braces_of_refused {p : Parse Stmt} {message : String}
    (h : p c = (.error (.refused ⟨message, some c'.here.offset⟩), c'.report c'.here.offset message))
    (hc : c.Passes begun c') (he : e.kind = .eof) (hv : c'.ahead = v ++ [e])
    (hrest : v = dropped (v ++ [e]) ++ rest) (hl : l.kind = .leftBrace) (hr : r.kind = .rightBrace)
    (hd : d.ahead = l :: r :: rest ++ [e]) (hcd : c.diagnostics = #[]) (hdd : d.diagnostics = #[]) :
    Same [⟨.grammar, c'.here.offset, message⟩] Any (recovering p c) (recovering (undertaking inner) d) := by
  have hreport := hc.moves.trans (c'.moves_report c'.here.offset message)
  have hahead : (c'.report c'.here.offset message).ahead = v ++ [e] := hv
  have hsync := Cursor.moves_synchronized he hahead
  have hleft := hsync.ahead_eq (by rw [← hrest]; exact hahead)
  have hall := (hreport.trans hsync).diagnostics
  obtain ⟨d', hd', hrest'⟩ := Cursor.exists_passes (show d.ahead = [l, r] ++ (rest ++ [e]) from hd)
    (by simp)
  rw [recovering_eq (undertaking_braces hl hr hd'), recovering, h]
  refine ⟨.inl ⟨_, _, rfl, rfl, trivial⟩, ⟨e, by simp [hrest'], he⟩, hleft.trans hrest'.symm, ?_⟩
  rw [hall, hd'.diagnostics, hcd, hdd]
  simp

/-- What goes on with the tokens behind it is its reports, and no more than an empty block. -/
theorem same_braces_of_moves {p : Parse Stmt} {a : Stmt} {ds : List Diagnostic} {read : List Token}
    (h : p c = (.ok a, c')) (hm : c.Moves read ds c') (hc : c.ahead = read ++ (rest ++ [e]))
    (he : e.kind = .eof) (hl : l.kind = .leftBrace) (hr : r.kind = .rightBrace)
    (hd : d.ahead = l :: r :: rest ++ [e]) (hcd : c.diagnostics = #[]) (hdd : d.diagnostics = #[]) :
    Same ds Any (recovering p c) (recovering (undertaking inner) d) := by
  have hleft : c'.ahead = rest ++ [e] := List.append_cancel_left (hm.ahead.symm.trans hc)
  obtain ⟨d', hd', hrest'⟩ := Cursor.exists_passes (show d.ahead = [l, r] ++ (rest ++ [e]) from hd)
    (by simp)
  rw [recovering_eq (undertaking_braces hl hr hd'), recovering_eq h]
  refine ⟨.inl ⟨_, _, rfl, rfl, trivial⟩, ⟨e, by simp [hrest'], he⟩, hleft.trans hrest'.symm, ?_⟩
  rw [hm.diagnostics, hd'.diagnostics, hcd, hdd]
  simp

end Parse

theorem begins_braces {l r : Token} (hl : l.kind = .leftBrace) (ts : List Token) :
    Begins inRow (l :: r :: ts) :=
  .cons (by rw [hl]; rfl) _

namespace Gap.Placed

variable {x : Gap} {limits : Limits} {bound size : Nat} {begun read rest v : List Token} {e l r : Token}
  {c c' d : Cursor}

/-- Where the declaration is refused, an empty block stands for it and for what is dropped. -/
theorem refused (h : x.Placed limits bound size e (begun ++ v) c) (he : e.kind = .eof)
    (hpass : c.Passes begun c') (hrest : v = dropped (v ++ [e]) ++ rest)
    (hsize : (x.kept ++ (begun ++ v)).length + 4 ≤ size)
    (hrefused : Parse.RefusesAt (Parse.undertaking x.inner) c c') :
    ∃ message, ∀ l r : Token, l.kind = .leftBrace → r.kind = .rightBrace →
      (parse limits (x.kept ++ (begun ++ v) ++ [e])).diagnostics =
        ⟨.grammar, (v.headD e).offset, message⟩ ::
          (parse limits (x.kept ++ l :: r :: rest ++ [e])).diagnostics := by
  obtain ⟨message, hrefused⟩ := hrefused
  have hahead : c'.ahead = v ++ [e] := by
    rw [← List.append_cancel_left_eq begun, ← hpass.ahead, h.ahead, List.append_assoc]
  have hlength := congrArg List.length hrest
  simp only [List.length_append] at hlength hsize
  refine ⟨message, fun l r hl hr => ?_⟩
  obtain ⟨d, hd, hdd, heq⟩ := h.others (l :: r :: rest) (begins_braces hl rest)
    (by simp only [List.length_append, List.length_cons]; omega)
  rw [heq _ (Parse.same_braces_of_refused hrefused hpass he hahead hrest hl hr hd h.diagnostics hdd),
    Cursor.here_eq hahead]
  rfl

/-- Where the declaration goes on with tokens behind the gap, an empty block stands for it and for
them. -/
theorem goes_on (h : x.Placed limits bound size e (read ++ rest) c) (he : e.kind = .eof)
    (hl : l.kind = .leftBrace) (hr : r.kind = .rightBrace)
    (hsize : (x.kept ++ (read ++ rest)).length + 4 ≤ size) {a : Stmt} {ds : List Diagnostic}
    (hrun : Parse.undertaking x.inner c = (.ok a, d)) (hmoves : c.Moves read ds d) :
    (parse limits (x.kept ++ (read ++ rest) ++ [e])).diagnostics =
      ds ++ (parse limits (x.kept ++ l :: r :: rest ++ [e])).diagnostics := by
  simp only [List.length_append] at hsize
  obtain ⟨d', hd', hdd', heq⟩ := h.others (l :: r :: rest) (begins_braces hl rest)
    (by simp only [List.length_append, List.length_cons]; omega)
  exact heq _ (Parse.same_braces_of_moves hrun hmoves (by rw [h.ahead, List.append_assoc]) he hl hr hd'
    h.diagnostics hdd')

end Gap.Placed

/-! ### Texts -/

/-- A row of declarations has no reports, with enough steps for its nesting. -/
theorem diagnostics_of_row {limits : Limits} {row : List Token} {e : Token}
    (h : Derives (.star (.symbol .declaration)) row) (he : e.kind = .eof)
    (hm : nestingSteps * (row.length + 1) ≤ limits.steps) :
    (parse limits (row ++ [e])).diagnostics = [] := by
  have hd : Derives (.symbol .program) (row ++ [e]) := .symbol (.seq h (.token he))
  obtain ⟨us, e', ss, hss, he', heq⟩ := hd.parses limits.steps (by simpa using hm)
  obtain ⟨rfl, -⟩ := List.append_inj' heq rfl
  rw [parse_of_program he hss]

section Text

variable {α : Type} {p : Parse α} {bound room n : Nat} {semi l r e : Token} {u v : List Token} {x : Gap}
  {limits : Limits}

/-- The end is what the row that lacks the semicolon has behind it, or it is behind that. -/
theorem Gap.Opens.post_eq {P : List Token → Prop} (h : x.Opens bound room p P semi u (v ++ [e])) :
    ∃ post, x.post = post ++ [e] ∧ v = x.after ++ (x.row ++ post) := by
  have hv := h.behind_eq
  obtain ⟨z, zs, hz, -⟩ := h.post
  rcases List.eq_nil_or_concat x.post with hpost | ⟨post, last, hpost⟩
  · simp [hpost] at hz
  · rw [List.concat_eq_append] at hpost
    rw [hpost, ← List.append_assoc, ← List.append_assoc] at hv
    obtain ⟨hv, hlast⟩ := List.append_inj' hv rfl
    exact ⟨post, by rw [hpost, (List.cons.inj hlast).1], by rw [hv, List.append_assoc]⟩

/-- With an empty block for the declaration that lacks its semicolon there are no reports. -/
theorem Gap.Opens.diagnostics_of_braces (h : x.Opens bound room p (RowBefore e) semi u v)
    (hl : l.kind = .leftBrace) (hr : r.kind = .rightBrace) {row : List Token}
    (hrow : Derives (.star (.symbol .declaration)) row) (he : e.kind = .eof)
    (hn : (x.kept ++ l :: r :: row ++ x.post).length ≤ n) (hsteps : nestingSteps * n ≤ limits.steps) :
    (parse limits (x.kept ++ l :: r :: row ++ x.post)).diagnostics = [] := by
  have hblock : Derives (.symbol .declaration) [l, r] :=
    .symbol (.right (.right (.right (.symbol (.right (.right (.right (.right (.right (.right
      (Derives.block_around hl ⟨[], .done, rfl⟩ hr)))))))))))
  obtain ⟨text, htext, heq⟩ := h.rebuild ([l, r] ++ row) (.again hblock hrow)
  have hall : x.kept ++ l :: r :: row ++ x.post = text ++ [e] := by simpa using heq
  rw [hall, List.length_append, List.length_singleton] at hn
  rw [hall]
  exact diagnostics_of_row htext he (Nat.le_trans (Nat.mul_le_mul_left _ hn) hsteps)

/-- Where the declaration goes on with the statement behind the gap, the reports are its own. -/
theorem Gap.Opens.diagnostics_of_goes_on (h : x.Opens bound room p (RowBefore e) semi u v)
    {row post read : List Token} {size : Nat} {c d : Cursor} {a : Stmt} {ds : List Diagnostic}
    (hplaced : x.Placed limits bound size e (read ++ (row ++ post)) c) (he : e.kind = .eof)
    (hpost : x.post = post ++ [e]) (hrow : Derives (.star (.symbol .declaration)) row)
    (hsize : (x.kept ++ (read ++ (row ++ post))).length + 4 ≤ size)
    (hn : (x.kept ++ (row ++ post)).length + 3 ≤ n) (hsteps : nestingSteps * n ≤ limits.steps)
    (hrun : Parse.undertaking x.inner c = (.ok a, d)) (hmoves : c.Moves read ds d) :
    (parse limits (x.kept ++ (read ++ (row ++ post)) ++ [e])).diagnostics = ds := by
  -- An empty block stands for it in a text without reports.
  let l : Token := ⟨.leftBrace, "\x7b", .nil, 0⟩
  let r : Token := ⟨.rightBrace, "\x7d", .nil, 0⟩
  simp only [List.length_append] at hn
  have hnone := h.diagnostics_of_braces (l := l) (r := r) rfl rfl hrow he
    (by simp only [hpost, List.length_append, List.length_cons, List.length_nil]; omega) hsteps
  have htext : x.kept ++ l :: r :: (row ++ post) ++ [e] = x.kept ++ l :: r :: row ++ x.post := by
    simp [hpost]
  rw [hplaced.goes_on (l := l) (r := r) he rfl rfl hsize hrun hmoves, htext, hnone, List.append_nil]

end Text

/-- Of a text without reports a semicolon is left out that is not in the header of a for-loop: as many
parentheses are open before it as are closed. If an expression begins behind the gap and goes on with
the statement before it, there is one report at most, of a wrong target. Otherwise the token behind the
gap is reported, and there are the reports of the text where an empty block stands for the declaration
that lacks its semicolon and for the tokens that are dropped behind it. So there is one report exactly
if that text has none. -/
theorem missing_semicolon_reports (limits : Limits) (u v : List Token) (semi e : Token)
    (heof : ∀ t ∈ u ++ semi :: v, t.kind ≠ .eof) (he : e.kind = .eof)
    (hsemi : semi.kind = .semicolon) (hheader : Paired u)
    (hclean : (parse limits (u ++ semi :: v ++ [e])).diagnostics = [])
    (hsteps : nestingSteps * (u ++ v).length ≤ limits.steps) :
    (beginsExpr (v.headD e).kind ∧ (parse limits (u ++ v ++ [e])).diagnostics.length ≤ 1 ∧
      ∀ d ∈ (parse limits (u ++ v ++ [e])).diagnostics, d.message = invalidTarget) ∨
    ∃ kept begun rest message, u = kept ++ begun ∧
      Derives (.symbol .declaration) (begun ++ [semi]) ∧ v = dropped (v ++ [e]) ++ rest ∧
      ∀ l r : Token, l.kind = .leftBrace → r.kind = .rightBrace →
        (parse limits (u ++ v ++ [e])).diagnostics = ⟨.grammar, (v.headD e).offset, message⟩ ::
          (parse limits (kept ++ l :: r :: rest ++ [e])).diagnostics := by
  have hprogram := program_of_parse heof he hclean
  have hlength := hprogram.length_le (p := beginsDeclaration) fun _ _ _ => Declaration.begins
  rw [List.length_append, List.length_cons] at hlength
  rw [List.length_append] at hsteps
  -- The bound of all loops is beyond all tokens.
  obtain ⟨k, hk⟩ : ∃ k, k = u.length + v.length + 4 := ⟨_, rfl⟩
  obtain ⟨x, hx⟩ : ∃ x : Gap, x.Opens k v.length (Parse.program (Inner.within k limits.steps 0) k)
      (RowBefore e) semi u (v ++ [e]) :=
    opens_program hsemi (by simp [endsRow, he]) hprogram rfl hheader (by simp; omega) hsteps (by omega)
  have hu := hx.before_eq
  have hulen := congrArg List.length hu
  rw [List.length_append] at hulen
  obtain ⟨c, hplaced⟩ := hx.exists_placed he ((hx.begins.mono fun _ => inRow_of_begins).append v)
    (by simp; omega)
  have hsize : (x.kept ++ (x.begun ++ v)).length + 4 ≤ min k k := by simp; omega
  have htext : x.kept ++ (x.begun ++ v) = u ++ v := by rw [hu, List.append_assoc]
  obtain ⟨c', hpass, hahead⟩ := Cursor.exists_passes (hplaced.ahead.trans (List.append_assoc ..))
    (by simp : v ++ [e] ≠ [])
  -- Where the declaration is refused, an empty block stands for it and for what is dropped.
  have refused (h : Parse.RefusesAt (Parse.undertaking x.inner) c c') :
      ∃ kept begun rest message, u = kept ++ begun ∧
        Derives (.symbol .declaration) (begun ++ [semi]) ∧ v = dropped (v ++ [e]) ++ rest ∧
        ∀ l r : Token, l.kind = .leftBrace → r.kind = .rightBrace →
          (parse limits (u ++ v ++ [e])).diagnostics = ⟨.grammar, (v.headD e).offset, message⟩ ::
            (parse limits (kept ++ l :: r :: rest ++ [e])).diagnostics := by
    obtain ⟨rest, hrest, -⟩ := dropped_append he v []
    obtain ⟨message, hreports⟩ := hplaced.refused he hpass hrest hsize h
    rw [htext] at hreports
    exact ⟨x.kept, x.begun, rest, message, hu, hx.declaration, hrest, hreports⟩
  rcases hx.next with ⟨t, us, hv, hstuck, -⟩ | ⟨w, semi', row, hafter, hrow, hw, hsemi', hrest'⟩
  · refine .inr (refused ((hx.lacks c hplaced.bound).stuck c' hpass ?_))
    have ht : c'.here = t := (List.cons.inj (hahead.trans hv)).1
    rwa [ht]
  · -- The statement behind the gap has its semicolon, and no `else` is behind that.
    obtain ⟨post, hpost, hv⟩ := hx.post_eq
    rw [hafter, hrow, List.nil_append] at hv
    obtain ⟨c'', hpass', hahead'⟩ := Cursor.exists_passes
      (show c'.ahead = (w ++ [semi']) ++ (row ++ post ++ [e]) by rw [hahead, hv]; simp) (by simp)
    have helse := hrest'.ne_else_of_row hx.post (c := c'') (by rw [hahead', hpost, List.append_assoc])
    have hwlen := congrArg List.length hv
    simp only [List.length_append, List.length_cons] at hwlen
    rcases (hx.lacks c hplaced.bound).before c' c'' w semi' hpass hpass' hw (by omega) hsemi' helse with
      h | ⟨a, d, ds, hrun, hmoves, hone, hds⟩
    · exact .inr (refused h)
    -- Both statements are read as one.
    · obtain ⟨t, us, rfl, ht⟩ := hw.assignment_begins
      have hsplit : x.begun ++ v = (x.begun ++ t :: us ++ [semi']) ++ (row ++ post) := by
        rw [hv]
        simp
      have hbegun : 0 < x.begun.length := by
        obtain ⟨t, us, hts, -⟩ := hx.begins
        simp [hts]
      rw [hsplit] at hplaced hsize htext
      rw [List.length_cons] at hwlen
      have hreports := hx.diagnostics_of_goes_on hplaced he hpost hrest' hsize
        (by simp only [List.length_append]; omega) hsteps hrun hmoves
      rw [htext] at hreports
      refine .inl ⟨by rwa [hv], ?_⟩
      rw [hreports]
      exact ⟨hone, hds⟩

/-- A print statement in a block: the brace of the block is dropped, which makes a second report. -/
theorem brace_is_missed :
    let u : List Token := [⟨.leftBrace, "\x7b", .nil, 0⟩, ⟨.kwPrint, "print", .nil, 2⟩,
      ⟨.identifier, "a", .nil, 8⟩]
    let v : List Token := [⟨.rightBrace, "\x7d", .nil, 10⟩]
    let semi : Token := ⟨.semicolon, ";", .nil, 9⟩
    (parse .usual (u ++ semi :: v ++ [.eof 11])).diagnostics = [] ∧
      (∃ kept begun rest message, u = kept ++ begun ∧
        Derives (.symbol .declaration) (begun ++ [semi]) ∧ v = dropped (v ++ [.eof 11]) ++ rest ∧
        ∀ l r : Token, l.kind = .leftBrace → r.kind = .rightBrace →
          (parse .usual (u ++ v ++ [.eof 11])).diagnostics = ⟨.grammar, 10, message⟩ ::
            (parse .usual (kept ++ l :: r :: rest ++ [.eof 11])).diagnostics) ∧
      (parse .usual (u ++ v ++ [.eof 11])).diagnostics.length = 2 := by
  intro u v semi
  have hclean : (parse .usual (u ++ semi :: v ++ [.eof 11])).diagnostics = [] := by decide +kernel
  rcases missing_semicolon_reports .usual u v semi (.eof 11) (by decide) rfl rfl rfl hclean
    (by decide +kernel) with ⟨h, -⟩ | h
  · cases h
  · exact ⟨hclean, h, by decide +kernel⟩

end Lox
