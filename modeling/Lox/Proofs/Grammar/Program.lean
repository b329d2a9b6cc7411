/-
# Programs read exactly their phrases

With so many steps left, the productions are sound for the phrases within so
many steps and complete for them. So a text parses without a report exactly if
its tokens are declarations in a row within the steps of the limits, and then
the trees are theirs. If they are lenient declarations, it parses to their
trees as well, with their reports.

Key theorems: `Lox.Inner.sound_within`, `Lox.Inner.complete_within`,
`Lox.program_of_parse`, `Lox.parse_of_program`, `Lox.parse_of_lenient`.
-/
import Lox.Proofs.Grammar.Statement

namespace Lox

open Procedure Phrases

namespace Inner

theorem sound_within (bound : Nat) : ∀ steps spent,
    (within bound steps spent).SoundStmt (Phrases.within steps spent)
  | 0, _ => by
    rw [within]
    exact ⟨⟨Parse.sound_halt_tooDeep, Parse.sound_halt_tooDeep, Parse.sound_halt_tooDeep,
      Parse.sound_halt_tooDeep, Parse.sound_halt_tooDeep⟩, Parse.sound_halt_tooDeep,
      Parse.sound_halt_tooDeep⟩
  | steps + 1, spent + 1 => by
    rw [within, Phrases.within]
    exact sound_within bound steps spent
  | steps + 1, 0 => by
    rw [within, Phrases.within]
    have h (spent : Nat) := sound_within bound steps spent
    have assignment (spent : Nat) : Parse.Sound bound (Parse.assignment (within bound steps spent))
        fun _ => Assignment (Phrases.within steps spent) := by
      have := Parse.sound_assignment (h spent).toSoundExpr
      rwa [bound_within] at this
    have ternary := Parse.sound_ternary (h 0).toSoundExpr
    have unary := Parse.sound_unary (h 0).toSoundExpr
    have statement := Parse.sound_statement (h 1)
    have declaration := Parse.sound_declaration (h 2)
    rw [bound_within] at ternary unary statement declaration
    exact ⟨⟨assignment (nestingSteps - 1), assignment 2, assignment 0, ternary, unary⟩, statement,
      declaration⟩

theorem complete_within (bound steps spent : Nat) :
    (within bound steps spent).CompleteStmt (Phrases.within steps spent) :=
  (follows_within bound steps spent).complete (embeds_within steps spent)

end Inner

namespace Parse

variable {inner : Inner} {g : Phrases}

theorem program_ok : ∀ fuel c, ∃ ss c', program inner fuel c = (.ok ss, c')
  | 0, c => ⟨[], c, rfl⟩
  | fuel + 1, c => by
    obtain ⟨r, c', hd⟩ : ∃ r c', declaration inner c = (r, c') := ⟨_, _, rfl⟩
    have ha : attempt (declaration inner) c = (.ok r, c') := by rw [attempt, hd]
    rw [program]
    refine (bind_ok (show atEnd c = (.ok c.atEnd, c) from rfl)) ▸ ?_
    split
    · exact ⟨[], c, rfl⟩
    · rw [bind_ok ha]
      cases r with
      | ok o =>
        obtain ⟨ss, c'', h⟩ := program_ok fuel c'
        exact ⟨o.toList ++ ss, c'', bind_ok h⟩
      | error h =>
        obtain ⟨ss, c'', h⟩ := program_ok fuel (c'.report c'.here.offset tooDeepMessage).synchronized
        exact ⟨ss, c'', h⟩

theorem sound_program (hi : inner.SoundStmt g) : ∀ fuel,
    Sound inner.bound (program inner fuel) fun c ts ss => c.ahead.length ≤ fuel →
      Program g ts ss ∧ ∀ c', c.Passes ts c' → c'.here.kind = .eof
  | 0 => .pure fun c h => by simp [Cursor.ahead] at h
  | fuel + 1 => by
    rw [program]
    refine (sound_read _).bind fun b => ?_
    cases b with
    | true =>
      refine .pure ?_
      rintro c' c ts hts ⟨rfl, hb⟩ -
      obtain rfl := hts.eq_of_nil
      refine ⟨.nil, fun c'' h => ?_⟩
      obtain rfl := h.eq_of_nil
      simpa [Cursor.atEnd] using hb.symm
    | false =>
      rw [if_neg (by decide)]
      refine (sound_declaration hi).attempt (fun o => ?_) fun h => ?_
      · refine (sound_program hi fuel).bind fun ss => .pure ?_
        rintro - c2 vs - h c1 ts h1 ⟨s, rfl, isOpen, hs, -⟩ c us hus ⟨rfl, -⟩ hl
        obtain rfl := hus.eq_of_nil
        obtain ⟨t, us, rfl, -⟩ := hs.begins
        have hlen := congrArg List.length h1.ahead
        simp only [List.length_append, List.length_cons] at hlen
        obtain ⟨hp, he⟩ := h (by omega)
        refine ⟨by simpa [Program] using Row.cons hs hp, fun c' hc' => ?_⟩
        obtain ⟨c3, h3, h4⟩ := Cursor.Passes.split (show Cursor.Passes _ ((t :: us) ++ vs) c' by simpa using hc')
        obtain rfl := h1.unique h3
        exact he c' h4
      · refine (sound_read _).bind fun t => (sound_report t _).bind fun _ =>
          sound_synchronized.bind fun _ => (sound_program hi fuel).mono ?_
        rintro - - - - - - - - - - - h
        exact h.elim

end Parse

/-! ### Whole texts -/

/-- Before the first of the tokens of a text. -/
structure Cursor.Starts (c : Cursor) (ts : List Token) (e : Token) : Prop where
  ahead : c.ahead = ts ++ [e]
  done : c.done = []
  diagnostics : c.diagnostics = #[]

variable {ts : List Token} {e : Token} {c c' : Cursor}

theorem Cursor.starts_ofTokens (ts : List Token) (he : e.kind = .eof) :
    (Cursor.ofTokens (ts ++ [e])).Starts ts e := by
  have hc : closed (ts ++ [e]) = ts ++ [e] := by simp [closed, he]
  rw [Cursor.ofTokens, hc]
  cases ts <;> exact ⟨rfl, rfl, rfl⟩

namespace Cursor.Starts

theorem fits (h : c.Starts ts e) (he : e.kind = .eof) : c.Fits c.bound :=
  ⟨⟨ts, e, h.ahead, he⟩, Nat.le_refl _⟩

theorem length (h : c.Starts ts e) : c.ahead.length ≤ c.bound ∧ ts.length < c.bound := by
  have ha := congrArg List.length h.ahead
  simp only [Cursor.ahead, List.length_cons, List.length_append, List.length_nil] at ha ⊢
  unfold Cursor.bound
  omega

theorem rewind (h : c.Starts ts e) : c.rewind = c := by
  rw [Cursor.rewind, h.done]
  rfl

/-- Only the last token ends the text. -/
theorem eq_of_passes (h : c.Starts ts e) (hts : ∀ t ∈ ts, t.kind ≠ .eof) {us : List Token}
    (hp : c.Passes us c') (hk : c'.here.kind = .eof) : us = ts := by
  have ha := hp.ahead
  rw [h.ahead] at ha
  rcases List.append_eq_append_iff.mp ha with ⟨vs, rfl, hv⟩ | ⟨vs, rfl, hv⟩
  · have : vs = [] := by
      cases vs with
      | nil => rfl
      | cons v vs => simp [Cursor.ahead] at hv
    simp [this]
  · cases vs with
    | nil => simp
    | cons v vs =>
      obtain ⟨rfl, -⟩ := List.cons.inj hv
      exact absurd hk (hts _ (by simp))

/-- The place behind the tokens, with any reports. -/
theorem moves (h : c.Starts ts e) (ds : List Diagnostic) :
    c.Moves ts ds ⟨ts.reverse, e, [], ds.toArray⟩ :=
  ⟨h.ahead, by simp [h.done], by simp [h.diagnostics]⟩

/-- The place behind the tokens. -/
theorem passes (h : c.Starts ts e) :
    c.Passes ts ⟨ts.reverse, e, [], #[]⟩ :=
  (h.moves []).passes

/-- From the start of a text, its declarations are read. -/
theorem wholeProgram (h : c.Starts ts e) (steps : Nat) :
    Parse.wholeProgram (Inner.within c.bound steps 0) c =
      Parse.program (Inner.within c.bound steps 0) c.bound c := by
  show Parse.program _ _ c.rewind = _
  rw [h.rewind, Inner.bound_within]

end Cursor.Starts

variable {limits : Limits}

/-- What parses without a report is declarations in a row, within the steps of the limits. -/
theorem program_of_parse (hts : ∀ t ∈ ts, t.kind ≠ .eof) (he : e.kind = .eof)
    (h : (parse limits (ts ++ [e])).diagnostics = []) :
    Program (Phrases.within limits.steps 0) ts (parse limits (ts ++ [e])).stmts := by
  have hs := Cursor.starts_ofTokens ts he
  revert hs h
  simp only [parse]
  generalize Cursor.ofTokens (ts ++ [e]) = c
  intro h hs
  have hr := Parse.sound_program (Inner.sound_within c.bound limits.steps 0) c.bound c
    (by rw [Inner.bound_within]; exact hs.fits he)
  obtain ⟨ss, c', hp⟩ : ∃ ss c', Parse.program (Inner.within c.bound limits.steps 0) c.bound c =
      (.ok ss, c') := Parse.program_ok c.bound c
  rw [hp] at hr
  rw [hs.wholeProgram, hp] at h ⊢
  cases hr with
  | silent hpass hg =>
    obtain ⟨hprog, hend⟩ := hg hs.length.1
    obtain rfl := hs.eq_of_passes hts hpass (hend c' hpass)
    exact hprog
  | reported _ hn =>
    have : c'.diagnostics = #[] := by simpa using h
    simp [Cursor.reports, this] at hn

/-- Lenient declarations in a row within the steps of the limits parse to their trees, with their
reports. -/
theorem parse_of_lenient (he : e.kind = .eof) {ds : List Diagnostic} {ss : List Stmt}
    (h : (Lenient.within limits.steps 0).Program ts ds ss) :
    parse limits (ts ++ [e]) = ⟨ss, ds⟩ := by
  have hs := Cursor.starts_ofTokens ts he
  simp only [parse]
  revert hs
  generalize Cursor.ofTokens (ts ++ [e]) = c
  intro hs
  have hlen := h.length_le (p := beginsDeclaration) fun _ _ _ _ => Lenient.Declaration.begins
  have hlen' := hs.length.2
  rw [hs.wholeProgram, Parse.follows_program (Inner.follows_within c.bound limits.steps 0) h c.bound c _
    (Nat.le_of_eq (by rw [Inner.bound_within])) (hs.moves ds) he (by omega)]

/-- Declarations in a row within the steps of the limits parse to their trees without a report. -/
theorem parse_of_program (he : e.kind = .eof) {ss : List Stmt}
    (h : Program (Phrases.within limits.steps 0) ts ss) : parse limits (ts ++ [e]) = ⟨ss, []⟩ :=
  parse_of_lenient he (h.lenient fun _ _ _ => Declaration.lenient (embeds_within limits.steps 0))

/-- An expression on its own is what an assignment is read as, if that is the whole text. -/
theorem Parse.wholeExpression_ok {inner : Inner} (hc : c.rewind = c) {tree : Expr}
    (h : Parse.assignment inner c = (.ok tree, c')) : (Parse.wholeExpression inner c).1 =
      .ok (if c'.reports = c.reports && c'.atEnd then some tree else none) := by
  have hrewind : (Procedure.change Cursor.rewind : Parse Unit) c = (.ok (), c) :=
    Prod.ext rfl hc
  have hbefore : Parse.reports c = (.ok c.reports, c) := rfl
  have ha : attempt (Parse.assignment inner) c = (.ok (.ok tree), c') := by rw [attempt, h]
  rw [Parse.wholeExpression, bind_ok hrewind, bind_ok hbefore, bind_ok ha]
  rfl

theorem Parse.wholeExpression_error {inner : Inner} (hc : c.rewind = c) {halt : Halt}
    (h : Parse.assignment inner c = (.error halt, c')) :
    (Parse.wholeExpression inner c).1 = .ok none := by
  have hrewind : (Procedure.change Cursor.rewind : Parse Unit) c = (.ok (), c) :=
    Prod.ext rfl hc
  have hbefore : Parse.reports c = (.ok c.reports, c) := rfl
  have ha : attempt (Parse.assignment inner) c = (.ok (.error halt), c') := by rw [attempt, h]
  rw [Parse.wholeExpression, bind_ok hrewind, bind_ok hbefore, bind_ok ha]
  rfl

/-- An expression that is a whole text is the tree of its tokens. -/
theorem assignment_of_parseExpression? (hts : ∀ t ∈ ts, t.kind ≠ .eof) (he : e.kind = .eof)
    {tree : Expr} (h : parseExpression? limits (ts ++ [e]) = some tree) :
    Assignment (Phrases.within limits.steps 0) ts tree := by
  have hs := Cursor.starts_ofTokens ts he
  obtain ⟨c, hc⟩ : ∃ c, Cursor.ofTokens (ts ++ [e]) = c := ⟨_, rfl⟩
  rw [hc] at hs
  have hr := Parse.sound_assignment (Inner.sound_within c.bound limits.steps 0).toSoundExpr c
    (by rw [Inner.bound_within]; exact hs.fits he)
  obtain ⟨r, c', hp⟩ : ∃ r c', Parse.assignment (Inner.within c.bound limits.steps 0) c = (r, c') :=
    ⟨_, _, rfl⟩
  rw [hp] at hr
  unfold parseExpression? at h
  rw [hc] at h
  dsimp only at h
  cases r with
  | error =>
    rw [Parse.wholeExpression_error hs.rewind hp] at h
    cases h
  | ok a =>
    rw [Parse.wholeExpression_ok hs.rewind hp] at h
    dsimp only at h
    split at h
    · rename_i hend
      have hend : c'.reports = c.reports ∧ c'.here.kind = .eof := by
        simpa [Cursor.atEnd] using hend
      obtain rfl := Option.some.inj h
      cases hr with
      | silent hpass hg =>
        obtain rfl := hs.eq_of_passes hts hpass hend.2
        exact hg
      | reported _ hn =>
        rw [hend.1] at hn
        exact absurd hn (Nat.lt_irrefl _)
    · cases h

/-- The tokens of an expression are read as its tree. -/
theorem parseExpression?_of_assignment (he : e.kind = .eof) {tree : Expr}
    (h : Assignment (Phrases.within limits.steps 0) ts tree) :
    parseExpression? limits (ts ++ [e]) = some tree := by
  have hs := Cursor.starts_ofTokens ts he
  unfold parseExpression?
  revert hs
  generalize Cursor.ofTokens (ts ++ [e]) = c
  intro hs
  have hp := Parse.complete_assignment (Inner.complete_within c.bound limits.steps 0).toCompleteExpr
    c ts tree _ (Nat.le_of_eq (by rw [Inner.bound_within])) hs.passes h (by rw [he]; rfl)
  dsimp only
  rw [Parse.wholeExpression_ok hs.rewind hp]
  simp [Cursor.reports, Cursor.atEnd, he, hs.diagnostics]

end Lox
