/-
# A damaged expression statement stays alone

Tokens without a semicolon, an end token or a token that begins another kind of
statement, with a semicolon behind them, are one turn of the outermost loop
whatever they are (`Lox.Parse.exists_sentence`): they are an expression
statement, or they are refused at one of them or at the semicolon, and then the
rest is dropped through the semicolon. What follows is read as on its own.

Key definitions: `Lox.Garbled`, `Lox.Diagnostic.Hard`.
Key theorems: `Lox.Parse.exists_sentence`, `Lox.parse_of_program_eq`,
`Lox.garbled_statement_stays_alone`.
-/
import Lox.Proofs.Grammar.Recovery

namespace Lox

open Procedure

/-- None of the tokens ends a statement or the text or begins a statement with a keyword, and the
first one opens no block. -/
structure Garbled (ts : List Token) : Prop where
  semicolon : ∀ t ∈ ts, t.kind ≠ .semicolon
  eof : ∀ t ∈ ts, t.kind ≠ .eof
  starts : ∀ t ∈ ts, Cursor.startsStatement t.kind = false
  block : ∀ t ∈ ts.head?, t.kind ≠ .leftBrace

/-- A report behind which reading does not go on in the same statement: all but those of a wrong
target and of too many arguments. -/
def Diagnostic.Hard (d : Diagnostic) : Prop :=
  d.message ≠ invalidTarget ∧ d.message ≠ tooManyArguments

instance (d : Diagnostic) : Decidable d.Hard := inferInstanceAs (Decidable (_ ∧ _))

/-- Of some reports at most one is hard. -/
def OneHard (ds : List Diagnostic) : Prop := (ds.filter fun d => d.Hard).length ≤ 1

section OneHard

variable {ds : List Diagnostic} {d : Diagnostic}

theorem hard_eq_nil (h : ∀ d ∈ ds, Confines.phrase.mild d.message) :
    (ds.filter fun d => d.Hard) = [] := by
  rw [List.filter_eq_nil_iff]
  intro d hd
  simp only [decide_eq_true_eq]
  rintro ⟨ht, ha⟩
  exact (h d hd).elim ht ha

theorem oneHard_of_mild (h : ∀ d ∈ ds, Confines.phrase.mild d.message) : OneHard ds := by
  rw [OneHard, hard_eq_nil h]
  exact Nat.zero_le _

theorem oneHard_concat (h : ∀ d ∈ ds, Confines.phrase.mild d.message) (d : Diagnostic) :
    OneHard (ds ++ [d]) := by
  rw [OneHard, List.filter_append, hard_eq_nil h, List.nil_append]
  exact List.length_filter_le _ _

end OneHard

/-- Where a token before the semicolon is refused, everything is dropped through the semicolon. -/
theorem dropped_sentence {us later : List Token} {semi : Token}
    (hs : ∀ t ∈ us, t.kind ≠ .semicolon) (he : ∀ t ∈ us, t.kind ≠ .eof)
    (hstarts : ∀ t ∈ us, Cursor.startsStatement t.kind = false) (hsemi : semi.kind = .semicolon) :
    dropped (us ++ semi :: later) = us ++ [semi] := by
  have hresume : ∀ us : List Token, (∀ t ∈ us, t.kind ≠ .semicolon) → (∀ t ∈ us, t.kind ≠ .eof) →
      (∀ t ∈ us, Cursor.startsStatement t.kind = false) →
        toResume (us ++ semi :: later) = us ++ [semi] := by
    intro us hs he hstarts
    induction us with
    | nil => simp [toResume, hsemi, Cursor.startsStatement]
    | cons u us ih =>
      simp only [List.forall_mem_cons] at hs he hstarts
      rw [List.cons_append, toResume, if_neg (by simp [he.1, hstarts.1]), if_neg hs.1,
        ih hs.2 he.2 hstarts.2, List.cons_append]
  cases us with
  | nil => simp [dropped, hsemi]
  | cons u us =>
    simp only [List.forall_mem_cons] at hs he hstarts
    rw [List.cons_append, dropped, if_neg he.1, if_neg hs.1, hresume us hs.2 he.2 hstarts.2,
      List.cons_append]

namespace Parse

variable {inner : Inner} {bad : List Token} {semi : Token} {c : Cursor}

/-! ### One turn -/

/-- What begins with no keyword and no brace is an expression statement. -/
theorem undertaking_eq_exprStmt (h : Cursor.startsStatement c.here.kind = false)
    (hb : c.here.kind ≠ .leftBrace) : undertaking inner c = exprStmt inner c := by
  have hne (k : TokenKind) (hk : Cursor.startsStatement k = true) : c.here.kind ≠ k := by
    rintro he
    rw [he, hk] at h
    cases h
  unfold undertaking statement
  rw [skip_keyword (hne _ rfl), skip_keyword (hne _ rfl), skip_keyword (hne _ rfl),
    skip_keyword (hne _ rfl), skip_keyword (hne _ rfl), skip_keyword (hne _ rfl),
    skip_keyword (hne _ rfl), skip_keyword (hne _ rfl), skip_keyword hb]

/-- Before its semicolon an expression statement is read to behind it, or refused before that. -/
theorem exists_exprStmt (h : inner.Confined .phrase) (hbad : Garbled bad)
    (hsemi : semi.kind = .semicolon) : ∃ (d : Deed Stmt), bad ++ [semi] = d.read ++ d.left ∧
      Blames .phrase semi d ∧ ((∃ s, d.result = .ok s) ∧ d.left = [] ∨
        (∃ e, d.result = .error e) ∧ ∃ us, bad = d.read ++ us ∧ d.left = us ++ [semi]) ∧
      ∀ c later, later ≠ [] → c.ahead = bad ++ semi :: later → ∃ c',
        exprStmt inner c = (d.result, c') ∧ c.Moves d.read d.reports c' := by
  obtain ⟨⟨r, read, left, ds⟩, rfl, hb, hdo⟩ := Confined.assignment h bad semi
    (fun t ht hk => hk.elim (hbad.semicolon t ht) (hbad.eof t ht)) (.inl hsemi)
  have hhead : (left ++ [semi]).headD semi = left.headD semi := by cases left <;> rfl
  rcases r with e | a
  · refine ⟨⟨.error e, read, left ++ [semi], ds⟩, by simp, ⟨fun e' he => ?_, fun hn => ?_⟩,
      .inr ⟨⟨e, rfl⟩, left, rfl, rfl⟩, fun c later _ hc => ?_⟩
    · cases he
      simpa only [hhead] using hb.refused e' rfl
    · exact hb.mild fun e' he => by
        cases he
        exact hn e' rfl
    · obtain ⟨c', hrun, hm⟩ := hdo c later hc
      exact ⟨c', bind_error hrun, hm⟩
  · have hmild : ∀ r ∈ ds, Confines.phrase.mild r.message := hb.mild fun _ h => by cases h
    cases left with
    | nil =>
      refine ⟨⟨.ok (.expr a), read ++ [semi], [], ds⟩, by simp,
        ⟨fun _ h => (by cases h), fun _ => hmild⟩, .inl ⟨⟨_, rfl⟩, rfl⟩, fun c later hl hc => ?_⟩
      obtain ⟨c₁, hrun, hm⟩ := hdo c later (by simpa using hc)
      have hahead : c₁.ahead = [] ++ semi :: later := hm.ahead_eq (by simpa using hc)
      have hstep := Cursor.passes_advance_of_cons (by simp [hsemi]) hahead hl
      refine ⟨_, (bind_ok hrun).trans (bind_ok (discard_eq
        (expect_eq hstep hsemi (by decide) _))), ?_⟩
      simpa using hm.trans hstep.moves
    | cons x left =>
      have hx : x.kind ≠ .semicolon := hbad.semicolon x (by simp)
      refine ⟨⟨.error (.refused ⟨"Expect ';' after expression.", some x.offset⟩), read,
        x :: left ++ [semi], ds ++ [⟨.grammar, x.offset, "Expect ';' after expression."⟩]⟩, by simp,
        ⟨fun e he => ?_, fun hn => absurd rfl (hn _)⟩, .inr ⟨⟨_, rfl⟩, x :: left, rfl, rfl⟩,
        fun c later _ hc => ?_⟩
      · cases he
        exact ⟨ds, rfl, rfl, hmild⟩
      · obtain ⟨c₁, hrun, hm⟩ := hdo c later hc
        have hahead : c₁.ahead = (x :: left) ++ semi :: later := hm.ahead_eq hc
        have hhere : c₁.here = x := Cursor.here_eq hahead
        have hkind : c₁.here.kind ≠ .semicolon := by rwa [hhere]
        have hrefuse := discard_error (expect_refused hkind "Expect ';' after expression.")
        rw [hhere] at hrefuse
        have hmove := hm.trans (c₁.moves_report x.offset "Expect ';' after expression.")
        rw [List.append_nil] at hmove
        exact ⟨_, (bind_ok hrun).trans (bind_error hrefuse), hmove⟩

/-- Whatever the tokens are, with a semicolon behind them they are one turn, with one statement at
most and one hard report at most. -/
theorem exists_sentence (h : inner.Confined .phrase) (hbad : Garbled bad)
    (hsemi : semi.kind = .semicolon) : ∃ stmts ds, stmts.length ≤ 1 ∧ OneHard ds ∧
      ∀ c later, (∃ t ∈ later, t.kind = .eof) → c.ahead = bad ++ semi :: later →
        ∃ c', turn inner c = (.ok stmts, c') ∧ c.Moves (bad ++ [semi]) ds c' := by
  obtain ⟨⟨r, read, left, ds⟩, hsplit, hb, hleft, hdo⟩ := exists_exprStmt h hbad hsemi
  -- The turn is an expression statement.
  have hdo' : ∀ c later, (∃ t ∈ later, t.kind = .eof) → c.ahead = bad ++ semi :: later →
      ∃ c', undertaking inner c = (r, c') ∧ c.Moves read ds c' := by
    intro c later ⟨t, ht, _⟩ hc
    have hhere := Cursor.here_eq hc
    rw [undertaking_eq_exprStmt]
    · exact hdo c later (List.ne_nil_of_mem ht) hc
    · rw [hhere]
      cases bad with
      | nil => rw [List.headD_nil, hsemi]; rfl
      | cons x bad => exact hbad.starts x List.mem_cons_self
    · rw [hhere]
      cases bad with
      | nil => rw [List.headD_nil, hsemi]; decide
      | cons x bad => exact hbad.block x rfl
  rcases hleft with ⟨⟨s, rfl⟩, rfl⟩ | ⟨⟨e, rfl⟩, us, rfl, rfl⟩
  · obtain rfl : bad ++ [semi] = read := by simpa using hsplit
    refine ⟨[s], ds, Nat.le_refl _, oneHard_of_mild (hb.mild fun _ h => by cases h),
      fun c later hl hc => ?_⟩
    obtain ⟨c', hrun, hm⟩ := hdo' c later hl hc
    exact ⟨c', turn_ok (recovering_eq hrun), hm⟩
  · have hus {P : Token → Prop} (hP : ∀ t ∈ read ++ us, P t) : ∀ t ∈ us, P t := fun t ht =>
      hP t (List.mem_append_right _ ht)
    -- Behind the halt, tokens are dropped through the semicolon.
    have hdrop : ∀ (c : Cursor) later, (∃ t ∈ later, t.kind = .eof) →
        c.ahead = us ++ semi :: later → c.Moves (us ++ [semi]) [] c.synchronized := by
      intro c later ⟨t, ht, hk⟩ hc
      obtain ⟨l, l', rfl⟩ := List.append_of_mem ht
      have hahead : c.ahead = (us ++ semi :: l) ++ t :: l' := by simpa using hc
      have hm := Cursor.moves_synchronized hk hahead
      rw [List.append_assoc, List.cons_append, dropped_sentence (hus hbad.semicolon)
        (hus hbad.eof) (hus hbad.starts) hsemi] at hm
      exact hm
    cases e with
    | refused e =>
      obtain ⟨ds', hds, -, hmild⟩ := hb.refused e rfl
      have hone : OneHard ds := by
        rw [show ds = _ from hds]
        exact oneHard_concat hmild _
      refine ⟨[], ds, Nat.zero_le _, hone, fun c later hl hc => ?_⟩
      obtain ⟨c', hrun, hm⟩ := hdo' c later hl hc
      have hmove := hm.trans (hdrop c' later hl (hm.ahead_eq hc))
      rw [List.append_nil, ← List.append_assoc] at hmove
      refine ⟨_, ?_, hmove⟩
      exact turn_ok (o := none) (by rw [declaration_eq, recovering, hrun])
    | tooDeep =>
      have hmild := hb.mild fun _ h => by cases h
      have hhere (c : Cursor) (later : List Token) (hc : c.ahead = us ++ semi :: later) :
          c.here = us.headD semi := Cursor.here_eq hc
      refine ⟨[], ds ++ [⟨.grammar, (us.headD semi).offset, tooDeepMessage⟩], Nat.zero_le _,
        oneHard_concat hmild _, fun c later hl hc => ?_⟩
      obtain ⟨c', hrun, hm⟩ := hdo' c later hl hc
      have hc' := hm.ahead_eq hc
      have hreport := hm.trans (c'.moves_report c'.here.offset tooDeepMessage)
      have hmove := hreport.trans (hdrop _ later hl hc')
      rw [List.append_nil, List.append_nil, ← List.append_assoc, hhere c' later hc'] at hmove
      refine ⟨_, ?_, hmove⟩
      rw [← hhere c' later hc']
      exact turn_error (by rw [declaration_eq, recovering, hrun])

/-! ### Whole lists of tokens -/

variable {deep : Prop}

/-- The outermost loop ends by itself, so its bound makes no difference. -/
theorem program_fuel {bound fuel fuel' : Nat} (steps spent : Nat) (hc : c.Ended) (hb : c.left < bound)
    (hf : c.left < fuel) (hf' : c.left < fuel') :
    program (Inner.within bound steps spent) fuel c =
      program (Inner.within bound steps spent) fuel' c := by
  have hagree : Inner.Agree True bound (Inner.within bound steps spent)
      (Inner.within bound steps spent) := Inner.agree_within (Nat.le_refl _) (Nat.le_refl _) _ _
  have h := Agree.program hagree fuel fuel' c hc (by omega) hf hf'
  have h' := Agree.program hagree fuel' fuel' c hc (by omega) hf' hf'
  obtain ⟨hresult, hplace⟩ := Prod.mk.inj (h.same.symm.trans h'.same)
  exact Prod.ext hresult (h.reaches.eq_of_cut h'.reaches hplace)

end Parse

variable {limits : Limits} {bound fuel : Nat} {tokens good bad : List Token} {semi e : Token}

/-- A list of tokens is parsed by the outermost loop, with any bound behind its end. -/
theorem parse_of_program_eq (hb : endsAt tokens < bound) (hf : endsAt tokens < fuel) {stmts : List Stmt}
    {last : Cursor} (h : Parse.program (Inner.within bound limits.steps 0) fuel (.ofTokens tokens) =
      (.ok stmts, last)) : parse limits tokens = ⟨stmts, last.diagnostics.toList⟩ := by
  obtain ⟨stmts', last', hrun, hparse, -, -⟩ := exists_wholeProgram limits tokens
  have hwhole : Parse.wholeProgram (Inner.within bound limits.steps 0) (.ofTokens tokens) =
      Parse.program (Inner.within bound limits.steps 0) bound (.ofTokens tokens) := by
    show Parse.program _ _ (Cursor.ofTokens tokens).rewind = _
    rw [Cursor.rewind_ofTokens, Inner.bound_within]
  have hleft := Cursor.left_ofTokens tokens
  have hfuel : Parse.program (Inner.within bound limits.steps 0) bound (.ofTokens tokens) =
      Parse.program (Inner.within bound limits.steps 0) fuel (.ofTokens tokens) :=
    Parse.program_fuel _ _ (Cursor.ended_ofTokens tokens) (by omega) (by omega) (by omega)
  rw [← (reading_unbounded limits tokens hb).1, hwhole, hfuel, h] at hrun
  obtain ⟨hresult, rfl⟩ := Prod.mk.inj hrun
  cases hresult
  exact hparse

theorem closed_append (ts : List Token) (h : good ≠ []) : closed (ts ++ good) = ts ++ closed good := by
  unfold closed
  cases hl : good.getLast? with
  | none => exact absurd (List.getLast?_eq_none_iff.mp hl) h
  | some t =>
    rw [List.getLast?_append, hl, Option.some_or]
    dsimp only
    split
    · rfl
    · rw [List.append_assoc]

theorem exists_eof_closed (tokens : List Token) : ∃ t ∈ closed tokens, t.kind = .eof := by
  have h := Cursor.ended_ofTokens tokens
  rwa [Cursor.Ended, Cursor.ahead_ofTokens] at h

/-- Behind damaged tokens and a semicolon the rest is parsed as on its own. -/
theorem exists_parse_sentence (limits : Limits) (bound : Nat) (hbad : Garbled bad)
    (hsemi : semi.kind = .semicolon) : ∃ stmts ds, stmts.length ≤ 1 ∧ OneHard ds ∧
      ∀ good, good ≠ [] → endsAt (bad ++ semi :: good) < bound → endsAt good < bound →
        parse limits (bad ++ semi :: good) =
          ⟨stmts ++ (parse limits good).stmts, ds ++ (parse limits good).diagnostics⟩ := by
  have hinner := Inner.confinedStmt_within bound limits.steps 0
  obtain ⟨stmts, ds, hone, hhard, hturn⟩ := Parse.exists_sentence
    (Inner.confined_within .phrase bound limits.steps 0) hbad hsemi
  refine ⟨stmts, ds, hone, hhard, fun good hgood hb hb' => ?_⟩
  have hahead : (Cursor.ofTokens (bad ++ semi :: good)).ahead = bad ++ semi :: closed good := by
    have hc := closed_append (bad ++ [semi]) hgood
    rw [Cursor.ahead_ofTokens]
    simpa using hc
  obtain ⟨c₁, hrun₁, hm₁⟩ := hturn _ _ (exists_eof_closed good) hahead
  obtain ⟨ts, t, later, hsplit, hts, ht⟩ := (Cursor.ended_ofTokens good).split
  rw [Cursor.ahead_ofTokens] at hsplit
  obtain ⟨⟨r, read, left, es⟩, -, -, hdo⟩ := Parse.Confined.program hinner bound ts t hts ht
  obtain ⟨c₂, hrun₂, hm₂⟩ := hdo c₁ later (by
    rw [← hsplit]
    exact List.append_cancel_left (hm₁.ahead.symm.trans (by simpa using hahead)))
  obtain ⟨c₃, hrun₃, hm₃⟩ := hdo (.ofTokens good) later (by rw [Cursor.ahead_ofTokens, hsplit])
  obtain ⟨stmts', last, hok⟩ : ∃ stmts' last, Parse.program (Inner.within bound limits.steps 0) bound
      c₁ = (.ok stmts', last) := Parse.program_ok bound c₁
  obtain rfl : r = .ok stmts' := (Prod.mk.inj (hrun₂.symm.trans hok)).1
  have hgoods := parse_of_program_eq hb' hb' hrun₃
  have hend : (Cursor.ofTokens (bad ++ semi :: good)).atEnd = false := by
    refine Cursor.atEnd_eq_false ?_
    rw [Cursor.here_eq hahead]
    cases bad with
    | nil => rw [List.headD_nil, hsemi]; decide
    | cons x bad => exact hbad.eof x List.mem_cons_self
  have hall : Parse.program (Inner.within bound limits.steps 0) (bound + 1)
      (.ofTokens (bad ++ semi :: good)) = (.ok (stmts ++ stmts'), c₂) := by
    rw [Parse.program_succ]
    refine (bind_ok (show Parse.atEnd _ = (.ok _, _) from rfl)).trans ?_
    rw [hend, if_neg (by decide)]
    exact (bind_ok hrun₁).trans (bind_ok hrun₂)
  rw [parse_of_program_eq hb (Nat.lt_succ_of_lt hb) hall, hgoods, hm₂.diagnostics, hm₁.diagnostics,
    hm₃.diagnostics, Cursor.diagnostics_ofTokens, Cursor.diagnostics_ofTokens]
  simp

theorem parse_eof (limits : Limits) (he : e.kind = .eof) : parse limits [e] = ⟨[], []⟩ :=
  parse_of_program he (show Phrases.Program _ [] [] from .nil)

theorem parse_nil (limits : Limits) : parse limits [] = ⟨[], []⟩ := parse_eof (e := .eof 0) limits rfl

/-- Tokens without a semicolon, an end token or a keyword that begins a statement, that open no block,
with a semicolon behind them, are parsed as on their own, and so is what follows. On their own they
make one tree at most, and one hard report at most. Nesting too deep among them is such a report. -/
theorem garbled_statement_stays_alone (limits : Limits) (bad good : List Token) (semi e : Token)
    (hbad : Garbled bad) (hsemi : semi.kind = .semicolon) (he : e.kind = .eof) :
    (parse limits (bad ++ semi :: good)).stmts =
      (parse limits (bad ++ [semi, e])).stmts ++ (parse limits good).stmts ∧
    (parse limits (bad ++ semi :: good)).diagnostics =
      (parse limits (bad ++ [semi, e])).diagnostics ++ (parse limits good).diagnostics ∧
    (parse limits (bad ++ [semi, e])).stmts.length ≤ 1 ∧
    OneHard (parse limits (bad ++ [semi, e])).diagnostics := by
  obtain ⟨stmts, ds, hone, hhard, hparse⟩ := exists_parse_sentence limits
    (endsAt (bad ++ semi :: good) + endsAt good + endsAt (bad ++ [semi, e]) + endsAt [e] +
      endsAt [Token.eof semi.stop] + endsAt (bad ++ [semi, .eof semi.stop]) + 1) hbad hsemi
  have halone : parse limits (bad ++ [semi, e]) = ⟨stmts, ds⟩ := by
    rw [hparse [e] (by simp) (by omega) (by omega), parse_eof limits he, List.append_nil,
      List.append_nil]
  rw [halone]
  by_cases hgood : good = []
  · subst hgood
    -- The end token that is put behind the semicolon makes no difference.
    have hsame : parse limits (bad ++ [semi]) = parse limits (bad ++ [semi, .eof semi.stop]) := by
      have hclosed : closed (bad ++ [semi]) = closed (bad ++ [semi, .eof semi.stop]) := by
        simp [closed, hsemi, Token.eof]
      unfold parse Cursor.ofTokens
      rw [hclosed]
    rw [hsame, hparse [.eof semi.stop] (by simp) (by omega) (by omega), parse_eof limits rfl, parse_nil]
    exact ⟨rfl, rfl, hone, hhard⟩
  · rw [hparse good hgood (by omega) (by omega)]
    exact ⟨rfl, rfl, hone, hhard⟩

/-- A closing parenthesis and a semicolon before a print statement. -/
theorem closing_parenthesis_stays_alone :
    let bad : List Token := [⟨.rightParen, ")", .nil, 0⟩]
    let semi : Token := ⟨.semicolon, ";", .nil, 1⟩
    let good : List Token := [⟨.kwPrint, "print", .nil, 3⟩, ⟨.identifier, "a", .nil, 9⟩,
      ⟨.semicolon, ";", .nil, 10⟩, .eof 11]
    Garbled bad ∧ (parse .usual (bad ++ semi :: good)).stmts =
      (parse .usual (bad ++ [semi, .eof 2])).stmts ++ (parse .usual good).stmts := by
  intro bad semi good
  have hbad : Garbled bad := ⟨by decide, by decide, by decide, by decide⟩
  exact ⟨hbad, (garbled_statement_stays_alone .usual bad good semi (.eof 2) hbad rfl rfl).1⟩

end Lox
