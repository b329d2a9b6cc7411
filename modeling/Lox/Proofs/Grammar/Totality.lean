/-
# Every list of tokens is read to its end

Whatever tokens are read, a program is read up to the first end token and not
further: the outermost loop takes a declaration or drops tokens in each turn
(`Lox.Parse.turn`), and a turn takes at least one token. A whole text is read
from its start (`Lox.Cursor.ofTokens`), and the bound on the loops is never
met there, so they end by themselves. What is read and reported is settled by
the tokens through the first end token.

Key definitions: `Lox.endsAt`, `Lox.Parse.turn`, `Lox.Inner.outcomes`.
Key theorems: `Lox.Parse.program_succ`, `Lox.Parse.Agree.program`,
`Lox.Cursor.ended_ofTokens`, `Lox.reading_is_total`.
-/
import Lox.Proofs.Grammar.Steadiness

namespace Lox

/-- Where a list of tokens ends: how many there are before the first end token. -/
def endsAt (tokens : List Token) : Nat := (beforeEnd (closed tokens)).length

/-- Where the productions lead from a place. -/
def Inner.outcomes (inner : Inner) (c : Cursor) : List Cursor :=
  [(inner.expr c).2, (inner.middle c).2, (inner.value c).2, (inner.ternary c).2, (inner.unary c).2,
    (inner.statement c).2, (inner.declaration c).2]

namespace Parse

open Procedure

/-- One turn of the outermost loop: a declaration, or where that is nested too deeply, a report and
tokens dropped. -/
def turn (inner : Inner) : Parse (List Stmt) := do
  match ← attempt (declaration inner) with
  | .ok stmt => return stmt.toList
  | .error _ =>
    report (← here) tooDeepMessage
    change Cursor.synchronized
    return []

variable {deep : Prop} {k : Nat} {inner inner' : Inner} {c : Cursor}

theorem turn_ok {o : Option Stmt} {c' : Cursor} (h : declaration inner c = (.ok o, c')) :
    turn inner c = (.ok o.toList, c') := by
  have hattempt : attempt (declaration inner) c = (.ok (.ok o), c') := by rw [attempt, h]
  exact bind_ok hattempt

theorem turn_error {e : Halt} {c' : Cursor} (h : declaration inner c = (.error e, c')) :
    turn inner c = (.ok [], (c'.report c'.here.offset tooDeepMessage).synchronized) := by
  have hattempt : attempt (declaration inner) c = (.ok (.error e), c') := by rw [attempt, h]
  exact bind_ok hattempt

/-- Whatever comes of the declaration, a turn has a result. -/
theorem exists_turn (inner : Inner) (c : Cursor) : ∃ stmts c', turn inner c = (.ok stmts, c') := by
  obtain ⟨r, c', hd⟩ : ∃ r c', declaration inner c = (r, c') := ⟨_, _, rfl⟩
  cases r with
  | ok o => exact ⟨_, _, turn_ok hd⟩
  | error e => exact ⟨_, _, turn_error hd⟩

/-- The outermost loop is one turn after the other, up to the end. -/
theorem program_succ (inner : Inner) (fuel : Nat) :
    program inner (fuel + 1) = do
      if ← atEnd then return []
      else
        let stmts ← turn inner
        return stmts ++ (← program inner fuel) := by
  funext c
  rw [program]
  refine (bind_ok (show atEnd c = (.ok c.atEnd, c) from rfl)).trans
    (Eq.trans ?_ (bind_ok (show atEnd c = (.ok c.atEnd, c) from rfl)).symm)
  cases c.atEnd with
  | true => rfl
  | false =>
    obtain ⟨r, c', hd⟩ : ∃ r c', declaration inner c = (r, c') := ⟨_, _, rfl⟩
    have hattempt : attempt (declaration inner) c = (.ok r, c') := by rw [attempt, hd]
    rw [if_neg (by decide), if_neg (by decide), bind_ok hattempt]
    cases r with
    | ok o => rw [bind_ok (turn_ok hd)]
    | error e =>
      rw [bind_ok (turn_error hd)]
      simp only [List.nil_append, bind_pure]
      rfl

/-- A turn has a result whatever comes of the declaration, and takes a token unless at the end. -/
theorem AgreeAt.turn (hc : c.Ended)
    (h : AgreeAt deep (!c.atEnd) (declaration inner) (declaration inner') c) :
    AgreeAt False (!c.atEnd) (turn inner) (Parse.turn inner') c := by
  obtain ⟨r, c', hd⟩ : ∃ r c', declaration inner c = (r, c') := ⟨_, _, rfl⟩
  obtain ⟨hreaches, hsame, -, hstrict⟩ := h
  rw [hd] at hreaches hsame hstrict
  cases r with
  | ok o =>
    have hturn := turn_ok hd
    refine ⟨by rwa [hturn], by rw [hturn, turn_ok hsame], fun h => ?_, fun hs _ _ => ?_⟩
    · rw [hturn] at h
      cases h
    · rw [hturn]
      exact hstrict hs o rfl
  | error e =>
    have hturn := turn_error hd
    have hc' : (c'.report c'.here.offset tooDeepMessage).Ended := hreaches.ended hc
    have hreport : c.Reaches (c'.report c'.here.offset tooDeepMessage) :=
      hreaches.trans (Cursor.reaches_report ..)
    refine ⟨?_, ?_, fun h => ?_, fun hs _ _ => ?_⟩
    · rw [hturn]
      exact hreport.trans (Cursor.reaches_synchronized hc')
    · rw [hturn, turn_error hsame, Cursor.cut_here, Cursor.cut_report, Cursor.cut_synchronized hc']
    · rw [hturn] at h
      cases h
    · rw [hturn]
      have hpos : 0 < c.left := Cursor.left_pos (by simpa using hs)
      have hle := hreport.left_le
      have hdrop := (Cursor.reaches_synchronized hc').left_le
      show (Cursor.synchronized _).left < c.left
      cases hend : (c'.report c'.here.offset tooDeepMessage).atEnd with
      | true =>
        have hzero := Cursor.left_of_atEnd hend
        omega
      | false =>
        have hlt := Cursor.left_synchronized hc' hend
        omega

/-- A program agrees, and is never nested too deeply as a whole. -/
theorem Agree.program (h : Inner.Agree deep k inner inner') : ∀ (fuel fuel' : Nat) (c : Cursor),
    c.Ended → c.left < k + 1 → c.left < fuel → c.left < fuel' →
      AgreeAt False false (program inner fuel) (Parse.program inner' fuel') c
  | 0, _, _, _, _, hl, _ => absurd hl (Nat.not_lt_zero _)
  | _ + 1, 0, _, _, _, _, hl => absurd hl (Nat.not_lt_zero _)
  | fuel + 1, fuel' + 1, c, hc, hk, hl, hl' => by
    rw [program_succ, program_succ]
    refine AgreeAt.read rfl ?_
    cases hend : c.atEnd with
    | true => exact .pure []
    | false =>
      have hturn := AgreeAt.turn hc (declaration h hc hk)
      rw [hend] at hturn
      refine AgreeAt.behind hturn hc fun stmts c₁ hc₁ h₁ => ?_
      exact (Agree.program h fuel fuel' c₁ hc₁ (by omega) (by omega) (by omega)).andThen hc₁
        fun rest _ _ _ => .pure _

/-- A program ends at the end. -/
theorem program_atEnd (h : Inner.Agree deep k inner inner') : ∀ (fuel : Nat) (c : Cursor),
    c.Ended → c.left < k + 1 → c.left < fuel → (program inner fuel c).2.atEnd = true
  | 0, _, _, _, hl => absurd hl (Nat.not_lt_zero _)
  | fuel + 1, c, hc, hk, hl => by
    rw [program_succ]
    refine (congrArg (fun r => Cursor.atEnd (Prod.snd r))
      (bind_ok (show atEnd c = (.ok c.atEnd, c) from rfl))).trans ?_
    cases hend : c.atEnd with
    | true => exact hend
    | false =>
      have hturn := AgreeAt.turn hc (Agree.declaration h hc hk)
      obtain ⟨stmts, c₁, ht⟩ := exists_turn inner c
      have hc₁ : c₁.Ended := by
        have hreaches := hturn.reaches
        rw [ht] at hreaches
        exact hreaches.ended hc
      have hlt : c₁.left < c.left := by
        have hstrict := hturn.strict (by rw [hend]; rfl) stmts (by rw [ht])
        rwa [ht] at hstrict
      obtain ⟨rest, c₂, hrest⟩ : ∃ rest c₂, program inner fuel c₁ = (.ok rest, c₂) :=
        program_ok fuel c₁
      have ih := program_atEnd h fuel c₁ hc₁ (by omega) (by omega)
      rw [hrest] at ih
      rw [if_neg (by decide), bind_ok ht, bind_ok hrest]
      exact ih

/-- A halt as a result. -/
theorem AgreeAt.attempt {α : Type} {strict : Bool} {p p' : Parse α} (h : AgreeAt deep strict p p' c) :
    AgreeAt False false (attempt p) (attempt p') c := by
  obtain ⟨r, c', hp⟩ : ∃ r c', p c = (r, c') := ⟨_, _, rfl⟩
  obtain ⟨hreaches, hsame, -, -⟩ := h
  rw [hp] at hreaches hsame
  have hattempt : Procedure.attempt p c = (.ok r, c') := by rw [Procedure.attempt, hp]
  have hattempt' : Procedure.attempt p' c.cut = (.ok r, c'.cut) := by rw [Procedure.attempt, hsame]
  refine ⟨by rwa [hattempt], by rw [hattempt, hattempt'], fun hd => ?_, fun hs => by cases hs⟩
  rw [hattempt] at hd
  cases hd

/-- On the first token there is nothing to go back over. -/
theorem AgreeAt.rewind (hdone : c.done = []) :
    AgreeAt deep false (Procedure.change Cursor.rewind) (Procedure.change Cursor.rewind) c := by
  have hrewind : c.rewind = c := by
    rw [Cursor.rewind, hdone]
    rfl
  have hrewind' : c.cut.rewind = c.cut := by
    rw [Cursor.rewind, Cursor.cut_done, hdone]
    rfl
  refine AgreeAt.change ?_ ?_
  · rw [hrewind]
    exact .refl c
  · rw [hrewind, hrewind']

variable (h : Inner.Agree deep k inner inner') (hdone : c.done = []) (hc : c.Ended)
  (hk : c.left < k + 1)

include h hdone hc hk

theorem Agree.wholeProgram (hb : c.left < inner.bound) (hb' : c.left < inner'.bound) :
    AgreeAt False false (wholeProgram inner) (Parse.wholeProgram inner') c :=
  (AgreeAt.rewind hdone).andThen hc fun _ c₁ hc₁ h₁ =>
    Agree.program h inner.bound inner'.bound c₁ hc₁ (by omega) (by omega) (by omega)

theorem Agree.wholeExpression :
    AgreeAt False false (wholeExpression inner) (Parse.wholeExpression inner') c := by
  refine (AgreeAt.rewind hdone).andThen hc fun _ c₁ hc₁ h₁ => ?_
  refine AgreeAt.read rfl ?_
  refine (AgreeAt.attempt (Agree.assignment h c₁ hc₁ (by omega))).andThen hc₁ fun r c₂ hc₂ _ => ?_
  cases r with
  | error e => exact .pure none
  | ok e => exact AgreeAt.read rfl (AgreeAt.read rfl (.pure _))

end Parse

/-! ### From the start -/

namespace Cursor

theorem closed_ne_nil (tokens : List Token) : closed tokens ≠ [] := by
  unfold closed
  cases h : tokens.getLast? with
  | none => exact List.cons_ne_nil _ _
  | some t =>
    have hmem : t ∈ tokens := List.mem_of_getLast? h
    by_cases hk : t.kind = .eof
    · simp only [hk, if_true]
      exact List.ne_nil_of_mem hmem
    · simp [hk]

theorem ahead_ofTokens (tokens : List Token) : (ofTokens tokens).ahead = closed tokens := by
  unfold ofTokens
  cases h : closed tokens with
  | nil => exact absurd h (closed_ne_nil tokens)
  | cons t ts => rfl

theorem done_ofTokens (tokens : List Token) : (ofTokens tokens).done = [] := by
  unfold ofTokens
  cases closed tokens <;> rfl

theorem diagnostics_ofTokens (tokens : List Token) : (ofTokens tokens).diagnostics = #[] := by
  unfold ofTokens
  cases closed tokens <;> rfl

theorem rewind_ofTokens (tokens : List Token) : (ofTokens tokens).rewind = ofTokens tokens := by
  unfold rewind
  rw [done_ofTokens]
  rfl

theorem ended_ofTokens (tokens : List Token) : (ofTokens tokens).Ended := by
  unfold Ended
  rw [ahead_ofTokens]
  unfold closed
  cases h : tokens.getLast? with
  | none => exact ⟨.eof 0, by simp, rfl⟩
  | some t =>
    by_cases hk : t.kind = .eof
    · exact ⟨t, by simpa [hk] using List.mem_of_getLast? h, hk⟩
    · exact ⟨.eof t.stop, by simp [hk], rfl⟩

theorem pos_ofTokens (tokens : List Token) : (ofTokens tokens).pos = 0 := by
  rw [pos, done_ofTokens, List.length_nil]

theorem left_ofTokens (tokens : List Token) : (ofTokens tokens).left = endsAt tokens := by
  rw [left, ahead_ofTokens, endsAt]

theorem left_lt_bound {c : Cursor} (hc : c.Ended) : c.left + 1 < c.bound := by
  have hle := left_le_later hc
  unfold bound
  omega

/-- The place never passes the first end token. -/
theorem pos_le_endsAt {tokens : List Token} {c : Cursor} (h : (ofTokens tokens).Reaches c) :
    c.pos ≤ endsAt tokens := by
  have hsum := h.pos_add_left
  rw [pos_ofTokens, left_ofTokens] at hsum
  omega

/-- Where it is at an end token, it is at the first one. -/
theorem pos_eq_endsAt {tokens : List Token} {c : Cursor} (h : (ofTokens tokens).Reaches c)
    (hend : c.atEnd = true) : c.pos = endsAt tokens := by
  have hsum := h.pos_add_left
  have hleft := left_of_atEnd hend
  rw [pos_ofTokens, left_ofTokens] at hsum
  omega

/-- A place that was reached is told by how it looks without the tokens behind the end. -/
theorem Reaches.eq_of_cut {c c' c'' : Cursor} (h : c.Reaches c') (g : c.Reaches c'')
    (hcut : c'.cut = c''.cut) : c' = c'' := by
  obtain ⟨ts, hahead, hdone, _⟩ := h.passes
  obtain ⟨us, hahead', hdone', _⟩ := g.passes
  have hsame : c'.done = c''.done := by
    have hcut_done := congrArg Cursor.done hcut
    rwa [cut_done, cut_done] at hcut_done
  have hts : ts.reverse = us.reverse :=
    List.append_cancel_right (hdone.symm.trans (hsame.trans hdone'))
  obtain rfl := List.reverse_inj.mp hts
  refine ext_ahead (List.append_cancel_left (hahead.symm.trans hahead')) hsame ?_
  have hcut_reports := congrArg Cursor.diagnostics hcut
  rwa [cut_diagnostics, cut_diagnostics] at hcut_reports

end Cursor

namespace Inner

/-- From a place that was reached the productions only reach on. -/
theorem reaches_outcomes {bound : Nat} {c : Cursor} (hc : c.Ended) (hb : c.left < bound)
    (steps spent : Nat) : ∀ c' ∈ (within bound steps spent).outcomes c, c.Reaches c' := by
  have h := agree_within (Nat.le_refl bound) (Nat.le_refl bound) steps spent
  intro c' hmem
  simp only [outcomes, List.mem_cons, List.not_mem_nil, or_false] at hmem
  rcases hmem with rfl | rfl | rfl | rfl | rfl | rfl | rfl
  · exact (h.expr c hc hb).reaches
  · exact (h.middle c hc hb).reaches
  · exact (h.value c hc hb).reaches
  · exact (h.ternary c hc hb).reaches
  · exact (h.unary c hc hb).reaches
  · exact (h.statement c hc hb).reaches
  · exact (h.declaration c hc hb).reaches

end Inner

/-- The productions for a list of tokens. -/
def Limits.productions (limits : Limits) (tokens : List Token) : Inner :=
  Inner.within (Cursor.ofTokens tokens).bound limits.steps 0

theorem Limits.bound_productions (limits : Limits) (tokens : List Token) :
    (limits.productions tokens).bound = (Cursor.ofTokens tokens).bound := by
  rw [Limits.productions, Inner.bound_within]

section Whole

variable {limits limits' : Limits} {tokens tokens' : List Token}

theorem parse_congr (h : (Parse.wholeProgram (limits.productions tokens) (.ofTokens tokens)).1 =
      (Parse.wholeProgram (limits'.productions tokens') (.ofTokens tokens')).1)
    (hreports : (Parse.wholeProgram (limits.productions tokens) (.ofTokens tokens)).2.diagnostics =
      (Parse.wholeProgram (limits'.productions tokens') (.ofTokens tokens')).2.diagnostics) :
    parse limits tokens = parse limits' tokens' := by
  unfold parse
  unfold Limits.productions at h hreports
  revert h hreports
  dsimp only
  rcases Parse.wholeProgram _ (Cursor.ofTokens tokens) with ⟨r, c⟩
  rcases Parse.wholeProgram _ (Cursor.ofTokens tokens') with ⟨r', c'⟩
  rintro rfl hreports
  cases r with
  | ok stmts => exact congrArg (fun ds => Parsed.mk stmts ds.toList) hreports
  | error e => exact congrArg (fun ds => Parsed.mk [] ds.toList) hreports

theorem parseExpression?_congr
    (h : (Parse.wholeExpression (limits.productions tokens) (.ofTokens tokens)).1 =
      (Parse.wholeExpression (limits'.productions tokens') (.ofTokens tokens')).1) :
    parseExpression? limits tokens = parseExpression? limits' tokens' := by
  unfold parseExpression?
  unfold Limits.productions at h
  dsimp only
  rw [h]

/-- A program is read the same without the tokens behind the first end token. -/
theorem wholeProgram_cut {deep : Prop} {bound : Nat} (hb : endsAt tokens < bound)
    (h : Inner.Agree deep (endsAt tokens) (limits.productions tokens)
      (Inner.within bound limits'.steps 0)) :
    Parse.wholeProgram (Inner.within bound limits'.steps 0) (Cursor.ofTokens tokens).cut =
      ((Parse.wholeProgram (limits.productions tokens) (.ofTokens tokens)).1,
        (Parse.wholeProgram (limits.productions tokens) (.ofTokens tokens)).2.cut) := by
  have hc := Cursor.ended_ofTokens tokens
  have hleft := Cursor.left_ofTokens tokens
  have hbound := Cursor.left_lt_bound hc
  refine (Parse.Agree.wholeProgram h (Cursor.done_ofTokens tokens) hc (by omega) ?_ ?_).same
  · rw [Limits.bound_productions]
    omega
  · rw [Inner.bound_within]
    omega

theorem wholeExpression_cut {deep : Prop} {bound : Nat}
    (h : Inner.Agree deep (endsAt tokens) (limits.productions tokens)
      (Inner.within bound limits'.steps 0)) :
    Parse.wholeExpression (Inner.within bound limits'.steps 0) (Cursor.ofTokens tokens).cut =
      ((Parse.wholeExpression (limits.productions tokens) (.ofTokens tokens)).1,
        (Parse.wholeExpression (limits.productions tokens) (.ofTokens tokens)).2.cut) := by
  have hleft := Cursor.left_ofTokens tokens
  exact (Parse.Agree.wholeExpression h (Cursor.done_ofTokens tokens) (Cursor.ended_ofTokens tokens)
    (by omega)).same

theorem cut_ofTokens (h : upToEnd (closed tokens) = upToEnd (closed tokens')) :
    (Cursor.ofTokens tokens).cut = (Cursor.ofTokens tokens').cut := by
  refine Cursor.cut_eq_cut ?_ ?_ ?_
  · rw [Cursor.ahead_ofTokens, Cursor.ahead_ofTokens, h]
  · rw [Cursor.done_ofTokens, Cursor.done_ofTokens]
  · rw [Cursor.diagnostics_ofTokens, Cursor.diagnostics_ofTokens]

theorem endsAt_congr (h : upToEnd (closed tokens) = upToEnd (closed tokens')) :
    endsAt tokens = endsAt tokens' := by
  rw [← Cursor.left_ofTokens, ← Cursor.left_cut, cut_ofTokens h, Cursor.left_cut,
    Cursor.left_ofTokens]

theorem endsAt_lt_bound (tokens : List Token) : endsAt tokens < (Cursor.ofTokens tokens).bound := by
  have hbound := Cursor.left_lt_bound (Cursor.ended_ofTokens tokens)
  have hleft := Cursor.left_ofTokens tokens
  omega

/-- Tokens that are the same through the first end token are read the same, and so they are within
limits with which the productions agree. -/
theorem reading_congr {deep : Prop} (hsame : upToEnd (closed tokens) = upToEnd (closed tokens'))
    (h : ∀ bound bound', endsAt tokens ≤ bound → endsAt tokens ≤ bound' →
      Inner.Agree deep (endsAt tokens) (Inner.within bound limits.steps 0)
        (Inner.within bound' limits'.steps 0)) :
    parse limits tokens = parse limits' tokens' ∧
      parseExpression? limits tokens = parseExpression? limits' tokens' := by
  have hb := endsAt_lt_bound tokens
  have hb' := endsAt_lt_bound tokens'
  have hends := endsAt_congr hsame
  have hstep : Inner.Agree deep (endsAt tokens) (limits.productions tokens)
      (Inner.within (endsAt tokens + 1) limits'.steps 0) := h _ _ (by omega) (by omega)
  have hbounds : Inner.Agree True (endsAt tokens') (limits'.productions tokens')
      (Inner.within (endsAt tokens + 1) limits'.steps 0) :=
    Inner.agree_within (by omega) (by omega) _ _
  have hprogram := wholeProgram_cut (Nat.lt_succ_self _) hstep
  have hprogram' := wholeProgram_cut (by omega) hbounds
  have hexpression := wholeExpression_cut hstep
  have hexpression' := wholeExpression_cut hbounds
  rw [cut_ofTokens hsame] at hprogram hexpression
  rw [hprogram'] at hprogram
  rw [hexpression'] at hexpression
  obtain ⟨hresult, hplace⟩ := Prod.mk.inj hprogram
  refine ⟨parse_congr hresult.symm ?_, parseExpression?_congr (Prod.mk.inj hexpression).1.symm⟩
  exact (congrArg Cursor.diagnostics hplace).symm

end Whole

/-! ### Reading is total -/

/-- A list of tokens is read to its first end token and not further, with a result that depends on
nothing behind it. -/
structure ReadsToEnd (limits : Limits) (tokens : List Token) : Prop where
  /-- Reading a program has a result, and ends at the first end token. -/
  program : ∃ stmts last,
    Parse.wholeProgram (limits.productions tokens) (.ofTokens tokens) = (.ok stmts, last) ∧
      parse limits tokens = ⟨stmts, last.diagnostics.toList⟩ ∧
        last.atEnd = true ∧ last.pos = endsAt tokens
  /-- So does reading an expression, and it does not go further. -/
  expression : ∃ tree last,
    Parse.wholeExpression (limits.productions tokens) (.ofTokens tokens) = (.ok tree, last) ∧
      parseExpression? limits tokens = tree ∧ last.pos ≤ endsAt tokens
  /-- The loops are not ended by their bound: a larger one makes no difference. -/
  unbounded : ∀ bound, endsAt tokens < bound →
    Parse.wholeProgram (Inner.within bound limits.steps 0) (.ofTokens tokens) =
        Parse.wholeProgram (limits.productions tokens) (.ofTokens tokens) ∧
      Parse.wholeExpression (Inner.within bound limits.steps 0) (.ofTokens tokens) =
        Parse.wholeExpression (limits.productions tokens) (.ofTokens tokens)
  /-- No place that is reached is behind the first end token, and from there only such places are
  reached: by a step, after a refusal, and by the productions at every depth of nesting. -/
  inside : ∀ c, (Cursor.ofTokens tokens).Reaches c → c.pos ≤ endsAt tokens ∧
    ∀ steps spent, ∀ c' ∈ c.advance :: c.synchronized ::
      (Inner.within (Cursor.ofTokens tokens).bound steps spent).outcomes c,
        (Cursor.ofTokens tokens).Reaches c'
  /-- A turn of the outermost loop that is not at the end moves on. -/
  turns : ∀ c, (Cursor.ofTokens tokens).Reaches c → c.atEnd = false →
    c.pos < (Parse.turn (limits.productions tokens) c).2.pos
  /-- A turn of the loop in a block that is not at the end moves on, at every depth of nesting,
  unless it is nested too deeply and the block is given up. -/
  blockTurns : ∀ c, (Cursor.ofTokens tokens).Reaches c → c.atEnd = false →
    ∀ steps spent stmt c', (Inner.within (Cursor.ofTokens tokens).bound steps spent).declaration c =
      (.ok stmt, c') → c.pos < c'.pos
  /-- The tokens behind the first end token make no difference. -/
  settled : ∀ tokens', upToEnd (closed tokens') = upToEnd (closed tokens) →
    parse limits tokens' = parse limits tokens ∧
      parseExpression? limits tokens' = parseExpression? limits tokens
  /-- With enough steps for the tokens nothing is nested too deeply, and there may be more steps. -/
  deepEnough : nestingSteps * endsAt tokens ≤ limits.steps →
    (∀ c, (Cursor.ofTokens tokens).Reaches c →
      (Parse.declaration (limits.productions tokens) c).1 ≠ .error .tooDeep ∧
        (Parse.assignment (limits.productions tokens) c).1 ≠ .error .tooDeep) ∧
    ∀ limits' : Limits, limits.steps ≤ limits'.steps →
      parse limits' tokens = parse limits tokens ∧
        parseExpression? limits' tokens = parseExpression? limits tokens

section Total

variable (limits : Limits) (tokens : List Token)

theorem agree_productions {bound : Nat} (hb : endsAt tokens < bound) (steps spent : Nat) :
    Inner.Agree True (endsAt tokens + 1) (Inner.within bound steps spent)
      (Inner.within (Cursor.ofTokens tokens).bound steps spent) :=
  Inner.agree_within hb (endsAt_lt_bound tokens) steps spent

/-- A program reaches on from the start, and without the tokens behind the end it reaches the same. -/
theorem wholeProgram_ofTokens {bound : Nat} (hb : endsAt tokens < bound) :
    Parse.AgreeAt False false (Parse.wholeProgram (Inner.within bound limits.steps 0))
      (Parse.wholeProgram (limits.productions tokens)) (.ofTokens tokens) := by
  have hleft := Cursor.left_ofTokens tokens
  have hbound := endsAt_lt_bound tokens
  refine Parse.Agree.wholeProgram (agree_productions tokens hb limits.steps 0)
    (Cursor.done_ofTokens tokens) (Cursor.ended_ofTokens tokens) (by omega) ?_ ?_
  · rw [Inner.bound_within]
    omega
  · rw [Limits.bound_productions]
    omega

theorem wholeExpression_ofTokens {bound : Nat} (hb : endsAt tokens < bound) :
    Parse.AgreeAt False false (Parse.wholeExpression (Inner.within bound limits.steps 0))
      (Parse.wholeExpression (limits.productions tokens)) (.ofTokens tokens) := by
  have hleft := Cursor.left_ofTokens tokens
  exact Parse.Agree.wholeExpression (agree_productions tokens hb limits.steps 0)
    (Cursor.done_ofTokens tokens) (Cursor.ended_ofTokens tokens) (by omega)

theorem exists_wholeProgram : ∃ stmts last,
    Parse.wholeProgram (limits.productions tokens) (.ofTokens tokens) = (.ok stmts, last) ∧
      parse limits tokens = ⟨stmts, last.diagnostics.toList⟩ ∧
        last.atEnd = true ∧ last.pos = endsAt tokens := by
  have hleft := Cursor.left_ofTokens tokens
  have hbound := endsAt_lt_bound tokens
  have hprogram : Parse.wholeProgram (limits.productions tokens) (.ofTokens tokens) =
      Parse.program (limits.productions tokens) (Cursor.ofTokens tokens).bound (.ofTokens tokens) := by
    show Parse.program _ _ (Cursor.ofTokens tokens).rewind = _
    rw [Cursor.rewind_ofTokens, Limits.bound_productions]
  obtain ⟨stmts, last, hrun⟩ : ∃ stmts last, Parse.program (limits.productions tokens)
      (Cursor.ofTokens tokens).bound (.ofTokens tokens) = (.ok stmts, last) := Parse.program_ok _ _
  have hreaches := (wholeProgram_ofTokens limits tokens hbound).reaches
  have hend := Parse.program_atEnd (agree_productions tokens hbound limits.steps 0)
    (Cursor.ofTokens tokens).bound _ (Cursor.ended_ofTokens tokens) (by omega) (by omega)
  rw [← Limits.productions] at hreaches hend
  rw [hrun] at hend hprogram
  rw [hprogram] at hreaches
  refine ⟨stmts, last, hprogram, ?_, hend, Cursor.pos_eq_endsAt hreaches hend⟩
  unfold parse
  rw [Limits.productions] at hprogram
  dsimp only
  rw [hprogram]

/-- All that parsing reports is of the grammar. -/
theorem phase_of_parse : ∀ d ∈ (parse limits tokens).diagnostics, d.phase = .grammar := by
  obtain ⟨stmts, last, hrun, hparse, -, -⟩ := exists_wholeProgram limits tokens
  have hreaches := (wholeProgram_ofTokens limits tokens (endsAt_lt_bound tokens)).reaches
  rw [← Limits.productions, hrun] at hreaches
  obtain ⟨ds, hds, hphase⟩ := hreaches.reports
  rw [Cursor.diagnostics_ofTokens, Array.empty_append] at hds
  subst hds
  rw [hparse]
  exact fun d hd => hphase d (by simpa using hd)

theorem exists_wholeExpression : ∃ tree last,
    Parse.wholeExpression (limits.productions tokens) (.ofTokens tokens) = (.ok tree, last) ∧
      parseExpression? limits tokens = tree ∧ last.pos ≤ endsAt tokens := by
  have hbound := endsAt_lt_bound tokens
  obtain ⟨tree, hresult⟩ : ∃ tree, (Parse.wholeExpression (limits.productions tokens)
      (.ofTokens tokens)).1 = .ok tree := by
    obtain ⟨r, c', hread⟩ : ∃ r c', Parse.assignment (limits.productions tokens)
        (.ofTokens tokens) = (r, c') := ⟨_, _, rfl⟩
    cases r with
    | ok e => exact ⟨_, Parse.wholeExpression_ok (Cursor.rewind_ofTokens tokens) hread⟩
    | error halt => exact ⟨_, Parse.wholeExpression_error (Cursor.rewind_ofTokens tokens) hread⟩
  have hreaches := (wholeExpression_ofTokens limits tokens hbound).reaches
  rw [← Limits.productions] at hreaches
  refine ⟨tree, _, Prod.ext hresult rfl, ?_, Cursor.pos_le_endsAt hreaches⟩
  unfold parseExpression?
  rw [Limits.productions] at hresult
  dsimp only
  rw [hresult]

theorem reading_unbounded {bound : Nat} (hb : endsAt tokens < bound) :
    Parse.wholeProgram (Inner.within bound limits.steps 0) (.ofTokens tokens) =
        Parse.wholeProgram (limits.productions tokens) (.ofTokens tokens) ∧
      Parse.wholeExpression (Inner.within bound limits.steps 0) (.ofTokens tokens) =
        Parse.wholeExpression (limits.productions tokens) (.ofTokens tokens) := by
  have hbound := endsAt_lt_bound tokens
  have hprogram := wholeProgram_ofTokens limits tokens hb
  have hprogram' := wholeProgram_ofTokens limits tokens hbound
  have hexpression := wholeExpression_ofTokens limits tokens hb
  have hexpression' := wholeExpression_ofTokens limits tokens hbound
  obtain ⟨hresult, hplace⟩ := Prod.mk.inj (hprogram'.same.symm.trans hprogram.same)
  obtain ⟨hresult', hplace'⟩ := Prod.mk.inj (hexpression'.same.symm.trans hexpression.same)
  exact ⟨Prod.ext hresult.symm (hprogram.reaches.eq_of_cut hprogram'.reaches hplace.symm),
    Prod.ext hresult'.symm (hexpression.reaches.eq_of_cut hexpression'.reaches hplace'.symm)⟩

variable {tokens}

/-- A place that was reached is followed by the end, and by fewer tokens than the bound. -/
theorem reached {c : Cursor} (h : (Cursor.ofTokens tokens).Reaches c) :
    c.Ended ∧ c.left ≤ endsAt tokens := by
  have hle := h.left_le
  rw [Cursor.left_ofTokens] at hle
  exact ⟨h.ended (Cursor.ended_ofTokens tokens), hle⟩

/-- Fewer tokens left are more tokens read. -/
theorem pos_lt_of_left_lt {c c' : Cursor} (h : c.Reaches c') (hl : c'.left < c.left) :
    c.pos < c'.pos := by
  have hsum := h.pos_add_left
  omega

theorem reaches_inside {c : Cursor} (h : (Cursor.ofTokens tokens).Reaches c) (steps spent : Nat) :
    ∀ c' ∈ c.advance :: c.synchronized ::
      (Inner.within (Cursor.ofTokens tokens).bound steps spent).outcomes c,
        (Cursor.ofTokens tokens).Reaches c' := by
  obtain ⟨hc, hl⟩ := reached h
  have hbound := endsAt_lt_bound tokens
  intro c' hmem
  rcases List.mem_cons.mp hmem with rfl | hmem
  · exact h.trans (Cursor.reaches_advance hc)
  rcases List.mem_cons.mp hmem with rfl | hmem
  · exact h.trans (Cursor.reaches_synchronized hc)
  exact h.trans (Inner.reaches_outcomes hc (by omega) steps spent c' hmem)

theorem pos_lt_turn {c : Cursor} (h : (Cursor.ofTokens tokens).Reaches c) (hend : c.atEnd = false) :
    c.pos < (Parse.turn (limits.productions tokens) c).2.pos := by
  obtain ⟨hc, hl⟩ := reached h
  have hagree := agree_productions tokens (endsAt_lt_bound tokens) limits.steps 0
  have hturn := Parse.AgreeAt.turn hc (Parse.Agree.declaration hagree hc (by omega))
  obtain ⟨stmts, c', ht⟩ := Parse.exists_turn (limits.productions tokens) c
  have hlt := hturn.strict (by rw [hend]; rfl) stmts (by rw [← Limits.productions, ht])
  exact pos_lt_of_left_lt hturn.reaches hlt

theorem pos_lt_declaration {c c' : Cursor} {steps spent : Nat} {stmt : Option Stmt}
    (h : (Cursor.ofTokens tokens).Reaches c) (hend : c.atEnd = false)
    (hd : (Inner.within (Cursor.ofTokens tokens).bound steps spent).declaration c = (.ok stmt, c')) :
    c.pos < c'.pos := by
  obtain ⟨hc, hl⟩ := reached h
  have hagree := agree_productions tokens (endsAt_lt_bound tokens) steps spent
  have hturn := hagree.declaration c hc (by omega)
  have hlt := hturn.strict (by rw [hend]; rfl) stmt (by rw [hd])
  have hlater := pos_lt_of_left_lt hturn.reaches hlt
  rwa [hd] at hlater

theorem not_tooDeep (hs : nestingSteps * endsAt tokens ≤ limits.steps) {c : Cursor}
    (h : (Cursor.ofTokens tokens).Reaches c) :
    (Parse.declaration (limits.productions tokens) c).1 ≠ .error .tooDeep ∧
      (Parse.assignment (limits.productions tokens) c).1 ≠ .error .tooDeep := by
  obtain ⟨hc, hl⟩ := reached h
  have hbound := endsAt_lt_bound tokens
  have hagree : Inner.Agree False (endsAt tokens) (limits.productions tokens)
      (limits.productions tokens) :=
    Inner.agree_deep (by omega) (by omega) _ _ 0 (by omega) (by omega)
  exact ⟨(Parse.Agree.declaration hagree hc (by omega)).deep,
    (Parse.Agree.assignment hagree c hc (by omega)).deep⟩

end Total

/-- Every list of tokens is read to its first end token, whatever is in it. -/
theorem reading_is_total (limits : Limits) (tokens : List Token) : ReadsToEnd limits tokens where
  program := exists_wholeProgram limits tokens
  expression := exists_wholeExpression limits tokens
  unbounded _ hb := reading_unbounded limits tokens hb
  inside _ h := ⟨Cursor.pos_le_endsAt h, reaches_inside h⟩
  turns _ h hend := pos_lt_turn limits h hend
  blockTurns _ h hend _ _ _ _ hd := pos_lt_declaration h hend hd
  settled _ h := reading_congr h fun _ _ hb hb' => Inner.agree_within hb hb' limits.steps 0
  deepEnough hs := by
    refine ⟨fun c h => not_tooDeep limits hs h, fun limits' hle => ?_⟩
    exact reading_congr rfl fun _ _ hb hb' =>
      Inner.agree_deep hb hb' limits'.steps limits.steps 0 (by omega) (by omega)

end Lox
