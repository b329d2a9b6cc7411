/-
# Statements read exactly their phrases

The same for statements and declarations: what they read without a report
spells the tree they give, and they read every phrase, unless the token behind
goes on with it.

Key definitions: `Lox.Inner.SoundStmt`, `Lox.Inner.CompleteStmt`.
Key theorems: `Lox.Parse.sound_statement`, `Lox.Parse.sound_declaration`,
`Lox.Parse.complete_declaration`, `Lox.Inner.FollowsStmt.complete`.
-/
import Lox.Proofs.Grammar.Expression
import Lox.Proofs.Grammar.Lenient.Statement

namespace Lox

open Procedure Phrases

/-- Tokens from a place on spell a tree, and an `else` behind them belongs to none of its
conditionals. -/
def Spells (phrase : Bool → List Token → Stmt → Prop) (c : Cursor) (ts : List Token) (s : Stmt) :
    Prop :=
  ∃ isOpen, phrase isOpen ts s ∧ ∀ c', c.Passes ts c' → isOpen = true → c'.here.kind ≠ .kwElse

/-- What is read further in spells it. -/
structure Inner.SoundStmt (inner : Inner) (g : Phrases) : Prop extends inner.SoundExpr g where
  statement : Parse.Sound inner.bound inner.statement (Spells g.statement)
  declaration : Parse.Sound inner.bound inner.declaration fun c ts o =>
    ∃ s, o = some s ∧ Spells g.declaration c ts s

section Spells

variable {phrase larger : Bool → List Token → Stmt → Prop} {c c' : Cursor} {ts us : List Token}
  {s s' : Stmt}

theorem Spells.ofClosed (h : phrase false ts s) : Spells phrase c ts s :=
  ⟨false, h, fun _ _ h => by cases h⟩

/-- What ends with a statement is open where that one is. -/
theorem Spells.behind (hp : c.Passes ts c') (h : Spells phrase c' us s)
    (hl : ∀ isOpen, phrase isOpen us s → larger isOpen (ts ++ us) s') :
    Spells larger c (ts ++ us) s' := by
  obtain ⟨isOpen, hs, hn⟩ := h
  refine ⟨isOpen, hl isOpen hs, fun c'' hc'' => hn c'' ?_⟩
  obtain ⟨c1, h1, h2⟩ := hc''.split
  obtain rfl := hp.unique h1
  exact h2

theorem Spells.mono (h : Spells phrase c ts s)
    (hl : ∀ isOpen, phrase isOpen ts s → larger isOpen ts s') : Spells larger c ts s' :=
  h.behind (.refl c) hl

end Spells

/-- What is behind a keyword: with it, the tokens spell a tree. -/
def Behind (phrase : Bool → List Token → Stmt → Prop) (kind : TokenKind) (c : Cursor)
    (ts : List Token) (s : Stmt) : Prop :=
  ∀ c' t, c'.Passes [t] c → t.kind = kind → Spells phrase c' (t :: ts) s

/-- What spells a tree further in is read there. -/
structure Inner.CompleteStmt (inner : Inner) (g : Phrases) : Prop extends inner.CompleteExpr g where
  statement : ∀ isOpen, Parse.Complete inner.bound inner.statement (g.statement isOpen)
    (goesOnOpen isOpen)
  declaration : ∀ isOpen, Parse.Complete inner.bound inner.declaration
    (fun ts o => ∃ s, o = some s ∧ g.declaration isOpen ts s) (goesOnOpen isOpen)
  beginsDeclaration : ∀ isOpen ts s, g.declaration isOpen ts s → Begins beginsDeclaration ts

/-- What is read further in without a report is read there as a lenient phrase. -/
theorem Inner.CompleteStmt.follows {inner : Inner} {g : Phrases} (hi : inner.CompleteStmt g) :
    inner.FollowsStmt g.silent where
  toFollowsExpr := hi.toCompleteExpr.follows
  statement isOpen := (hi.statement isOpen).follows
  declaration isOpen := by
    rintro c ts _ o c' hb hp ⟨s, rfl, rfl, h⟩ hg
    exact hi.declaration isOpen c ts (some s) c' hb hp.passes ⟨s, rfl, h⟩ hg
  beginsDeclaration isOpen ts _ s h := hi.beginsDeclaration isOpen ts s h.2

/-- What is read as a lenient phrase is read without a report if nothing is reported of it. -/
theorem Inner.FollowsStmt.complete {inner : Inner} {g : Phrases} {l : Lenient}
    (hi : inner.FollowsStmt l) (hg : g.Embeds l) : inner.CompleteStmt g where
  expr := hi.expr.complete hg.expr
  middle := hi.middle.complete hg.middle
  value := hi.value.complete hg.value
  ternary := hi.ternary.complete hg.ternary
  unary := hi.unary.complete hg.unary
  begins ts e h := hi.begins ts [] e (hg.expr ts e h)
  statement isOpen := (hi.statement isOpen).complete (hg.statement isOpen)
  declaration isOpen := (hi.declaration isOpen).complete fun ts _ ⟨s, ho, h⟩ =>
    ⟨s, ho, hg.declaration isOpen ts s h⟩
  beginsDeclaration isOpen ts s h := hi.beginsDeclaration isOpen ts [] s (hg.declaration isOpen ts s h)

namespace Parse

variable {β : Type} {inner : Inner} {g : Phrases}

/-! ### Soundness -/

theorem sound_exprStmt (hi : inner.SoundStmt g) :
    Sound inner.bound (exprStmt inner) fun _ => ExprStmt g := by
  refine (sound_assignment hi.toSoundExpr).bind fun e => (sound_skip (by decide) _).bind fun _ =>
    .pure ?_
  rintro - c us - ⟨semi, rfl, hs⟩ c' ts - he
  simpa using .mk he hs

theorem sound_printStmt (hi : inner.SoundStmt g) :
    Sound inner.bound (printStmt inner) (Behind (Statement g) .kwPrint) := by
  refine (sound_assignment hi.toSoundExpr).bind fun e => (sound_skip (by decide) _).bind fun _ =>
    .pure ?_
  rintro - c us - ⟨semi, rfl, hs⟩ c' ts - he c'' t - ht
  simpa using Spells.ofClosed (.print ht he hs)

/-- An optional expression: what follows may rely on its phrase. -/
theorem sound_optional (hi : inner.SoundStmt g) (b : Bool) {f : Option Expr → Parse β}
    {K : Cursor → List Token → β → Prop} (hf : ∀ v, Sound inner.bound (f v) fun c' us r =>
      ∀ c ts, c.Passes ts c' → OptionalExpr g ts v → K c (ts ++ us) r) :
    Sound inner.bound (if b = true then Pure.pure none >>= f
      else (some <$> assignment inner) >>= f) K := by
  cases b with
  | true => exact (Sound.pure (G := fun _ ts v => OptionalExpr g ts v) fun _ => .none).bind hf
  | false =>
    exact ((sound_assignment hi.toSoundExpr).map (K := fun _ ts v => OptionalExpr g ts v)
      fun _ _ _ h => .some h).bind hf

theorem sound_returnStmt (hi : inner.SoundStmt g) :
    Sound inner.bound (returnStmt inner) (Behind (Statement g) .kwReturn) := by
  refine (sound_read _).bind fun keyword => (sound_read _).bind fun b =>
    sound_optional hi b fun v => (sound_skip (by decide) _).bind fun _ => .pure ?_
  rintro - c us - ⟨semi, rfl, hs⟩ c' ts - hv c2 ws hw ⟨rfl, -⟩ c1 vs hvs ⟨rfl, rfl⟩ c0 t hp ht
  obtain rfl := hw.eq_of_nil
  obtain rfl := hvs.eq_of_nil
  rw [hp.previous]
  simpa using Spells.ofClosed (.giveBack ht hv hs)

theorem sound_varDecl (hi : inner.SoundStmt g) :
    Sound inner.bound (varDecl inner) fun _ => VarDecl g := by
  refine (sound_expect (by decide) _).bind fun name => (sound_accept (by decide)).bind fun b => ?_
  cases b with
  | true =>
    refine ((sound_assignment hi.toSoundExpr).map (K := fun _ ts v => ∃ e, v = some e ∧
      Assignment g ts e) fun _ _ e h => ⟨e, rfl, h⟩).bind fun v =>
      (sound_skip (by decide) _).bind fun _ => .pure ?_
    rintro - c us - ⟨semi, rfl, hs⟩ - ts - ⟨e, rfl, he⟩ - vs - h - ws - ⟨rfl, hn⟩
    obtain ⟨equal, rfl, hq⟩ : ∃ q, vs = [q] ∧ q.kind ∈ [TokenKind.equal] := by simpa using h
    have := VarDecl.initialized hn (by simpa using hq) he hs
    simpa using this
  | false =>
    refine (Sound.pure (G := fun _ ts v => ts = [] ∧ v = none) fun _ => ⟨rfl, rfl⟩).bind fun v =>
      (sound_skip (by decide) _).bind fun _ => .pure ?_
    rintro - c us - ⟨semi, rfl, hs⟩ - ts - ⟨rfl, rfl⟩ - vs - h - ws - ⟨rfl, hn⟩
    obtain rfl : vs = [] := by simpa using h
    exact .bare hn hs

theorem sound_declarations (hi : inner.SoundStmt g) : ∀ fuel,
    Sound inner.bound (declarations inner fuel) fun _ => Row g.declaration
  | 0 => .pure fun _ => .nil
  | fuel + 1 => by
    rw [declarations]
    refine (sound_read _).bind fun b => (sound_read _).bind fun b' => ?_
    split
    · refine .pure ?_
      rintro - - us - ⟨rfl, -⟩ - ts - ⟨rfl, -⟩
      exact .nil
    · refine hi.declaration.bind fun o => (sound_declarations hi fuel).bind fun body => .pure ?_
      rintro - - vs - hb - ws - ⟨s, rfl, isOpen, hs, -⟩ - us - ⟨rfl, -⟩ - ts - ⟨rfl, -⟩
      simpa using Row.cons hs hb

theorem sound_bracedBody (hi : inner.SoundStmt g) :
    Sound inner.bound (bracedBody inner) fun _ ts body => ∃ us closing,
      Row g.declaration us body ∧ closing.kind = .rightBrace ∧ ts = us ++ [closing] := by
  refine (sound_declarations hi _).bind fun body => (sound_skip (by decide) _).bind fun _ =>
    .pure ?_
  rintro - - us - ⟨closing, rfl, hk⟩ - ts - hb
  exact ⟨ts, closing, hb, hk, by simp⟩

theorem sound_parameters {bound : Nat} : ∀ fuel count,
    Sound bound (parameters fuel count) fun c ts ms =>
      c.ahead.length ≤ fuel → Parameters ts ms ∧ count + ms.length ≤ maxArgs
  | 0, _ => .pure fun c h => by simp [Cursor.ahead] at h
  | fuel + 1, count => by
    -- A parameter from the ceiling on is reported, and read all the same.
    have rest : Sound bound (do
        let param ← expect .identifier "Expect parameter name."
        if ← accept [.comma] then return param.mark :: (← parameters fuel (count + 1))
        else return [param.mark]) fun c ts ms => c.ahead.length ≤ fuel + 1 →
          Parameters ts ms ∧ (count < maxArgs → count + ms.length ≤ maxArgs) := by
      refine (sound_expect (by decide) _).bind fun t => (sound_accept (by decide)).bind fun b => ?_
      cases b with
      | false =>
        refine .pure ?_
        rintro - c us - h c' ts - ⟨rfl, ht⟩ -
        obtain rfl : us = [] := by simpa using h
        exact ⟨.last ht, fun h => h⟩
      | true =>
        refine (sound_parameters fuel (count + 1)).bind fun ms => .pure ?_
        rintro - c us - hms c' vs hvs h c'' ts hts ⟨rfl, ht⟩ hl
        obtain ⟨comma, rfl, hk⟩ : ∃ q, vs = [q] ∧ q.kind ∈ [TokenKind.comma] := by simpa using h
        have h1 := congrArg List.length hts.ahead
        have h2 := congrArg List.length hvs.ahead
        simp only [List.length_append, List.length_singleton] at h1 h2
        obtain ⟨ha, hn⟩ := hms (by omega)
        refine ⟨by simpa using .more ht (by simpa using hk) ha, fun _ => ?_⟩
        rw [List.length_cons]
        omega
    rw [parameters]
    split
    · exact (sound_read _).bind fun t => (sound_report t _).bind fun _ =>
        rest.mono fun _ _ _ _ _ _ _ h => h.elim
    · exact rest.mono fun _ _ _ h hl => ⟨(h hl).1, (h hl).2 (by omega)⟩

theorem sound_parameterList :
    Sound inner.bound (parameterList inner) fun _ => ParameterList := by
  refine (sound_read _).bind fun b => ?_
  cases b with
  | true =>
    refine .pure ?_
    rintro - c ts - ⟨rfl, -⟩
    exact .none
  | false =>
    refine (sound_parameters inner.bound 0).enough.mono ?_
    rintro - us ms ⟨h, hn⟩ - ts - ⟨rfl, -⟩
    exact .some h (by simpa using hn)

theorem sound_function (hi : inner.SoundStmt g) (kind : String) :
    Sound inner.bound (function inner kind) fun _ => Function g := by
  refine (sound_expect (by decide) _).bind fun name => (sound_skip (by decide) _).bind fun _ =>
    sound_parameterList.bind fun params => (sound_skip (by decide) _).bind fun _ =>
    (sound_skip (by decide) _).bind fun _ => (sound_bracedBody hi).bind fun body => .pure ?_
  rintro - - _ - ⟨us, closing, hb, hc, rfl⟩ - _ - ⟨opening, rfl, ho⟩ - _ - ⟨r, rfl, hr⟩ - ps - hps
    - _ - ⟨l, rfl, hl⟩ - _ - ⟨rfl, hn⟩
  have := Function.mk hn hl hps hr ho hb hc
  simpa using this

theorem sound_methods (hi : inner.SoundStmt g) : ∀ fuel,
    Sound inner.bound (methods inner fuel) fun _ => Methods g
  | 0 => .pure fun _ => .nil
  | fuel + 1 => by
    rw [methods]
    refine (sound_read _).bind fun b => (sound_read _).bind fun b' => ?_
    split
    · refine .pure ?_
      rintro - - us - ⟨rfl, -⟩ - ts - ⟨rfl, -⟩
      exact .nil
    · refine (sound_function hi _).bind fun m => (sound_methods hi fuel).bind fun ms => .pure ?_
      rintro - - vs - hms - ws - hm - us - ⟨rfl, -⟩ - ts - ⟨rfl, -⟩
      simpa using Methods.cons hm hms

theorem sound_classDecl (hi : inner.SoundStmt g) :
    Sound inner.bound (classDecl inner) fun _ => ClassDecl g := by
  have rest (name : Token) (superclass : Option NameUse) : Sound inner.bound (do
      discard (expect .leftBrace "Expect '\x7b' before class body.")
      let methods ← methods inner inner.bound
      discard (expect .rightBrace "Expect '\x7d' after class body.")
      return Stmt.classDecl name.mark superclass methods) fun _ ts s =>
        ∃ opening us ms closing, opening.kind = .leftBrace ∧ Methods g us ms ∧
          closing.kind = .rightBrace ∧ ts = opening :: us ++ [closing] ∧
          s = .classDecl name.mark superclass ms := by
    refine (sound_skip (by decide) _).bind fun _ => (sound_methods hi _).bind fun ms =>
      (sound_skip (by decide) _).bind fun _ => .pure ?_
    rintro - - _ - ⟨closing, rfl, hc⟩ - us - hms - _ - ⟨opening, rfl, ho⟩
    exact ⟨opening, us, ms, closing, ho, hms, hc, by simp, rfl⟩
  refine (sound_expect (by decide) _).bind fun name => (sound_accept (by decide)).bind fun b => ?_
  cases b with
  | true =>
    refine (sound_expect (by decide) _).bind fun super =>
      (Sound.pure (G := fun _ ts v => ts = [] ∧ v = some (.free super.mark)) fun _ =>
        ⟨rfl, rfl⟩).bind fun v => (rest name v).mono ?_
    rintro - _ - ⟨opening, us, ms, closing, ho, hms, hc, rfl, rfl⟩ - _ - ⟨rfl, rfl⟩ - _ - ⟨rfl, hs⟩
      - vs - h - _ - ⟨rfl, hn⟩
    obtain ⟨less, rfl, hk⟩ : ∃ q, vs = [q] ∧ q.kind ∈ [TokenKind.less] := by simpa using h
    have := ClassDecl.mk hn (.some (by simpa using hk) hs) ho hms hc
    simpa using this
  | false =>
    refine (Sound.pure (G := fun _ ts v => ts = [] ∧ v = none) fun _ => ⟨rfl, rfl⟩).bind fun v =>
      (rest name v).mono ?_
    rintro - _ - ⟨opening, us, ms, closing, ho, hms, hc, rfl, rfl⟩ - _ - ⟨rfl, rfl⟩ - vs - h - _ -
      ⟨rfl, hn⟩
    obtain rfl : vs = [] := by simpa using h
    have := ClassDecl.mk hn .none ho hms hc
    simpa using this

theorem sound_forInitializer (hi : inner.SoundStmt g) :
    Sound inner.bound (forInitializer inner) fun _ => ForInitializer g := by
  refine (sound_accept (by decide)).bind fun b => ?_
  cases b with
  | true =>
    refine .pure ?_
    rintro - - ts - h
    obtain ⟨semi, rfl, hs⟩ : ∃ q, ts = [q] ∧ q.kind ∈ [TokenKind.semicolon] := by simpa using h
    exact .none (by simpa using hs)
  | false =>
    refine (sound_accept (by decide)).bind fun b => ?_
    cases b with
    | true =>
      refine ((sound_varDecl hi).map (K := fun _ ts o => ∃ s, o = some s ∧ VarDecl g ts s)
        fun _ _ s h => ⟨s, rfl, h⟩).mono ?_
      rintro - us - ⟨s, rfl, hs⟩ - ts - h - vs - h'
      obtain rfl : vs = [] := by simpa using h'
      obtain ⟨t, rfl, ht⟩ : ∃ q, ts = [q] ∧ q.kind ∈ [TokenKind.kwVar] := by simpa using h
      exact .var (by simpa using ht) hs
    | false =>
      refine ((sound_exprStmt hi).map (K := fun _ ts o => ∃ s, o = some s ∧ ExprStmt g ts s)
        fun _ _ s h => ⟨s, rfl, h⟩).mono ?_
      rintro - us - ⟨s, rfl, hs⟩ - ts - h - vs - h'
      obtain rfl : vs = [] := by simpa using h'
      obtain rfl : ts = [] := by simpa using h
      exact .expr hs

theorem sound_forStmt (hi : inner.SoundStmt g) :
    Sound inner.bound (forStmt inner) (Behind (Statement g) .kwFor) := by
  refine (sound_skip (by decide) _).bind fun _ => (sound_forInitializer hi).bind fun initializer =>
    (sound_read _).bind fun b => sound_optional hi b fun cond =>
    (sound_skip (by decide) _).bind fun _ => (sound_read _).bind fun b' =>
    sound_optional hi b' fun increment => (sound_skip (by decide) _).bind fun _ =>
    hi.statement.bind fun body => .pure ?_
  rintro - c7 bs h7 hb c6 _ h6 ⟨r, rfl, hr⟩ c5 is h5 hinc c4 ws h4 ⟨rfl, -⟩ c3 _ h3 ⟨semi, rfl, hs⟩
    c2 cs h2 hc c1 vs h1 ⟨rfl, -⟩ c us hus hini c' _ hl ⟨l, rfl, hlk⟩ c'' t ht htk
  have hp := ht.trans (hl.trans (hus.trans (h1.trans (h2.trans (h3.trans (h4.trans (h5.trans h6)))))))
  have : Spells (Statement g) c'' (_ ++ bs) (forLoop initializer cond increment body) :=
    hb.behind hp fun isOpen h => by simpa using Statement.forLoop htk hlk hini hc hs hinc hr h
  simpa using this

theorem sound_whileStmt (hi : inner.SoundStmt g) :
    Sound inner.bound (whileStmt inner) (Behind (Statement g) .kwWhile) := by
  refine (sound_skip (by decide) _).bind fun _ => (sound_assignment hi.toSoundExpr).bind fun cond =>
    (sound_skip (by decide) _).bind fun _ => hi.statement.bind fun body => .pure ?_
  rintro - c7 bs h7 hb c6 _ h6 ⟨r, rfl, hr⟩ c5 us h5 hc c' _ hl ⟨l, rfl, hlk⟩ c'' t ht htk
  have hp := ht.trans (hl.trans (h5.trans h6))
  have : Spells (Statement g) c'' (_ ++ bs) (.loop cond body) :=
    hb.behind hp fun isOpen h => by simpa using Statement.loop htk hlk hc hr h
  simpa using this

/-- Whether an optional token is there is told by the token ahead. -/
theorem sound_accept_here {bound : Nat} {kinds : List TokenKind} (hk : .eof ∉ kinds) :
    Sound bound (accept kinds) fun c ts b =>
      (b = true ∧ ts = [c.here] ∧ c.here.kind ∈ kinds) ∨
        (b = false ∧ ts = [] ∧ c.here.kind ∉ kinds) := by
  intro c hc
  by_cases h : c.here.kind ∈ kinds
  · have hp := Cursor.passes_advance hc.closed fun he => hk (he ▸ h)
    rw [accept_true hp h hk]
    exact .silent hp (.inl ⟨rfl, rfl, h⟩)
  · rw [accept_false h]
    exact .silent (.refl c) (.inr ⟨rfl, rfl, h⟩)

theorem sound_ifStmt (hi : inner.SoundStmt g) :
    Sound inner.bound (ifStmt inner) (Behind (Statement g) .kwIf) := by
  refine (sound_skip (by decide) _).bind fun _ => (sound_assignment hi.toSoundExpr).bind fun cond =>
    (sound_skip (by decide) _).bind fun _ => hi.statement.bind fun yes =>
    (sound_accept_here (by decide)).bind fun b => ?_
  cases b with
  | true =>
    refine (hi.statement.map (K := fun c ts o => ∃ s, o = some s ∧ Spells g.statement c ts s)
      fun _ _ s h => ⟨s, rfl, h⟩).bind fun no => .pure ?_
    rintro - c6 vs h6 ⟨no, rfl, hno⟩ c5 _ h5 (⟨-, rfl, he⟩ | ⟨h, -⟩) c4 us h4 ⟨isOpen, hyes, hn⟩
      c3 _ h3 ⟨r, rfl, hr⟩ c2 ts h2 hc c1 _ h1 ⟨l, rfl, hl⟩ c t ht htk
    · -- What an `else` follows is not open.
      have he : c5.here.kind = .kwElse := by simpa using he
      have ho : isOpen = false := by
        cases isOpen with
        | false => rfl
        | true => exact absurd he (hn c5 h4 rfl)
      subst ho
      have hp := ht.trans (h1.trans (h2.trans (h3.trans (h4.trans h5))))
      have : Spells (Statement g) c (_ ++ vs) (.branch cond yes (some no)) :=
        hno.behind hp fun isOpen h => by simpa using Statement.branchElse htk hl hc hr hyes he h
      simpa using this
    · cases h
  | false =>
    refine (Sound.pure (G := fun _ ts o => ts = [] ∧ o = none) fun _ => ⟨rfl, rfl⟩).bind
      fun no => .pure ?_
    rintro c7 c6 vs h6 ⟨rfl, rfl⟩ c5 _ h5 (⟨h, -⟩ | ⟨-, rfl, he⟩) c4 us h4 ⟨isOpen, hyes, -⟩
      c3 _ h3 ⟨r, rfl, hr⟩ c2 ts h2 hc c1 _ h1 ⟨l, rfl, hl⟩ c t ht htk
    · cases h
    · obtain rfl := h5.eq_of_nil
      obtain rfl := h6.eq_of_nil
      have hp := ht.trans (h1.trans (h2.trans (h3.trans h4)))
      refine ⟨true, by simpa using Statement.branch htk hl hc hr hyes, fun c' hc' _ => ?_⟩
      obtain rfl := hp.unique (by simpa using hc')
      simpa using he

/-- Of two readings, the first is for what begins with a keyword. -/
theorem sound_keyword {bound : Nat} {phrase : Bool → List Token → Stmt → Prop} {kind : TokenKind}
    {p q : Parse Stmt} (hk : kind ≠ .eof) (hp : Sound bound p (Behind phrase kind))
    (hq : Sound bound q (Spells phrase)) :
    Sound bound (do if ← accept [kind] then p else q) (Spells phrase) := by
  refine (sound_accept (by simpa using hk.symm)).bind fun b => ?_
  cases b with
  | true =>
    refine hp.mono ?_
    rintro c' us s hs c ts hts h
    obtain ⟨t, rfl, ht⟩ : ∃ t, ts = [t] ∧ t.kind ∈ [kind] := by simpa using h
    exact hs c t hts (by simpa using ht)
  | false =>
    refine hq.mono ?_
    rintro c' us s hs c ts hts h
    obtain rfl : ts = [] := by simpa using h
    obtain rfl := hts.eq_of_nil
    exact hs

theorem sound_statement (hi : inner.SoundStmt g) :
    Sound inner.bound (statement inner) (Spells (Statement g)) := by
  have block : Sound inner.bound (do return Stmt.block (← bracedBody inner))
      (Behind (Statement g) .leftBrace) := by
    refine (sound_bracedBody hi).bind fun body => .pure ?_
    rintro - - _ - ⟨us, closing, hb, hc, rfl⟩ c t - ht
    simpa using Spells.ofClosed (.block ht hb hc)
  exact sound_keyword (by decide) (sound_forStmt hi) <| sound_keyword (by decide) (sound_ifStmt hi) <|
    sound_keyword (by decide) (sound_printStmt hi) <|
    sound_keyword (by decide) (sound_returnStmt hi) <|
    sound_keyword (by decide) (sound_whileStmt hi) <| sound_keyword (by decide) block <|
    (sound_exprStmt hi).mono fun _ _ _ h => .ofClosed (.expr h)

theorem sound_declaration (hi : inner.SoundStmt g) :
    Sound inner.bound (declaration inner) fun c ts o =>
      ∃ s, o = some s ∧ Spells (Declaration g) c ts s := by
  have function : Sound inner.bound (do return Stmt.function (← function inner "function"))
      (Behind (Declaration g) .kwFun) := by
    refine (sound_function hi _).bind fun f => .pure ?_
    rintro - - us - hf c t - ht
    simpa using Spells.ofClosed (.function ht hf)
  refine Sound.recovering (sound_keyword (by decide) ?_ <| sound_keyword (by decide) function <|
    sound_keyword (by decide) ?_ <| (sound_statement hi).mono fun _ _ _ h => h.mono fun _ => .statement)
  · exact (sound_classDecl hi).mono fun _ _ _ h _ _ _ ht => .ofClosed (.classDecl ht h)
  · exact (sound_varDecl hi).mono fun _ _ _ h _ _ _ ht => .ofClosed (.var ht h)

/-! ### Completeness -/

theorem complete_function (hi : inner.CompleteStmt g) (kind : String) :
    Complete inner.bound (function inner kind) (Function g) fun _ => false :=
  (follows_function hi.follows kind).complete fun _ _ => Function.lenient g.embeds_silent

theorem complete_forInitializer (hi : inner.CompleteStmt g) :
    Complete inner.bound (forInitializer inner) (ForInitializer g) fun _ => false :=
  (follows_forInitializer hi.follows).complete fun _ _ => ForInitializer.lenient g.embeds_silent

theorem complete_declaration (hi : inner.CompleteStmt g) (isOpen : Bool) :
    Complete inner.bound (declaration inner) (fun ts o => ∃ s, o = some s ∧ Declaration g isOpen ts s)
      (goesOnOpen isOpen) :=
  (follows_declaration hi.follows isOpen).complete fun _ _ ⟨s, ho, h⟩ =>
    ⟨s, ho, h.lenient g.embeds_silent⟩

end Parse

end Lox
