/-
# Coming to a production further in

Each production that has another one further in reads the tokens before that
one, and then comes to it: a loop or a conditional to the statement behind its
header, braces to the declarations in them, a class to its methods. A loop over
a row of declarations comes to any of them, if the row goes on there.

Key definitions: `Lox.inRow`, `Lox.Takes`, `Lox.branches`.
Key theorems: `Lox.enters_while`, `Lox.enters_if`, `Lox.enters_else`,
`Lox.enters_for`, `Lox.enters_block`, `Lox.carries_declarations`,
`Lox.carries_methods`, `Lox.carries_program`.
-/
import Lox.Proofs.Grammar.Damage
import Lox.Proofs.Grammar.Lacking

namespace Lox

open Procedure Phrases

/-- The kinds of tokens that go on with a row of declarations. -/
def inRow (k : TokenKind) : Bool := !(k = .rightBrace || k = .eof || k = .kwElse)

theorem inRow_of_begins {k : TokenKind} (h : beginsDeclaration k) : inRow k := by
  revert h
  cases k <;> decide

/-- A name goes on with a row. -/
theorem inRow_of_name (k : TokenKind) (hk : decide (k = .identifier) = true) : inRow k = true := by
  rw [of_decide_eq_true hk]
  rfl

variable {α : Type} {bound : Nat} {ts : List Token}

/-! ### Further in -/

section Comes

open Parse

variable {inner : Inner} {g : Phrases} {p : Parse Stmt} {us vs : List Token} {t l r : Token}

/-- What takes statements as the production for them does. -/
def Takes (p : Parse Stmt) (inner : Inner) : Prop :=
  ∀ c, beginsStatement c.here.kind → p c = statement inner c

theorem takes_statement (inner : Inner) : Takes (statement inner) inner := fun _ _ => rfl

theorem takes_undertaking (inner : Inner) : Takes (undertaking inner) inner := fun c h => by
  have hne (k : TokenKind) (hk : beginsStatement k = false) : c.here.kind ≠ k := by
    rintro he
    rw [he, hk] at h
    cases h
  unfold undertaking
  rw [skip_keyword (hne _ rfl), skip_keyword (hne _ rfl), skip_keyword (hne _ rfl)]

theorem enters_while (hi : inner.CompleteStmt g) (hp : Takes p inner) {cond : Expr}
    (ht : t.kind = .kwWhile) (hl : l.kind = .leftParen) (h : Assignment g ts cond)
    (hr : r.kind = .rightParen) :
    Enters inner.bound anyKind p (t :: l :: ts ++ [r]) inner.statement
      fun body => Pure.pure (.loop cond body) := by
  intro c c' hb hc _
  obtain ⟨c₁, h₁, h₂⟩ := Cursor.Passes.uncons hc
  rw [hp c (by rw [h₁.here, ht]; rfl), statement_eq_whileStmt h₁ ht]
  exact condition_eq hi.follows (h₁.bound ▸ hb) hl (h.lenient g.embeds_silent) hr h₂.moves

/-- The two branches of a conditional behind its condition. -/
def branches (inner : Inner) (cond : Expr) (yes : Stmt) : Parse Stmt := do
  let no ← if ← accept [.kwElse] then some <$> inner.statement else pure none
  return .branch cond yes no

theorem enters_if (hi : inner.CompleteStmt g) (hp : Takes p inner) {cond : Expr}
    (ht : t.kind = .kwIf) (hl : l.kind = .leftParen) (h : Assignment g ts cond)
    (hr : r.kind = .rightParen) :
    Enters inner.bound anyKind p (t :: l :: ts ++ [r]) inner.statement (branches inner cond) := by
  intro c c' hb hc _
  obtain ⟨c₁, h₁, h₂⟩ := Cursor.Passes.uncons hc
  rw [hp c (by rw [h₁.here, ht]; rfl), statement_eq_ifStmt h₁ ht]
  exact condition_eq hi.follows (h₁.bound ▸ hb) hl (h.lenient g.embeds_silent) hr h₂.moves

theorem closing_branches (cond : Expr) : Closing (branches inner cond) := by
  intro yes d hd
  exact ⟨.branch cond yes none, bind_ok (accept_false (by simpa using hd))⟩

theorem parallel_branches (hi : inner.ConfinedStmt) (cond : Expr) (yes yes' : Stmt) :
    Parallel Any (branches inner cond yes) (branches inner cond yes') := by
  have haccept : Confined .text (accept [.kwElse]) := by
    have h : Confined .text (accept [.kwElse] >>= Pure.pure) :=
      Confined.accept (Confines.not_stops_text_mem (by decide)) fun b => .pure b
    rwa [bind_pure] at h
  refine .bind_same haccept fun b => ?_
  cases b with
  | true => exact .bind_same (hi.statement.map some) fun no => .pure trivial
  | false => exact .bind_same (.pure none) fun no => .pure trivial

theorem enters_else (hi : inner.CompleteStmt g) (hp : Takes p inner) {cond : Expr} {yes : Stmt}
    {other : Token} (ht : t.kind = .kwIf) (hl : l.kind = .leftParen) (h : Assignment g ts cond)
    (hr : r.kind = .rightParen) (hy : g.statement false us yes) (ho : other.kind = .kwElse) :
    Enters inner.bound anyKind p (t :: l :: ts ++ r :: us ++ [other]) inner.statement
      fun no => Pure.pure (.branch cond yes (some no)) := by
  intro c c' hb hc _
  rw [show t :: l :: ts ++ r :: us ++ [other] = (t :: l :: ts ++ [r]) ++ (us ++ [other]) by simp] at hc
  obtain ⟨c₁, h₁, h₂⟩ := hc.split
  obtain ⟨c₂, h₂, h₃⟩ := h₂.split
  rw [enters_if hi hp ht hl h hr c c₁ hb h₁ rfl,
    bind_ok (hi.statement false c₁ us yes c₂ (h₁.bound ▸ hb) h₂ hy rfl), branches,
    bind_ok (accept_true h₃ (by simp [ho]) (by decide)), if_pos rfl, bind_map_left]

theorem enters_for (hi : inner.CompleteStmt g) (hp : Takes p inner) {initializer : Option Stmt}
    {cond increment : Option Expr} {semi : Token} (ht : t.kind = .kwFor) (hl : l.kind = .leftParen)
    (hini : ForInitializer g ts initializer) (hc : OptionalExpr g us cond)
    (hs : semi.kind = .semicolon) (hinc : OptionalExpr g vs increment) (hr : r.kind = .rightParen) :
    Enters inner.bound anyKind p (t :: l :: ts ++ us ++ semi :: vs ++ [r]) inner.statement
      fun body => Pure.pure (Lox.forLoop initializer cond increment body) := by
  intro c c' hb hpass _
  rw [show t :: l :: ts ++ us ++ semi :: vs ++ [r] = t :: l :: (ts ++ (us ++ semi :: (vs ++ [r])))
    by simp] at hpass
  obtain ⟨c₀, h₀, hpass⟩ := hpass.uncons
  obtain ⟨c₁, h₁, hpass⟩ := hpass.uncons
  obtain ⟨c₂, h₂, hpass⟩ := hpass.split
  obtain ⟨c₃, h₃, hpass₃⟩ := hpass.split
  obtain ⟨c₄, h₄, hpass⟩ := hpass₃.uncons
  obtain ⟨c₅, h₅, h₆⟩ := hpass.split
  have hb₁ : c₁.bound ≤ inner.bound := by rwa [h₁.bound, h₀.bound]
  have hb₂ : c₂.bound ≤ inner.bound := by rwa [h₂.bound]
  have hb₄ : c₄.bound ≤ inner.bound := by rwa [h₄.bound, h₃.bound]
  rw [hp c (by rw [h₀.here, ht]; rfl), statement_eq_forStmt h₀ ht]
  refine (bind_ok (discard_eq (expect_eq h₁ hl (by decide) _))).trans ?_
  refine (bind_ok (complete_forInitializer hi c₁ ts _ c₂ hb₁ h₂ hini rfl)).trans ?_
  refine (optional_eq hi.follows hb₂ h₃.moves (hc.lenient g.embeds_silent) hpass₃.here hs
    (.inl rfl)).trans ?_
  refine (bind_ok (discard_eq (expect_eq h₄ hs (by decide) _))).trans ?_
  refine (optional_eq hi.follows hb₄ h₅.moves (hinc.lenient g.embeds_silent) h₆.here hr
    (.inr rfl)).trans ?_
  exact bind_ok (discard_eq (expect_eq h₆ hr (by decide) _))

theorem enters_block (hp : Takes p inner) (ht : t.kind = .leftBrace) :
    Enters inner.bound anyKind p [t] (declarations inner inner.bound) fun body => do
      discard (expect .rightBrace "Expect '\x7d' after block.")
      return .block body := by
  intro c c' hb hc _
  rw [hp c (by rw [hc.here, ht]; rfl), statement_eq_block hc ht]
  simp [bracedBody]

theorem enters_function {kind : String} {ms : List Mark} {name opening : Token}
    (hn : name.kind = .identifier)
    (hl : l.kind = .leftParen) (hps : ParameterList ts ms) (hr : r.kind = .rightParen)
    (ho : opening.kind = .leftBrace) :
    Enters inner.bound anyKind (function inner kind) (name :: l :: ts ++ [r, opening])
      (declarations inner inner.bound) fun body => do
        discard (expect .rightBrace "Expect '\x7d' after block.")
        return ⟨name.mark, ms, body⟩ := by
  intro c c' hb hc _
  obtain ⟨c₁, h₁, hc⟩ := Cursor.Passes.uncons hc
  obtain ⟨c₂, h₂, hc⟩ := Cursor.Passes.uncons hc
  obtain ⟨c₃, h₃, hc₃⟩ := hc.split
  obtain ⟨c₄, h₄, h₅⟩ := hc₃.uncons
  have hb₂ : c₂.bound ≤ inner.bound := by rwa [h₂.bound, h₁.bound]
  refine (bind_ok (expect_eq h₁ hn (by decide) _)).trans ?_
  refine (bind_ok (discard_eq (expect_eq h₂ hl (by decide) _))).trans ?_
  refine (bind_ok (parameterList_eq hb₂ hps.lenient hr h₃.moves hc₃.here)).trans ?_
  refine (bind_ok (discard_eq (expect_eq h₄ hr (by decide) _))).trans ?_
  refine (bind_ok (discard_eq (expect_eq h₅ ho (by decide) _))).trans ?_
  simp [bracedBody]

theorem enters_classDecl {o : Option NameUse} {name opening : Token} (hn : name.kind = .identifier)
    (hs : Superclass ts o) (ho : opening.kind = .leftBrace) :
    Enters inner.bound anyKind (classDecl inner) (name :: ts ++ [opening])
      (methods inner inner.bound) fun methods => do
        discard (expect .rightBrace "Expect '\x7d' after class body.")
        return .classDecl name.mark o methods := by
  intro c c' hb hc _
  obtain ⟨c₁, h₁, hc⟩ := Cursor.Passes.uncons hc
  obtain ⟨c₂, h₂, h₃⟩ := hc.split
  refine (bind_ok (expect_eq h₁ hn (by decide) _)).trans ?_
  cases hs with
  | none =>
    obtain rfl := h₂.eq_of_nil
    refine (bind_ok (accept_false (by simp [h₃.here, ho]))).trans ?_
    exact bind_ok (discard_eq (expect_eq h₃ ho (by decide) _))
  | some hk hs =>
    obtain ⟨c₄, h₄, h₅⟩ := h₂.uncons
    refine (bind_ok (accept_true h₄ (by simp [hk]) (by decide))).trans ?_
    refine (bind_ok (expect_eq h₅ hs (by decide) _)).trans ?_
    exact bind_ok (discard_eq (expect_eq h₃ ho (by decide) _))

end Comes

/-! ### Loops -/

section Loops

open Parse

variable {inner : Inner} {g : Phrases} {isOpen : Bool} {s : Stmt}

/-- A row that goes on is not left. -/
theorem goesOn_eq {c : Cursor} {again : Parse α} {a : α} (h : inRow c.here.kind = true) :
    (do
      if (← check [.rightBrace]) || (← atEnd) then return a
      else again : Parse α) c = again c := by
  have hk : c.here.kind ≠ .rightBrace ∧ c.here.kind ≠ .eof := by
    constructor <;> intro he <;> rw [he] at h <;> cases h
  refine (bind_ok (check_eq _ c)).trans ?_
  refine (bind_ok (show atEnd c = (.ok c.atEnd, c) from rfl)).trans ?_
  rw [if_neg (by simp [Cursor.atEnd, hk])]

theorem inRow_here {k : TokenKind → Bool} {c c' : Cursor} (h : Begins k ts)
    (hk : ∀ j, k j = true → inRow j = true) (hc : c.Passes ts c') : inRow c.here.kind = true := by
  obtain ⟨t, us, rfl, ht⟩ := h
  rw [hc.here]
  exact hk _ ht

theorem ne_else_of_inRow {k : TokenKind} (h : inRow k = true) : k ≠ .kwElse := by
  rintro rfl
  cases h

theorem carries_declaration (hi : inner.ConfinedStmt) (fuel : Nat) :
    Carries bound inRow (declarations inner (fuel + 1)) [] inner.declaration := by
  refine .of_enters (f := fun stmt => do return stmt.toList ++ (← declarations inner fuel))
    (fun c c' _ hc hk => ?_) fun _ _ => ?_
  · obtain rfl := hc.eq_of_nil
    exact goesOn_eq hk
  · exact .bind_same (.declarations hi fuel) fun _ => .pure trivial

theorem carries_declarations (hi : inner.CompleteStmt g) (fuel : Nat) (h : g.declaration isOpen ts s) :
    Carries inner.bound inRow (declarations inner (fuel + 1)) ts (declarations inner fuel) := by
  refine .of_enters (f := fun rest => pure ((some s).toList ++ rest)) (fun c c' hb hc hk => ?_)
    fun _ _ => .pure trivial
  refine (goesOn_eq (inRow_here (hi.beginsDeclaration _ _ _ h) (fun _ => inRow_of_begins) hc)).trans ?_
  exact bind_ok (hi.declaration isOpen c ts (some s) c' hb hc ⟨s, rfl, h⟩
    (by simp [goesOnOpen, ne_else_of_inRow hk]))

theorem carries_method (hi : inner.ConfinedStmt) (fuel : Nat) :
    Carries bound inRow (methods inner (fuel + 1)) [] (function inner "method") := by
  refine .of_enters (f := fun method => do return method :: (← methods inner fuel))
    (fun c c' _ hc hk => ?_) fun _ _ => ?_
  · obtain rfl := hc.eq_of_nil
    exact goesOn_eq hk
  · exact .bind_same (.methods hi fuel) fun _ => .pure trivial

theorem carries_methods (hi : inner.CompleteStmt g) (fuel : Nat) {m : Fun} (h : Function g ts m) :
    Carries inner.bound inRow (methods inner (fuel + 1)) ts (methods inner fuel) := by
  refine .of_enters (f := fun rest => pure (m :: rest)) (fun c c' hb hc _ => ?_)
    fun _ _ => .pure trivial
  refine (goesOn_eq (inRow_here h.begins (fun k hk => by rw [of_decide_eq_true hk]; rfl) hc)).trans ?_
  exact bind_ok (complete_function hi "method" c ts m c' hb hc h rfl)

theorem carries_turn (hi : inner.ConfinedStmt) (fuel : Nat) :
    Carries bound inRow (program inner (fuel + 1)) [] (declaration inner) := by
  intro ds c c₁ d d₁ _ _ hc hd hk hk' hsame
  obtain rfl := hc.eq_of_nil
  obtain rfl := hd.eq_of_nil
  have turns {e : Cursor} (hk : inRow e.here.kind = true) : program inner (fuel + 1) e =
      (turn inner >>= fun stmts => do return stmts ++ (← program inner fuel)) e := by
    have he : e.atEnd = false := Cursor.atEnd_eq_false fun he => by rw [he] at hk; cases hk
    rw [program_succ]
    refine (bind_ok (show atEnd e = (.ok e.atEnd, e) from rfl)).trans ?_
    rw [he]
    rfl
  rw [turns hk, turns hk']
  exact hsame.turn.bind fun _ _ _ => .bind_same (.program hi fuel) fun _ => .pure trivial

theorem carries_program (hi : inner.CompleteStmt g) (fuel : Nat) (h : Declaration g isOpen ts s) :
    Carries inner.bound inRow (program inner (fuel + 1)) ts (program inner fuel) := by
  refine .of_enters (f := fun rest => pure ((some s).toList ++ rest)) (fun c c' hb hc hk => ?_)
    fun _ _ => .pure trivial
  have hhere := inRow_here h.begins (fun _ => inRow_of_begins) hc
  have he : c.atEnd = false := Cursor.atEnd_eq_false fun he => by rw [he] at hhere; cases hhere
  have hd := complete_declaration hi isOpen c ts (some s) c' hb hc ⟨s, rfl, h⟩
    (by simp [goesOnOpen, ne_else_of_inRow hk])
  rw [program_succ]
  refine (bind_ok (show atEnd c = (.ok c.atEnd, c) from rfl)).trans ?_
  rw [he, if_neg (by decide)]
  exact bind_ok (turn_ok hd)

end Loops

end Lox
