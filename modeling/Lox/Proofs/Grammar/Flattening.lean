/-
# Expressions and their tokens

An expression tree can be written back as tokens (`Lox.Expr.flatten`): a
constant by its value, every other token by its kind and its text. Trees that
are parsed have a shape (`Lox.Expr.Shaped`): what is further out in the grammar
may not stand as an operand of what is further in, unless it is in parentheses.

Of the tokens that a phrase has and its tree does not keep, only the kinds are
known. These are operators and punctuation, and the scanner spells each of
their kinds in one way (`Lox.Token.Standard`), so that the tree tells the whole
phrase. The other way round, a tree of the shape is written back as a phrase
that spells it: at each node the operands are phrases of their own levels, and
so of all looser ones (`Lox.Phrases.At.loosen`).

Key definitions: `Lox.Sign`, `Lox.Expr.flatten`, `Lox.Precedence`, `Lox.Expr.Shaped`,
`Lox.Phrases.At`.
Key theorems: `Lox.Phrases.Assignment.flat`, `Lox.exists_phrase`,
`Lox.parseExpression?_is_flattening`.
-/
import Lox.Proofs.Grammar.Nesting
import Lox.Proofs.Grammar.Program
import Lox.Proofs.Scanner.Segments
import Lox.Proofs.Spelling.Respelling

namespace Lox

open Phrases

/-! ### Writing a tree back -/

/-- What a token says: the value of a constant, or else its kind and its text. -/
inductive Sign where
  | constant (value : Literal)
  | word (kind : TokenKind) (text : String)

def Token.sign (t : Token) : Sign :=
  match t.kind with
  | .kwTrue => .constant (.bool true)
  | .kwFalse => .constant (.bool false)
  | .kwNil => .constant .nil
  | .number | .string => .constant t.literal
  | kind => .word kind t.lexeme

def Mark.sign (m : Mark) : Sign := .word m.kind m.text

mutual

/-- The tokens of the tree, from left to right. -/
def Expr.flatten : Expr → List Sign
  | .literal value => [.constant value]
  | .grouping inner => .word .leftParen "(" :: inner.flatten ++ [.word .rightParen ")"]
  | .unary op operand => op.sign :: operand.flatten
  | .binary left op right | .logical left op right => left.flatten ++ op.sign :: right.flatten
  | .ternary cond yes no =>
    cond.flatten ++ .word .question "?" :: yes.flatten ++ .word .colon ":" :: no.flatten
  | .variable use | .receiver use => [use.name.sign]
  | .assign use value => use.name.sign :: .word .equal "=" :: value.flatten
  | .call callee paren args =>
    callee.flatten ++ .word .leftParen "(" :: argsFlatten args ++ [paren.sign]
  | .get object name => object.flatten ++ [.word .dot ".", name.sign]
  | .set object name value =>
    object.flatten ++ .word .dot "." :: name.sign :: .word .equal "=" :: value.flatten
  | .superMethod use method => [use.name.sign, .word .dot ".", method.sign]
  | .stray _ => []

/-- The tokens of the arguments, with commas between them. -/
def argsFlatten : List Expr → List Sign
  | [] => []
  | arg :: args =>
    arg.flatten ++ if args.isEmpty then [] else .word .comma "," :: argsFlatten args

end

/-! ### The shape of parsed trees -/

/-- How tightly expressions hold together. -/
inductive Precedence where
  | assignment | ternary | or | and | equality | comparison | term | factor | unary | call
  deriving DecidableEq, Repr

namespace Precedence

/-- The place among all, the loosest first. -/
def rank : Precedence → Nat
  | .assignment => 0 | .ternary => 1 | .or => 2 | .and => 3 | .equality => 4 | .comparison => 5
  | .term => 6 | .factor => 7 | .unary => 8 | .call => 9

/-- The next tighter one. -/
def next : Precedence → Precedence
  | .assignment => .ternary | .ternary => .or | .or => .and | .and => .equality
  | .equality => .comparison | .comparison => .term | .term => .factor | .factor => .unary
  | .unary | .call => .call

def ofLogical? : TokenKind → Option Precedence
  | .kwOr => some .or
  | .kwAnd => some .and
  | _ => none

def ofBinary? : TokenKind → Option Precedence
  | .bangEqual | .equalEqual => some .equality
  | .greater | .greaterEqual | .less | .lessEqual => some .comparison
  | .minus | .plus => some .term
  | .slash | .star => some .factor
  | _ => none

end Precedence

/-- How tightly the outermost form of the expression holds together. -/
def Expr.precedence : Expr → Precedence
  | .literal _ | .grouping _ | .variable _ | .call .. | .get .. | .receiver _ | .superMethod .. => .call
  | .unary .. => .unary
  | .binary _ op _ => (Precedence.ofBinary? op.kind).getD .assignment
  | .logical _ op _ => (Precedence.ofLogical? op.kind).getD .assignment
  | .ternary .. => .ternary
  | .assign .. | .set .. | .stray _ => .assignment

/-- The expression holds together as tightly as that at least. -/
def Expr.AtLeast (e : Expr) (p : Precedence) : Prop := p.rank ≤ e.precedence.rank

/-- The expression holds together more tightly than that. -/
def Expr.Above (e : Expr) (p : Precedence) : Prop := p.rank < e.precedence.rank

instance (e : Expr) (p : Precedence) : Decidable (e.AtLeast p) :=
  inferInstanceAs (Decidable (p.rank ≤ e.precedence.rank))

instance (e : Expr) (p : Precedence) : Decidable (e.Above p) :=
  inferInstanceAs (Decidable (p.rank < e.precedence.rank))

/-- A use of a name that nothing is known of yet, by a token of the kind. -/
structure NameUse.Fresh (use : NameUse) (kind : TokenKind) : Prop where
  kind : use.name.kind = kind
  hops : use.hops = none

mutual

/-- Operands hold together as tightly as they must where they stand, operators of one level lean to
the left, marks are of the kinds that stand in their places, there are not too many arguments, and
no node is out of place. -/
def Expr.Shaped : Expr → Prop
  | .literal _ => True
  | .grouping inner => inner.Shaped
  | .unary op operand => (op.kind = .bang ∨ op.kind = .minus) ∧ operand.AtLeast .unary ∧ operand.Shaped
  | .binary left op right => ∃ p, Precedence.ofBinary? op.kind = some p ∧ left.AtLeast p ∧
      right.Above p ∧ left.Shaped ∧ right.Shaped
  | .logical left op right => ∃ p, Precedence.ofLogical? op.kind = some p ∧ left.AtLeast p ∧
      right.Above p ∧ left.Shaped ∧ right.Shaped
  | .ternary cond yes no =>
    cond.AtLeast .or ∧ no.AtLeast .ternary ∧ cond.Shaped ∧ yes.Shaped ∧ no.Shaped
  | .variable use => use.Fresh .identifier
  | .assign use value => use.Fresh .identifier ∧ value.Shaped
  | .call callee paren args => callee.AtLeast .call ∧ paren.kind = .rightParen ∧
      paren.text = ")" ∧ args.length ≤ maxArgs ∧ callee.Shaped ∧ argsShaped args
  | .get object name => object.AtLeast .call ∧ name.kind = .identifier ∧ object.Shaped
  | .set object name value =>
    object.AtLeast .call ∧ name.kind = .identifier ∧ object.Shaped ∧ value.Shaped
  | .receiver use => use.Fresh .kwThis
  | .superMethod use method => use.Fresh .kwSuper ∧ method.kind = .identifier
  | .stray _ => False

def argsShaped : List Expr → Prop
  | [] => True
  | arg :: args => arg.Shaped ∧ argsShaped args

end

/-! ### Tokens of a scan -/

/-- Operators and punctuation are spelled in one way. -/
def Token.Standard (t : Token) : Prop :=
  ∀ op ∈ operators, op.2 = t.kind → t.lexeme = String.ofList op.1

section

variable {t : Token} {kind : TokenKind} {text : String} {value : Literal}

theorem Token.Standard.sign_eq (h : t.Standard) (op : List Char × TokenKind) (hop : op ∈ operators)
    (hk : t.kind = op.2) : t.sign = .word op.2 (String.ofList op.1) := by
  have hword : ∀ op ∈ operators, op.2 ∉ [TokenKind.kwTrue, .kwFalse, .kwNil, .number, .string] := by
    decide
  have hword := hword op hop
  rw [← hk, ← h op hop hk.symm]
  rw [← hk] at hword
  unfold Token.sign
  split <;> simp_all

/-- Where the kind of a token is that of a word, its mark says all of it. -/
theorem Token.sign_eq_mark (h : t.kind ∉ [TokenKind.kwTrue, .kwFalse, .kwNil, .number, .string]) :
    t.sign = t.mark.sign := by
  unfold Token.sign
  split <;> simp_all [Mark.sign]

theorem Token.of_sign_word (h : t.sign = .word kind text) : t.kind = kind ∧ t.lexeme = text := by
  unfold Token.sign at h
  split at h
  · cases h
  · cases h
  · cases h
  · cases h
  · cases h
  · cases h
    exact ⟨rfl, rfl⟩

/-- A token that says a constant spells it. -/
theorem Token.primary_of_sign {g : Phrases} (h : t.sign = .constant value) :
    Primary g [t] (.literal value) := by
  unfold Token.sign at h
  split at h
  · rename_i hk
    cases h
    exact .yes hk
  · rename_i hk
    cases h
    exact .no hk
  · rename_i hk
    cases h
    exact .nil hk
  · rename_i hk
    cases h
    exact .constant (.inl hk)
  · rename_i hk
    cases h
    exact .constant (.inr hk)
  · cases h

/-- A token is spelled like its mark if that says as much. -/
theorem Token.mark_atStart {m : Mark} (h : t.sign = m.sign) :
    t.mark.respell .atStart = m.respell .atStart := by
  obtain ⟨hk, ht⟩ := Token.of_sign_word h
  simp [Mark.respell, Respelling.atStart, Token.mark, hk, ht]

end

theorem operators_unique : ∀ op ∈ operators, ∀ op' ∈ operators, op.2 = op'.2 → op.1 = op'.1 := by
  decide

/-- The scanner spells operators as they stand in the table. -/
theorem Lexeme.standard {chars : List Char} {kind : TokenKind} {literal : Literal}
    (h : Lexeme chars kind literal) :
    ∀ op ∈ operators, op.2 = kind → chars = op.1 := by
  have hno : ∀ op ∈ operators, op.2 ∉ [TokenKind.number, .identifier, .string] ++
      keywords.map Prod.snd := by decide
  intro op hop hk
  have hno := hno op hop
  rw [hk] at hno
  cases h with
  | operator hop' => exact operators_unique _ hop' op hop hk.symm
  | keyword _ hword =>
    exact absurd (List.mem_append_right _ (List.mem_map_of_mem hword)) hno
  | numeral | name | string => simp at hno

/-- The tokens of a text, without the last one. -/
theorem standard_scan (source : String) : ∃ ts e, (scan source).tokens = ts ++ [e] ∧
    e.kind = .eof ∧ ∀ t ∈ ts, t.Standard ∧ t.kind ≠ .eof := by
  obtain ⟨ts, ds, h, htokens, -⟩ := scan_segments source
  refine ⟨ts, _, htokens, rfl, fun t ht => ?_⟩
  obtain ⟨_, _, _, -, -, -, htext, hlexeme, -⟩ := h.sliced t ht
  refine ⟨fun op hop hk => ?_, hlexeme.ne_eof⟩
  rw [htext, hlexeme.standard op hop hk]

/-! ### What is parsed is written back -/

/-- The tokens are those that the tree is written back as, and it has the shape; it stands where
nothing looser than that may stand. -/
structure Flat (p : Precedence) (ts : List Token) (e : Expr) : Prop where
  flatten : ts.map Token.sign = e.flatten
  shaped : e.Shaped
  atLeast : e.AtLeast p

/-- All tokens are spelled as the scanner spells them. -/
def AllStandard (ts : List Token) : Prop := ∀ t ∈ ts, t.Standard

namespace AllStandard

variable {ts us : List Token} {t : Token}

theorem append : AllStandard (ts ++ us) ↔ AllStandard ts ∧ AllStandard us := by
  simp only [AllStandard, List.mem_append, or_imp, forall_and]

theorem cons : AllStandard (t :: ts) ↔ t.Standard ∧ AllStandard ts := by
  simp only [AllStandard, List.mem_cons, forall_eq_or_imp]

end AllStandard

theorem Flat.loosen {p q : Precedence} {ts : List Token} {e : Expr} (h : Flat q ts e)
    (hle : p.rank ≤ q.rank) : Flat p ts e :=
  ⟨h.flatten, h.shaped, Nat.le_trans hle h.atLeast⟩

/-- The level is that of operators of the precedence. -/
structure Level.Makes (level : Level) (p : Precedence) : Prop where
  sign : ∀ op : Token, op.kind ∈ level.ops → op.sign = op.mark.sign
  flatten : ∀ l op r, (level.node l op r).flatten = l.flatten ++ op.sign :: r.flatten
  atLeast : ∀ l op r, op.kind ∈ level.ops → (level.node l op r).AtLeast p
  shaped : ∀ l op r, op.kind ∈ level.ops → l.AtLeast p → r.Above p → l.Shaped → r.Shaped →
    (level.node l op r).Shaped

theorem makes_logical {ops : List TokenKind} {p : Precedence}
    (h : ∀ k ∈ ops, Precedence.ofLogical? k = some p) : Level.Makes ⟨ops, .logical⟩ p where
  sign op hop := Token.sign_eq_mark fun hk => by
    have hp := h op.kind hop
    revert hk hp
    cases op.kind <;> simp [Precedence.ofLogical?]
  flatten _ _ _ := rfl
  atLeast _ op _ hop := by
    simp [Expr.AtLeast, Expr.precedence, h op.kind hop]
  shaped _ op _ hop hl hr hls hrs := ⟨p, h op.kind hop, hl, hr, hls, hrs⟩

theorem makes_binary {ops : List TokenKind} {p : Precedence}
    (h : ∀ k ∈ ops, Precedence.ofBinary? k = some p) : Level.Makes ⟨ops, .binary⟩ p where
  sign op hop := Token.sign_eq_mark fun hk => by
    have hp := h op.kind hop
    revert hk hp
    cases op.kind <;> simp [Precedence.ofBinary?]
  flatten _ _ _ := rfl
  atLeast _ op _ hop := by
    simp [Expr.AtLeast, Expr.precedence, h op.kind hop]
  shaped _ op _ hop hl hr hls hrs := ⟨p, h op.kind hop, hl, hr, hls, hrs⟩

/-- The levels climb from a precedence up to unary operators. -/
inductive Climbs : List Level → Precedence → Prop
  | unary : Climbs [] .unary
  | level {level : Level} {tighter : List Level} {p q : Precedence} : level.Makes p →
      Climbs tighter q → p.rank < q.rank → Climbs (level :: tighter) p

theorem climbs_levels : Climbs levels .or := by
  have factor : Climbs (levels.drop 5) .factor := .level (makes_binary (by decide)) .unary (by decide)
  have term : Climbs (levels.drop 4) .term := .level (makes_binary (by decide)) factor (by decide)
  have comparison : Climbs (levels.drop 3) .comparison :=
    .level (makes_binary (by decide)) term (by decide)
  have equality : Climbs (levels.drop 2) .equality :=
    .level (makes_binary (by decide)) comparison (by decide)
  have and : Climbs (levels.drop 1) .and := .level (makes_logical (by decide)) equality (by decide)
  exact .level (makes_logical (by decide)) and (by decide)

namespace Phrases

/-- The trees of the phrases further in are written back as these, and stand where they may. -/
structure Faithful (g : Phrases) : Prop where
  expr : ∀ {ts e}, g.expr ts e → AllStandard ts → Flat .assignment ts e
  middle : ∀ {ts e}, g.middle ts e → AllStandard ts → Flat .assignment ts e
  value : ∀ {ts e}, g.value ts e → AllStandard ts → Flat .assignment ts e
  ternary : ∀ {ts e}, g.ternary ts e → AllStandard ts → Flat .ternary ts e
  unary : ∀ {ts e}, g.unary ts e → AllStandard ts → Flat .unary ts e

variable {g : Phrases} {ts : List Token} {e : Expr}

theorem Primary.flat (hg : g.Faithful) (h : Primary g ts e) (hs : AllStandard ts) :
    Flat .call ts e := by
  cases h with
  | no h => exact ⟨by simp [Token.sign, h, Expr.flatten], trivial, Nat.le_refl _⟩
  | yes h => exact ⟨by simp [Token.sign, h, Expr.flatten], trivial, Nat.le_refl _⟩
  | nil h => exact ⟨by simp [Token.sign, h, Expr.flatten], trivial, Nat.le_refl _⟩
  | constant h =>
    refine ⟨?_, trivial, Nat.le_refl _⟩
    rcases h with h | h <;> simp [Token.sign, h, Expr.flatten]
  | name h => exact ⟨by simp [Token.sign_eq_mark, h, Expr.flatten, NameUse.free], ⟨h, rfl⟩, Nat.le_refl _⟩
  | receiver h =>
    exact ⟨by simp [Token.sign_eq_mark, h, Expr.flatten, NameUse.free], ⟨h, rfl⟩, Nat.le_refl _⟩
  | superMethod h hd hn =>
    simp only [AllStandard.cons] at hs
    have hdot := hs.2.1.sign_eq (['.'], .dot) (by decide) hd
    refine ⟨?_, ⟨⟨h, rfl⟩, hn⟩, Nat.le_refl _⟩
    simp [Token.sign_eq_mark, h, hn, hdot, Expr.flatten, NameUse.free]
  | grouping hl h hr =>
    simp only [AllStandard.append, AllStandard.cons] at hs
    have hopen := hs.1.1.sign_eq (['('], .leftParen) (by decide) hl
    have hclose := hs.2.1.sign_eq ([')'], .rightParen) (by decide) hr
    have he := hg.expr h hs.1.2
    refine ⟨?_, he.shaped, Nat.le_refl _⟩
    simp [hopen, hclose, he.flatten, Expr.flatten]

theorem Arguments.flat (hg : g.Faithful) {es : List Expr} (h : Arguments g ts es)
    (hs : AllStandard ts) : ts.map Token.sign = argsFlatten es ∧ argsShaped es ∧ es ≠ [] := by
  induction h with
  | last h =>
    have he := hg.expr h hs
    exact ⟨by simp [argsFlatten, he.flatten], ⟨he.shaped, trivial⟩, by simp⟩
  | @more ts us e es comma h hc _ ih =>
    simp only [AllStandard.append, AllStandard.cons] at hs
    have hcomma := hs.2.1.sign_eq ([','], .comma) (by decide) hc
    have he := hg.expr h hs.1
    obtain ⟨hflatten, hshaped, hne⟩ := ih hs.2.2
    refine ⟨?_, ⟨he.shaped, hshaped⟩, by simp⟩
    simp [argsFlatten, he.flatten, hcomma, hflatten, hne]

theorem ArgumentList.flat (hg : g.Faithful) {es : List Expr} (h : ArgumentList g ts es)
    (hs : AllStandard ts) :
    ts.map Token.sign = argsFlatten es ∧ argsShaped es ∧ es.length ≤ maxArgs := by
  cases h with
  | none => exact ⟨rfl, trivial, Nat.zero_le _⟩
  | some h hn =>
    obtain ⟨hflatten, hshaped, -⟩ := h.flat hg hs
    exact ⟨hflatten, hshaped, hn⟩

theorem Call.flat (hg : g.Faithful) (h : Call g ts e) (hs : AllStandard ts) : Flat .call ts e := by
  induction h with
  | primary h => exact h.flat hg hs
  | call _ hl ha hr ih =>
    simp only [AllStandard.append, AllStandard.cons] at hs
    have hopen := hs.1.2.1.sign_eq (['('], .leftParen) (by decide) hl
    have hclose := hs.2.1.sign_eq ([')'], .rightParen) (by decide) hr
    have he := ih hs.1.1
    obtain ⟨hflatten, hshaped, hn⟩ := ha.flat hg hs.1.2.2
    refine ⟨?_, ⟨he.atLeast, hr, (Token.of_sign_word hclose).2, hn, he.shaped, hshaped⟩, Nat.le_refl _⟩
    simp [Expr.flatten, he.flatten, hopen, hflatten, Token.sign_eq_mark, hr]
  | get _ hd hn ih =>
    simp only [AllStandard.append, AllStandard.cons] at hs
    have hdot := hs.2.1.sign_eq (['.'], .dot) (by decide) hd
    have he := ih hs.1
    refine ⟨?_, ⟨he.atLeast, hn, he.shaped⟩, Nat.le_refl _⟩
    simp [Expr.flatten, he.flatten, hdot, Token.sign_eq_mark, hn]

theorem Unary.flat (hg : g.Faithful) (h : Unary g ts e) (hs : AllStandard ts) : Flat .unary ts e := by
  cases h with
  | call h => exact (h.flat hg hs).loosen (by decide)
  | operator hop h =>
    have he := hg.unary h (AllStandard.cons.mp hs).2
    refine ⟨?_, ⟨hop, he.atLeast, he.shaped⟩, Nat.le_refl _⟩
    rcases hop with hop | hop <;> simp [Expr.flatten, he.flatten, Token.sign_eq_mark, hop]

theorem Binary.flat (hg : g.Faithful) {ls : List Level} (h : Binary g ls ts e) (hs : AllStandard ts)
    {p : Precedence} (hp : Climbs ls p) : Flat p ts e := by
  induction h generalizing p with
  | unary h =>
    cases hp
    exact h.flat hg hs
  | operand _ ih =>
    cases hp with
    | level _ htighter hlt => exact (ih hs htighter).loosen (Nat.le_of_lt hlt)
  | @operator level tighter ts us l r op _ hop _ ihl ihr =>
    cases hp with
    | level hmakes htighter hlt =>
      simp only [AllStandard.append, AllStandard.cons] at hs
      have hl := ihl hs.1 (.level hmakes htighter hlt)
      have hr := ihr hs.2.2 htighter
      have hsign := hmakes.sign op hop
      refine ⟨?_, ?_, hmakes.atLeast _ _ _ hop⟩
      · simp [hmakes.flatten, hl.flatten, hr.flatten, hsign]
      · exact hmakes.shaped _ _ _ hop hl.atLeast (Nat.lt_of_lt_of_le hlt hr.atLeast) hl.shaped hr.shaped

theorem Ternary.flat (hg : g.Faithful) (h : Ternary g ts e) (hs : AllStandard ts) :
    Flat .ternary ts e := by
  cases h with
  | binary h => exact (h.flat hg hs climbs_levels).loosen (by decide)
  | choice h hq hy hc hn =>
    simp only [AllStandard.append, AllStandard.cons] at hs
    have hquestion := hs.1.2.1.sign_eq (['?'], .question) (by decide) hq
    have hcolon := hs.2.1.sign_eq ([':'], .colon) (by decide) hc
    have hcond := h.flat hg hs.1.1 climbs_levels
    have hyes := hg.middle hy hs.1.2.2
    have hno := hg.ternary hn hs.2.2
    refine ⟨?_, ⟨hcond.atLeast, hno.atLeast, hcond.shaped, hyes.shaped, hno.shaped⟩, Nat.le_refl _⟩
    simp [Expr.flatten, hcond.flatten, hyes.flatten, hno.flatten, hquestion, hcolon]

theorem Assignment.flat (hg : g.Faithful) (h : Assignment g ts e) (hs : AllStandard ts) :
    Flat .assignment ts e := by
  cases h with
  | ternary h => exact (h.flat hg hs).loosen (by decide)
  | name hn he hv =>
    simp only [AllStandard.cons] at hs
    have hequal := hs.2.1.sign_eq (['='], .equal) (by decide) he
    have hvalue := hg.value hv hs.2.2
    refine ⟨?_, ⟨⟨hn, rfl⟩, hvalue.shaped⟩, Nat.le_refl _⟩
    simp [Expr.flatten, hvalue.flatten, hequal, Token.sign_eq_mark, hn, NameUse.free]
  | property ho hd hn he hv =>
    simp only [AllStandard.append, AllStandard.cons] at hs
    have hdot := hs.2.1.sign_eq (['.'], .dot) (by decide) hd
    have hequal := hs.2.2.2.1.sign_eq (['='], .equal) (by decide) he
    have hobject := ho.flat hg hs.1
    have hvalue := hg.value hv hs.2.2.2.2
    refine ⟨?_, ⟨hobject.atLeast, hn, hobject.shaped, hvalue.shaped⟩, Nat.le_refl _⟩
    simp [Expr.flatten, hobject.flatten, hvalue.flatten, hdot, hequal, Token.sign_eq_mark, hn]

theorem faithful_within : ∀ steps spent, (within steps spent).Faithful
  | 0, _ => by
    rw [within]
    exact ⟨by rintro _ _ ⟨⟩, by rintro _ _ ⟨⟩, by rintro _ _ ⟨⟩, by rintro _ _ ⟨⟩, by rintro _ _ ⟨⟩⟩
  | steps + 1, spent + 1 => by
    rw [within]
    exact faithful_within steps spent
  | steps + 1, 0 => by
    rw [within]
    have h (spent : Nat) := faithful_within steps spent
    exact ⟨Assignment.flat (h _), Assignment.flat (h _), Assignment.flat (h _), Ternary.flat (h _),
      Unary.flat (h _)⟩

end Phrases

/-! ### What is written back is parsed -/

namespace Precedence

variable {p q : Precedence}

theorem rank_next (h : p.rank < q.rank) : p.next.rank = p.rank + 1 := by
  cases p with
  | call => cases q <;> simp [rank] at h
  | _ => rfl

theorem rank_injective (h : p.rank = q.rank) : p = q := by
  cases p <;> cases q <;> simp [rank] at h ⊢

end Precedence

namespace Phrases

/-- The phrases of a precedence. -/
def At (g : Phrases) : Precedence → List Token → Expr → Prop
  | .assignment => Assignment g
  | .ternary => Ternary g
  | .or => Binary g levels
  | .and => Binary g (levels.drop 1)
  | .equality => Binary g (levels.drop 2)
  | .comparison => Binary g (levels.drop 3)
  | .term => Binary g (levels.drop 4)
  | .factor => Binary g (levels.drop 5)
  | .unary => Unary g
  | .call => Call g

variable {g : Phrases} {p q : Precedence} {ts us : List Token} {e l r : Expr} {op : Token}

theorem At.of_next (h : At g p.next ts e) : At g p ts e := by
  cases p with
  | assignment => exact .ternary h
  | ternary => exact .binary h
  | or | and | equality | comparison | term => exact .operand h
  | factor => exact .operand (.unary h)
  | unary => exact .call h
  | call => exact h

/-- A phrase stands where looser ones may stand. -/
theorem At.loosen (h : At g q ts e) (hle : p.rank ≤ q.rank) : At g p ts e := by
  obtain ⟨n, hn⟩ : ∃ n, q.rank = p.rank + n := ⟨q.rank - p.rank, by omega⟩
  induction n generalizing p with
  | zero => rwa [Precedence.rank_injective (p := p) (q := q) (by omega)]
  | succ n ih =>
    have hnext : p.next.rank = p.rank + 1 := Precedence.rank_next (q := q) (by omega)
    exact (ih (by omega) (by omega)).of_next

theorem At.logical (h : Precedence.ofLogical? op.kind = some p) (hl : At g p ts l)
    (hr : At g p.next us r) : At g p (ts ++ op :: us) (.logical l op.mark r) := by
  unfold Precedence.ofLogical? at h
  split at h <;> cases h <;> rename_i hk
  · exact @Binary.operator g ⟨[.kwOr], .logical⟩ _ _ _ _ _ _ hl (by simp [hk]) hr
  · exact @Binary.operator g ⟨[.kwAnd], .logical⟩ _ _ _ _ _ _ hl (by simp [hk]) hr

theorem At.binary (h : Precedence.ofBinary? op.kind = some p) (hl : At g p ts l)
    (hr : At g p.next us r) : At g p (ts ++ op :: us) (.binary l op.mark r) := by
  have equality (hk : op.kind ∈ [TokenKind.bangEqual, .equalEqual]) (hl : At g .equality ts l)
      (hr : At g .comparison us r) : At g .equality (ts ++ op :: us) (.binary l op.mark r) :=
    @Binary.operator g ⟨[.bangEqual, .equalEqual], .binary⟩ _ _ _ _ _ _ hl hk hr
  have comparison (hk : op.kind ∈ [TokenKind.greater, .greaterEqual, .less, .lessEqual])
      (hl : At g .comparison ts l) (hr : At g .term us r) :
      At g .comparison (ts ++ op :: us) (.binary l op.mark r) :=
    @Binary.operator g ⟨[.greater, .greaterEqual, .less, .lessEqual], .binary⟩ _ _ _ _ _ _ hl hk hr
  have term (hk : op.kind ∈ [TokenKind.minus, .plus]) (hl : At g .term ts l)
      (hr : At g .factor us r) : At g .term (ts ++ op :: us) (.binary l op.mark r) :=
    @Binary.operator g ⟨[.minus, .plus], .binary⟩ _ _ _ _ _ _ hl hk hr
  have factor (hk : op.kind ∈ [TokenKind.slash, .star]) (hl : At g .factor ts l)
      (hr : At g .unary us r) : At g .factor (ts ++ op :: us) (.binary l op.mark r) :=
    @Binary.operator g ⟨[.slash, .star], .binary⟩ _ _ _ _ _ _ hl hk (.unary hr)
  unfold Precedence.ofBinary? at h
  split at h <;> cases h <;> rename_i hk
  · exact equality (by simp [hk]) hl hr
  · exact equality (by simp [hk]) hl hr
  · exact comparison (by simp [hk]) hl hr
  · exact comparison (by simp [hk]) hl hr
  · exact comparison (by simp [hk]) hl hr
  · exact comparison (by simp [hk]) hl hr
  · exact term (by simp [hk]) hl hr
  · exact term (by simp [hk]) hl hr
  · exact factor (by simp [hk]) hl hr
  · exact factor (by simp [hk]) hl hr

end Phrases

section

variable {t : Token} {use : NameUse} {kind : TokenKind} {ts us : List Token} {e : Expr} {m k : Nat}
  {p : Precedence}

theorem NameUse.Fresh.atStart (h : use.Fresh kind) (ht : t.sign = use.name.sign) :
    t.kind = kind ∧ (NameUse.free t.mark).respell .atStart = use.respell .atStart := by
  obtain ⟨hk, -⟩ := Token.of_sign_word ht
  refine ⟨hk.trans h.kind, ?_⟩
  simp [NameUse.respell, NameUse.free, Token.mark_atStart ht, h.hops]

/-- With so many steps left the tokens are a phrase of the tree, but for the places of its marks. -/
def HasPhrase (m : Nat) (p : Precedence) (ts : List Token) (e : Expr) : Prop :=
  ∃ e', At (within m 0) p ts e' ∧ e'.respell .atStart = e.respell .atStart

theorem HasPhrase.loosen {q : Precedence} (h : HasPhrase m q ts e) (hle : p.rank ≤ q.rank) :
    HasPhrase m p ts e := by
  obtain ⟨e', he, hsame⟩ := h
  exact ⟨e', he.loosen hle, hsame⟩

theorem Precedence.assignment_le (p : Precedence) : Precedence.assignment.rank ≤ p.rank :=
  Nat.zero_le _

/-- A use of a name is spelled by one token. -/
theorem hasPhrase_use (h : use.Fresh kind) {node : NameUse → Expr}
    (hts : ts.map Token.sign = [use.name.sign])
    (hnode : ∀ {t : Token}, t.kind = kind → Primary (within m 0) [t] (node (.free t.mark)))
    (hsame : ∀ {use' : NameUse}, use'.respell .atStart = use.respell .atStart →
      (node use').respell .atStart = (node use).respell .atStart) :
    HasPhrase m .call ts (node use) := by
  obtain ⟨t, rfl, ht⟩ := List.map_eq_singleton_iff.mp hts
  obtain ⟨hk, hstart⟩ := h.atStart ht
  exact ⟨_, .primary (hnode hk), hsame hstart⟩

end

mutual

/-- The tokens that a tree of the shape is written back as are a phrase that spells it. -/
theorem exists_phrase : ∀ {e : Expr}, e.Shaped → ∀ {ts : List Token} {m : Nat},
    ts.map Token.sign = e.flatten → nestingSteps * ts.length ≤ m → HasPhrase m e.precedence ts e
  | .literal value, _, ts, m, hts, _ => by
    obtain ⟨t, rfl, ht⟩ := List.map_eq_singleton_iff.mp hts
    exact ⟨_, .primary (Token.primary_of_sign ht), rfl⟩
  | .variable use, h, ts, m, hts, _ =>
    hasPhrase_use h hts .name fun hsame => congrArg Expr.variable hsame
  | .receiver use, h, ts, m, hts, _ =>
    hasPhrase_use h hts .receiver fun hsame => congrArg Expr.receiver hsame
  | .superMethod use method, ⟨h, hk⟩, ts, m, hts, _ => by
    obtain ⟨t, _, rfl, ht, hts⟩ := List.map_eq_cons_iff.mp hts
    obtain ⟨dot, _, rfl, hdot, hts⟩ := List.map_eq_cons_iff.mp hts
    obtain ⟨name, rfl, hname⟩ := List.map_eq_singleton_iff.mp hts
    obtain ⟨ht, huse⟩ := h.atStart ht
    have hn := (Token.of_sign_word hname).1.trans hk
    refine ⟨_, .primary (.superMethod ht (Token.of_sign_word hdot).1 hn), ?_⟩
    simp [Expr.respell, huse, Token.mark_atStart hname]
  | .grouping inner, h, ts, m, hts, hm => by
    have h : inner.Shaped := h
    obtain ⟨_, _, rfl, hts, hclose⟩ := List.map_eq_append_iff.mp hts
    obtain ⟨l, us, rfl, hl, hus⟩ := List.map_eq_cons_iff.mp hts
    obtain ⟨r, rfl, hr⟩ := List.map_eq_singleton_iff.mp hclose
    simp only [List.length_append, List.length_cons, List.length_nil, nestingSteps_eq] at hm
    obtain ⟨e, he, hsame⟩ := (exists_phrase h hus (m := m - nestingSteps)
      (by rw [nestingSteps_eq]; omega)).loosen (Precedence.assignment_le _)
    have he : (within m 0).expr us e := by
      rw [within_of_pos (by omega)]
      exact he
    refine ⟨_, .primary (.grouping (Token.of_sign_word hl).1 he (Token.of_sign_word hr).1), ?_⟩
    simp [Expr.respell, hsame]
  | .unary op operand, ⟨hop, hbound, h⟩, ts, m, hts, hm => by
    obtain ⟨t, us, rfl, ht, hus⟩ := List.map_eq_cons_iff.mp hts
    obtain ⟨hk, -⟩ := Token.of_sign_word ht
    simp only [List.length_cons, nestingSteps_eq] at hm
    obtain ⟨e, he, hsame⟩ := (exists_phrase h hus (m := m - 1)
      (by rw [nestingSteps_eq]; omega)).loosen hbound
    have he : (within m 0).unary us e := by
      rw [within_of_pos (by omega)]
      exact he
    refine ⟨_, .operator (hk ▸ hop) he, ?_⟩
    simp [Expr.respell, hsame, Token.mark_atStart ht]
  | .binary left op right, ⟨p, hp, hl, hr, hls, hrs⟩, ts, m, hts, hm => by
    obtain ⟨us, _, rfl, hus, hts⟩ := List.map_eq_append_iff.mp hts
    obtain ⟨t, vs, rfl, ht, hvs⟩ := List.map_eq_cons_iff.mp hts
    obtain ⟨hk, -⟩ := Token.of_sign_word ht
    simp only [List.length_append, List.length_cons, nestingSteps_eq] at hm
    obtain ⟨l, hl, hlsame⟩ := (exists_phrase hls hus (m := m)
      (by rw [nestingSteps_eq]; omega)).loosen hl
    obtain ⟨r, hr, hrsame⟩ := (exists_phrase hrs hvs (m := m)
      (by rw [nestingSteps_eq]; omega)).loosen (p := p.next) (by rw [Precedence.rank_next hr]; exact hr)
    refine ⟨.binary l t.mark r, ?_, ?_⟩
    · rw [Expr.precedence, hp]
      exact At.binary (hk ▸ hp) hl hr
    · simp [Expr.respell, hlsame, hrsame, Token.mark_atStart ht]
  | .logical left op right, ⟨p, hp, hl, hr, hls, hrs⟩, ts, m, hts, hm => by
    obtain ⟨us, _, rfl, hus, hts⟩ := List.map_eq_append_iff.mp hts
    obtain ⟨t, vs, rfl, ht, hvs⟩ := List.map_eq_cons_iff.mp hts
    obtain ⟨hk, -⟩ := Token.of_sign_word ht
    simp only [List.length_append, List.length_cons, nestingSteps_eq] at hm
    obtain ⟨l, hl, hlsame⟩ := (exists_phrase hls hus (m := m)
      (by rw [nestingSteps_eq]; omega)).loosen hl
    obtain ⟨r, hr, hrsame⟩ := (exists_phrase hrs hvs (m := m)
      (by rw [nestingSteps_eq]; omega)).loosen (p := p.next) (by rw [Precedence.rank_next hr]; exact hr)
    refine ⟨.logical l t.mark r, ?_, ?_⟩
    · rw [Expr.precedence, hp]
      exact At.logical (hk ▸ hp) hl hr
    · simp [Expr.respell, hlsame, hrsame, Token.mark_atStart ht]
  | .ternary cond yes no, ⟨hc, hn, hcs, hys, hns⟩, ts, m, hts, hm => by
    obtain ⟨_, _, rfl, hts, hlast⟩ := List.map_eq_append_iff.mp hts
    obtain ⟨us, _, rfl, hus, hmiddle⟩ := List.map_eq_append_iff.mp hts
    obtain ⟨question, vs, rfl, hq, hvs⟩ := List.map_eq_cons_iff.mp hmiddle
    obtain ⟨colon, ws, rfl, hcolon, hws⟩ := List.map_eq_cons_iff.mp hlast
    simp only [List.length_append, List.length_cons, nestingSteps_eq] at hm
    obtain ⟨c, hc, hcsame⟩ := (exists_phrase hcs hus (m := m)
      (by rw [nestingSteps_eq]; omega)).loosen hc
    obtain ⟨y, hy, hysame⟩ := (exists_phrase hys hvs (m := m - 3)
      (by rw [nestingSteps_eq]; omega)).loosen (Precedence.assignment_le _)
    obtain ⟨n, hn, hnsame⟩ := (exists_phrase hns hws (m := m - 1)
      (by rw [nestingSteps_eq]; omega)).loosen hn
    have hy : (within m 0).middle vs y := by
      rw [within_of_pos (by omega)]
      exact hy
    have hn : (within m 0).ternary ws n := by
      rw [within_of_pos (by omega)]
      exact hn
    have hchoice := Ternary.choice hc (Token.of_sign_word hq).1 hy (Token.of_sign_word hcolon).1 hn
    refine ⟨_, hchoice, ?_⟩
    simp [Expr.respell, hcsame, hysame, hnsame]
  | .assign use value, ⟨hu, h⟩, ts, m, hts, hm => by
    obtain ⟨t, _, rfl, ht, hts⟩ := List.map_eq_cons_iff.mp hts
    obtain ⟨equal, us, rfl, he, hus⟩ := List.map_eq_cons_iff.mp hts
    obtain ⟨hk, huse⟩ := hu.atStart ht
    simp only [List.length_cons, nestingSteps_eq] at hm
    obtain ⟨v, hv, hsame⟩ := (exists_phrase h hus (m := m - 1)
      (by rw [nestingSteps_eq]; omega)).loosen (Precedence.assignment_le _)
    have hv : (within m 0).value us v := by
      rw [within_of_pos (by omega)]
      exact hv
    refine ⟨_, .name hk (Token.of_sign_word he).1 hv, ?_⟩
    simp [Expr.respell, huse, hsame]
  | .get object name, ⟨hbound, hn, h⟩, ts, m, hts, hm => by
    obtain ⟨us, _, rfl, hus, hts⟩ := List.map_eq_append_iff.mp hts
    obtain ⟨dot, _, rfl, hdot, hts⟩ := List.map_eq_cons_iff.mp hts
    obtain ⟨t, rfl, ht⟩ := List.map_eq_singleton_iff.mp hts
    simp only [List.length_append, List.length_cons, nestingSteps_eq] at hm
    obtain ⟨o, ho, hsame⟩ := (exists_phrase h hus (m := m)
      (by rw [nestingSteps_eq]; omega)).loosen hbound
    refine ⟨_, .get ho (Token.of_sign_word hdot).1 ((Token.of_sign_word ht).1.trans hn), ?_⟩
    simp [Expr.respell, hsame, Token.mark_atStart ht]
  | .set object name value, ⟨hbound, hn, h, hv⟩, ts, m, hts, hm => by
    obtain ⟨us, _, rfl, hus, hts⟩ := List.map_eq_append_iff.mp hts
    obtain ⟨dot, _, rfl, hdot, hts⟩ := List.map_eq_cons_iff.mp hts
    obtain ⟨t, _, rfl, ht, hts⟩ := List.map_eq_cons_iff.mp hts
    obtain ⟨equal, vs, rfl, he, hvs⟩ := List.map_eq_cons_iff.mp hts
    simp only [List.length_append, List.length_cons, nestingSteps_eq] at hm
    obtain ⟨o, ho, hosame⟩ := (exists_phrase h hus (m := m)
      (by rw [nestingSteps_eq]; omega)).loosen hbound
    obtain ⟨v, hv, hvsame⟩ := (exists_phrase hv hvs (m := m - 1)
      (by rw [nestingSteps_eq]; omega)).loosen (Precedence.assignment_le _)
    have hv : (within m 0).value vs v := by
      rw [within_of_pos (by omega)]
      exact hv
    refine ⟨_, .property ho (Token.of_sign_word hdot).1 ((Token.of_sign_word ht).1.trans hn)
      (Token.of_sign_word he).1 hv, ?_⟩
    simp [Expr.respell, hosame, hvsame, Token.mark_atStart ht]
  | .call callee paren args, ⟨hbound, hk, _, hn, h, hargs⟩, ts, m, hts, hm => by
    obtain ⟨_, _, rfl, hts, hclose⟩ := List.map_eq_append_iff.mp hts
    obtain ⟨us, _, rfl, hus, hts⟩ := List.map_eq_append_iff.mp hts
    obtain ⟨l, vs, rfl, hl, hvs⟩ := List.map_eq_cons_iff.mp hts
    obtain ⟨r, rfl, hr⟩ := List.map_eq_singleton_iff.mp hclose
    simp only [List.length_append, List.length_cons, List.length_nil, nestingSteps_eq] at hm
    obtain ⟨c, hc, hsame⟩ := (exists_phrase h hus (m := m)
      (by rw [nestingSteps_eq]; omega)).loosen hbound
    obtain ⟨es, hes, hargsame, hlength⟩ := exists_argumentList hargs hvs (m := m)
      (by rw [nestingSteps_eq]; omega)
    have hlist : ArgumentList (within m 0) vs es := by
      rcases hes with ⟨rfl, rfl⟩ | hes
      · exact .none
      · exact .some hes (hlength ▸ hn)
    refine ⟨_, .call hc (Token.of_sign_word hl).1 hlist ((Token.of_sign_word hr).1.trans hk), ?_⟩
    simp [Expr.respell, hsame, hargsame, Token.mark_atStart hr]

/-- No arguments are written back as nothing, and some as a phrase that spells them. -/
theorem exists_argumentList : ∀ {es : List Expr}, argsShaped es → ∀ {ts : List Token} {m : Nat},
    ts.map Token.sign = argsFlatten es → nestingSteps * (ts.length + 1) ≤ m →
      ∃ es', (ts = [] ∧ es' = [] ∨ Arguments (within m 0) ts es') ∧
        argsRespell .atStart es' = argsRespell .atStart es ∧ es.length = es'.length
  | [], _, ts, m, hts, _ => ⟨[], .inl ⟨List.map_eq_nil_iff.mp hts, rfl⟩, rfl, rfl⟩
  | e :: es, ⟨he, hes⟩, ts, m, hts, hm => by
    obtain ⟨us, vs, rfl, hus, hvs⟩ := List.map_eq_append_iff.mp hts
    simp only [List.length_append, nestingSteps_eq] at hm
    obtain ⟨a, ha, hsame⟩ := (exists_phrase he hus (m := m - nestingSteps)
      (by rw [nestingSteps_eq]; omega)).loosen (Precedence.assignment_le _)
    have ha : (within m 0).expr us a := by
      rw [within_of_pos (by omega)]
      exact ha
    cases es with
    | nil =>
      obtain rfl := List.map_eq_nil_iff.mp hvs
      exact ⟨[a], .inr (by simpa using Arguments.last ha), by simp [argsRespell, hsame], rfl⟩
    | cons e' es =>
      obtain ⟨comma, ws, rfl, hc, hws⟩ := List.map_eq_cons_iff.mp hvs
      simp only [List.length_cons] at hm
      obtain ⟨as, has, hsames, hlength⟩ := exists_argumentList hes hws (m := m)
        (by rw [nestingSteps_eq]; omega)
      rcases has with ⟨-, rfl⟩ | has
      · cases hlength
      · refine ⟨a :: as, .inr (.more ha (Token.of_sign_word hc).1 has), ?_, by simp [hlength]⟩
        rw [argsRespell, hsame, hsames]
        rfl

end

/-! ### Whole texts -/

/-- An expression that is a whole text is the tree that its tokens are written back from, and the
tokens of a tree of the shape are read as that tree, for its marks are placed by the tokens. The
limits are to leave steps for the nesting. -/
theorem parseExpression?_is_flattening (limits : Limits) :
    (∀ (source : String) (tree : Expr), parseExpression? limits (scan source).tokens = some tree →
      ∃ ts e, (scan source).tokens = ts ++ [e] ∧ e.kind = .eof ∧
        ts.map Token.sign = tree.flatten ∧ tree.Shaped) ∧
    ∀ (tree : Expr) (ts : List Token) (e : Token), tree.Shaped → ts.map Token.sign = tree.flatten →
      e.kind = .eof → nestingSteps * (ts.length + 1) ≤ limits.steps →
        ∃ tree', parseExpression? limits (ts ++ [e]) = some tree' ∧
          tree'.respell .atStart = tree.respell .atStart := by
  constructor
  · intro source tree h
    obtain ⟨ts, e, htokens, he, hts⟩ := standard_scan source
    rw [htokens] at h
    have hphrase := assignment_of_parseExpression? (fun t ht => (hts t ht).2) he h
    have hflat := hphrase.flat (faithful_within _ _) fun t ht => (hts t ht).1
    exact ⟨ts, e, htokens, he, hflat.flatten, hflat.shaped⟩
  · intro tree ts e hshaped hts he hm
    have hm : nestingSteps * ts.length ≤ limits.steps := by
      rw [nestingSteps_eq] at hm ⊢
      omega
    obtain ⟨tree', hphrase, hsame⟩ := (exists_phrase hshaped hts hm).loosen (Precedence.assignment_le _)
    exact ⟨tree', parseExpression?_of_assignment he hphrase, hsame⟩

/-- A difference of three names leans to the left. -/
theorem parseExpression?_leans_left :
    let a : Token := ⟨.identifier, "a", .nil, 0⟩
    let b : Token := ⟨.identifier, "b", .nil, 2⟩
    let c : Token := ⟨.identifier, "c", .nil, 4⟩
    let minus : Token := ⟨.minus, "-", .nil, 1⟩
    let name (t : Token) : Expr := .variable (.free t.mark)
    let tree : Expr := .binary (.binary (name a) minus.mark (name b)) minus.mark (name c)
    ∃ tree', parseExpression? .usual [a, minus, b, minus, c, .eof 5] = some tree' ∧
      tree'.respell .atStart = tree.respell .atStart := by
  intro a b c minus name tree
  have hname (t : Token) (h : t.kind = .identifier) : (name t).Shaped := ⟨h, rfl⟩
  have hinner : (Expr.binary (name a) minus.mark (name b)).Shaped :=
    ⟨.term, rfl, by decide, by decide, hname a rfl, hname b rfl⟩
  have hshaped : tree.Shaped := ⟨.term, rfl, by decide, by decide, hinner, hname c rfl⟩
  exact (parseExpression?_is_flattening .usual).2 tree [a, minus, b, minus, c] (.eof 5) hshaped rfl rfl
    (by decide)

end Lox
