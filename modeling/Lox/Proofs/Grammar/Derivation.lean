/-
# The grammar and its derivations

The productions as a table, each symbol with a rule over tokens and symbols,
and what is derived from a rule. An optional part is there once at most; of
the arguments of a call and the parameters of a function there are as many as
pass without a report. A conditional is ambiguous here: nothing says to which
`if` an `else` belongs.

Every phrase is derived from its symbol, whatever the steps it took. That a
derivation makes phrases takes enough steps for its nesting; so many for each
of its tokens suffice.

Key definitions: `Lox.Symbol`, `Lox.Rule`, `Lox.production`, `Lox.Derives`,
`Lox.Parses`.
Key theorems: `Lox.Derives.of_program`, `Lox.Derives.parses`.
-/
import Lox.Proofs.Grammar.Phrase

namespace Lox

/-! ### Productions -/

/-- What has a production. -/
inductive Symbol where
  | program | declaration | classDecl | funDecl | function | varDecl
  | statement | exprStmt | forStmt | ifStmt | printStmt | returnStmt | whileStmt | block
  | expression | assignment | ternary | logicOr | logicAnd | equality | comparison | term | factor
  | unary | call | primary | arguments | parameters
  deriving DecidableEq, Repr

/-- The right side of a production. -/
inductive Rule where
  | empty
  | token (kind : TokenKind)
  | symbol (s : Symbol)
  | seq (first second : Rule)
  | alt (left right : Rule)
  | star (rule : Rule)
  | upTo (count : Nat) (rule : Rule)

namespace Rule

/-- One rule after the other. -/
def all : List Rule → Rule
  | [] => empty
  | [f] => f
  | f :: fs => seq f (all fs)

/-- One of some forms. -/
def any : List Rule → Rule
  | [] => empty
  | [f] => f
  | f :: fs => alt f (any fs)

/-- A rule, or nothing. -/
def opt (f : Rule) : Rule := alt empty f

/-- An operand, and any number of operators each with another operand. -/
def operators (ops : List TokenKind) (operand : Symbol) : Rule :=
  seq (symbol operand) (star (seq (any (ops.map token)) (symbol operand)))

end Rule

open Rule

def production : Symbol → Rule
  | .program => seq (star (symbol .declaration)) (token .eof)
  | .declaration => any [symbol .classDecl, symbol .funDecl, symbol .varDecl, symbol .statement]
  | .classDecl =>
    all [token .kwClass, token .identifier, opt (all [token .less, token .identifier]),
      token .leftBrace, star (symbol .function), token .rightBrace]
  | .funDecl => all [token .kwFun, symbol .function]
  | .function =>
    all [token .identifier, token .leftParen, opt (symbol .parameters), token .rightParen,
      symbol .block]
  | .varDecl =>
    all [token .kwVar, token .identifier, opt (all [token .equal, symbol .expression]),
      token .semicolon]
  | .statement =>
    any [symbol .exprStmt, symbol .forStmt, symbol .ifStmt, symbol .printStmt, symbol .returnStmt,
      symbol .whileStmt, symbol .block]
  | .exprStmt => all [symbol .expression, token .semicolon]
  | .forStmt =>
    all [token .kwFor, token .leftParen,
      any [symbol .varDecl, symbol .exprStmt, token .semicolon], opt (symbol .expression),
      token .semicolon, opt (symbol .expression), token .rightParen, symbol .statement]
  | .ifStmt =>
    all [token .kwIf, token .leftParen, symbol .expression, token .rightParen, symbol .statement,
      opt (all [token .kwElse, symbol .statement])]
  | .printStmt => all [token .kwPrint, symbol .expression, token .semicolon]
  | .returnStmt => all [token .kwReturn, opt (symbol .expression), token .semicolon]
  | .whileStmt =>
    all [token .kwWhile, token .leftParen, symbol .expression, token .rightParen, symbol .statement]
  | .block => all [token .leftBrace, star (symbol .declaration), token .rightBrace]
  | .expression => symbol .assignment
  | .assignment =>
    any [all [opt (all [symbol .call, token .dot]), token .identifier, token .equal,
      symbol .assignment], symbol .ternary]
  | .ternary =>
    all [symbol .logicOr,
      opt (all [token .question, symbol .expression, token .colon, symbol .ternary])]
  | .logicOr => operators [.kwOr] .logicAnd
  | .logicAnd => operators [.kwAnd] .equality
  | .equality => operators [.bangEqual, .equalEqual] .comparison
  | .comparison => operators [.greater, .greaterEqual, .less, .lessEqual] .term
  | .term => operators [.minus, .plus] .factor
  | .factor => operators [.slash, .star] .unary
  | .unary => any [all [any [token .bang, token .minus], symbol .unary], symbol .call]
  | .call =>
    all [symbol .primary, star (any
      [all [token .leftParen, opt (symbol .arguments), token .rightParen],
       all [token .dot, token .identifier]])]
  | .primary =>
    any [token .kwTrue, token .kwFalse, token .kwNil, token .number, token .string,
      token .identifier, all [token .leftParen, symbol .expression, token .rightParen],
      token .kwThis, all [token .kwSuper, token .dot, token .identifier]]
  | .arguments =>
    all [symbol .expression, upTo (maxArgs - 1) (all [token .comma, symbol .expression])]
  | .parameters =>
    all [token .identifier, upTo (maxArgs - 1) (all [token .comma, token .identifier])]

/-- The tokens are derived from the rule. -/
inductive Derives : Rule → List Token → Prop
  | empty : Derives .empty []
  | token {t : Token} {kind : TokenKind} : t.kind = kind → Derives (.token kind) [t]
  | symbol {s : Symbol} {ts : List Token} : Derives (production s) ts → Derives (.symbol s) ts
  | seq {f f' : Rule} {ts us : List Token} : Derives f ts → Derives f' us →
      Derives (.seq f f') (ts ++ us)
  | left {f f' : Rule} {ts : List Token} : Derives f ts → Derives (.alt f f') ts
  | right {f f' : Rule} {ts : List Token} : Derives f' ts → Derives (.alt f f') ts
  | done {f : Rule} : Derives (.star f) []
  | again {f : Rule} {ts us : List Token} : Derives f ts → Derives (.star f) us →
      Derives (.star f) (ts ++ us)
  | enough {f : Rule} {n : Nat} : Derives (.upTo n f) []
  | once {f : Rule} {n : Nat} {ts us : List Token} : Derives f ts → Derives (.upTo n f) us →
      Derives (.upTo (n + 1) f) (ts ++ us)

namespace Derives

variable {f : Rule} {ts us : List Token}

theorem of_symbol {s : Symbol} (h : Derives (.symbol s) ts) : Derives (production s) ts := by
  cases h with
  | symbol h => exact h

theorem cast (h : Derives f ts) (he : ts = us) : Derives f us := he ▸ h

theorem cons {t : Token} {kind : TokenKind} (ht : t.kind = kind) (h : Derives f ts) :
    Derives (.seq (.token kind) f) (t :: ts) :=
  .seq (.token ht) h

/-- One more at the end. -/
theorem snoc (h : Derives (.star f) ts) (h' : Derives f us) : Derives (.star f) (ts ++ us) := by
  suffices ∀ g, Derives g ts → g = .star f → Derives (.star f) (ts ++ us) from this _ h rfl
  intro g hg
  induction hg with
  | done =>
    rintro ⟨⟩
    exact (again h' .done).cast (by simp)
  | again hts _ _ ih =>
    intro he
    obtain rfl := Rule.star.inj he
    exact (again hts (ih (by assumption) rfl)).cast (by simp)
  | _ => intro he; cases he

theorem any_of_mem {ks : List TokenKind} {t : Token} (h : t.kind ∈ ks) :
    Derives (.any (ks.map .token)) [t] := by
  induction ks with
  | nil => cases h
  | cons k ks ih =>
    cases ks with
    | nil => exact .token (by simpa using h)
    | cons k' ks =>
      rcases List.mem_cons.mp h with h | h
      · exact .left (.token h)
      · exact .right (ih h)

end Derives

/-- The symbol for the binary operators of some levels. -/
inductive Tier : List Level → Symbol → Prop
  | unary : Tier [] .unary
  | operators {level : Level} {tighter : List Level} {s operand : Symbol} : Tier tighter operand →
      production s = .operators level.ops operand → Tier (level :: tighter) s

theorem tier_levels : Tier levels .logicOr :=
  .operators (.operators (.operators (.operators (.operators (.operators .unary rfl) rfl) rfl) rfl)
    rfl) rfl

/-! ### Phrases are derived -/

namespace Phrases

/-- The phrases further in are derived. -/
structure Derived (g : Phrases) : Prop where
  expr : ∀ ts e, g.expr ts e → Derives (.symbol .expression) ts
  middle : ∀ ts e, g.middle ts e → Derives (.symbol .expression) ts
  value : ∀ ts e, g.value ts e → Derives (.symbol .assignment) ts
  ternary : ∀ ts e, g.ternary ts e → Derives (.symbol .ternary) ts
  unary : ∀ ts e, g.unary ts e → Derives (.symbol .unary) ts
  statement : ∀ isOpen ts s, g.statement isOpen ts s → Derives (.symbol .statement) ts
  declaration : ∀ isOpen ts s, g.declaration isOpen ts s → Derives (.symbol .declaration) ts

variable {g : Phrases} {ts : List Token} {e : Expr}

theorem Primary.derives (hg : g.Derived) (h : Primary g ts e) : Derives (.symbol .primary) ts := by
  refine .symbol ?_
  cases h with
  | yes h => exact .left (.token h)
  | no h => exact .right (.left (.token h))
  | nil h => exact .right (.right (.left (.token h)))
  | constant h =>
    rcases h with h | h
    · exact .right (.right (.right (.left (.token h))))
    · exact .right (.right (.right (.right (.left (.token h)))))
  | name h => exact .right (.right (.right (.right (.right (.left (.token h))))))
  | grouping hl h hr =>
    exact .right (.right (.right (.right (.right (.right (.left
      (.cons hl (.seq (hg.expr _ _ h) (.token hr)))))))))
  | receiver h => exact .right (.right (.right (.right (.right (.right (.right (.left (.token h))))))))
  | superMethod h hd hn =>
    exact .right (.right (.right (.right (.right (.right (.right (.right
      (.cons h (.cons hd (.token hn))))))))))

theorem Arguments.derives (hg : g.Derived) {es : List Expr} (h : Arguments g ts es) :
    ∀ n, es.length ≤ n + 1 → Derives (.seq (.symbol .expression)
      (.upTo n (.seq (.token .comma) (.symbol .expression)))) ts := by
  induction h with
  | last h => exact fun n _ => (Derives.seq (hg.expr _ _ h) .enough).cast (by simp)
  | @more ts us e es comma h hc hes ih =>
    intro n hn
    obtain ⟨n, rfl⟩ : ∃ m, n = m + 1 := by
      cases hes <;> simp only [List.length_cons, List.length_nil] at hn <;>
        exact ⟨n - 1, by omega⟩
    cases ih n (by simpa using hn) with
    | @seq _ _ vs ws he hr =>
      exact (Derives.seq (hg.expr _ _ h) (.once (.cons hc he) hr)).cast (by simp)

theorem Call.derives (hg : g.Derived) (h : Call g ts e) : Derives (.symbol .call) ts := by
  have next {ts us : List Token} (h : Derives (.symbol .call) ts)
      (h' : Derives (.any [.all [.token .leftParen, .opt (.symbol .arguments), .token .rightParen],
        .all [.token .dot, .token .identifier]]) us) : Derives (.symbol .call) (ts ++ us) := by
    cases h.of_symbol with
    | seq hp hs => exact .symbol ((Derives.seq hp (hs.snoc h')).cast (by simp))
  induction h with
  | primary h => exact .symbol ((Derives.seq (h.derives hg) .done).cast (by simp))
  | @call ts us e es l r _ hl ha hr ih =>
    have hargs : Derives (.opt (.symbol .arguments)) us := by
      cases ha with
      | none => exact .left .empty
      | some h hn =>
        exact .right (.symbol (h.derives hg _ (by unfold maxArgs at hn ⊢; omega)))
    exact (next ih (.left (.cons hl (.seq hargs (.token hr))))).cast (by simp)
  | get _ hd hn ih => exact next ih (.right (.cons hd (.token hn)))

theorem Unary.derives (hg : g.Derived) (h : Unary g ts e) : Derives (.symbol .unary) ts := by
  refine .symbol ?_
  cases h with
  | call h => exact .right (h.derives hg)
  | @operator op ts e ho h =>
    exact .left (.seq (Derives.any_of_mem (show op.kind ∈ [.bang, .minus] by simpa using ho)) (hg.unary _ _ h))

theorem Binary.derives (hg : g.Derived) {ls : List Level} (h : Binary g ls ts e) :
    ∀ s, Tier ls s → Derives (.symbol s) ts := by
  induction h with
  | unary h =>
    rintro s ⟨⟩
    exact h.derives hg
  | operand _ ih =>
    rintro s (_ | ⟨hs, hp⟩)
    refine .symbol ?_
    rw [hp]
    exact (Derives.seq (ih _ hs) .done).cast (by simp)
  | operator _ ho _ ihl ihr =>
    rintro s (_ | ⟨hs, hp⟩)
    have hl := (ihl s (.operators hs hp)).of_symbol
    refine .symbol ?_
    rw [hp] at hl ⊢
    cases hl with
    | seq h h' =>
      exact (Derives.seq h (h'.snoc (.seq (Derives.any_of_mem ho) (ihr _ hs)))).cast (by simp)

theorem Ternary.derives (hg : g.Derived) (h : Ternary g ts e) : Derives (.symbol .ternary) ts := by
  refine .symbol ?_
  cases h with
  | binary h => exact (Derives.seq (h.derives hg _ tier_levels) (.left .empty)).cast (by simp)
  | choice h hq hy hc hn =>
    exact (Derives.seq (h.derives hg _ tier_levels) (.right (.cons hq (.seq (hg.middle _ _ hy)
      (.cons hc (hg.ternary _ _ hn)))))).cast (by simp)

theorem Assignment.derives (hg : g.Derived) (h : Assignment g ts e) :
    Derives (.symbol .assignment) ts := by
  refine .symbol ?_
  cases h with
  | ternary h => exact .right (h.derives hg)
  | name hn he hv =>
    exact .left (.seq (.left .empty) (.cons hn (.cons he (hg.value _ _ hv))))
  | property h hd hn he hv =>
    exact .left ((Derives.seq (.right (.seq (h.derives hg) (.token hd)))
      (.cons hn (.cons he (hg.value _ _ hv)))).cast (by simp))

theorem Assignment.expression (hg : g.Derived) (h : Assignment g ts e) :
    Derives (.symbol .expression) ts :=
  .symbol (h.derives hg)

theorem OptionalExpr.derives (hg : g.Derived) {o : Option Expr} (h : OptionalExpr g ts o) :
    Derives (.opt (.symbol .expression)) ts := by
  cases h with
  | none => exact .left .empty
  | some h => exact .right (h.expression hg)

theorem ExprStmt.derives (hg : g.Derived) {s : Stmt} (h : ExprStmt g ts s) :
    Derives (.symbol .exprStmt) ts := by
  cases h with
  | mk h hs => exact .symbol (.seq (h.expression hg) (.token hs))

theorem VarDecl.derives (hg : g.Derived) {s : Stmt} {t : Token} (ht : t.kind = .kwVar)
    (h : VarDecl g ts s) : Derives (.symbol .varDecl) (t :: ts) := by
  refine .symbol (.cons ht ?_)
  cases h with
  | bare hn hs => exact .cons hn (.seq (.left .empty) (.token hs))
  | initialized hn he h hs =>
    exact .cons hn (.seq (.right (.cons he (h.expression hg))) (.token hs))

theorem Row.derives {phrase : Bool → List Token → Stmt → Prop} {ss : List Stmt}
    (hp : ∀ isOpen ts s, phrase isOpen ts s → Derives (.symbol .declaration) ts)
    (h : Row phrase ts ss) : Derives (.star (.symbol .declaration)) ts := by
  induction h with
  | nil => exact .done
  | cons h _ ih => exact .again (hp _ _ _ h) ih

theorem block_derives (hg : g.Derived) {body : List Stmt} {l r : Token} (hl : l.kind = .leftBrace)
    (h : Row g.declaration ts body) (hr : r.kind = .rightBrace) :
    Derives (.symbol .block) (l :: ts ++ [r]) :=
  .symbol (.cons hl (.seq (h.derives hg.declaration) (.token hr)))

theorem Parameters.derives {ms : List Mark} (h : Parameters ts ms) :
    ∀ n, ms.length ≤ n + 1 → Derives (.seq (.token .identifier)
      (.upTo n (.seq (.token .comma) (.token .identifier)))) ts := by
  induction h with
  | last h => exact fun n _ => .cons h .enough
  | @more t comma ts ms h hc hms ih =>
    intro n hn
    obtain ⟨n, rfl⟩ : ∃ m, n = m + 1 := by
      cases hms <;> simp only [List.length_cons, List.length_nil] at hn <;>
        exact ⟨n - 1, by omega⟩
    cases ih n (by simpa using hn) with
    | seq he hr => exact .cons h (.once (.cons hc he) hr)

theorem ParameterList.derives {ms : List Mark} (h : ParameterList ts ms) :
    Derives (.opt (.symbol .parameters)) ts := by
  cases h with
  | none => exact .left .empty
  | some h hn => exact .right (.symbol (h.derives _ (by unfold maxArgs at hn ⊢; omega)))

theorem Function.derives (hg : g.Derived) {f : Fun} (h : Function g ts f) :
    Derives (.symbol .function) ts := by
  cases h with
  | @mk name l r opening closing ts us params body hn hl hps hr ho hb hc =>
    exact (Derives.symbol (s := .function) (.cons hn (.cons hl (.seq hps.derives (.cons hr
      (block_derives hg ho hb hc)))))).cast (by simp)

theorem Methods.derives (hg : g.Derived) {ms : List Fun} (h : Methods g ts ms) :
    Derives (.star (.symbol .function)) ts := by
  induction h with
  | nil => exact .done
  | cons h _ ih => exact .again (h.derives hg) ih

theorem Superclass.derives {o : Option NameUse} (h : Superclass ts o) :
    Derives (.opt (.all [.token .less, .token .identifier])) ts := by
  cases h with
  | none => exact .left .empty
  | some hl hs => exact .right (.cons hl (.token hs))

theorem ClassDecl.derives (hg : g.Derived) {s : Stmt} {t : Token} (ht : t.kind = .kwClass)
    (h : ClassDecl g ts s) : Derives (.symbol .classDecl) (t :: ts) := by
  cases h with
  | @mk name opening closing ts us superclass ms hn hs ho hms hc =>
    exact (Derives.symbol (s := .classDecl) (.cons ht (.cons hn (.seq hs.derives (.cons ho
      (.seq (hms.derives hg) (.token hc))))))).cast (by simp)

theorem ForInitializer.derives (hg : g.Derived) {o : Option Stmt} (h : ForInitializer g ts o) :
    Derives (.any [.symbol .varDecl, .symbol .exprStmt, .token .semicolon]) ts := by
  cases h with
  | none hs => exact .right (.right (.token hs))
  | var ht h => exact .left (h.derives hg ht)
  | expr h => exact .right (.left (h.derives hg))

theorem Statement.derives (hg : g.Derived) {isOpen : Bool} {s : Stmt}
    (h : Statement g isOpen ts s) : Derives (.symbol .statement) ts := by
  refine .symbol ?_
  cases h with
  | expr h => exact .left (h.derives hg)
  | print ht h hs =>
    exact .right (.right (.right (.left (.symbol (.cons ht (.seq (h.expression hg) (.token hs)))))))
  | giveBack ht h hs =>
    exact .right (.right (.right (.right (.left (.symbol (.cons ht (.seq (h.derives hg)
      (.token hs))))))))
  | block hl h hr => exact .right (.right (.right (.right (.right (.right (block_derives hg hl h hr))))))
  | loop ht hl h hr hb =>
    exact .right (.right (.right (.right (.right (.left (.symbol (.cons ht (.cons hl
      (.seq (h.expression hg) (.cons hr (hg.statement _ _ _ hb)))))))))))
  | branch ht hl h hr hy =>
    exact .right (.right (.left (.symbol ((Derives.cons ht (.cons hl (.seq (h.expression hg)
      (.cons hr (.seq (hg.statement _ _ _ hy) (.left .empty)))))).cast (by simp)))))
  | branchElse ht hl h hr hy ho hn =>
    exact .right (.right (.left (.symbol ((Derives.cons ht (.cons hl (.seq (h.expression hg)
      (.cons hr (.seq (hg.statement _ _ _ hy) (.right (.cons ho (hg.statement _ _ _ hn)))))))).cast
        (by simp)))))
  | forLoop ht hl hini hc hs hinc hr hb =>
    exact .right (.left (.symbol ((Derives.cons ht (.cons hl (.seq (hini.derives hg)
      (.seq (hc.derives hg) (.cons hs (.seq (hinc.derives hg) (.cons hr
        (hg.statement _ _ _ hb)))))))).cast (by simp))))

theorem Declaration.derives (hg : g.Derived) {isOpen : Bool} {s : Stmt}
    (h : Declaration g isOpen ts s) : Derives (.symbol .declaration) ts := by
  refine .symbol ?_
  cases h with
  | classDecl ht h => exact .left (h.derives hg ht)
  | function ht h => exact .right (.left (.symbol (.cons ht (h.derives hg))))
  | var ht h => exact .right (.right (.left (h.derives hg ht)))
  | statement h => exact .right (.right (.right (h.derives hg)))

theorem derived_within : ∀ steps spent, (within steps spent).Derived
  | 0, _ => by
    rw [within]
    exact ⟨by rintro _ _ ⟨⟩, by rintro _ _ ⟨⟩, by rintro _ _ ⟨⟩, by rintro _ _ ⟨⟩, by rintro _ _ ⟨⟩,
      by rintro _ _ _ ⟨⟩, by rintro _ _ _ ⟨⟩⟩
  | steps + 1, spent + 1 => by
    rw [within]
    exact derived_within steps spent
  | steps + 1, 0 => by
    rw [within]
    have h (spent : Nat) := derived_within steps spent
    exact ⟨fun _ _ => Assignment.expression (h _), fun _ _ => Assignment.expression (h _),
      fun _ _ => Assignment.derives (h _), fun _ _ => Ternary.derives (h _),
      fun _ _ => Unary.derives (h _), fun _ _ _ => Statement.derives (h _),
      fun _ _ _ => Declaration.derives (h _)⟩

end Phrases

open Phrases

/-- Phrases of a program, and an end token, are derived from it. -/
theorem Derives.of_program {steps spent : Nat} {ts : List Token} {e : Token} {ss : List Stmt}
    (he : e.kind = .eof) (h : Program (Phrases.within steps spent) ts ss) :
    Derives (.symbol .program) (ts ++ [e]) :=
  .symbol (.seq (h.derives fun _ _ _ => Declaration.derives (derived_within steps spent)) (.token he))

end Lox
