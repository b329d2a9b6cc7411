/-
# Phrases with lists of any length

A call may have more arguments, and a function more parameters, than pass
without a report: each element of a list from the 256th on is reported at its
first token, and the list goes on. Nothing else of the grammar changes. So
these phrases are given as the others are (`Lox.Phrases`), with the reports of
each next to its tokens and its tree; what is reported of a phrase is what is
reported of its parts, in the order of the text.

A phrase of which nothing is reported is one here (`Lox.Phrases.Embeds`), and
spells the same tree. So what is known of these phrases, such as the tokens that
they begin with, is known of those.

Key definitions: `Lox.Lenient`, `Lox.Lenient.pastCeiling`, `Lox.Lenient.Arguments`,
`Lox.Lenient.Parameters`, `Lox.Lenient.Program`, `Lox.Lenient.within`,
`Lox.Phrases.Embeds`, `Lox.Phrases.silent`.
Key theorems: `Lox.Phrases.embeds_silent`, `Lox.Phrases.embeds_within`.
-/
import Lox.Proofs.Grammar.Phrase

namespace Lox

/-- The phrases further in, with what is reported of them and the trees they spell. A statement or
declaration has a flag: it is open, so no `else` may follow. -/
structure Lenient where
  expr : List Token → List Diagnostic → Expr → Prop
  middle : List Token → List Diagnostic → Expr → Prop
  value : List Token → List Diagnostic → Expr → Prop
  ternary : List Token → List Diagnostic → Expr → Prop
  unary : List Token → List Diagnostic → Expr → Prop
  statement : Bool → List Token → List Diagnostic → Stmt → Prop
  declaration : Bool → List Token → List Diagnostic → Stmt → Prop

namespace Lenient

/-- No phrases. -/
def empty : Lenient where
  expr _ _ _ := False
  middle _ _ _ := False
  value _ _ _ := False
  ternary _ _ _ := False
  unary _ _ _ := False
  statement _ _ _ _ := False
  declaration _ _ _ _ := False

/-- The report of a list's element with so many before it, if those are as many as pass. -/
def pastCeiling (message : String) (count : Nat) (ts : List Token) : List Diagnostic :=
  if maxArgs ≤ count then (ts.head?.map fun t => ⟨.grammar, t.offset, message⟩).toList else []

variable (g : Lenient)

/-! ### Expressions -/

inductive Primary : List Token → List Diagnostic → Expr → Prop
  | leaf {ts : List Token} {e : Expr} : Phrases.Primary .empty ts e → Primary ts [] e
  | grouping {l r : Token} {ts : List Token} {ds : List Diagnostic} {e : Expr} :
      l.kind = .leftParen → g.expr ts ds e → r.kind = .rightParen →
      Primary (l :: ts ++ [r]) ds (.grouping e)

/-- One argument or more, with commas between them, behind so many others. -/
inductive Arguments : Nat → List Token → List Diagnostic → List Expr → Prop
  | last {count : Nat} {ts : List Token} {ds : List Diagnostic} {e : Expr} : g.expr ts ds e →
      Arguments count ts (pastCeiling tooManyArguments count ts ++ ds) [e]
  | more {count : Nat} {ts us : List Token} {ds es : List Diagnostic} {e : Expr} {args : List Expr}
      {comma : Token} : g.expr ts ds e → comma.kind = .comma → Arguments (count + 1) us es args →
      Arguments count (ts ++ comma :: us) (pastCeiling tooManyArguments count ts ++ ds ++ es)
        (e :: args)

/-- Nothing, or arguments. -/
inductive ArgumentList : List Token → List Diagnostic → List Expr → Prop
  | none : ArgumentList [] [] []
  | some {ts : List Token} {ds : List Diagnostic} {args : List Expr} : Arguments g 0 ts ds args →
      ArgumentList ts ds args

inductive Call : List Token → List Diagnostic → Expr → Prop
  | primary {ts : List Token} {ds : List Diagnostic} {e : Expr} : Primary g ts ds e → Call ts ds e
  | call {ts us : List Token} {ds es : List Diagnostic} {e : Expr} {args : List Expr} {l r : Token} :
      Call ts ds e → l.kind = .leftParen → ArgumentList g us es args → r.kind = .rightParen →
      Call (ts ++ l :: us ++ [r]) (ds ++ es) (.call e r.mark args)
  | get {ts : List Token} {ds : List Diagnostic} {e : Expr} {dot name : Token} : Call ts ds e →
      dot.kind = .dot → name.kind = .identifier → Call (ts ++ [dot, name]) ds (.get e name.mark)

inductive Unary : List Token → List Diagnostic → Expr → Prop
  | call {ts : List Token} {ds : List Diagnostic} {e : Expr} : Call g ts ds e → Unary ts ds e
  | operator {op : Token} {ts : List Token} {ds : List Diagnostic} {e : Expr} :
      op.kind = .bang ∨ op.kind = .minus → g.unary ts ds e → Unary (op :: ts) ds (.unary op.mark e)

/-- Binary operators of some levels, the loosest first. -/
inductive Binary : List Level → List Token → List Diagnostic → Expr → Prop
  | unary {ts : List Token} {ds : List Diagnostic} {e : Expr} : Unary g ts ds e → Binary [] ts ds e
  | operand {level : Level} {tighter : List Level} {ts : List Token} {ds : List Diagnostic}
      {e : Expr} : Binary tighter ts ds e → Binary (level :: tighter) ts ds e
  | operator {level : Level} {tighter : List Level} {ts us : List Token} {ds es : List Diagnostic}
      {l r : Expr} {op : Token} : Binary (level :: tighter) ts ds l → op.kind ∈ level.ops →
      Binary tighter us es r →
      Binary (level :: tighter) (ts ++ op :: us) (ds ++ es) (level.node l op.mark r)

inductive Ternary : List Token → List Diagnostic → Expr → Prop
  | binary {ts : List Token} {ds : List Diagnostic} {e : Expr} : Binary g levels ts ds e →
      Ternary ts ds e
  | choice {ts us vs : List Token} {ds es fs : List Diagnostic} {cond yes no : Expr}
      {question colon : Token} : Binary g levels ts ds cond → question.kind = .question →
      g.middle us es yes → colon.kind = .colon → g.ternary vs fs no →
      Ternary (ts ++ question :: us ++ colon :: vs) (ds ++ es ++ fs) (.ternary cond yes no)

inductive Assignment : List Token → List Diagnostic → Expr → Prop
  | ternary {ts : List Token} {ds : List Diagnostic} {e : Expr} : Ternary g ts ds e →
      Assignment ts ds e
  | name {t equal : Token} {ts : List Token} {ds : List Diagnostic} {e : Expr} :
      t.kind = .identifier → equal.kind = .equal → g.value ts ds e →
      Assignment (t :: equal :: ts) ds (.assign (.free t.mark) e)
  | property {ts us : List Token} {ds es : List Diagnostic} {object e : Expr}
      {dot name equal : Token} : Call g ts ds object → dot.kind = .dot → name.kind = .identifier →
      equal.kind = .equal → g.value us es e →
      Assignment (ts ++ dot :: name :: equal :: us) (ds ++ es) (.set object name.mark e)

/-! ### Statements -/

/-- An expression, or none. -/
inductive OptionalExpr : List Token → List Diagnostic → Option Expr → Prop
  | none : OptionalExpr [] [] none
  | some {ts : List Token} {ds : List Diagnostic} {e : Expr} : Assignment g ts ds e →
      OptionalExpr ts ds (some e)

inductive ExprStmt : List Token → List Diagnostic → Stmt → Prop
  | mk {ts : List Token} {ds : List Diagnostic} {e : Expr} {semi : Token} : Assignment g ts ds e →
      semi.kind = .semicolon → ExprStmt (ts ++ [semi]) ds (.expr e)

/-- A variable declaration behind its keyword. -/
inductive VarDecl : List Token → List Diagnostic → Stmt → Prop
  | bare {name semi : Token} : name.kind = .identifier → semi.kind = .semicolon →
      VarDecl [name, semi] [] (.var name.mark none)
  | initialized {name equal semi : Token} {ts : List Token} {ds : List Diagnostic} {e : Expr} :
      name.kind = .identifier → equal.kind = .equal → Assignment g ts ds e →
      semi.kind = .semicolon → VarDecl (name :: equal :: ts ++ [semi]) ds (.var name.mark (some e))

/-- Statements in a row. -/
inductive Row (phrase : Bool → List Token → List Diagnostic → Stmt → Prop) :
    List Token → List Diagnostic → List Stmt → Prop
  | nil : Row phrase [] [] []
  | cons {isOpen : Bool} {ts us : List Token} {ds es : List Diagnostic} {s : Stmt}
      {ss : List Stmt} : phrase isOpen ts ds s → Row phrase us es ss →
      Row phrase (ts ++ us) (ds ++ es) (s :: ss)

/-- One parameter or more, with commas between them, behind so many others. -/
inductive Parameters : Nat → List Token → List Diagnostic → List Mark → Prop
  | last {count : Nat} {t : Token} : t.kind = .identifier →
      Parameters count [t] (pastCeiling tooManyParameters count [t]) [t.mark]
  | more {count : Nat} {t comma : Token} {ts : List Token} {ds : List Diagnostic}
      {ms : List Mark} : t.kind = .identifier → comma.kind = .comma →
      Parameters (count + 1) ts ds ms → Parameters count (t :: comma :: ts)
        (pastCeiling tooManyParameters count [t] ++ ds) (t.mark :: ms)

/-- Nothing, or parameters. -/
inductive ParameterList : List Token → List Diagnostic → List Mark → Prop
  | none : ParameterList [] [] []
  | some {ts : List Token} {ds : List Diagnostic} {ms : List Mark} : Parameters 0 ts ds ms →
      ParameterList ts ds ms

/-- A function from its name on. -/
inductive Function : List Token → List Diagnostic → Fun → Prop
  | mk {name l r opening closing : Token} {ts us : List Token} {ds es : List Diagnostic}
      {params : List Mark} {body : List Stmt} : name.kind = .identifier → l.kind = .leftParen →
      ParameterList ts ds params → r.kind = .rightParen → opening.kind = .leftBrace →
      Row g.declaration us es body → closing.kind = .rightBrace →
      Function (name :: l :: ts ++ r :: opening :: us ++ [closing]) (ds ++ es)
        ⟨name.mark, params, body⟩

/-- Methods in a row. -/
inductive Methods : List Token → List Diagnostic → List Fun → Prop
  | nil : Methods [] [] []
  | cons {ts us : List Token} {ds es : List Diagnostic} {m : Fun} {ms : List Fun} :
      Function g ts ds m → Methods us es ms → Methods (ts ++ us) (ds ++ es) (m :: ms)

/-- A class from its name on. -/
inductive ClassDecl : List Token → List Diagnostic → Stmt → Prop
  | mk {name opening closing : Token} {ts us : List Token} {ds : List Diagnostic}
      {superclass : Option NameUse} {methods : List Fun} : name.kind = .identifier →
      Phrases.Superclass ts superclass → opening.kind = .leftBrace → Methods g us ds methods →
      closing.kind = .rightBrace →
      ClassDecl (name :: ts ++ opening :: us ++ [closing]) ds
        (.classDecl name.mark superclass methods)

/-- The first clause of a for-loop, with its semicolon. -/
inductive ForInitializer : List Token → List Diagnostic → Option Stmt → Prop
  | none {semi : Token} : semi.kind = .semicolon → ForInitializer [semi] [] none
  | var {t : Token} {ts : List Token} {ds : List Diagnostic} {s : Stmt} : t.kind = .kwVar →
      VarDecl g ts ds s → ForInitializer (t :: ts) ds (some s)
  | expr {ts : List Token} {ds : List Diagnostic} {s : Stmt} : ExprStmt g ts ds s →
      ForInitializer ts ds (some s)

inductive Statement : Bool → List Token → List Diagnostic → Stmt → Prop
  | expr {ts : List Token} {ds : List Diagnostic} {s : Stmt} : ExprStmt g ts ds s →
      Statement false ts ds s
  | print {t semi : Token} {ts : List Token} {ds : List Diagnostic} {e : Expr} :
      t.kind = .kwPrint → Assignment g ts ds e → semi.kind = .semicolon →
      Statement false (t :: ts ++ [semi]) ds (.print e)
  | giveBack {t semi : Token} {ts : List Token} {ds : List Diagnostic} {value : Option Expr} :
      t.kind = .kwReturn → OptionalExpr g ts ds value → semi.kind = .semicolon →
      Statement false (t :: ts ++ [semi]) ds (.giveBack t.mark value)
  | block {opening closing : Token} {ts : List Token} {ds : List Diagnostic} {body : List Stmt} :
      opening.kind = .leftBrace → Row g.declaration ts ds body → closing.kind = .rightBrace →
      Statement false (opening :: ts ++ [closing]) ds (.block body)
  | loop {isOpen : Bool} {t l r : Token} {ts us : List Token} {ds es : List Diagnostic}
      {cond : Expr} {body : Stmt} : t.kind = .kwWhile → l.kind = .leftParen →
      Assignment g ts ds cond → r.kind = .rightParen → g.statement isOpen us es body →
      Statement isOpen (t :: l :: ts ++ r :: us) (ds ++ es) (.loop cond body)
  | branch {isOpen : Bool} {t l r : Token} {ts us : List Token} {ds es : List Diagnostic}
      {cond : Expr} {yes : Stmt} : t.kind = .kwIf → l.kind = .leftParen →
      Assignment g ts ds cond → r.kind = .rightParen → g.statement isOpen us es yes →
      Statement true (t :: l :: ts ++ r :: us) (ds ++ es) (.branch cond yes none)
  | branchElse {isOpen : Bool} {t l r other : Token} {ts us vs : List Token}
      {ds es fs : List Diagnostic} {cond : Expr} {yes no : Stmt} : t.kind = .kwIf →
      l.kind = .leftParen → Assignment g ts ds cond → r.kind = .rightParen →
      g.statement false us es yes → other.kind = .kwElse → g.statement isOpen vs fs no →
      Statement isOpen (t :: l :: ts ++ r :: us ++ other :: vs) (ds ++ es ++ fs)
        (.branch cond yes (some no))
  | forLoop {isOpen : Bool} {t l semi r : Token} {ts us vs ws : List Token}
      {ds es fs hs : List Diagnostic} {initializer : Option Stmt} {cond increment : Option Expr}
      {body : Stmt} : t.kind = .kwFor → l.kind = .leftParen → ForInitializer g ts ds initializer →
      OptionalExpr g us es cond → semi.kind = .semicolon → OptionalExpr g vs fs increment →
      r.kind = .rightParen → g.statement isOpen ws hs body →
      Statement isOpen (t :: l :: ts ++ us ++ semi :: vs ++ r :: ws) (ds ++ es ++ fs ++ hs)
        (Lox.forLoop initializer cond increment body)

inductive Declaration : Bool → List Token → List Diagnostic → Stmt → Prop
  | classDecl {t : Token} {ts : List Token} {ds : List Diagnostic} {s : Stmt} :
      t.kind = .kwClass → ClassDecl g ts ds s → Declaration false (t :: ts) ds s
  | function {t : Token} {ts : List Token} {ds : List Diagnostic} {f : Fun} : t.kind = .kwFun →
      Function g ts ds f → Declaration false (t :: ts) ds (.function f)
  | var {t : Token} {ts : List Token} {ds : List Diagnostic} {s : Stmt} : t.kind = .kwVar →
      VarDecl g ts ds s → Declaration false (t :: ts) ds s
  | statement {isOpen : Bool} {ts : List Token} {ds : List Diagnostic} {s : Stmt} :
      Statement g isOpen ts ds s → Declaration isOpen ts ds s

/-- The declarations of a program. -/
def Program : List Token → List Diagnostic → List Stmt → Prop := Row (Declaration g)

/-- The phrases with so many steps left, of which some are spent on the way in. -/
def within : Nat → Nat → Lenient
  | 0, _ => empty
  | steps + 1, spent + 1 => within steps spent
  | steps + 1, 0 =>
    { expr := Assignment (within steps (nestingSteps - 1))
      middle := Assignment (within steps 2)
      value := Assignment (within steps 0)
      ternary := Ternary (within steps 0)
      unary := Unary (within steps 0)
      statement := Statement (within steps 1)
      declaration := Declaration (within steps 2) }

/-! ### How phrases begin -/

section

open Phrases

variable {g} {ts : List Token} {ds : List Diagnostic} {e : Expr} {s : Stmt} {p : TokenKind → Bool}

theorem Primary.begins (h : Primary g ts ds e) : Begins beginsCall ts := by
  cases h with
  | leaf h => exact h.begins
  | grouping h => exact .cons (by rw [h]; rfl) _

theorem Call.begins (h : Call g ts ds e) : Begins beginsCall ts := by
  induction h with
  | primary h => exact h.begins
  | call _ _ _ _ ih => exact (ih.append _).append _
  | get _ _ _ ih => exact ih.append _

theorem Unary.begins (h : Unary g ts ds e) : Begins beginsExpr ts := by
  cases h with
  | call h => exact h.begins.mono fun k hk => by simp [beginsExpr, hk]
  | operator h => rcases h with h | h <;> exact .cons (by simp [h, beginsExpr]) _

theorem Binary.begins {ls : List Level} (h : Binary g ls ts ds e) : Begins beginsExpr ts := by
  induction h with
  | unary h => exact h.begins
  | operand _ ih => exact ih
  | operator _ _ _ ih => exact ih.append _

theorem Ternary.begins (h : Ternary g ts ds e) : Begins beginsExpr ts := by
  cases h with
  | binary h => exact h.begins
  | choice h => exact (h.begins.append _).append _

theorem Assignment.begins (h : Assignment g ts ds e) : Begins beginsExpr ts := by
  cases h with
  | ternary h => exact h.begins
  | name h => exact .cons (by simp [h, beginsExpr, beginsCall]) _
  | property h => exact (h.begins.mono fun k hk => by simp [beginsExpr, hk]).append _

theorem Arguments.begins {count : Nat} {args : List Expr}
    (hg : ∀ ts ds e, g.expr ts ds e → Begins p ts) (h : Arguments g count ts ds args) :
    Begins p ts := by
  cases h with
  | last h => exact hg _ _ _ h
  | more h => exact (hg _ _ _ h).append _

theorem Arguments.length_le {count : Nat} {args : List Expr} (h : Arguments g count ts ds args) :
    args.length ≤ ts.length + 1 := by
  induction h with
  | last => simp
  | more =>
    simp only [List.length_append, List.length_cons]
    omega

theorem Parameters.begins {count : Nat} {ms : List Mark} (h : Parameters count ts ds ms) :
    Begins (· = .identifier) ts := by
  cases h with
  | last h | more h => exact .cons (by simp [h]) _

theorem Parameters.length_le {count : Nat} {ms : List Mark} (h : Parameters count ts ds ms) :
    ms.length ≤ ts.length := by
  induction h with
  | last => simp
  | more =>
    simp only [List.length_cons]
    omega

theorem Function.begins {f : Fun} (h : Function g ts ds f) : Begins (· = .identifier) ts := by
  cases h with
  | mk h => exact .cons (by simp [h]) _

theorem Methods.length_le {ms : List Fun} (h : Methods g ts ds ms) : ms.length ≤ ts.length := by
  induction h with
  | nil => simp
  | cons h _ ih =>
    obtain ⟨t, us, rfl, -⟩ := h.begins
    simp only [List.length_append, List.length_cons]
    omega

theorem ExprStmt.begins (h : ExprStmt g ts ds s) : Begins beginsExpr ts := by
  cases h with
  | mk h => exact h.begins.append _

theorem Statement.begins {isOpen : Bool} (h : Statement g isOpen ts ds s) :
    Begins beginsStatement ts := by
  cases h with
  | expr h => exact h.begins.mono fun k hk => by simp [beginsStatement, hk]
  | print h | giveBack h | block h | loop h | branch h | branchElse h | forLoop h =>
    exact .cons (by rw [h]; rfl) _

theorem Declaration.begins {isOpen : Bool} (h : Declaration g isOpen ts ds s) :
    Begins beginsDeclaration ts := by
  cases h with
  | classDecl h | function h | var h => exact .cons (by rw [h]; rfl) _
  | statement h => exact h.begins.mono fun k hk => by simp [beginsDeclaration, hk]

section Row

variable {phrase : Bool → List Token → List Diagnostic → Stmt → Prop} {ss : List Stmt}

/-- Without its reports, a row is one of the phrases without theirs. -/
theorem Row.forget (h : Row phrase ts ds ss) :
    Phrases.Row (fun isOpen ts s => ∃ ds, phrase isOpen ts ds s) ts ss := by
  induction h with
  | nil => exact .nil
  | cons h _ ih => exact .cons ⟨_, h⟩ ih

variable (hg : ∀ isOpen ts ds s, phrase isOpen ts ds s → Begins p ts)
include hg

theorem Row.begins (h : Row phrase ts ds ss) : ts = [] ∨ Begins p ts :=
  h.forget.begins fun isOpen ts s ⟨ds, hs⟩ => hg isOpen ts ds s hs

theorem Row.length_le (h : Row phrase ts ds ss) : ss.length ≤ ts.length :=
  h.forget.length_le fun isOpen ts s ⟨ds, hs⟩ => hg isOpen ts ds s hs

end Row

end

/-! ### Ceilings -/

theorem pastCeiling_of_lt {message : String} {count : Nat} {ts : List Token} (h : count < maxArgs) :
    pastCeiling message count ts = [] :=
  if_neg (Nat.not_le.mpr h)

theorem pastCeiling_of_le {message : String} {count : Nat} {t : Token} {ts : List Token}
    (h : maxArgs ≤ count) :
    pastCeiling message count (t :: ts) = [⟨.grammar, t.offset, message⟩] :=
  if_pos h

end Lenient

/-! ### Phrases of which nothing is reported -/

namespace Phrases

/-- The phrases further in are among the lenient ones, and nothing is reported of them. -/
structure Embeds (g : Phrases) (l : Lenient) : Prop where
  expr : ∀ ts e, g.expr ts e → l.expr ts [] e
  middle : ∀ ts e, g.middle ts e → l.middle ts [] e
  value : ∀ ts e, g.value ts e → l.value ts [] e
  ternary : ∀ ts e, g.ternary ts e → l.ternary ts [] e
  unary : ∀ ts e, g.unary ts e → l.unary ts [] e
  statement : ∀ isOpen ts s, g.statement isOpen ts s → l.statement isOpen ts [] s
  declaration : ∀ isOpen ts s, g.declaration isOpen ts s → l.declaration isOpen ts [] s

/-- The same phrases, with nothing reported of them. -/
def silent (g : Phrases) : Lenient where
  expr ts ds e := ds = [] ∧ g.expr ts e
  middle ts ds e := ds = [] ∧ g.middle ts e
  value ts ds e := ds = [] ∧ g.value ts e
  ternary ts ds e := ds = [] ∧ g.ternary ts e
  unary ts ds e := ds = [] ∧ g.unary ts e
  statement isOpen ts ds s := ds = [] ∧ g.statement isOpen ts s
  declaration isOpen ts ds s := ds = [] ∧ g.declaration isOpen ts s

theorem embeds_silent (g : Phrases) : g.Embeds g.silent :=
  ⟨fun _ _ h => ⟨rfl, h⟩, fun _ _ h => ⟨rfl, h⟩, fun _ _ h => ⟨rfl, h⟩, fun _ _ h => ⟨rfl, h⟩,
    fun _ _ h => ⟨rfl, h⟩, fun _ _ _ h => ⟨rfl, h⟩, fun _ _ _ h => ⟨rfl, h⟩⟩

variable {g : Phrases} {l : Lenient} {ts : List Token} {e : Expr} {s : Stmt}

theorem Primary.lenient (hg : g.Embeds l) (h : Primary g ts e) : l.Primary ts [] e := by
  cases h with
  | no h => exact .leaf (.no h)
  | yes h => exact .leaf (.yes h)
  | nil h => exact .leaf (.nil h)
  | constant h => exact .leaf (.constant h)
  | name h => exact .leaf (.name h)
  | receiver h => exact .leaf (.receiver h)
  | superMethod h hd hn => exact .leaf (.superMethod h hd hn)
  | grouping hl h hr => exact .grouping hl (hg.expr _ _ h) hr

theorem Arguments.lenient (hg : g.Embeds l) {args : List Expr} (h : Arguments g ts args) :
    ∀ count, count + args.length ≤ maxArgs → l.Arguments count ts [] args := by
  induction h with
  | @last ts e h =>
    intro count hn
    have hlast := @Lenient.Arguments.last l count ts [] e (hg.expr _ _ h)
    rwa [Lenient.pastCeiling_of_lt (show count < maxArgs from hn)] at hlast
  | @more ts us e es comma h hc _ ih =>
    intro count hn
    rw [List.length_cons] at hn
    have hmore := Lenient.Arguments.more (hg.expr _ _ h) hc (ih (count + 1) (by omega))
    rwa [Lenient.pastCeiling_of_lt (by omega)] at hmore

theorem ArgumentList.lenient (hg : g.Embeds l) {args : List Expr} (h : ArgumentList g ts args) :
    l.ArgumentList ts [] args := by
  cases h with
  | none => exact .none
  | some h hn => exact .some (h.lenient hg 0 (by omega))

theorem Call.lenient (hg : g.Embeds l) (h : Call g ts e) : l.Call ts [] e := by
  induction h with
  | primary h => exact .primary (h.lenient hg)
  | call _ hl ha hr ih => exact .call ih hl (ha.lenient hg) hr
  | get _ hd hn ih => exact .get ih hd hn

theorem Unary.lenient (hg : g.Embeds l) (h : Unary g ts e) : l.Unary ts [] e := by
  cases h with
  | call h => exact .call (h.lenient hg)
  | operator ho h => exact .operator ho (hg.unary _ _ h)

theorem Binary.lenient (hg : g.Embeds l) {ls : List Level} (h : Binary g ls ts e) :
    l.Binary ls ts [] e := by
  induction h with
  | unary h => exact .unary (h.lenient hg)
  | operand _ ih => exact .operand ih
  | operator _ ho _ ihl ihr => exact .operator ihl ho ihr

theorem Ternary.lenient (hg : g.Embeds l) (h : Ternary g ts e) : l.Ternary ts [] e := by
  cases h with
  | binary h => exact .binary (h.lenient hg)
  | choice h hq hy hc hn =>
    exact .choice (h.lenient hg) hq (hg.middle _ _ hy) hc (hg.ternary _ _ hn)

theorem Assignment.lenient (hg : g.Embeds l) (h : Assignment g ts e) : l.Assignment ts [] e := by
  cases h with
  | ternary h => exact .ternary (h.lenient hg)
  | name hn he hv => exact .name hn he (hg.value _ _ hv)
  | property h hd hn he hv => exact .property (h.lenient hg) hd hn he (hg.value _ _ hv)

theorem OptionalExpr.lenient (hg : g.Embeds l) {o : Option Expr} (h : OptionalExpr g ts o) :
    l.OptionalExpr ts [] o := by
  cases h with
  | none => exact .none
  | some h => exact .some (h.lenient hg)

theorem ExprStmt.lenient (hg : g.Embeds l) (h : ExprStmt g ts s) : l.ExprStmt ts [] s := by
  cases h with
  | mk h hs => exact .mk (h.lenient hg) hs

theorem VarDecl.lenient (hg : g.Embeds l) (h : VarDecl g ts s) : l.VarDecl ts [] s := by
  cases h with
  | bare hn hs => exact .bare hn hs
  | initialized hn he h hs => exact .initialized hn he (h.lenient hg) hs

theorem Row.lenient {phrase : Bool → List Token → Stmt → Prop}
    {larger : Bool → List Token → List Diagnostic → Stmt → Prop} {ss : List Stmt}
    (hp : ∀ isOpen ts s, phrase isOpen ts s → larger isOpen ts [] s) (h : Row phrase ts ss) :
    Lenient.Row larger ts [] ss := by
  induction h with
  | nil => exact .nil
  | cons h _ ih => exact .cons (hp _ _ _ h) ih

theorem Parameters.lenient {ms : List Mark} (h : Parameters ts ms) :
    ∀ count, count + ms.length ≤ maxArgs → Lenient.Parameters count ts [] ms := by
  induction h with
  | @last t h =>
    intro count hn
    have hlast := @Lenient.Parameters.last count t h
    rwa [Lenient.pastCeiling_of_lt (show count < maxArgs from hn)] at hlast
  | @more t comma ts ms h hc _ ih =>
    intro count hn
    rw [List.length_cons] at hn
    have hmore := Lenient.Parameters.more h hc (ih (count + 1) (by omega))
    rwa [Lenient.pastCeiling_of_lt (by omega)] at hmore

theorem ParameterList.lenient {ms : List Mark} (h : ParameterList ts ms) :
    Lenient.ParameterList ts [] ms := by
  cases h with
  | none => exact .none
  | some h hn => exact .some (h.lenient 0 (by omega))

theorem Function.lenient (hg : g.Embeds l) {f : Fun} (h : Function g ts f) :
    l.Function ts [] f := by
  cases h with
  | mk hn hl hps hr ho hb hc =>
    exact .mk hn hl hps.lenient hr ho (hb.lenient hg.declaration) hc

theorem Methods.lenient (hg : g.Embeds l) {ms : List Fun} (h : Methods g ts ms) :
    l.Methods ts [] ms := by
  induction h with
  | nil => exact .nil
  | cons h _ ih => exact .cons (h.lenient hg) ih

theorem ClassDecl.lenient (hg : g.Embeds l) (h : ClassDecl g ts s) : l.ClassDecl ts [] s := by
  cases h with
  | mk hn hs ho hms hc => exact .mk hn hs ho (hms.lenient hg) hc

theorem ForInitializer.lenient (hg : g.Embeds l) {o : Option Stmt} (h : ForInitializer g ts o) :
    l.ForInitializer ts [] o := by
  cases h with
  | none hs => exact .none hs
  | var ht h => exact .var ht (h.lenient hg)
  | expr h => exact .expr (h.lenient hg)

theorem Statement.lenient (hg : g.Embeds l) {isOpen : Bool} (h : Statement g isOpen ts s) :
    l.Statement isOpen ts [] s := by
  cases h with
  | expr h => exact .expr (h.lenient hg)
  | print ht h hs => exact .print ht (h.lenient hg) hs
  | giveBack ht h hs => exact .giveBack ht (h.lenient hg) hs
  | block ho h hc => exact .block ho (h.lenient hg.declaration) hc
  | loop ht hl h hr hb => exact .loop ht hl (h.lenient hg) hr (hg.statement _ _ _ hb)
  | branch ht hl h hr hy => exact .branch ht hl (h.lenient hg) hr (hg.statement _ _ _ hy)
  | branchElse ht hl h hr hy ho hn =>
    exact .branchElse ht hl (h.lenient hg) hr (hg.statement _ _ _ hy) ho (hg.statement _ _ _ hn)
  | forLoop ht hl hini hc hs hinc hr hb =>
    exact .forLoop ht hl (hini.lenient hg) (hc.lenient hg) hs (hinc.lenient hg) hr
      (hg.statement _ _ _ hb)

theorem Declaration.lenient (hg : g.Embeds l) {isOpen : Bool} (h : Declaration g isOpen ts s) :
    l.Declaration isOpen ts [] s := by
  cases h with
  | classDecl ht h => exact .classDecl ht (h.lenient hg)
  | function ht h => exact .function ht (h.lenient hg)
  | var ht h => exact .var ht (h.lenient hg)
  | statement h => exact .statement (h.lenient hg)

/-! ### How they begin -/

theorem Call.begins (h : Call g ts e) : Begins beginsCall ts := (h.lenient g.embeds_silent).begins

theorem Unary.begins (h : Unary g ts e) : Begins beginsExpr ts := (h.lenient g.embeds_silent).begins

theorem Ternary.begins (h : Ternary g ts e) : Begins beginsExpr ts :=
  (h.lenient g.embeds_silent).begins

theorem Assignment.begins (h : Assignment g ts e) : Begins beginsExpr ts :=
  (h.lenient g.embeds_silent).begins

theorem Function.begins {f : Fun} (h : Function g ts f) : Begins (· = .identifier) ts :=
  (h.lenient g.embeds_silent).begins

theorem Methods.begins {ms : List Fun} (h : Methods g ts ms) :
    ts = [] ∨ Begins (· = .identifier) ts := by
  cases h with
  | nil => exact .inl rfl
  | cons h => exact .inr (h.begins.append _)

theorem Methods.length_le {ms : List Fun} (h : Methods g ts ms) : ms.length ≤ ts.length :=
  (h.lenient g.embeds_silent).length_le

theorem Statement.begins {isOpen : Bool} (h : Statement g isOpen ts s) : Begins beginsStatement ts :=
  (h.lenient g.embeds_silent).begins

theorem Declaration.begins {isOpen : Bool} (h : Declaration g isOpen ts s) :
    Begins beginsDeclaration ts :=
  (h.lenient g.embeds_silent).begins

/-! ### Phrases within so many steps -/

theorem embeds_within : ∀ steps spent, (within steps spent).Embeds (Lenient.within steps spent)
  | 0, _ => by
    rw [within]
    exact ⟨by rintro _ _ ⟨⟩, by rintro _ _ ⟨⟩, by rintro _ _ ⟨⟩, by rintro _ _ ⟨⟩, by rintro _ _ ⟨⟩,
      by rintro _ _ _ ⟨⟩, by rintro _ _ _ ⟨⟩⟩
  | steps + 1, spent + 1 => by
    rw [within, Lenient.within]
    exact embeds_within steps spent
  | steps + 1, 0 => by
    rw [within, Lenient.within]
    have h (spent : Nat) := embeds_within steps spent
    exact ⟨fun _ _ => Assignment.lenient (h _), fun _ _ => Assignment.lenient (h _),
      fun _ _ => Assignment.lenient (h _), fun _ _ => Ternary.lenient (h _),
      fun _ _ => Unary.lenient (h _), fun _ _ _ => Statement.lenient (h _),
      fun _ _ _ => Declaration.lenient (h _)⟩

end Phrases

end Lox
