/-
# Phrases and the trees they spell

Which tokens spell which tree. The phrases of one level of the grammar are
given over the phrases further in (`Lox.Phrases`), as the productions are, so
that they can be counted off step by step (`Lox.Phrases.within`): what a
production reads with so many steps left is a phrase with so many steps left.

A conditional without `else` may not stand before an `else`, and so may no
statement that ends with one. Such a statement is open (the flag of a
statement); every phrase then spells one tree, and an `else` belongs to the
nearest `if`.

Key definitions: `Lox.Phrases`, `Lox.Phrases.Primary`, `Lox.Phrases.Binary`,
`Lox.Phrases.Assignment`, `Lox.Phrases.Statement`, `Lox.Phrases.Declaration`,
`Lox.Phrases.Program`, `Lox.Phrases.within`.
-/
import Lox.Grammar.Program

namespace Lox

/-- The phrases further in, with the trees they spell. A statement or declaration has a flag: it is
open, so no `else` may follow. -/
structure Phrases where
  expr : List Token → Expr → Prop
  middle : List Token → Expr → Prop
  value : List Token → Expr → Prop
  ternary : List Token → Expr → Prop
  unary : List Token → Expr → Prop
  statement : Bool → List Token → Stmt → Prop
  declaration : Bool → List Token → Stmt → Prop

namespace Phrases

/-- No phrases. -/
def empty : Phrases where
  expr _ _ := False
  middle _ _ := False
  value _ _ := False
  ternary _ _ := False
  unary _ _ := False
  statement _ _ _ := False
  declaration _ _ _ := False

variable (g : Phrases)

/-! ### Expressions -/

inductive Primary : List Token → Expr → Prop
  | no {t : Token} : t.kind = .kwFalse → Primary [t] (.literal (.bool false))
  | yes {t : Token} : t.kind = .kwTrue → Primary [t] (.literal (.bool true))
  | nil {t : Token} : t.kind = .kwNil → Primary [t] (.literal .nil)
  | constant {t : Token} : t.kind = .number ∨ t.kind = .string → Primary [t] (.literal t.literal)
  | name {t : Token} : t.kind = .identifier → Primary [t] (.variable (.free t.mark))
  | receiver {t : Token} : t.kind = .kwThis → Primary [t] (.receiver (.free t.mark))
  | superMethod {t dot name : Token} : t.kind = .kwSuper → dot.kind = .dot →
      name.kind = .identifier → Primary [t, dot, name] (.superMethod (.free t.mark) name.mark)
  | grouping {l r : Token} {ts : List Token} {e : Expr} : l.kind = .leftParen → g.expr ts e →
      r.kind = .rightParen → Primary (l :: ts ++ [r]) (.grouping e)

/-- One argument or more, with commas between them. -/
inductive Arguments : List Token → List Expr → Prop
  | last {ts : List Token} {e : Expr} : g.expr ts e → Arguments ts [e]
  | more {ts us : List Token} {e : Expr} {es : List Expr} {comma : Token} : g.expr ts e →
      comma.kind = .comma → Arguments us es → Arguments (ts ++ comma :: us) (e :: es)

/-- Nothing, or arguments within the ceiling. -/
inductive ArgumentList : List Token → List Expr → Prop
  | none : ArgumentList [] []
  | some {ts : List Token} {es : List Expr} : Arguments g ts es → es.length ≤ maxArgs →
      ArgumentList ts es

inductive Call : List Token → Expr → Prop
  | primary {ts : List Token} {e : Expr} : Primary g ts e → Call ts e
  | call {ts us : List Token} {e : Expr} {es : List Expr} {l r : Token} : Call ts e →
      l.kind = .leftParen → ArgumentList g us es → r.kind = .rightParen →
      Call (ts ++ l :: us ++ [r]) (.call e r.mark es)
  | get {ts : List Token} {e : Expr} {dot name : Token} : Call ts e → dot.kind = .dot →
      name.kind = .identifier → Call (ts ++ [dot, name]) (.get e name.mark)

inductive Unary : List Token → Expr → Prop
  | call {ts : List Token} {e : Expr} : Call g ts e → Unary ts e
  | operator {op : Token} {ts : List Token} {e : Expr} : op.kind = .bang ∨ op.kind = .minus →
      g.unary ts e → Unary (op :: ts) (.unary op.mark e)

/-- Binary operators of some levels, the loosest first. -/
inductive Binary : List Level → List Token → Expr → Prop
  | unary {ts : List Token} {e : Expr} : Unary g ts e → Binary [] ts e
  | operand {level : Level} {tighter : List Level} {ts : List Token} {e : Expr} :
      Binary tighter ts e → Binary (level :: tighter) ts e
  | operator {level : Level} {tighter : List Level} {ts us : List Token} {l r : Expr}
      {op : Token} : Binary (level :: tighter) ts l → op.kind ∈ level.ops → Binary tighter us r →
      Binary (level :: tighter) (ts ++ op :: us) (level.node l op.mark r)

inductive Ternary : List Token → Expr → Prop
  | binary {ts : List Token} {e : Expr} : Binary g levels ts e → Ternary ts e
  | choice {ts us vs : List Token} {cond yes no : Expr} {question colon : Token} :
      Binary g levels ts cond → question.kind = .question → g.middle us yes →
      colon.kind = .colon → g.ternary vs no →
      Ternary (ts ++ question :: us ++ colon :: vs) (.ternary cond yes no)

inductive Assignment : List Token → Expr → Prop
  | ternary {ts : List Token} {e : Expr} : Ternary g ts e → Assignment ts e
  | name {t equal : Token} {ts : List Token} {e : Expr} : t.kind = .identifier →
      equal.kind = .equal → g.value ts e → Assignment (t :: equal :: ts) (.assign (.free t.mark) e)
  | property {ts us : List Token} {object e : Expr} {dot name equal : Token} : Call g ts object →
      dot.kind = .dot → name.kind = .identifier → equal.kind = .equal → g.value us e →
      Assignment (ts ++ dot :: name :: equal :: us) (.set object name.mark e)

/-! ### Statements -/

/-- An expression, or none. -/
inductive OptionalExpr : List Token → Option Expr → Prop
  | none : OptionalExpr [] none
  | some {ts : List Token} {e : Expr} : Assignment g ts e → OptionalExpr ts (some e)

inductive ExprStmt : List Token → Stmt → Prop
  | mk {ts : List Token} {e : Expr} {semi : Token} : Assignment g ts e → semi.kind = .semicolon →
      ExprStmt (ts ++ [semi]) (.expr e)

/-- A variable declaration behind its keyword. -/
inductive VarDecl : List Token → Stmt → Prop
  | bare {name semi : Token} : name.kind = .identifier → semi.kind = .semicolon →
      VarDecl [name, semi] (.var name.mark none)
  | initialized {name equal semi : Token} {ts : List Token} {e : Expr} : name.kind = .identifier →
      equal.kind = .equal → Assignment g ts e → semi.kind = .semicolon →
      VarDecl (name :: equal :: ts ++ [semi]) (.var name.mark (some e))

/-- Statements in a row. -/
inductive Row (phrase : Bool → List Token → Stmt → Prop) : List Token → List Stmt → Prop
  | nil : Row phrase [] []
  | cons {isOpen : Bool} {ts us : List Token} {s : Stmt} {ss : List Stmt} :
      phrase isOpen ts s → Row phrase us ss → Row phrase (ts ++ us) (s :: ss)

/-- One parameter or more, with commas between them. -/
inductive Parameters : List Token → List Mark → Prop
  | last {t : Token} : t.kind = .identifier → Parameters [t] [t.mark]
  | more {t comma : Token} {ts : List Token} {ms : List Mark} : t.kind = .identifier →
      comma.kind = .comma → Parameters ts ms → Parameters (t :: comma :: ts) (t.mark :: ms)

/-- Nothing, or parameters within the ceiling. -/
inductive ParameterList : List Token → List Mark → Prop
  | none : ParameterList [] []
  | some {ts : List Token} {ms : List Mark} : Parameters ts ms → ms.length ≤ maxArgs →
      ParameterList ts ms

/-- A function from its name on. -/
inductive Function : List Token → Fun → Prop
  | mk {name l r opening closing : Token} {ts us : List Token} {params : List Mark}
      {body : List Stmt} : name.kind = .identifier → l.kind = .leftParen →
      ParameterList ts params → r.kind = .rightParen → opening.kind = .leftBrace →
      Row g.declaration us body → closing.kind = .rightBrace →
      Function (name :: l :: ts ++ r :: opening :: us ++ [closing]) ⟨name.mark, params, body⟩

/-- Methods in a row. -/
inductive Methods : List Token → List Fun → Prop
  | nil : Methods [] []
  | cons {ts us : List Token} {m : Fun} {ms : List Fun} : Function g ts m → Methods us ms →
      Methods (ts ++ us) (m :: ms)

/-- A superclass behind a class's name, or none. -/
inductive Superclass : List Token → Option NameUse → Prop
  | none : Superclass [] none
  | some {less name : Token} : less.kind = .less → name.kind = .identifier →
      Superclass [less, name] (some (.free name.mark))

/-- A class from its name on. -/
inductive ClassDecl : List Token → Stmt → Prop
  | mk {name opening closing : Token} {ts us : List Token} {superclass : Option NameUse}
      {methods : List Fun} : name.kind = .identifier → Superclass ts superclass →
      opening.kind = .leftBrace → Methods g us methods → closing.kind = .rightBrace →
      ClassDecl (name :: ts ++ opening :: us ++ [closing]) (.classDecl name.mark superclass methods)

/-- The first clause of a for-loop, with its semicolon. -/
inductive ForInitializer : List Token → Option Stmt → Prop
  | none {semi : Token} : semi.kind = .semicolon → ForInitializer [semi] none
  | var {t : Token} {ts : List Token} {s : Stmt} : t.kind = .kwVar → VarDecl g ts s →
      ForInitializer (t :: ts) (some s)
  | expr {ts : List Token} {s : Stmt} : ExprStmt g ts s → ForInitializer ts (some s)

inductive Statement : Bool → List Token → Stmt → Prop
  | expr {ts : List Token} {s : Stmt} : ExprStmt g ts s → Statement false ts s
  | print {t semi : Token} {ts : List Token} {e : Expr} : t.kind = .kwPrint → Assignment g ts e →
      semi.kind = .semicolon → Statement false (t :: ts ++ [semi]) (.print e)
  | giveBack {t semi : Token} {ts : List Token} {value : Option Expr} : t.kind = .kwReturn →
      OptionalExpr g ts value → semi.kind = .semicolon →
      Statement false (t :: ts ++ [semi]) (.giveBack t.mark value)
  | block {opening closing : Token} {ts : List Token} {body : List Stmt} :
      opening.kind = .leftBrace → Row g.declaration ts body → closing.kind = .rightBrace →
      Statement false (opening :: ts ++ [closing]) (.block body)
  | loop {isOpen : Bool} {t l r : Token} {ts us : List Token} {cond : Expr} {body : Stmt} :
      t.kind = .kwWhile → l.kind = .leftParen → Assignment g ts cond → r.kind = .rightParen →
      g.statement isOpen us body → Statement isOpen (t :: l :: ts ++ r :: us) (.loop cond body)
  | branch {isOpen : Bool} {t l r : Token} {ts us : List Token} {cond : Expr} {yes : Stmt} :
      t.kind = .kwIf → l.kind = .leftParen → Assignment g ts cond → r.kind = .rightParen →
      g.statement isOpen us yes →
      Statement true (t :: l :: ts ++ r :: us) (.branch cond yes none)
  | branchElse {isOpen : Bool} {t l r other : Token} {ts us vs : List Token} {cond : Expr}
      {yes no : Stmt} : t.kind = .kwIf → l.kind = .leftParen → Assignment g ts cond →
      r.kind = .rightParen → g.statement false us yes → other.kind = .kwElse →
      g.statement isOpen vs no →
      Statement isOpen (t :: l :: ts ++ r :: us ++ other :: vs) (.branch cond yes (some no))
  | forLoop {isOpen : Bool} {t l semi r : Token} {ts us vs ws : List Token}
      {initializer : Option Stmt} {cond increment : Option Expr} {body : Stmt} :
      t.kind = .kwFor → l.kind = .leftParen → ForInitializer g ts initializer →
      OptionalExpr g us cond → semi.kind = .semicolon → OptionalExpr g vs increment →
      r.kind = .rightParen → g.statement isOpen ws body →
      Statement isOpen (t :: l :: ts ++ us ++ semi :: vs ++ r :: ws)
        (Lox.forLoop initializer cond increment body)

inductive Declaration : Bool → List Token → Stmt → Prop
  | classDecl {t : Token} {ts : List Token} {s : Stmt} : t.kind = .kwClass → ClassDecl g ts s →
      Declaration false (t :: ts) s
  | function {t : Token} {ts : List Token} {f : Fun} : t.kind = .kwFun → Function g ts f →
      Declaration false (t :: ts) (.function f)
  | var {t : Token} {ts : List Token} {s : Stmt} : t.kind = .kwVar → VarDecl g ts s →
      Declaration false (t :: ts) s
  | statement {isOpen : Bool} {ts : List Token} {s : Stmt} : Statement g isOpen ts s →
      Declaration isOpen ts s

/-- The declarations of a program. -/
def Program : List Token → List Stmt → Prop := Row (Declaration g)

/-! ### How phrases begin -/

/-- There is a first token, and its kind is one of some. -/
def Begins (p : TokenKind → Bool) (ts : List Token) : Prop := ∃ t us, ts = t :: us ∧ p t.kind

/-- The kinds of tokens that a call begins with. -/
def beginsCall (k : TokenKind) : Bool :=
  [TokenKind.kwFalse, .kwTrue, .kwNil, .number, .string, .identifier, .kwThis, .kwSuper,
    .leftParen].contains k

/-- The kinds of tokens that an expression begins with. -/
def beginsExpr (k : TokenKind) : Bool := beginsCall k || k = .bang || k = .minus

/-- The kinds of tokens that a statement begins with. -/
def beginsStatement (k : TokenKind) : Bool :=
  beginsExpr k || [TokenKind.kwFor, .kwIf, .kwPrint, .kwReturn, .kwWhile, .leftBrace].contains k

/-- The kinds of tokens that a declaration begins with. -/
def beginsDeclaration (k : TokenKind) : Bool :=
  beginsStatement k || [TokenKind.kwClass, .kwFun, .kwVar].contains k

variable {g} {ts us : List Token} {e : Expr} {p q : TokenKind → Bool}

theorem Begins.append (h : Begins p ts) (us : List Token) : Begins p (ts ++ us) := by
  obtain ⟨t, vs, rfl, ht⟩ := h
  exact ⟨t, vs ++ us, rfl, ht⟩

theorem Begins.cons {t : Token} (h : p t.kind) (us : List Token) : Begins p (t :: us) :=
  ⟨t, us, rfl, h⟩

theorem Begins.mono (h : Begins p ts) (hpq : ∀ k, p k → q k) : Begins q ts := by
  obtain ⟨t, us, rfl, ht⟩ := h
  exact .cons (hpq _ ht) us

theorem Primary.begins (h : Primary g ts e) : Begins beginsCall ts := by
  cases h with
  | constant h => rcases h with h | h <;> exact .cons (by simp [h, beginsCall]) _
  | no h | yes h | nil h | name h | receiver h | superMethod h | grouping h =>
    exact .cons (by simp [h, beginsCall]) _

theorem Row.begins {phrase : Bool → List Token → Stmt → Prop} {ss : List Stmt}
    (hg : ∀ isOpen ts s, phrase isOpen ts s → Begins p ts) (h : Row phrase ts ss) :
    ts = [] ∨ Begins p ts := by
  cases h with
  | nil => exact .inl rfl
  | cons h => exact .inr ((hg _ _ _ h).append _)

theorem Row.length_le {phrase : Bool → List Token → Stmt → Prop} {ss : List Stmt}
    (hg : ∀ isOpen ts s, phrase isOpen ts s → Begins p ts) (h : Row phrase ts ss) :
    ss.length ≤ ts.length := by
  induction h with
  | nil => simp
  | cons h _ ih =>
    obtain ⟨t, us, rfl, -⟩ := hg _ _ _ h
    simp only [List.length_append, List.length_cons]
    omega

/-! ### Phrases within so many steps -/

/-- The phrases with so many steps left, of which some are spent on the way in. -/
def within : Nat → Nat → Phrases
  | 0, _ => empty
  | steps + 1, spent + 1 => within steps spent
  | steps + 1, 0 =>
    { expr := Assignment (within steps (nestingSteps - 1))
      middle := Assignment (within steps 2)
      value := Assignment (within steps 0)
      ternary := Ternary (within steps 0)
      unary := Unary (within steps 0)
      statement := Statement (within steps 1)
      declaration := Declaration (within steps 2) }

end Phrases

end Lox
