/-
# Trees over a vocabulary

What may stand at the leaves of a tree: the words for names, the operators,
the constants and the records of uses. A tree over a vocabulary has no stray
node at any depth, and each of its leaves is of the sort that its place asks
for (`Lox.Expr.Over`, `Lox.Stmt.Over`). Two vocabularies matter: that of some
tokens, whose marks are the marks of such tokens, and the operators that the
evaluator knows, with everything else left open.

Key definitions: `Lox.Vocabulary`, `Lox.Expr.Over`, `Lox.Stmt.Over`,
`Lox.Vocabulary.ofTokens`, `Lox.Vocabulary.known`.
Key theorems: `Lox.Expr.Over.mono`, `Lox.Stmt.Over.mono`.
-/
import Lox.Ast.Basic

namespace Lox

/-- The kinds of unary operators. -/
def unaryKinds : List TokenKind := [.bang, .minus]

/-- The kinds of binary operators. -/
def binaryKinds : List TokenKind :=
  [.bangEqual, .equalEqual, .greater, .greaterEqual, .less, .lessEqual, .minus, .plus, .slash,
   .star]

/-- The kinds of logical operators. -/
def logicalKinds : List TokenKind := [.kwOr, .kwAnd]

/-- What may stand at the leaves of a tree: marks where a word of some kind is asked for, marks where
an operator of some kinds is, constants, and records of uses. -/
structure Vocabulary where
  word : TokenKind → Mark → Prop
  operator : List TokenKind → Mark → Prop
  literal : Literal → Prop
  hops : Option Nat → Prop

namespace Vocabulary

/-- A use whose name is a word of the kind. -/
structure Use (v : Vocabulary) (kind : TokenKind) (use : NameUse) : Prop where
  name : v.word kind use.name
  hops : v.hops use.hops

/-- The marks of some tokens, and their values; the words for truth and for nothing need none. No
name is bound yet. -/
def ofTokens (T : Token → Prop) : Vocabulary where
  word kind m := ∃ t, T t ∧ t.kind = kind ∧ m = t.mark
  operator kinds m := ∃ t, T t ∧ t.kind ∈ kinds ∧ m = t.mark
  literal x := x = .nil ∨ (∃ b, x = .bool b) ∨
    ∃ t, T t ∧ (t.kind = .number ∨ t.kind = .string) ∧ x = t.literal
  hops h := h = none

/-- Operators of the right kinds, and anything else. -/
def known : Vocabulary where
  word _ _ := True
  operator kinds m := m.kind ∈ kinds
  literal _ := True
  hops _ := True

/-- What may stand in the one may stand in the other. -/
structure Le (v w : Vocabulary) : Prop where
  word : ∀ {kind m}, v.word kind m → w.word kind m
  operator : ∀ {kinds m}, v.operator kinds m → w.operator kinds m
  literal : ∀ {x}, v.literal x → w.literal x
  hops : ∀ {h}, v.hops h → w.hops h

theorem Use.mono {v w : Vocabulary} (h : v.Le w) {kind : TokenKind} {use : NameUse}
    (hu : v.Use kind use) : w.Use kind use :=
  ⟨h.word hu.name, h.hops hu.hops⟩

theorem ofTokens_le_known (T : Token → Prop) : (ofTokens T).Le known where
  word _ := trivial
  operator := by
    rintro kinds m ⟨t, -, ht, rfl⟩
    exact ht
  literal _ := trivial
  hops _ := trivial

end Vocabulary

/-- An expression over a vocabulary. -/
inductive Expr.Over (v : Vocabulary) : Expr → Prop
  | literal {x : Literal} : v.literal x → Over v (.literal x)
  | grouping {inner : Expr} : Over v inner → Over v (.grouping inner)
  | unary {op : Mark} {operand : Expr} : v.operator unaryKinds op → Over v operand →
      Over v (.unary op operand)
  | binary {left right : Expr} {op : Mark} : Over v left → v.operator binaryKinds op →
      Over v right → Over v (.binary left op right)
  | logical {left right : Expr} {op : Mark} : Over v left → v.operator logicalKinds op →
      Over v right → Over v (.logical left op right)
  | ternary {cond yes no : Expr} : Over v cond → Over v yes → Over v no →
      Over v (.ternary cond yes no)
  | variable {use : NameUse} : v.Use .identifier use → Over v (.variable use)
  | assign {use : NameUse} {value : Expr} : v.Use .identifier use → Over v value →
      Over v (.assign use value)
  | call {callee : Expr} {paren : Mark} {args : List Expr} : Over v callee →
      v.word .rightParen paren → (∀ arg ∈ args, Over v arg) → Over v (.call callee paren args)
  | get {object : Expr} {name : Mark} : Over v object → v.word .identifier name →
      Over v (.get object name)
  | set {object value : Expr} {name : Mark} : Over v object → v.word .identifier name →
      Over v value → Over v (.set object name value)
  | receiver {use : NameUse} : v.Use .kwThis use → Over v (.receiver use)
  | superMethod {use : NameUse} {method : Mark} : v.Use .kwSuper use → v.word .identifier method →
      Over v (.superMethod use method)

/-- The head of a function over a vocabulary: its name and its parameters. -/
structure FunDecl.Headed (v : Vocabulary) (decl : Fun) : Prop where
  name : v.word .identifier decl.name
  params : ∀ param ∈ decl.params, v.word .identifier param

/-- A statement over a vocabulary. -/
inductive Stmt.Over (v : Vocabulary) : Stmt → Prop
  | expr {value : Expr} : value.Over v → Over v (.expr value)
  | print {value : Expr} : value.Over v → Over v (.print value)
  | var {name : Mark} {initial : Option Expr} : v.word .identifier name →
      (∀ e ∈ initial, e.Over v) → Over v (.var name initial)
  | block {body : List Stmt} : (∀ s ∈ body, Over v s) → Over v (.block body)
  | branch {cond : Expr} {yes : Stmt} {no : Option Stmt} : cond.Over v → Over v yes →
      (∀ s ∈ no, Over v s) → Over v (.branch cond yes no)
  | loop {cond : Expr} {body : Stmt} : cond.Over v → Over v body → Over v (.loop cond body)
  | function {decl : Fun} : decl.Headed v → (∀ s ∈ decl.body, Over v s) → Over v (.function decl)
  | giveBack {keyword : Mark} {value : Option Expr} : v.word .kwReturn keyword →
      (∀ e ∈ value, e.Over v) → Over v (.giveBack keyword value)
  | classDecl {name : Mark} {superclass : Option NameUse} {methods : List Fun} :
      v.word .identifier name → (∀ use ∈ superclass, v.Use .identifier use) →
      (∀ m ∈ methods, m.Headed v) → (∀ m ∈ methods, ∀ s ∈ m.body, Over v s) →
      Over v (.classDecl name superclass methods)

/-- A function over a vocabulary. -/
structure FunDecl.Over (v : Vocabulary) (decl : Fun) : Prop extends decl.Headed v where
  body : ∀ s ∈ decl.body, s.Over v

section

variable {v w : Vocabulary}

theorem Expr.Over.mono (h : v.Le w) {e : Expr} (he : e.Over v) : e.Over w := by
  induction he with
  | literal hx => exact .literal (h.literal hx)
  | grouping _ ih => exact .grouping ih
  | unary hop _ ih => exact .unary (h.operator hop) ih
  | binary _ hop _ ihl ihr => exact .binary ihl (h.operator hop) ihr
  | logical _ hop _ ihl ihr => exact .logical ihl (h.operator hop) ihr
  | ternary _ _ _ ihc ihy ihn => exact .ternary ihc ihy ihn
  | «variable» hu => exact .variable (hu.mono h)
  | assign hu _ ih => exact .assign (hu.mono h) ih
  | call _ hp _ ih iha => exact .call ih (h.word hp) iha
  | get _ hn ih => exact .get ih (h.word hn)
  | set _ hn _ iho ihv => exact .set iho (h.word hn) ihv
  | receiver hu => exact .receiver (hu.mono h)
  | superMethod hu hm => exact .superMethod (hu.mono h) (h.word hm)

theorem FunDecl.Headed.mono (h : v.Le w) {decl : Fun} (hd : decl.Headed v) : decl.Headed w :=
  ⟨h.word hd.name, fun param hp => h.word (hd.params param hp)⟩

theorem Stmt.Over.mono (h : v.Le w) {s : Stmt} (hs : s.Over v) : s.Over w := by
  induction hs with
  | expr he => exact .expr (he.mono h)
  | print he => exact .print (he.mono h)
  | var hn he => exact .var (h.word hn) fun e hi => (he e hi).mono h
  | block _ ih => exact .block ih
  | branch hc _ _ ihy ihn => exact .branch (hc.mono h) ihy ihn
  | loop hc _ ih => exact .loop (hc.mono h) ih
  | function hd _ ih => exact .function (hd.mono h) ih
  | giveBack hk he => exact .giveBack (h.word hk) fun e hi => (he e hi).mono h
  | classDecl hn hu hm _ ih =>
    exact .classDecl (h.word hn) (fun use hs => (hu use hs).mono h)
      (fun m hmem => (hm m hmem).mono h) ih

end

end Lox
