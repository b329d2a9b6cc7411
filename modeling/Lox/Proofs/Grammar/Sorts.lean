/-
# The sorts of marks

Of which sort the tokens are that the marks of a tree come from: a call has
the parenthesis that closes it, and variables, properties, methods and
superclasses have names. The trees of a text are of these sorts
(`Lox.bodySorted`), by the rules that they are read by.

Key definitions: `Lox.Expr.Sorted`, `Lox.bodySorted`.
Key theorems: `Lox.sorted_of_parse`.
-/
import Lox.Proofs.Grammar.Program
import Lox.Proofs.Scanner.Words

namespace Lox

open Phrases

mutual

/-- The marks of the expression are of their sorts: names, and closing parentheses of calls. -/
def Expr.Sorted : Expr → Prop
  | .literal _ | .receiver _ | .stray _ => True
  | .grouping e | .unary _ e => e.Sorted
  | .binary l _ r | .logical l _ r => l.Sorted ∧ r.Sorted
  | .ternary cond yes no => cond.Sorted ∧ yes.Sorted ∧ no.Sorted
  | .variable use => use.name.kind = .identifier
  | .assign use value => use.name.kind = .identifier ∧ value.Sorted
  | .call callee paren args => paren.kind = .rightParen ∧ callee.Sorted ∧ argsSorted args
  | .get object name => name.kind = .identifier ∧ object.Sorted
  | .set object name value => name.kind = .identifier ∧ object.Sorted ∧ value.Sorted
  | .superMethod _ method => method.kind = .identifier

def argsSorted : List Expr → Prop
  | [] => True
  | e :: es => e.Sorted ∧ argsSorted es

end

def optionSorted (o : Option Expr) : Prop := ∀ e ∈ o, e.Sorted

mutual

/-- The marks in the statement are of their sorts. -/
def Stmt.Sorted : Stmt → Prop
  | .expr e | .print e => e.Sorted
  | .var _ initial | .giveBack _ initial => optionSorted initial
  | .block body => bodySorted body
  | .branch cond yes none => cond.Sorted ∧ yes.Sorted
  | .branch cond yes (some no) => cond.Sorted ∧ yes.Sorted ∧ no.Sorted
  | .loop cond body => cond.Sorted ∧ body.Sorted
  | .function decl => functionSorted decl
  | .classDecl _ superclass methods =>
    (∀ use ∈ superclass, use.name.kind = .identifier) ∧ methodsSorted methods
  | .stray _ => True

def bodySorted : List Stmt → Prop
  | [] => True
  | stmt :: body => stmt.Sorted ∧ bodySorted body

def functionSorted : Fun → Prop
  | ⟨_, _, body⟩ => bodySorted body

def methodsSorted : List Fun → Prop
  | [] => True
  | method :: methods => functionSorted method ∧ methodsSorted methods

end

namespace Phrases

/-- The trees of the phrases further in are of their sorts. -/
structure Sorts (g : Phrases) : Prop where
  expr : ∀ {ts e}, g.expr ts e → e.Sorted
  middle : ∀ {ts e}, g.middle ts e → e.Sorted
  value : ∀ {ts e}, g.value ts e → e.Sorted
  ternary : ∀ {ts e}, g.ternary ts e → e.Sorted
  unary : ∀ {ts e}, g.unary ts e → e.Sorted
  statement : ∀ {isOpen ts s}, g.statement isOpen ts s → s.Sorted
  declaration : ∀ {isOpen ts s}, g.declaration isOpen ts s → s.Sorted

variable {g : Phrases} (hg : g.Sorts) {ts : List Token} {e : Expr} {s : Stmt}

include hg

theorem Primary.sorted (h : Primary g ts e) : e.Sorted := by
  cases h with
  | no | yes | nil | constant | receiver => exact trivial
  | name h => exact h
  | superMethod _ _ hname => exact hname
  | grouping _ h _ =>
    have he := hg.expr h
    exact he

theorem Arguments.sorted {es : List Expr} (h : Arguments g ts es) : argsSorted es := by
  induction h with
  | last h => exact ⟨hg.expr h, trivial⟩
  | more h _ _ ih => exact ⟨hg.expr h, ih⟩

theorem Call.sorted (h : Call g ts e) : e.Sorted := by
  induction h with
  | primary h => exact h.sorted hg
  | call _ _ ha hr ih =>
    refine ⟨hr, ih, ?_⟩
    cases ha with
    | none => exact trivial
    | some h => exact h.sorted hg
  | get _ _ hname ih => exact ⟨hname, ih⟩

theorem Unary.sorted (h : Unary g ts e) : e.Sorted := by
  cases h with
  | call h => exact h.sorted hg
  | operator _ h =>
    have he := hg.unary h
    exact he

omit hg in
theorem sorted_levels : ∀ level ∈ levels, ∀ l op r, l.Sorted → r.Sorted →
    (level.node l op r).Sorted := by
  simp only [levels, List.forall_mem_cons]
  refine ⟨?_, ?_, ?_, ?_, ?_, ?_, by simp⟩ <;> exact fun _ _ _ hl hr => ⟨hl, hr⟩

theorem Binary.sorted {ls : List Level}
    (hl : ∀ level ∈ ls, ∀ l op r, l.Sorted → r.Sorted → (level.node l op r).Sorted)
    (h : Binary g ls ts e) : e.Sorted := by
  induction h with
  | unary h => exact h.sorted hg
  | operand _ ih => exact ih fun level hm => hl level (List.mem_cons_of_mem _ hm)
  | operator _ _ _ ihl ihr =>
    exact hl _ List.mem_cons_self _ _ _ (ihl hl) (ihr fun level hm => hl level (List.mem_cons_of_mem _ hm))

theorem Ternary.sorted (h : Ternary g ts e) : e.Sorted := by
  cases h with
  | binary h => exact h.sorted hg sorted_levels
  | choice h _ hy _ hn => exact ⟨h.sorted hg sorted_levels, hg.middle hy, hg.ternary hn⟩

theorem Assignment.sorted (h : Assignment g ts e) : e.Sorted := by
  cases h with
  | ternary h => exact h.sorted hg
  | name hn _ hv => exact ⟨hn, hg.value hv⟩
  | property ho _ hn _ hv => exact ⟨hn, ho.sorted hg, hg.value hv⟩

theorem OptionalExpr.sorted {o : Option Expr} (h : OptionalExpr g ts o) : optionSorted o := by
  cases h with
  | none => exact fun _ h => nomatch h
  | some h =>
    rintro _ ⟨⟩
    exact h.sorted hg

theorem ExprStmt.sorted (h : ExprStmt g ts s) : s.Sorted := by
  cases h with
  | mk h =>
    have he := h.sorted hg
    exact he

theorem VarDecl.sorted (h : VarDecl g ts s) : s.Sorted := by
  cases h with
  | bare _ _ => exact fun _ h => nomatch h
  | initialized _ _ h _ =>
    rintro _ ⟨⟩
    exact h.sorted hg

omit hg in
theorem Row.sorted {phrase : Bool → List Token → Stmt → Prop}
    (hp : ∀ {isOpen ts s}, phrase isOpen ts s → s.Sorted) {ss : List Stmt} (h : Row phrase ts ss) :
    bodySorted ss := by
  induction h with
  | nil => exact trivial
  | cons h _ ih => exact ⟨hp h, ih⟩

theorem Function.sorted {f : Fun} (h : Function g ts f) : functionSorted f := by
  cases h with
  | mk _ _ _ _ _ hb _ =>
    have hbody := hb.sorted hg.declaration
    exact hbody

theorem Methods.sorted {ms : List Fun} (h : Methods g ts ms) : methodsSorted ms := by
  induction h with
  | nil => exact trivial
  | cons h _ ih => exact ⟨h.sorted hg, ih⟩

theorem ClassDecl.sorted (h : ClassDecl g ts s) : s.Sorted := by
  cases h with
  | mk _ ho _ hms _ =>
    refine ⟨?_, hms.sorted hg⟩
    cases ho with
    | none => exact fun _ h => nomatch h
    | some _ hname =>
      rintro _ ⟨⟩
      exact hname

theorem ForInitializer.sorted {o : Option Stmt} (h : ForInitializer g ts o) : ∀ s ∈ o, s.Sorted := by
  cases h with
  | none => exact fun _ h => nomatch h
  | var _ h =>
    rintro _ ⟨⟩
    exact h.sorted hg
  | expr h =>
    rintro _ ⟨⟩
    exact h.sorted hg

omit hg in
theorem sorted_forLoop {initializer : Option Stmt} {cond increment : Option Expr} {body : Stmt}
    (hi : ∀ s ∈ initializer, s.Sorted) (hc : optionSorted cond) (hn : optionSorted increment)
    (hb : body.Sorted) : (forLoop initializer cond increment body).Sorted := by
  have hcond : (cond.getD (.literal (.bool true))).Sorted := by
    cases cond with
    | none => exact trivial
    | some c => exact hc c rfl
  cases increment with
  | none =>
    cases initializer with
    | none => exact ⟨hcond, hb⟩
    | some s => exact ⟨hi s rfl, ⟨hcond, hb⟩, trivial⟩
  | some e =>
    cases initializer with
    | none => exact ⟨hcond, hb, hn e rfl, trivial⟩
    | some s => exact ⟨hi s rfl, ⟨hcond, hb, hn e rfl, trivial⟩, trivial⟩

theorem Statement.sorted {isOpen : Bool} (h : Statement g isOpen ts s) : s.Sorted := by
  cases h with
  | expr h => exact h.sorted hg
  | print _ h _ =>
    have he := h.sorted hg
    exact he
  | giveBack _ h _ =>
    have hvalue := h.sorted hg
    exact hvalue
  | block _ h _ =>
    have hbody := h.sorted hg.declaration
    exact hbody
  | loop _ _ h _ hb => exact ⟨h.sorted hg, hg.statement hb⟩
  | branch _ _ h _ hy => exact ⟨h.sorted hg, hg.statement hy⟩
  | branchElse _ _ h _ hy _ hn => exact ⟨h.sorted hg, hg.statement hy, hg.statement hn⟩
  | forLoop _ _ hi hc _ hn _ hb =>
    exact sorted_forLoop (hi.sorted hg) (hc.sorted hg) (hn.sorted hg) (hg.statement hb)

theorem Declaration.sorted {isOpen : Bool} (h : Declaration g isOpen ts s) : s.Sorted := by
  cases h with
  | classDecl _ h => exact h.sorted hg
  | function _ h =>
    have hfunction := h.sorted hg
    exact hfunction
  | var _ h => exact h.sorted hg
  | statement h => exact h.sorted hg

omit hg in
theorem sorts_within : ∀ steps spent, (within steps spent).Sorts
  | 0, _ => by
    rw [within]
    exact ⟨by rintro _ _ ⟨⟩, by rintro _ _ ⟨⟩, by rintro _ _ ⟨⟩, by rintro _ _ ⟨⟩,
      by rintro _ _ ⟨⟩, by rintro _ _ _ ⟨⟩, by rintro _ _ _ ⟨⟩⟩
  | steps + 1, spent + 1 => by
    rw [within]
    exact sorts_within steps spent
  | steps + 1, 0 => by
    rw [within]
    have h (spent : Nat) := sorts_within steps spent
    exact ⟨Assignment.sorted (h _), Assignment.sorted (h _), Assignment.sorted (h _),
      Ternary.sorted (h _), Unary.sorted (h _), Statement.sorted (h _), Declaration.sorted (h _)⟩

end Phrases

/-- The trees of a text that parses without a report are of their sorts. -/
theorem sorted_of_parse {limits : Limits} {source : String}
    (h : (parse limits (scan source).tokens).diagnostics = []) :
    bodySorted (parse limits (scan source).tokens).stmts := by
  obtain ⟨ts, e, heq, he, hts⟩ := spelled_scan source
  rw [heq] at h ⊢
  exact (program_of_parse (fun t ht => (hts t ht).2) he h).sorted
    (Declaration.sorted (sorts_within _ _))

end Lox
