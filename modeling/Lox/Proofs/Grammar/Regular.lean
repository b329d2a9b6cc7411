/-
# Trees as they are parsed

What the trees of parsed texts have in common: no node is out of place, no
branch or loop has a declaration for its body, and the marks of names,
receivers and superclasses are spelled as what they are.

Key definitions: `Lox.Expr.Regular`, `Lox.Stmt.Regular`, `Lox.Stmt.declared?`.
Key theorems: `Lox.regular_of_parse`, `Lox.regular_of_parseExpression?`.
-/
import Lox.Proofs.Grammar.Program
import Lox.Proofs.Scanner.Words

namespace Lox

open Phrases Procedure

/-- The name that a statement declares in the scope it stands in. -/
def Stmt.declared? : Stmt → Option Mark
  | .var name _ => some name
  | .function decl => some decl.name
  | .classDecl name _ _ => some name
  | _ => none

mutual

/-- No node is out of place, and uses are spelled as what they are. -/
def Expr.Regular : Expr → Prop
  | .literal _ => True
  | .grouping inner => inner.Regular
  | .unary _ operand => operand.Regular
  | .binary left _ right | .logical left _ right => left.Regular ∧ right.Regular
  | .ternary cond yes no => cond.Regular ∧ yes.Regular ∧ no.Regular
  | .variable use => isPlain use.name.text
  | .assign use value => isPlain use.name.text ∧ value.Regular
  | .call callee _ args => callee.Regular ∧ argsRegular args
  | .get object _ => object.Regular
  | .set object _ value => object.Regular ∧ value.Regular
  | .receiver use => use.name.text = "this"
  | .superMethod use _ => use.name.text = "super"
  | .stray _ => False

def argsRegular : List Expr → Prop
  | [] => True
  | arg :: args => arg.Regular ∧ argsRegular args

end

def optionRegular : Option Expr → Prop
  | none => True
  | some e => e.Regular

mutual

/-- No node is out of place, and the bodies of branches and loops declare nothing. -/
def Stmt.Regular : Stmt → Prop
  | .expr value | .print value => value.Regular
  | .var name initial => isPlain name.text ∧ optionRegular initial
  | .block body => bodyRegular body
  | .branch cond yes none => cond.Regular ∧ yes.Regular ∧ yes.declared? = none
  | .branch cond yes (some no) =>
    cond.Regular ∧ (yes.Regular ∧ yes.declared? = none) ∧ no.Regular ∧ no.declared? = none
  | .loop cond body => cond.Regular ∧ body.Regular ∧ body.declared? = none
  | .function decl => functionRegular decl
  | .giveBack _ value => optionRegular value
  | .classDecl name none methods => isPlain name.text ∧ methodsRegular methods
  | .classDecl name (some use) methods =>
    isPlain name.text ∧ isPlain use.name.text ∧ methodsRegular methods
  | .stray _ => False

def bodyRegular : List Stmt → Prop
  | [] => True
  | stmt :: body => stmt.Regular ∧ bodyRegular body

def functionRegular : Fun → Prop
  | ⟨name, params, body⟩ =>
    isPlain name.text ∧ (∀ param ∈ params, isPlain param.text) ∧ bodyRegular body

def methodsRegular : List Fun → Prop
  | [] => True
  | method :: methods => functionRegular method ∧ methodsRegular methods

end

/-- The tokens are spelled well. -/
def Spelled (ts : List Token) : Prop := ∀ t ∈ ts, t.Spelled

namespace Spelled

variable {ts us : List Token} {t : Token}

theorem append : Spelled (ts ++ us) ↔ Spelled ts ∧ Spelled us := by
  simp only [Spelled, List.mem_append, or_imp, forall_and]

theorem cons : Spelled (t :: ts) ↔ t.Spelled ∧ Spelled ts := by
  simp only [Spelled, List.mem_cons, forall_eq_or_imp]

end Spelled

namespace Phrases

/-- The trees of the phrases further in are regular. -/
structure Trees (g : Phrases) : Prop where
  expr : ∀ {ts e}, g.expr ts e → Spelled ts → e.Regular
  middle : ∀ {ts e}, g.middle ts e → Spelled ts → e.Regular
  value : ∀ {ts e}, g.value ts e → Spelled ts → e.Regular
  ternary : ∀ {ts e}, g.ternary ts e → Spelled ts → e.Regular
  unary : ∀ {ts e}, g.unary ts e → Spelled ts → e.Regular
  statement : ∀ {isOpen ts s}, g.statement isOpen ts s → Spelled ts →
    s.Regular ∧ s.declared? = none
  declaration : ∀ {isOpen ts s}, g.declaration isOpen ts s → Spelled ts → s.Regular

variable {g : Phrases} {ts : List Token} {e : Expr}

theorem Primary.regular (hg : g.Trees) (h : Primary g ts e) (hs : Spelled ts) : e.Regular := by
  cases h with
  | no | yes | nil | constant => exact trivial
  | name h => exact (Spelled.cons.mp hs).1.name h
  | receiver h => exact (Spelled.cons.mp hs).1.receiver h
  | superMethod h => exact (Spelled.cons.mp hs).1.superclass h
  | grouping _ h _ =>
    rw [Spelled.append, Spelled.cons] at hs
    have he := hg.expr h hs.1.2
    exact he

theorem Arguments.regular (hg : g.Trees) {es : List Expr} (h : Arguments g ts es)
    (hs : Spelled ts) : argsRegular es := by
  induction h with
  | last h => exact ⟨hg.expr h hs, trivial⟩
  | more h _ _ ih =>
    rw [Spelled.append, Spelled.cons] at hs
    exact ⟨hg.expr h hs.1, ih hs.2.2⟩

theorem Call.regular (hg : g.Trees) (h : Call g ts e) (hs : Spelled ts) : e.Regular := by
  induction h with
  | primary h => exact h.regular hg hs
  | call _ _ ha _ ih =>
    rw [Spelled.append, Spelled.append, Spelled.cons] at hs
    refine ⟨ih hs.1.1, ?_⟩
    cases ha with
    | none => exact trivial
    | some h => exact h.regular hg hs.1.2.2
  | get _ _ _ ih => exact ih (Spelled.append.mp hs).1

theorem Unary.regular (hg : g.Trees) (h : Unary g ts e) (hs : Spelled ts) : e.Regular := by
  cases h with
  | call h => exact h.regular hg hs
  | operator _ h =>
    have he := hg.unary h (Spelled.cons.mp hs).2
    exact he

theorem regular_levels : ∀ level ∈ levels, ∀ l op r, l.Regular → r.Regular →
    (level.node l op r).Regular := by
  simp only [levels, List.forall_mem_cons]
  refine ⟨?_, ?_, ?_, ?_, ?_, ?_, by simp⟩ <;> exact fun _ _ _ hl hr => ⟨hl, hr⟩

theorem Binary.regular (hg : g.Trees) {ls : List Level}
    (hl : ∀ level ∈ ls, ∀ l op r, l.Regular → r.Regular → (level.node l op r).Regular)
    (h : Binary g ls ts e) (hs : Spelled ts) : e.Regular := by
  induction h with
  | unary h => exact h.regular hg hs
  | operand _ ih => exact ih (fun level hm => hl level (List.mem_cons_of_mem _ hm)) hs
  | operator _ _ _ ihl ihr =>
    rw [Spelled.append, Spelled.cons] at hs
    exact hl _ List.mem_cons_self _ _ _ (ihl hl hs.1)
      (ihr (fun level hm => hl level (List.mem_cons_of_mem _ hm)) hs.2.2)

theorem Ternary.regular (hg : g.Trees) (h : Ternary g ts e) (hs : Spelled ts) : e.Regular := by
  cases h with
  | binary h => exact h.regular hg regular_levels hs
  | choice h _ hy _ hn =>
    rw [Spelled.append, Spelled.append, Spelled.cons, Spelled.cons] at hs
    exact ⟨h.regular hg regular_levels hs.1.1, hg.middle hy hs.1.2.2, hg.ternary hn hs.2.2⟩

theorem Assignment.regular (hg : g.Trees) (h : Assignment g ts e) (hs : Spelled ts) :
    e.Regular := by
  cases h with
  | ternary h => exact h.regular hg hs
  | name hn _ hv =>
    rw [Spelled.cons, Spelled.cons] at hs
    exact ⟨hs.1.name hn, hg.value hv hs.2.2⟩
  | property ho _ _ _ hv =>
    rw [Spelled.append, Spelled.cons, Spelled.cons, Spelled.cons] at hs
    exact ⟨ho.regular hg hs.1, hg.value hv hs.2.2.2.2⟩

theorem OptionalExpr.regular (hg : g.Trees) {o : Option Expr} (h : OptionalExpr g ts o)
    (hs : Spelled ts) : optionRegular o := by
  cases h with
  | none => exact trivial
  | some h => exact h.regular hg hs

theorem ExprStmt.regular (hg : g.Trees) {s : Stmt} (h : ExprStmt g ts s) (hs : Spelled ts) :
    s.Regular ∧ s.declared? = none := by
  cases h with
  | mk h => exact ⟨h.regular hg (Spelled.append.mp hs).1, rfl⟩

theorem VarDecl.regular (hg : g.Trees) {s : Stmt} (h : VarDecl g ts s) (hs : Spelled ts) :
    s.Regular := by
  cases h with
  | bare hn => exact ⟨(Spelled.cons.mp hs).1.name hn, trivial⟩
  | initialized hn _ h =>
    rw [Spelled.append, Spelled.cons, Spelled.cons] at hs
    exact ⟨hs.1.1.name hn, h.regular hg hs.1.2.2⟩

theorem Row.regular {phrase : Bool → List Token → Stmt → Prop}
    (hp : ∀ {isOpen ts s}, phrase isOpen ts s → Spelled ts → s.Regular) {ss : List Stmt}
    (h : Row phrase ts ss) (hs : Spelled ts) : bodyRegular ss := by
  induction h with
  | nil => exact trivial
  | cons h _ ih =>
    rw [Spelled.append] at hs
    exact ⟨hp h hs.1, ih hs.2⟩

theorem Parameters.regular {ms : List Mark} (h : Parameters ts ms) (hs : Spelled ts) :
    ∀ m ∈ ms, isPlain m.text := by
  induction h with
  | last h => simpa using (Spelled.cons.mp hs).1.name h
  | more h _ _ ih =>
    rw [Spelled.cons, Spelled.cons] at hs
    simpa using ⟨hs.1.name h, ih hs.2.2⟩

theorem Function.regular (hg : g.Trees) {f : Fun} (h : Function g ts f) (hs : Spelled ts) :
    functionRegular f := by
  cases h with
  | mk hn _ hps _ _ hb =>
    rw [Spelled.append, Spelled.append, Spelled.cons, Spelled.cons, Spelled.cons, Spelled.cons] at hs
    refine ⟨hs.1.1.1.name hn, ?_, hb.regular hg.declaration hs.1.2.2.2⟩
    cases hps with
    | none => simp
    | some h => exact h.regular hs.1.1.2.2

theorem Methods.regular (hg : g.Trees) {ms : List Fun} (h : Methods g ts ms) (hs : Spelled ts) :
    methodsRegular ms := by
  induction h with
  | nil => exact trivial
  | cons h _ ih =>
    rw [Spelled.append] at hs
    exact ⟨h.regular hg hs.1, ih hs.2⟩

theorem ClassDecl.regular (hg : g.Trees) {s : Stmt} (h : ClassDecl g ts s) (hs : Spelled ts) :
    s.Regular := by
  cases h with
  | mk hn ho _ hms =>
    rw [Spelled.append, Spelled.append, Spelled.cons, Spelled.cons] at hs
    have hname := hs.1.1.1.name hn
    have hmethods := hms.regular hg hs.1.2.2
    cases ho with
    | none => exact ⟨hname, hmethods⟩
    | some _ hi =>
      have hsuper := hs.1.1.2
      rw [Spelled.cons, Spelled.cons] at hsuper
      exact ⟨hname, hsuper.2.1.name hi, hmethods⟩

theorem ForInitializer.regular (hg : g.Trees) {o : Option Stmt} (h : ForInitializer g ts o)
    (hs : Spelled ts) : ∀ s ∈ o, s.Regular := by
  cases h with
  | none => simp
  | var _ h => simpa using h.regular hg (Spelled.cons.mp hs).2
  | expr h => simpa using (h.regular hg hs).1

theorem regular_forLoop {initializer : Option Stmt} {cond increment : Option Expr} {body : Stmt}
    (hi : ∀ s ∈ initializer, s.Regular) (hc : optionRegular cond) (hn : optionRegular increment)
    (hb : body.Regular ∧ body.declared? = none) :
    (forLoop initializer cond increment body).Regular ∧
      (forLoop initializer cond increment body).declared? = none := by
  have hcond : (cond.getD (.literal (.bool true))).Regular := by
    cases cond with
    | none => exact trivial
    | some c => exact hc
  have hloop : ∀ s : Stmt, s.Regular ∧ s.declared? = none →
      (Stmt.loop (cond.getD (.literal (.bool true))) s).Regular := fun s hs => ⟨hcond, hs⟩
  have hrepeated : ∀ e : Expr, e.Regular → (Stmt.block [body, .expr e]).Regular :=
    fun e he => ⟨hb.1, he, trivial⟩
  cases increment with
  | none =>
    cases initializer with
    | none => exact ⟨hloop _ hb, rfl⟩
    | some s => exact ⟨⟨hi s rfl, hloop _ hb, trivial⟩, rfl⟩
  | some e =>
    cases initializer with
    | none => exact ⟨hloop _ ⟨hrepeated e hn, rfl⟩, rfl⟩
    | some s => exact ⟨⟨hi s rfl, hloop _ ⟨hrepeated e hn, rfl⟩, trivial⟩, rfl⟩

theorem Statement.regular (hg : g.Trees) {isOpen : Bool} {s : Stmt} (h : Statement g isOpen ts s)
    (hs : Spelled ts) : s.Regular ∧ s.declared? = none := by
  cases h with
  | expr h => exact h.regular hg hs
  | print _ h =>
    rw [Spelled.append, Spelled.cons] at hs
    exact ⟨h.regular hg hs.1.2, rfl⟩
  | giveBack _ h =>
    rw [Spelled.append, Spelled.cons] at hs
    exact ⟨h.regular hg hs.1.2, rfl⟩
  | block _ h =>
    rw [Spelled.append, Spelled.cons] at hs
    exact ⟨h.regular hg.declaration hs.1.2, rfl⟩
  | loop _ _ h _ hb =>
    rw [Spelled.append, Spelled.cons, Spelled.cons, Spelled.cons] at hs
    exact ⟨⟨h.regular hg hs.1.2.2, hg.statement hb hs.2.2⟩, rfl⟩
  | branch _ _ h _ hy =>
    rw [Spelled.append, Spelled.cons, Spelled.cons, Spelled.cons] at hs
    exact ⟨⟨h.regular hg hs.1.2.2, hg.statement hy hs.2.2⟩, rfl⟩
  | branchElse _ _ h _ hy _ hn =>
    rw [Spelled.append, Spelled.append, Spelled.cons, Spelled.cons, Spelled.cons, Spelled.cons] at hs
    exact ⟨⟨h.regular hg hs.1.1.2.2, hg.statement hy hs.1.2.2, hg.statement hn hs.2.2⟩, rfl⟩
  | forLoop _ _ hi hc _ hn _ hb =>
    rw [Spelled.append, Spelled.append, Spelled.append, Spelled.cons, Spelled.cons, Spelled.cons,
      Spelled.cons] at hs
    exact regular_forLoop (hi.regular hg hs.1.1.1.2.2) (hc.regular hg hs.1.1.2)
      (hn.regular hg hs.1.2.2) (hg.statement hb hs.2.2)

theorem Declaration.regular (hg : g.Trees) {isOpen : Bool} {s : Stmt}
    (h : Declaration g isOpen ts s) (hs : Spelled ts) : s.Regular := by
  cases h with
  | classDecl _ h => exact h.regular hg (Spelled.cons.mp hs).2
  | function _ h => exact h.regular hg (Spelled.cons.mp hs).2
  | var _ h => exact h.regular hg (Spelled.cons.mp hs).2
  | statement h => exact (h.regular hg hs).1

theorem trees_within : ∀ steps spent, (within steps spent).Trees
  | 0, _ => by
    rw [within]
    exact ⟨by rintro _ _ ⟨⟩, by rintro _ _ ⟨⟩, by rintro _ _ ⟨⟩, by rintro _ _ ⟨⟩, by rintro _ _ ⟨⟩,
      by rintro _ _ _ ⟨⟩, by rintro _ _ _ ⟨⟩⟩
  | steps + 1, spent + 1 => by
    rw [within]
    exact trees_within steps spent
  | steps + 1, 0 => by
    rw [within]
    have h (spent : Nat) := trees_within steps spent
    exact ⟨Assignment.regular (h _), Assignment.regular (h _), Assignment.regular (h _),
      Ternary.regular (h _), Unary.regular (h _), Statement.regular (h _), Declaration.regular (h _)⟩

end Phrases

variable {limits : Limits} {source : String}

/-- A text that parses without a report has regular trees. -/
theorem regular_of_parse (h : (parse limits (scan source).tokens).diagnostics = []) :
    bodyRegular (parse limits (scan source).tokens).stmts := by
  obtain ⟨ts, e, heq, he, hts⟩ := spelled_scan source
  rw [heq] at h ⊢
  exact (program_of_parse (fun t ht => (hts t ht).2) he h).regular
    (Declaration.regular (trees_within _ _)) fun t ht => (hts t ht).1

/-- An expression that is a whole text is regular. -/
theorem regular_of_parseExpression? {e : Expr}
    (h : parseExpression? limits (scan source).tokens = some e) : e.Regular := by
  obtain ⟨ts, last, heq, he, hts⟩ := spelled_scan source
  rw [heq] at h
  have hphrase := assignment_of_parseExpression? (fun t ht => (hts t ht).2) he h
  exact hphrase.regular (trees_within _ _) fun t ht => (hts t ht).1

end Lox
