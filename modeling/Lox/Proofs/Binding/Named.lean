/-
# Variables are named by names

The parser takes no other token than a name where a variable or a parameter
is declared, so in the program of a text each of them is a name.

Key definitions: `Lox.Opener.Named`, `Lox.Stmt.Named`.
Key theorems: `Lox.named_of_parse`.
-/
import Lox.Proofs.Binding.Distinct

namespace Lox

open Phrases

/-- The variables and parameters of the scope are names. -/
def Opener.Named (o : Opener) : Prop := ∀ m ∈ o.vars, m.kind = .identifier

/-- The variable that the statement declares is a name, if there is one, and so are those of the scopes
inside. -/
structure Stmt.Named (s : Stmt) : Prop where
  own : ∀ m ∈ s.var?, m.kind = .identifier
  inside : ∀ o ∈ s.openers, o.Named

/-! ### Scopes -/

theorem mem_bodyOpeners {o : Opener} : ∀ body : List Stmt,
    o ∈ bodyOpeners body ↔ ∃ s ∈ body, o ∈ s.openers
  | [] => by simp [bodyOpeners]
  | s :: body => by simp [bodyOpeners, mem_bodyOpeners body]

theorem named_bodyOpeners {body : List Stmt} (h : ∀ s ∈ body, s.Named) :
    ∀ o ∈ bodyOpeners body, o.Named := by
  intro o ho
  obtain ⟨s, hs, ho⟩ := (mem_bodyOpeners body).mp ho
  exact (h s hs).inside o ho

/-- A scope of named parameters and statements. -/
theorem Opener.named_of {o : Opener} (hp : ∀ m ∈ o.params, m.kind = .identifier)
    (hb : ∀ s ∈ o.body, s.Named) : o.Named := by
  intro m hm
  obtain hm | hm := List.mem_append.mp hm
  · exact hp m hm
  · obtain ⟨s, hs, hvar⟩ := List.mem_filterMap.mp hm
    exact (hb s hs).own m hvar

/-- A statement that declares no variable. -/
theorem Stmt.named_of_openers {s : Stmt} (hv : s.var? = none) (h : ∀ o ∈ s.openers, o.Named) :
    s.Named := by
  refine ⟨fun m hm => ?_, h⟩
  rw [hv] at hm
  cases hm

theorem Stmt.named_block {body : List Stmt} (h : ∀ s ∈ body, s.Named) : (Stmt.block body).Named :=
  named_of_openers rfl (List.forall_mem_cons.mpr
    ⟨Opener.named_of (List.forall_mem_nil _) h, named_bodyOpeners h⟩)

namespace Phrases

/-- The statements further in are named. -/
structure Names (g : Phrases) : Prop where
  statement : ∀ {isOpen ts s}, g.statement isOpen ts s → s.Named
  declaration : ∀ {isOpen ts s}, g.declaration isOpen ts s → s.Named

variable {g : Phrases} {ts : List Token}

theorem ExprStmt.named {s : Stmt} (h : ExprStmt g ts s) : s.Named := by
  cases h with
  | mk _ => exact Stmt.named_of_openers rfl (List.forall_mem_nil _)

theorem VarDecl.named {s : Stmt} (h : VarDecl g ts s) : s.Named := by
  cases h with
  | bare hn _ | initialized hn _ _ _ =>
    refine ⟨fun m hm => ?_, List.forall_mem_nil _⟩
    cases hm
    exact hn

theorem Row.named {phrase : Bool → List Token → Stmt → Prop}
    (hp : ∀ {isOpen ts s}, phrase isOpen ts s → s.Named) {ss : List Stmt}
    (h : Row phrase ts ss) : ∀ s ∈ ss, s.Named := by
  induction h with
  | nil => exact List.forall_mem_nil _
  | cons h _ ih => exact List.forall_mem_cons.mpr ⟨hp h, ih⟩

theorem Parameters.named {ms : List Mark} (h : Parameters ts ms) : ∀ m ∈ ms, m.kind = .identifier := by
  induction h with
  | last h => exact List.forall_mem_singleton.mpr h
  | more h _ _ ih => exact List.forall_mem_cons.mpr ⟨h, ih⟩

theorem Function.named (hg : g.Names) {f : Fun} (h : Function g ts f) :
    ∀ o ∈ functionOpeners f, o.Named := by
  cases h with
  | @mk _ _ _ _ _ _ _ params body _ _ hps _ _ hb _ =>
    have hparams : ∀ m ∈ params, m.kind = .identifier := by
      cases hps with
      | none => exact List.forall_mem_nil _
      | some h => exact h.named
    have hbody := hb.named hg.declaration
    exact List.forall_mem_cons.mpr ⟨Opener.named_of hparams hbody, named_bodyOpeners hbody⟩

theorem Methods.named (hg : g.Names) {ms : List Fun} (h : Methods g ts ms) :
    ∀ o ∈ methodOpeners ms, o.Named := by
  induction h with
  | nil => exact List.forall_mem_nil _
  | cons h _ ih => exact List.forall_mem_append.mpr ⟨h.named hg, ih⟩

theorem ClassDecl.named (hg : g.Names) {s : Stmt} (h : ClassDecl g ts s) : s.Named := by
  cases h with
  | @mk _ _ _ _ _ superclass _ _ _ _ hms =>
    have hmethods := hms.named hg
    refine Stmt.named_of_openers rfl ?_
    cases superclass with
    | none => exact List.forall_mem_cons.mpr ⟨List.forall_mem_nil _, hmethods⟩
    | some _ =>
      exact List.forall_mem_cons.mpr ⟨List.forall_mem_nil _,
        List.forall_mem_cons.mpr ⟨List.forall_mem_nil _, hmethods⟩⟩

theorem ForInitializer.named {o : Option Stmt} (h : ForInitializer g ts o) : ∀ s ∈ o, s.Named := by
  cases h with
  | none => exact fun _ hs => nomatch hs
  | var _ h =>
    intro s hs
    cases hs
    exact h.named
  | expr h =>
    intro s hs
    cases hs
    exact h.named

theorem named_forLoop {initializer : Option Stmt} (cond increment : Option Expr) {body : Stmt}
    (hi : ∀ s ∈ initializer, s.Named) (hb : body.Named) :
    (forLoop initializer cond increment body).Named := by
  have hloop : ∀ {c : Expr} {s : Stmt}, s.Named → (Stmt.loop c s).Named := fun hs =>
    Stmt.named_of_openers rfl hs.inside
  have hexpr : ∀ e : Expr, (Stmt.expr e).Named := fun e =>
    Stmt.named_of_openers rfl (List.forall_mem_nil _)
  have hblock : ∀ {s t : Stmt}, s.Named → t.Named → (Stmt.block [s, t]).Named := fun hs ht =>
    Stmt.named_block (List.forall_mem_cons.mpr ⟨hs, List.forall_mem_singleton.mpr ht⟩)
  cases increment with
  | none =>
    cases initializer with
    | none => exact hloop hb
    | some s => exact hblock (hi s rfl) (hloop hb)
  | some e =>
    cases initializer with
    | none => exact hloop (hblock hb (hexpr e))
    | some s => exact hblock (hi s rfl) (hloop (hblock hb (hexpr e)))

theorem Statement.named (hg : g.Names) {isOpen : Bool} {s : Stmt} (h : Statement g isOpen ts s) :
    s.Named := by
  cases h with
  | expr h => exact h.named
  | print _ _ _ | giveBack _ _ _ => exact Stmt.named_of_openers rfl (List.forall_mem_nil _)
  | block _ h _ => exact Stmt.named_block (h.named hg.declaration)
  | loop _ _ _ _ hb => exact Stmt.named_of_openers rfl (hg.statement hb).inside
  | branch _ _ _ _ hy => exact Stmt.named_of_openers rfl (hg.statement hy).inside
  | branchElse _ _ _ _ hy _ hn =>
    exact Stmt.named_of_openers rfl
      (List.forall_mem_append.mpr ⟨(hg.statement hy).inside, (hg.statement hn).inside⟩)
  | forLoop _ _ hi _ _ _ _ hb => exact named_forLoop _ _ hi.named (hg.statement hb)

theorem Declaration.named (hg : g.Names) {isOpen : Bool} {s : Stmt} (h : Declaration g isOpen ts s) :
    s.Named := by
  cases h with
  | classDecl _ h => exact h.named hg
  | function _ h => exact Stmt.named_of_openers rfl (h.named hg)
  | var _ h => exact h.named
  | statement h => exact h.named hg

theorem names_within : ∀ steps spent, (within steps spent).Names
  | 0, _ => by
    rw [within]
    exact ⟨by rintro _ _ _ ⟨⟩, by rintro _ _ _ ⟨⟩⟩
  | steps + 1, spent + 1 => by
    rw [within]
    exact names_within steps spent
  | steps + 1, 0 => by
    rw [within]
    exact ⟨Statement.named (names_within steps _), Declaration.named (names_within steps _)⟩

end Phrases

/-- In the program of a text variables and parameters are names. -/
theorem named_of_parse {limits : Limits} {source : String}
    (h : (parse limits (scan source).tokens).diagnostics = []) :
    ∀ o ∈ bodyOpeners (parse limits (scan source).tokens).stmts, o.Named := by
  obtain ⟨ts, e, heq, he, hts⟩ := spelled_scan source
  rw [heq] at h ⊢
  exact named_bodyOpeners ((program_of_parse (fun t ht => (hts t ht).2) he h).named
    (Declaration.named (names_within _ _)))

end Lox
