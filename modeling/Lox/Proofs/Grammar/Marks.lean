/-
# Marks and the tokens they come from

Each mark of a parsed tree comes from a token of the text, and no two of them
from the same one: a tree has no more marks of a sort than there are tokens
that it is made of (`Lox.Owns`). The tokens of a text stand at different
offsets, so the marks of its tree do.

Key definitions: `Lox.Expr.marks`, `Lox.Stmt.marks`, `Lox.Owns`.
Key theorems: `Lox.owns_of_parse`, `Lox.nodup_offsets_of_scan`, `Lox.nodup_offsets_of_parse`.
-/
import Lox.Proofs.Grammar.Regular
import Lox.Proofs.Scanner.Seam
import Mathlib.Data.List.Nodup
import Mathlib.Data.List.Perm.Subperm

namespace Lox

/-! ### Marks -/

mutual

/-- The marks in an expression, from left to right. -/
@[simp] def Expr.marks : Expr → List Mark
  | .literal _ | .stray _ => []
  | .grouping inner => inner.marks
  | .unary op operand => op :: operand.marks
  | .binary left op right | .logical left op right => left.marks ++ op :: right.marks
  | .ternary cond yes no => cond.marks ++ yes.marks ++ no.marks
  | .variable use | .receiver use => [use.name]
  | .assign use value => use.name :: value.marks
  | .call callee paren args => callee.marks ++ paren :: argMarks args
  | .get object name => object.marks ++ [name]
  | .set object name value => object.marks ++ name :: value.marks
  | .superMethod use method => [use.name, method]

@[simp] def argMarks : List Expr → List Mark
  | [] => []
  | arg :: args => arg.marks ++ argMarks args

end

def optionMarks : Option Expr → List Mark
  | none => []
  | some e => e.marks

mutual

/-- The marks in a statement. -/
@[simp] def Stmt.marks : Stmt → List Mark
  | .expr value | .print value => value.marks
  | .var name initial => name :: optionMarks initial
  | .block body => bodyMarks body
  | .branch cond yes none => cond.marks ++ yes.marks
  | .branch cond yes (some no) => cond.marks ++ yes.marks ++ no.marks
  | .loop cond body => cond.marks ++ body.marks
  | .function decl => functionMarks decl
  | .giveBack keyword value => keyword :: optionMarks value
  | .classDecl name none methods => name :: methodMarks methods
  | .classDecl name (some use) methods => name :: use.name :: methodMarks methods
  | .stray _ => []

@[simp] def bodyMarks : List Stmt → List Mark
  | [] => []
  | stmt :: body => stmt.marks ++ bodyMarks body

@[simp] def functionMarks : Fun → List Mark
  | ⟨name, params, body⟩ => name :: params ++ bodyMarks body

@[simp] def methodMarks : List Fun → List Mark
  | [] => []
  | method :: methods => functionMarks method ++ methodMarks methods

end

/-- There are no more marks of any sort than tokens that they come from. -/
def Owns (ts : List Token) (ms : List Mark) : Prop :=
  ∀ m, ms.count m ≤ (ts.map Token.mark).count m

namespace Phrases

/-- The trees of the phrases further in own their marks. -/
structure Owners (g : Phrases) : Prop where
  expr : ∀ {ts e}, g.expr ts e → Owns ts e.marks
  middle : ∀ {ts e}, g.middle ts e → Owns ts e.marks
  value : ∀ {ts e}, g.value ts e → Owns ts e.marks
  ternary : ∀ {ts e}, g.ternary ts e → Owns ts e.marks
  unary : ∀ {ts e}, g.unary ts e → Owns ts e.marks
  statement : ∀ {isOpen ts s}, g.statement isOpen ts s → Owns ts s.marks
  declaration : ∀ {isOpen ts s}, g.declaration isOpen ts s → Owns ts s.marks

variable {g : Phrases} {ts : List Token} {e : Expr}

theorem Primary.owns (hg : g.Owners) (h : Primary g ts e) : Owns ts e.marks := by
  intro m
  cases h with
  | no | yes | nil | constant => exact Nat.zero_le _
  | name | receiver => exact Nat.le_refl _
  | superMethod =>
    simp only [Expr.marks, NameUse.free, List.map_cons, List.map_nil, List.count_cons, List.count_nil]
    omega
  | grouping _ h _ =>
    have he := hg.expr h m
    simp only [Expr.marks, List.map_append, List.map_cons, List.count_append, List.count_cons]
    omega

theorem Arguments.owns (hg : g.Owners) {es : List Expr} (h : Arguments g ts es) :
    Owns ts (argMarks es) := by
  induction h with
  | last h =>
    intro m
    simpa [argMarks] using hg.expr h m
  | more h _ _ ih =>
    intro m
    have he := hg.expr h m
    have hes := ih m
    simp only [argMarks, List.map_append, List.map_cons, List.count_append, List.count_cons]
    omega

theorem Call.owns (hg : g.Owners) (h : Call g ts e) : Owns ts e.marks := by
  induction h with
  | primary h => exact h.owns hg
  | @call ts us e es _ _ _ _ ha _ ih =>
    intro m
    have hcallee := ih m
    have hargs : Owns us (argMarks es) := by
      cases ha with
      | none => exact fun _ => Nat.le_refl _
      | some h => exact h.owns hg
    have hargs := hargs m
    simp only [Expr.marks, List.map_append, List.map_cons, List.map_nil, List.count_append,
      List.count_cons, List.count_nil]
    omega
  | get _ _ _ ih =>
    intro m
    have hobject := ih m
    simp only [Expr.marks, List.map_append, List.map_cons, List.map_nil, List.count_append,
      List.count_cons, List.count_nil]
    omega

theorem Unary.owns (hg : g.Owners) (h : Unary g ts e) : Owns ts e.marks := by
  cases h with
  | call h => exact h.owns hg
  | operator _ h =>
    intro m
    have he := hg.unary h m
    simp only [Expr.marks, List.map_cons, List.count_cons]
    omega

theorem marks_levels : ∀ level ∈ levels, ∀ l op r,
    (level.node l op r).marks = l.marks ++ op :: r.marks := by
  simp only [levels, List.forall_mem_cons]
  refine ⟨?_, ?_, ?_, ?_, ?_, ?_, by simp⟩ <;> exact fun _ _ _ => rfl

theorem Binary.owns (hg : g.Owners) {ls : List Level}
    (hl : ∀ level ∈ ls, ∀ l op r, (level.node l op r).marks = l.marks ++ op :: r.marks)
    (h : Binary g ls ts e) : Owns ts e.marks := by
  induction h with
  | unary h => exact h.owns hg
  | operand _ ih => exact ih fun level hm => hl level (List.mem_cons_of_mem _ hm)
  | operator _ _ _ ihl ihr =>
    intro m
    have hleft := ihl hl m
    have hright := ihr (fun level hm => hl level (List.mem_cons_of_mem _ hm)) m
    rw [hl _ List.mem_cons_self]
    simp only [List.map_append, List.map_cons, List.count_append, List.count_cons]
    omega

theorem Ternary.owns (hg : g.Owners) (h : Ternary g ts e) : Owns ts e.marks := by
  cases h with
  | binary h => exact h.owns hg marks_levels
  | choice h _ hy _ hn =>
    intro m
    have hcond := h.owns hg marks_levels m
    have hyes := hg.middle hy m
    have hno := hg.ternary hn m
    simp only [Expr.marks, List.map_append, List.map_cons, List.count_append, List.count_cons]
    omega

theorem Assignment.owns (hg : g.Owners) (h : Assignment g ts e) : Owns ts e.marks := by
  cases h with
  | ternary h => exact h.owns hg
  | name _ _ hv =>
    intro m
    have hvalue := hg.value hv m
    simp only [Expr.marks, NameUse.free, List.map_cons, List.count_cons]
    omega
  | property ho _ _ _ hv =>
    intro m
    have hobject := ho.owns hg m
    have hvalue := hg.value hv m
    simp only [Expr.marks, List.map_append, List.map_cons, List.count_append, List.count_cons]
    omega

theorem OptionalExpr.owns (hg : g.Owners) {o : Option Expr} (h : OptionalExpr g ts o) :
    Owns ts (optionMarks o) := by
  cases h with
  | none => exact fun _ => Nat.le_refl _
  | some h => exact h.owns hg

theorem ExprStmt.owns (hg : g.Owners) {s : Stmt} (h : ExprStmt g ts s) : Owns ts s.marks := by
  cases h with
  | mk h =>
    intro m
    have he := h.owns hg m
    simp only [Stmt.marks, List.map_append, List.count_append]
    omega

theorem VarDecl.owns (hg : g.Owners) {s : Stmt} (h : VarDecl g ts s) : Owns ts s.marks := by
  intro m
  cases h with
  | bare =>
    simp only [Stmt.marks, optionMarks, List.map_cons, List.count_cons, List.count_nil]
    omega
  | initialized _ _ h =>
    have he := h.owns hg m
    simp only [Stmt.marks, optionMarks, List.map_append, List.map_cons, List.count_append,
      List.count_cons]
    omega

theorem Row.owns {phrase : Bool → List Token → Stmt → Prop}
    (hp : ∀ {isOpen ts s}, phrase isOpen ts s → Owns ts s.marks) {ss : List Stmt}
    (h : Row phrase ts ss) : Owns ts (bodyMarks ss) := by
  induction h with
  | nil => exact fun _ => Nat.le_refl _
  | cons h _ ih =>
    intro m
    have hs := hp h m
    have hss := ih m
    simp only [bodyMarks, List.map_append, List.count_append]
    omega

theorem Parameters.owns {ms : List Mark} (h : Parameters ts ms) : Owns ts ms := by
  induction h with
  | last => exact fun _ => Nat.le_refl _
  | more _ _ _ ih =>
    intro m
    have hms := ih m
    simp only [List.map_cons, List.count_cons]
    omega

theorem Function.owns (hg : g.Owners) {f : Fun} (h : Function g ts f) : Owns ts (functionMarks f) := by
  cases h with
  | @mk _ _ _ _ _ ts us params body _ _ hps _ _ hb _ =>
    intro m
    have hparams : Owns ts params := by
      cases hps with
      | none => exact fun _ => Nat.le_refl _
      | some h => exact h.owns
    have hparams := hparams m
    have hbody := hb.owns hg.declaration m
    simp only [functionMarks, List.map_append, List.map_cons, List.count_append, List.count_cons]
    omega

theorem Methods.owns (hg : g.Owners) {ms : List Fun} (h : Methods g ts ms) :
    Owns ts (methodMarks ms) := by
  induction h with
  | nil => exact fun _ => Nat.le_refl _
  | cons h _ ih =>
    intro m
    have hmethod := h.owns hg m
    have hms := ih m
    simp only [methodMarks, List.map_append, List.count_append]
    omega

theorem ClassDecl.owns (hg : g.Owners) {s : Stmt} (h : ClassDecl g ts s) : Owns ts s.marks := by
  cases h with
  | mk _ hs _ hms =>
    intro m
    have hmethods := hms.owns hg m
    cases hs with
    | none =>
      simp only [Stmt.marks, List.map_append, List.map_cons, List.count_append, List.count_cons]
      omega
    | some =>
      simp only [Stmt.marks, NameUse.free, List.map_append, List.map_cons, List.count_append,
        List.count_cons]
      omega

/-- The marks of a statement that may be absent. -/
theorem ForInitializer.owns (hg : g.Owners) {o : Option Stmt} (h : ForInitializer g ts o) :
    Owns ts (bodyMarks o.toList) := by
  cases h with
  | none => exact fun _ => Nat.zero_le _
  | var _ h =>
    intro m
    have hs := h.owns hg m
    simp only [Option.toList, bodyMarks, List.append_nil, List.map_cons, List.count_cons]
    omega
  | expr h =>
    intro m
    simpa [bodyMarks] using h.owns hg m

/-- A for-loop has the marks of its parts, in another order. -/
theorem count_marks_forLoop (initializer : Option Stmt) (cond increment : Option Expr) (body : Stmt)
    (m : Mark) : (forLoop initializer cond increment body).marks.count m =
      (bodyMarks initializer.toList).count m + (optionMarks cond).count m +
        (optionMarks increment).count m + body.marks.count m := by
  unfold forLoop
  cases initializer <;> cases cond <;> cases increment <;>
    simp [Stmt.marks, bodyMarks, optionMarks, Expr.marks] <;> omega

theorem Statement.owns (hg : g.Owners) {isOpen : Bool} {s : Stmt} (h : Statement g isOpen ts s) :
    Owns ts s.marks := by
  cases h with
  | expr h => exact h.owns hg
  | print _ h =>
    intro m
    have he := h.owns hg m
    simp only [Stmt.marks, List.map_append, List.map_cons, List.count_append, List.count_cons]
    omega
  | giveBack _ h =>
    intro m
    have he := h.owns hg m
    simp only [Stmt.marks, List.map_append, List.map_cons, List.count_append, List.count_cons]
    omega
  | block _ h =>
    intro m
    have hbody := h.owns hg.declaration m
    simp only [Stmt.marks, List.map_append, List.map_cons, List.count_append, List.count_cons]
    omega
  | loop _ _ h _ hb =>
    intro m
    have hcond := h.owns hg m
    have hbody := hg.statement hb m
    simp only [Stmt.marks, List.map_append, List.map_cons, List.count_append, List.count_cons]
    omega
  | branch _ _ h _ hy =>
    intro m
    have hcond := h.owns hg m
    have hyes := hg.statement hy m
    simp only [Stmt.marks, List.map_append, List.map_cons, List.count_append, List.count_cons]
    omega
  | branchElse _ _ h _ hy _ hn =>
    intro m
    have hcond := h.owns hg m
    have hyes := hg.statement hy m
    have hno := hg.statement hn m
    simp only [Stmt.marks, List.map_append, List.map_cons, List.count_append, List.count_cons]
    omega
  | forLoop _ _ hi hc _ hn _ hb =>
    intro m
    have hinitializer := hi.owns hg m
    have hcond := hc.owns hg m
    have hincrement := hn.owns hg m
    have hbody := hg.statement hb m
    rw [count_marks_forLoop]
    simp only [List.map_append, List.map_cons, List.count_append, List.count_cons]
    omega

theorem Declaration.owns (hg : g.Owners) {isOpen : Bool} {s : Stmt} (h : Declaration g isOpen ts s) :
    Owns ts s.marks := by
  have behind {t : Token} {us : List Token} {ms : List Mark} (hms : Owns us ms) : Owns (t :: us) ms := by
    intro m
    have hm := hms m
    simp only [List.map_cons, List.count_cons]
    omega
  cases h with
  | classDecl _ h => exact behind (h.owns hg)
  | function _ h => exact behind (h.owns hg)
  | var _ h => exact behind (h.owns hg)
  | statement h => exact h.owns hg

theorem owners_within : ∀ steps spent, (within steps spent).Owners
  | 0, _ => by
    rw [within]
    exact ⟨by rintro _ _ ⟨⟩, by rintro _ _ ⟨⟩, by rintro _ _ ⟨⟩, by rintro _ _ ⟨⟩, by rintro _ _ ⟨⟩,
      by rintro _ _ _ ⟨⟩, by rintro _ _ _ ⟨⟩⟩
  | steps + 1, spent + 1 => by
    rw [within]
    exact owners_within steps spent
  | steps + 1, 0 => by
    rw [within]
    have h (spent : Nat) := owners_within steps spent
    exact ⟨Assignment.owns (h _), Assignment.owns (h _), Assignment.owns (h _), Ternary.owns (h _),
      Unary.owns (h _), Statement.owns (h _), Declaration.owns (h _)⟩

end Phrases

/-! ### Texts -/

variable {limits : Limits} {source : String}

/-- The tokens of a text that is scanned without a report stand at different offsets. -/
theorem nodup_offsets_of_scan (h : (scan source).diagnostics = []) :
    ((scan source).tokens.dropLast.map Token.offset).Nodup := by
  obtain ⟨ts, hts⟩ := scans_of_scan h
  rw [scan_of_scans hts, List.dropLast_concat]
  exact hts.increasing.2.imp fun hlt => Int.ne_of_lt hlt

/-- The trees of a text own their marks among the tokens before the end. -/
theorem owns_of_parse (h : (parse limits (scan source).tokens).diagnostics = []) :
    Owns (scan source).tokens.dropLast (bodyMarks (parse limits (scan source).tokens).stmts) := by
  obtain ⟨ts, e, heq, he, hts⟩ := spelled_scan source
  rw [heq] at h ⊢
  rw [List.dropLast_concat]
  exact (program_of_parse (fun t ht => (hts t ht).2) he h).owns
    (Phrases.Declaration.owns (Phrases.owners_within _ _))

/-- Each mark is that of a token before the end. -/
theorem mem_tokens_of_parse (h : (parse limits (scan source).tokens).diagnostics = []) {m : Mark}
    (hm : m ∈ bodyMarks (parse limits (scan source).tokens).stmts) :
    ∃ t ∈ (scan source).tokens.dropLast, t.mark = m :=
  List.mem_map.mp (List.count_pos_iff.mp
    (Nat.lt_of_lt_of_le (List.count_pos_iff.mpr hm) (owns_of_parse h m)))

/-- No two marks of the trees of a text stand at one offset. -/
theorem nodup_offsets_of_parse (hs : (scan source).diagnostics = [])
    (h : (parse limits (scan source).tokens).diagnostics = []) :
    ((bodyMarks (parse limits (scan source).tokens).stmts).map Mark.offset).Nodup := by
  obtain ⟨ms, hperm, hsub⟩ := List.subperm_ext_iff.mpr fun m _ => owns_of_parse h m
  have hoffsets : ((scan source).tokens.dropLast.map Token.mark).map Mark.offset =
      ((scan source).tokens.dropLast.map Token.offset).map some := by
    simp [List.map_map, Function.comp_def]
  have hnodup : (((scan source).tokens.dropLast.map Token.mark).map Mark.offset).Nodup := by
    rw [hoffsets]
    exact (nodup_offsets_of_scan hs).map fun _ _ => Option.some.inj
  exact (hperm.map Mark.offset).nodup_iff.mp (hnodup.sublist (hsub.map Mark.offset))

end Lox
