/-
# Parentheses and semicolons in phrases

In every phrase there are as many opening parentheses as closing ones
(`Lox.Paired`), and no expression has a semicolon (`Lox.Sealed`). So the
semicolons of a for-loop's header are those behind a parenthesis that is still
open, and all others end a statement.

Key definitions: `Lox.Paired`, `Lox.Sealed`, `Lox.Phrases.Seals`.
Key theorems: `Lox.Phrases.Assignment.seals`, `Lox.Phrases.Statement.paired`,
`Lox.Phrases.seals_within`.
-/
import Lox.Proofs.Grammar.Phrase

namespace Lox

/-- As many opening parentheses as closing ones. -/
def Paired (ts : List Token) : Prop :=
  (ts.countP fun t => t.kind = .leftParen) = ts.countP fun t => t.kind = .rightParen

/-- Paired parentheses and no semicolon. -/
structure Sealed (ts : List Token) : Prop where
  paired : Paired ts
  semicolon : ∀ t ∈ ts, t.kind ≠ .semicolon

section Paired

variable {ts us : List Token} {t l r : Token}

theorem paired_nil : Paired [] := rfl

theorem Paired.append (h : Paired ts) (g : Paired us) : Paired (ts ++ us) := by
  unfold Paired at h g ⊢
  rw [List.countP_append, List.countP_append, h, g]

theorem Paired.of_append (h : Paired ts) (g : Paired (ts ++ us)) : Paired us := by
  unfold Paired at h g ⊢
  rw [List.countP_append, List.countP_append, h] at g
  exact Nat.add_left_cancel g

theorem Paired.cons (ht : t.kind ≠ .leftParen ∧ t.kind ≠ .rightParen) (h : Paired ts) :
    Paired (t :: ts) := by
  unfold Paired at h ⊢
  rw [List.countP_cons_of_neg (by simpa using ht.1), List.countP_cons_of_neg (by simpa using ht.2), h]

theorem Paired.parens (hl : l.kind = .leftParen) (h : Paired ts) (hr : r.kind = .rightParen) :
    Paired (l :: ts ++ [r]) := by
  unfold Paired at h ⊢
  simp [List.countP_append, hl, hr, h]

/-- Behind an opening parenthesis that no token closes, the parentheses are not paired. -/
theorem not_paired_open (hl : l.kind = .leftParen) (h : Paired ts) : ¬ Paired (l :: ts) := by
  unfold Paired at h ⊢
  simp [hl, h]

theorem sealed_nil : Sealed [] := ⟨paired_nil, by simp⟩

theorem Sealed.append (h : Sealed ts) (g : Sealed us) : Sealed (ts ++ us) :=
  ⟨h.paired.append g.paired, by simpa [or_imp, forall_and] using ⟨h.semicolon, g.semicolon⟩⟩

theorem Sealed.cons (ht : t.kind ≠ .leftParen ∧ t.kind ≠ .rightParen ∧ t.kind ≠ .semicolon)
    (h : Sealed ts) : Sealed (t :: ts) :=
  ⟨h.paired.cons ⟨ht.1, ht.2.1⟩, List.forall_mem_cons.mpr ⟨ht.2.2, h.semicolon⟩⟩

theorem Sealed.parens (hl : l.kind = .leftParen) (h : Sealed ts) (hr : r.kind = .rightParen) :
    Sealed (l :: ts ++ [r]) :=
  ⟨h.paired.parens hl hr, by simpa [or_imp, forall_and, hl, hr] using h.semicolon⟩

end Paired

namespace Phrases

/-- What is further in is paired, and without a semicolon if it is an expression. -/
structure Seals (g : Phrases) : Prop where
  expr : ∀ ts e, g.expr ts e → Sealed ts
  middle : ∀ ts e, g.middle ts e → Sealed ts
  value : ∀ ts e, g.value ts e → Sealed ts
  ternary : ∀ ts e, g.ternary ts e → Sealed ts
  unary : ∀ ts e, g.unary ts e → Sealed ts
  statement : ∀ isOpen ts s, g.statement isOpen ts s → Paired ts
  declaration : ∀ isOpen ts s, g.declaration isOpen ts s → Paired ts

variable {g : Phrases} {ts : List Token} {e : Expr}

/-! ### Expressions -/

theorem Primary.seals (hg : g.Seals) (h : Primary g ts e) : Sealed ts := by
  cases h with
  | no h | yes h | nil h | name h | receiver h => exact .cons (by simp [h]) sealed_nil
  | constant h => exact .cons (by rcases h with h | h <;> simp [h]) sealed_nil
  | superMethod h hd hn =>
    exact .cons (by simp [h]) (.cons (by simp [hd]) (.cons (by simp [hn]) sealed_nil))
  | grouping hl h hr => exact .parens hl (hg.expr _ _ h) hr

theorem Arguments.seals (hg : g.Seals) {es : List Expr} (h : Arguments g ts es) : Sealed ts := by
  induction h with
  | last h => exact hg.expr _ _ h
  | more h hc _ ih => exact (hg.expr _ _ h).append (.cons (by simp [hc]) ih)

theorem Call.seals (hg : g.Seals) (h : Call g ts e) : Sealed ts := by
  induction h with
  | primary h => exact h.seals hg
  | call _ hl ha hr ih =>
    have hargs := ha
    rw [List.append_assoc]
    refine ih.append (.parens hl ?_ hr)
    cases hargs with
    | none => exact sealed_nil
    | some h => exact h.seals hg
  | get _ hd hn ih =>
    exact ih.append (.cons (by simp [hd]) (.cons (by simp [hn]) sealed_nil))

theorem Unary.seals (hg : g.Seals) (h : Unary g ts e) : Sealed ts := by
  cases h with
  | call h => exact h.seals hg
  | operator ho h => exact .cons (by rcases ho with h | h <;> simp [h]) (hg.unary _ _ h)

/-- No operator is a parenthesis or a semicolon. -/
theorem ops_plain : ∀ level ∈ levels, ∀ k ∈ level.ops,
    k ≠ .leftParen ∧ k ≠ .rightParen ∧ k ≠ .semicolon := by
  simp [levels]

theorem Binary.seals (hg : g.Seals) {ls : List Level} (h : Binary g ls ts e)
    (hls : ∀ level ∈ ls, ∀ k ∈ level.ops, k ≠ .leftParen ∧ k ≠ .rightParen ∧ k ≠ .semicolon) :
    Sealed ts := by
  induction h with
  | unary h => exact h.seals hg
  | operand _ ih => exact ih (List.forall_mem_cons.mp hls).2
  | operator _ ho _ ihl ihr =>
    exact (ihl hls).append (.cons ((List.forall_mem_cons.mp hls).1 _ ho)
      (ihr (List.forall_mem_cons.mp hls).2))

theorem Ternary.seals (hg : g.Seals) (h : Ternary g ts e) : Sealed ts := by
  cases h with
  | binary h => exact h.seals hg ops_plain
  | choice h hq hy hc hn =>
    rw [List.append_assoc]
    exact (h.seals hg ops_plain).append (.cons (by simp [hq]) ((hg.middle _ _ hy).append
      (.cons (by simp [hc]) (hg.ternary _ _ hn))))

theorem Assignment.seals (hg : g.Seals) (h : Assignment g ts e) : Sealed ts := by
  cases h with
  | ternary h => exact h.seals hg
  | name hn he hv => exact .cons (by simp [hn]) (.cons (by simp [he]) (hg.value _ _ hv))
  | property h hd hn he hv =>
    exact (h.seals hg).append (.cons (by simp [hd]) (.cons (by simp [hn])
      (.cons (by simp [he]) (hg.value _ _ hv))))

theorem OptionalExpr.seals (hg : g.Seals) {o : Option Expr} (h : OptionalExpr g ts o) : Sealed ts := by
  cases h with
  | none => exact sealed_nil
  | some h => exact h.seals hg

/-! ### Statements -/

theorem ExprStmt.paired (hg : g.Seals) {s : Stmt} (h : ExprStmt g ts s) : Paired ts := by
  cases h with
  | mk h hs => exact (h.seals hg).paired.append (.cons (by simp [hs]) paired_nil)

/-- A variable declaration ends with its only semicolon. -/
theorem VarDecl.sealed (hg : g.Seals) {s : Stmt} (h : VarDecl g ts s) :
    ∃ us semi, Sealed us ∧ semi.kind = .semicolon ∧ ts = us ++ [semi] := by
  cases h with
  | bare hn hs => exact ⟨[_], _, .cons (by simp [hn]) sealed_nil, hs, rfl⟩
  | initialized hn he h hs =>
    exact ⟨_ :: _ :: _, _, .cons (by simp [hn]) (.cons (by simp [he]) (h.seals hg)), hs, rfl⟩

theorem VarDecl.paired (hg : g.Seals) {s : Stmt} (h : VarDecl g ts s) : Paired ts := by
  obtain ⟨us, semi, hus, hs, rfl⟩ := h.sealed hg
  exact hus.paired.append (.cons (by simp [hs]) paired_nil)

theorem Row.paired {phrase : Bool → List Token → Stmt → Prop} {ss : List Stmt}
    (hp : ∀ isOpen ts s, phrase isOpen ts s → Paired ts) (h : Row phrase ts ss) : Paired ts := by
  induction h with
  | nil => exact paired_nil
  | cons h _ ih => exact (hp _ _ _ h).append ih

theorem Parameters.sealed {ms : List Mark} (h : Parameters ts ms) : Sealed ts := by
  induction h with
  | last h => exact .cons (by simp [h]) sealed_nil
  | more h hc _ ih => exact .cons (by simp [h]) (.cons (by simp [hc]) ih)

theorem ParameterList.sealed {ms : List Mark} (h : ParameterList ts ms) : Sealed ts := by
  cases h with
  | none => exact sealed_nil
  | some h => exact h.sealed

theorem Function.paired (hg : g.Seals) {f : Fun} (h : Function g ts f) : Paired ts := by
  cases h with
  | @mk name l r opening closing ts us params body hn hl hps hr ho hb hc =>
    have hparams := hps.sealed.paired.parens hl hr
    have hbody := ((Row.paired hg.declaration hb).append
      (.cons (by simp [hc]) paired_nil : Paired [closing])).cons (t := opening) (by simp [ho])
    have := (hparams.append hbody).cons (t := name) (by simp [hn])
    simpa using this

theorem Methods.paired (hg : g.Seals) {ms : List Fun} (h : Methods g ts ms) : Paired ts := by
  induction h with
  | nil => exact paired_nil
  | cons h _ ih => exact (h.paired hg).append ih

theorem Superclass.sealed {o : Option NameUse} (h : Superclass ts o) : Sealed ts := by
  cases h with
  | none => exact sealed_nil
  | some hl hn => exact .cons (by simp [hl]) (.cons (by simp [hn]) sealed_nil)

theorem ClassDecl.paired (hg : g.Seals) {s : Stmt} (h : ClassDecl g ts s) : Paired ts := by
  cases h with
  | mk hn hs ho hms hc =>
    rw [List.append_assoc]
    exact .cons (by simp [hn]) (hs.sealed.paired.append (.cons (by simp [ho])
      ((hms.paired hg).append (.cons (by simp [hc]) paired_nil))))

theorem ForInitializer.paired (hg : g.Seals) {o : Option Stmt} (h : ForInitializer g ts o) :
    Paired ts := by
  cases h with
  | none hs => exact .cons (by simp [hs]) paired_nil
  | var ht h => exact .cons (by simp [ht]) (h.paired hg)
  | expr h => exact h.paired hg

/-- The first clause of a for-loop ends with its only semicolon. -/
theorem ForInitializer.sealed (hg : g.Seals) {o : Option Stmt}
    (h : ForInitializer g ts o) : ∃ us semi, Sealed us ∧ semi.kind = .semicolon ∧ ts = us ++ [semi] := by
  cases h with
  | none hs => exact ⟨[], _, sealed_nil, hs, rfl⟩
  | var ht h =>
    obtain ⟨us, semi, hus, hs, rfl⟩ := h.sealed hg
    exact ⟨_ :: us, semi, .cons (by simp [ht]) hus, hs, rfl⟩
  | expr h =>
    cases h with
    | mk h hs => exact ⟨_, _, h.seals hg, hs, rfl⟩

theorem Statement.paired (hg : g.Seals) {isOpen : Bool} {s : Stmt} (h : Statement g isOpen ts s) :
    Paired ts := by
  cases h with
  | expr h => exact h.paired hg
  | print ht h hs =>
    exact .cons (by simp [ht]) ((h.seals hg).paired.append (.cons (by simp [hs]) paired_nil))
  | giveBack ht h hs =>
    exact .cons (by simp [ht]) ((h.seals hg).paired.append (.cons (by simp [hs]) paired_nil))
  | block hl h hr =>
    exact .cons (by simp [hl]) ((Row.paired hg.declaration h).append (.cons (by simp [hr]) paired_nil))
  | @loop _ t l r ts us cond body ht hl h hr hb =>
    have := (((h.seals hg).paired.parens hl hr).append (hg.statement _ _ _ hb)).cons (t := t)
      (by simp [ht])
    simpa using this
  | @branch _ t l r ts us cond yes ht hl h hr hy =>
    have := (((h.seals hg).paired.parens hl hr).append (hg.statement _ _ _ hy)).cons (t := t)
      (by simp [ht])
    simpa using this
  | @branchElse _ t l r other ts us vs cond yes no ht hl h hr hy ho hn =>
    have := (((h.seals hg).paired.parens hl hr).append ((hg.statement _ _ _ hy).append
      ((hg.statement _ _ _ hn).cons (t := other) (by simp [ho])))).cons (t := t) (by simp [ht])
    simpa using this
  | @forLoop _ t l semi r ts us vs ws initializer cond increment body ht hl hini hc hs hinc hr hb =>
    have := ((((hini.paired hg).append ((hc.seals hg).paired.append
      ((hinc.seals hg).paired.cons (t := semi) (by simp [hs])))).parens hl hr).append
        (hg.statement _ _ _ hb)).cons (t := t) (by simp [ht])
    simpa using this

theorem Declaration.paired (hg : g.Seals) {isOpen : Bool} {s : Stmt}
    (h : Declaration g isOpen ts s) : Paired ts := by
  cases h with
  | classDecl ht h => exact .cons (by simp [ht]) (h.paired hg)
  | function ht h => exact .cons (by simp [ht]) (h.paired hg)
  | var ht h => exact .cons (by simp [ht]) (h.paired hg)
  | statement h => exact h.paired hg

theorem seals_within : ∀ steps spent, (within steps spent).Seals
  | 0, _ => by
    rw [within]
    exact ⟨by rintro _ _ ⟨⟩, by rintro _ _ ⟨⟩, by rintro _ _ ⟨⟩, by rintro _ _ ⟨⟩, by rintro _ _ ⟨⟩,
      by rintro _ _ _ ⟨⟩, by rintro _ _ _ ⟨⟩⟩
  | steps + 1, spent + 1 => by
    rw [within]
    exact seals_within steps spent
  | steps + 1, 0 => by
    rw [within]
    have h (spent : Nat) := seals_within steps spent
    exact ⟨fun _ _ => Assignment.seals (h _), fun _ _ => Assignment.seals (h _),
      fun _ _ => Assignment.seals (h _), fun _ _ => Ternary.seals (h _),
      fun _ _ => Unary.seals (h _), fun _ _ _ => Statement.paired (h _),
      fun _ _ _ => Declaration.paired (h _)⟩

end Phrases

end Lox
