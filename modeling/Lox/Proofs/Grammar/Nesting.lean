/-
# Derivations make phrases

What is derived from a symbol is a phrase with a tree, if so many steps are
left as it takes for the nesting; the way from one symbol to itself passes at
least one token, so that `nestingSteps` for each token suffice
(`Lox.Parses`). The repetitions of a rule are folded into the trees that lean
to the left, and a conditional without `else` before an `else` gives it to the
nearest `if` (`Lox.exists_statement_else`).

Key definitions: `Lox.Tree`, `Lox.Parses`, `Lox.Means`.
Key theorems: `Lox.parses_of_means`, `Lox.Derives.parses`.
-/
import Lox.Proofs.Grammar.Derivation
import Lox.Proofs.Grammar.Lenient.Phrase

namespace Lox

open Phrases

theorem nestingSteps_eq : nestingSteps = 18 := rfl

namespace Phrases

theorem within_drop : ∀ steps spent, within steps spent = within (steps - spent) 0
  | 0, _ => by rw [Nat.zero_sub, within, within]
  | _ + 1, 0 => rfl
  | steps + 1, spent + 1 => by rw [within, within_drop steps spent, Nat.add_sub_add_right]

/-- What is further in has fewer steps. -/
theorem within_of_pos {m : Nat} (h : 0 < m) : within m 0 =
    { expr := Assignment (within (m - nestingSteps) 0)
      middle := Assignment (within (m - 3) 0)
      value := Assignment (within (m - 1) 0)
      ternary := Ternary (within (m - 1) 0)
      unary := Unary (within (m - 1) 0)
      statement := Statement (within (m - 2) 0)
      declaration := Declaration (within (m - 3) 0) } := by
  obtain ⟨m, rfl⟩ : ∃ n, m = n + 1 := ⟨m - 1, by omega⟩
  rw [within, within_drop m (nestingSteps - 1), within_drop m 2, within_drop m 1]
  rfl

end Phrases

/-- The tokens are phrases of the symbol with a tree, with so many steps left. Arguments are within
parentheses, and there are the steps for these too. -/
def Tree (m : Nat) : Symbol → List Token → Prop
  | .program, ts => ∃ us e ss, Program (within m 0) us ss ∧ e.kind = .eof ∧ ts = us ++ [e]
  | .declaration, ts | .classDecl, ts | .funDecl, ts =>
    ∃ isOpen s, Declaration (within m 0) isOpen ts s
  | .varDecl, ts => ∃ t us s, t.kind = .kwVar ∧ VarDecl (within m 0) us s ∧ ts = t :: us
  | .function, ts => ∃ f, Function (within m 0) ts f
  | .statement, ts | .forStmt, ts | .ifStmt, ts | .printStmt, ts | .returnStmt, ts
  | .whileStmt, ts => ∃ isOpen s, Statement (within m 0) isOpen ts s
  | .exprStmt, ts => ∃ s, ExprStmt (within m 0) ts s
  | .block, ts => ∃ l us r body, l.kind = .leftBrace ∧ Row (within m 0).declaration us body ∧
      r.kind = .rightBrace ∧ ts = l :: us ++ [r]
  | .expression, ts | .assignment, ts => ∃ e, Assignment (within m 0) ts e
  | .ternary, ts => ∃ e, Ternary (within m 0) ts e
  | .logicOr, ts => ∃ e, Binary (within m 0) levels ts e
  | .logicAnd, ts => ∃ e, Binary (within m 0) (levels.drop 1) ts e
  | .equality, ts => ∃ e, Binary (within m 0) (levels.drop 2) ts e
  | .comparison, ts => ∃ e, Binary (within m 0) (levels.drop 3) ts e
  | .term, ts => ∃ e, Binary (within m 0) (levels.drop 4) ts e
  | .factor, ts => ∃ e, Binary (within m 0) (levels.drop 5) ts e
  | .unary, ts => ∃ e, Unary (within m 0) ts e
  | .call, ts => ∃ e, Call (within m 0) ts e
  | .primary, ts => ∃ e, Primary (within m 0) ts e
  | .arguments, ts => ∃ es, Arguments (within (m + nestingSteps) 0) ts es ∧ es.length ≤ maxArgs
  | .parameters, ts => ∃ ms, Parameters ts ms ∧ ms.length ≤ maxArgs

/-- There is a tree for the tokens with enough steps. -/
def Parses (s : Symbol) (ts : List Token) : Prop :=
  ∀ m, nestingSteps * ts.length ≤ m → Tree m s ts

/-- The tokens are put together as the rule says, with trees for its symbols. -/
def Means : Rule → List Token → Prop
  | .empty, ts => ts = []
  | .token kind, ts => ∃ t, t.kind = kind ∧ ts = [t]
  | .symbol s, ts => Parses s ts
  | .seq f f', ts => ∃ us vs, Means f us ∧ Means f' vs ∧ ts = us ++ vs
  | .alt f f', ts => Means f ts ∨ Means f' ts
  | .star f, ts => ∃ segs : List (List Token), (∀ us ∈ segs, Means f us) ∧ ts = segs.flatten
  | .upTo n f, ts =>
    ∃ segs : List (List Token), segs.length ≤ n ∧ (∀ us ∈ segs, Means f us) ∧ ts = segs.flatten

theorem Means.any {ks : List TokenKind} (hk : ks ≠ []) {ts : List Token}
    (h : Means (.any (ks.map .token)) ts) : ∃ t, t.kind ∈ ks ∧ ts = [t] := by
  induction ks with
  | nil => exact absurd rfl hk
  | cons k ks ih =>
    cases ks with
    | nil =>
      obtain ⟨t, ht, rfl⟩ := h
      exact ⟨t, by simp [ht], rfl⟩
    | cons k' ks =>
      rcases h with ⟨t, ht, rfl⟩ | h
      · exact ⟨t, by simp [ht], rfl⟩
      · obtain ⟨t, ht, rfl⟩ := ih (by simp) h
        exact ⟨t, List.mem_cons_of_mem _ ht, rfl⟩

/-! ### Trees further in -/

section Further

variable {ts : List Token} {m : Nat}

theorem Parses.expr (h : Parses .expression ts) (hm : nestingSteps * (ts.length + 1) ≤ m) :
    ∃ e, (within m 0).expr ts e := by
  rw [nestingSteps_eq] at hm
  rw [within_of_pos (by omega)]
  exact h _ (by rw [nestingSteps_eq]; omega)

theorem Parses.middle (h : Parses .expression ts) (hm : nestingSteps * (ts.length + 1) ≤ m) :
    ∃ e, (within m 0).middle ts e := by
  rw [nestingSteps_eq] at hm
  rw [within_of_pos (by omega)]
  exact h _ (by rw [nestingSteps_eq]; omega)

theorem Parses.value (h : Parses .assignment ts) (hm : nestingSteps * (ts.length + 1) ≤ m) :
    ∃ e, (within m 0).value ts e := by
  rw [nestingSteps_eq] at hm
  rw [within_of_pos (by omega)]
  exact h _ (by rw [nestingSteps_eq]; omega)

theorem Parses.ternary (h : Parses .ternary ts) (hm : nestingSteps * (ts.length + 1) ≤ m) :
    ∃ e, (within m 0).ternary ts e := by
  rw [nestingSteps_eq] at hm
  rw [within_of_pos (by omega)]
  exact h _ (by rw [nestingSteps_eq]; omega)

theorem Parses.unary (h : Parses .unary ts) (hm : nestingSteps * (ts.length + 1) ≤ m) :
    ∃ e, (within m 0).unary ts e := by
  rw [nestingSteps_eq] at hm
  rw [within_of_pos (by omega)]
  exact h _ (by rw [nestingSteps_eq]; omega)

theorem Parses.statement (h : Parses .statement ts) (hm : nestingSteps * (ts.length + 1) ≤ m) :
    ∃ isOpen s, (within m 0).statement isOpen ts s := by
  rw [nestingSteps_eq] at hm
  rw [within_of_pos (by omega)]
  exact h _ (by rw [nestingSteps_eq]; omega)

theorem Parses.declaration (h : Parses .declaration ts) (hm : nestingSteps * (ts.length + 1) ≤ m) :
    ∃ isOpen s, (within m 0).declaration isOpen ts s := by
  rw [nestingSteps_eq] at hm
  rw [within_of_pos (by omega)]
  exact h _ (by rw [nestingSteps_eq]; omega)

end Further

/-! ### Expressions -/

variable {ts : List Token}

theorem parses_primary (h : Means (production .primary) ts) : Parses .primary ts := by
  intro m hm
  rcases h with ⟨t, ht, rfl⟩ | ⟨t, ht, rfl⟩ | ⟨t, ht, rfl⟩ | ⟨t, ht, rfl⟩ | ⟨t, ht, rfl⟩ |
    ⟨t, ht, rfl⟩ | ⟨_, _, ⟨l, hl, rfl⟩, ⟨us, _, h, ⟨r, hr, rfl⟩, rfl⟩, rfl⟩ | ⟨t, ht, rfl⟩ |
    ⟨_, _, ⟨t, ht, rfl⟩, ⟨_, _, ⟨dot, hd, rfl⟩, ⟨name, hn, rfl⟩, rfl⟩, rfl⟩
  · exact ⟨_, .yes ht⟩
  · exact ⟨_, .no ht⟩
  · exact ⟨_, .nil ht⟩
  · exact ⟨_, .constant (.inl ht)⟩
  · exact ⟨_, .constant (.inr ht)⟩
  · exact ⟨_, .name ht⟩
  · obtain ⟨e, he⟩ := h.expr (m := m) (by
      simp only [List.length_append, List.length_cons, List.length_nil, nestingSteps_eq] at hm ⊢
      omega)
    exact ⟨_, .grouping hl he hr⟩
  · exact ⟨_, .receiver ht⟩
  · exact ⟨_, .superMethod ht hd hn⟩

theorem exists_arguments {m : Nat} {segs : List (List Token)}
    (hs : ∀ us ∈ segs, Means (.all [.token .comma, .symbol .expression]) us) : ∀ {ts : List Token},
    Parses .expression ts → nestingSteps * (ts ++ segs.flatten).length ≤ m →
      ∃ es, Arguments (within (m + nestingSteps) 0) (ts ++ segs.flatten) es ∧
        es.length = segs.length + 1 := by
  induction segs with
  | nil =>
    intro ts h hm
    simp only [List.flatten_nil, List.append_nil, nestingSteps_eq] at hm ⊢
    obtain ⟨e, he⟩ := h.expr (m := m + 18) (by rw [nestingSteps_eq]; omega)
    exact ⟨[e], .last he, rfl⟩
  | cons seg segs ih =>
    intro ts h hm
    obtain ⟨_, us, ⟨comma, hc, rfl⟩, hu, rfl⟩ := hs seg List.mem_cons_self
    simp only [List.flatten_cons, List.length_append, List.length_cons, List.length_nil,
      nestingSteps_eq] at hm
    obtain ⟨e, he⟩ := h.expr (m := m + nestingSteps) (by rw [nestingSteps_eq]; omega)
    obtain ⟨es, hes, hn⟩ := ih (fun us hu => hs us (List.mem_cons_of_mem _ hu)) hu
      (by rw [nestingSteps_eq, List.length_append]; omega)
    exact ⟨e :: es, by simpa using Arguments.more he hc hes, by rw [List.length_cons, hn,
      List.length_cons]⟩

theorem parses_arguments (h : Means (production .arguments) ts) : Parses .arguments ts := by
  intro m hm
  obtain ⟨us, _, hu, ⟨segs, hn, hs, rfl⟩, rfl⟩ := h
  obtain ⟨es, hes, hl⟩ := exists_arguments hs hu hm
  exact ⟨es, hes, by unfold maxArgs at hn ⊢; omega⟩

theorem exists_parameters {segs : List (List Token)}
    (hs : ∀ us ∈ segs, Means (.all [.token .comma, .token .identifier]) us) : ∀ {t : Token},
    t.kind = .identifier → ∃ ms, Parameters (t :: segs.flatten) ms ∧ ms.length = segs.length + 1 := by
  induction segs with
  | nil => exact fun h => ⟨_, .last h, rfl⟩
  | cons seg segs ih =>
    intro t h
    obtain ⟨_, _, ⟨comma, hc, rfl⟩, ⟨t', ht', rfl⟩, rfl⟩ := hs seg List.mem_cons_self
    obtain ⟨ms, hms, hn⟩ := ih (fun us hu => hs us (List.mem_cons_of_mem _ hu)) ht'
    exact ⟨t.mark :: ms, .more h hc hms, by rw [List.length_cons, hn, List.length_cons]⟩

theorem parses_parameters (h : Means (production .parameters) ts) : Parses .parameters ts := by
  intro m _
  obtain ⟨_, _, ⟨t, ht, rfl⟩, ⟨segs, hn, hs, rfl⟩, rfl⟩ := h
  obtain ⟨ms, hms, hl⟩ := exists_parameters hs ht
  exact ⟨ms, hms, by unfold maxArgs at hn ⊢; omega⟩

/-- Calls and properties are added to a call one after the other. -/
theorem exists_call {m : Nat} {segs : List (List Token)}
    (hs : ∀ us ∈ segs, Means (.any [.all [.token .leftParen, .opt (.symbol .arguments),
      .token .rightParen], .all [.token .dot, .token .identifier]]) us) :
    ∀ {ts e}, Call (within m 0) ts e → nestingSteps * (ts ++ segs.flatten).length ≤ m →
      ∃ e', Call (within m 0) (ts ++ segs.flatten) e' := by
  induction segs with
  | nil => exact fun h _ => ⟨_, by simpa using h⟩
  | cons seg segs ih =>
    intro ts e h hm
    have hrest := fun us hu => hs us (List.mem_cons_of_mem _ hu)
    rw [List.flatten_cons, ← List.append_assoc] at hm ⊢
    rcases hs seg List.mem_cons_self with ⟨_, _, ⟨l, hl, rfl⟩, ⟨us, _, ha, ⟨r, hr, rfl⟩, rfl⟩, rfl⟩ |
      ⟨_, _, ⟨dot, hd, rfl⟩, ⟨name, hn, rfl⟩, rfl⟩
    · have hargs : ∃ es, ArgumentList (within m 0) us es := by
        rcases ha with rfl | ha
        · exact ⟨[], .none⟩
        · simp only [List.length_append, List.length_cons, List.length_nil, nestingSteps_eq] at hm
          obtain ⟨es, hes, hn⟩ := ha (m - nestingSteps) (by rw [nestingSteps_eq]; omega)
          rw [nestingSteps_eq, Nat.sub_add_cancel (by omega)] at hes
          exact ⟨es, .some hes hn⟩
      obtain ⟨es, hes⟩ := hargs
      exact ih hrest (by simpa using Call.call h hl hes hr) hm
    · exact ih hrest (.get h hd hn) hm

theorem parses_call (h : Means (production .call) ts) : Parses .call ts := by
  intro m hm
  obtain ⟨us, _, hu, ⟨segs, hs, rfl⟩, rfl⟩ := h
  obtain ⟨e, he⟩ := hu m (by
    rw [List.length_append, nestingSteps_eq] at hm
    rw [nestingSteps_eq]
    omega)
  exact exists_call hs (.primary he) hm

theorem parses_unary (h : Means (production .unary) ts) : Parses .unary ts := by
  intro m hm
  rcases h with ⟨_, us, ho, hu, rfl⟩ | h
  · obtain ⟨op, hop, rfl⟩ := Means.any (show [TokenKind.bang, .minus] ≠ [] by simp) ho
    obtain ⟨e, he⟩ := hu.unary (m := m) (by
      simp only [List.length_append, List.length_cons, List.length_nil, nestingSteps_eq] at hm ⊢
      omega)
    exact ⟨_, .operator (by simpa using hop) he⟩
  · obtain ⟨e, he⟩ := h m hm
    exact ⟨e, .call he⟩

section Operators

variable (level : Level) (tighter : List Level) (operand : Symbol)
  (ho : ∀ {us m}, Tree m operand us → ∃ e, Binary (within m 0) tighter us e)
include ho

/-- Operators and right operands are added to a left one, one after the other. -/
theorem exists_binary (hl : level.ops ≠ []) {m : Nat} {segs : List (List Token)}
    (hs : ∀ us ∈ segs, Means (.seq (.any (level.ops.map .token)) (.symbol operand)) us) :
    ∀ {ts e}, Binary (within m 0) (level :: tighter) ts e →
      nestingSteps * (ts ++ segs.flatten).length ≤ m →
      ∃ e', Binary (within m 0) (level :: tighter) (ts ++ segs.flatten) e' := by
  induction segs with
  | nil => exact fun h _ => ⟨_, by simpa using h⟩
  | cons seg segs ih =>
    intro ts e h hm
    obtain ⟨_, us, hop, hu, rfl⟩ := hs seg List.mem_cons_self
    obtain ⟨op, hk, rfl⟩ := Means.any hl hop
    rw [List.flatten_cons, ← List.append_assoc] at hm ⊢
    have hu := hu m (by
      simp only [List.length_append, nestingSteps_eq] at hm ⊢
      omega)
    obtain ⟨e', he⟩ := ho hu
    exact ih (fun us hu => hs us (List.mem_cons_of_mem _ hu)) (.operator h hk he) hm

theorem binary_of_operators (hl : level.ops ≠ []) (h : Means (.operators level.ops operand) ts)
    {m : Nat} (hm : nestingSteps * ts.length ≤ m) :
    ∃ e, Binary (within m 0) (level :: tighter) ts e := by
  obtain ⟨us, _, hu, ⟨segs, hs, rfl⟩, rfl⟩ := h
  have hu := hu m (by
    rw [List.length_append, nestingSteps_eq] at hm
    rw [nestingSteps_eq]
    omega)
  obtain ⟨e, he⟩ := ho hu
  exact exists_binary level tighter operand ho hl hs (.operand he) hm

end Operators

theorem parses_ternary (h : Means (production .ternary) ts) : Parses .ternary ts := by
  intro m hm
  obtain ⟨us, _, hu, h, rfl⟩ := h
  simp only [List.length_append, nestingSteps_eq] at hm
  obtain ⟨cond, hc⟩ := hu m (by rw [nestingSteps_eq]; omega)
  rcases h with rfl | ⟨_, _, ⟨question, hq, rfl⟩, ⟨vs, _, hy, ⟨_, ws, ⟨colon, hk, rfl⟩, hn, rfl⟩, rfl⟩,
    rfl⟩
  · exact ⟨cond, by simpa using .binary hc⟩
  · simp only [List.length_append, List.length_cons, List.length_nil] at hm
    obtain ⟨yes, hy⟩ := hy.middle (m := m) (by rw [nestingSteps_eq]; omega)
    obtain ⟨no, hn⟩ := hn.ternary (m := m) (by rw [nestingSteps_eq]; omega)
    have := Ternary.choice hc hq hy hk hn
    exact ⟨_, by simpa using this⟩

theorem parses_assignment (h : Means (production .assignment) ts) : Parses .assignment ts := by
  intro m hm
  rcases h with ⟨us, _, ho, ⟨_, _, ⟨name, hn, rfl⟩, ⟨_, vs, ⟨equal, he, rfl⟩, hv, rfl⟩, rfl⟩, rfl⟩ | h
  · simp only [List.length_append, List.length_cons, List.length_nil, nestingSteps_eq] at hm
    obtain ⟨e, hv⟩ := hv.value (m := m) (by rw [nestingSteps_eq]; omega)
    rcases ho with rfl | ⟨us, _, hu, ⟨dot, hd, rfl⟩, rfl⟩
    · exact ⟨_, .name hn he hv⟩
    · simp only [List.length_append, List.length_cons, List.length_nil] at hm
      obtain ⟨object, ho⟩ := hu m (by rw [nestingSteps_eq]; omega)
      have := Assignment.property ho hd hn he hv
      exact ⟨_, by simpa using this⟩
  · obtain ⟨e, he⟩ := h m hm
    exact ⟨e, .ternary he⟩

/-- The tokens of an optional expression. -/
theorem exists_optionalExpr {m : Nat} (h : Means (.opt (.symbol .expression)) ts)
    (hm : nestingSteps * ts.length ≤ m) : ∃ o, OptionalExpr (within m 0) ts o := by
  rcases h with rfl | h
  · exact ⟨none, .none⟩
  · obtain ⟨e, he⟩ := h m hm
    exact ⟨some e, .some he⟩

/-! ### Statements -/

/-- A statement that an `else` may belong to, then `else` and a statement: with the nearest `if` that
has none, this is a statement. -/
theorem exists_statement_else {other : Token} {vs : List Token} (ho : other.kind = .kwElse)
    (hv : Parses .statement vs) : ∀ n m us yes, us.length ≤ n →
      nestingSteps * (us.length + 1 + vs.length) ≤ m → Statement (within m 0) true us yes →
        ∃ isOpen s, Statement (within m 0) isOpen (us ++ other :: vs) s
  | 0, m, us, yes, hn, _, h => by
    obtain ⟨t, _, rfl, -⟩ := h.begins
    simp at hn
  | n + 1, m, us, yes, hn, hm, h => by
    have ih := exists_statement_else ho hv n (m - 2)
    rw [nestingSteps_eq] at hm ih
    have hg : (within m 0).statement = Statement (within (m - 2) 0) := by
      rw [within_of_pos (by omega)]
    cases h with
    | @loop _ t l r ts us cond body ht hl hc hr hb =>
      simp only [List.length_append, List.length_cons] at hn hm
      rw [hg] at hb
      obtain ⟨isOpen, s, hs⟩ := ih us body (by omega) (by omega) hb
      have := Statement.loop ht hl hc hr (hg ▸ hs)
      exact ⟨isOpen, _, by simpa using this⟩
    | @forLoop _ t l semi r ts us vs ws initializer cond increment body ht hl hini hc hs hinc hr hb =>
      simp only [List.length_append, List.length_cons] at hn hm
      rw [hg] at hb
      obtain ⟨isOpen, s, hb⟩ := ih ws body (by omega) (by omega) hb
      have := Statement.forLoop ht hl hini hc hs hinc hr (hg ▸ hb)
      exact ⟨isOpen, _, by simpa using this⟩
    | @branch isOpen t l r ts us cond yes ht hl hc hr hy =>
      simp only [List.length_append, List.length_cons] at hn hm
      cases isOpen with
      | true =>
        rw [hg] at hy
        obtain ⟨isOpen, s, hs⟩ := ih us yes (by omega) (by omega) hy
        have := Statement.branch ht hl hc hr (hg ▸ hs)
        exact ⟨true, _, by simpa using this⟩
      | false =>
        obtain ⟨isOpen, s, hs⟩ := hv.statement (m := m) (by rw [nestingSteps_eq]; omega)
        have := Statement.branchElse ht hl hc hr hy ho hs
        exact ⟨isOpen, _, by simpa using this⟩
    | @branchElse _ t l r other' ts us ws cond yes no ht hl hc hr hy ho' hn' =>
      simp only [List.length_append, List.length_cons] at hn hm
      rw [hg] at hn'
      obtain ⟨isOpen, s, hs⟩ := ih ws no (by omega) (by omega) hn'
      have := Statement.branchElse ht hl hc hr hy ho' (hg ▸ hs)
      exact ⟨isOpen, _, by simpa using this⟩

theorem parses_exprStmt (h : Means (production .exprStmt) ts) : Parses .exprStmt ts := by
  intro m hm
  obtain ⟨us, _, hu, ⟨semi, hs, rfl⟩, rfl⟩ := h
  simp only [List.length_append, nestingSteps_eq] at hm
  obtain ⟨e, he⟩ := hu m (by rw [nestingSteps_eq]; omega)
  exact ⟨_, .mk he hs⟩

theorem parses_varDecl (h : Means (production .varDecl) ts) : Parses .varDecl ts := by
  intro m hm
  obtain ⟨_, _, ⟨t, ht, rfl⟩, ⟨_, _, ⟨name, hn, rfl⟩, ⟨us, _, hu, ⟨semi, hs, rfl⟩, rfl⟩, rfl⟩, rfl⟩ := h
  rcases hu with rfl | ⟨_, us, ⟨equal, he, rfl⟩, hu, rfl⟩
  · exact ⟨_, _, _, ht, .bare hn hs, rfl⟩
  · simp only [List.length_append, List.length_cons, List.length_nil, nestingSteps_eq] at hm
    obtain ⟨e, hu⟩ := hu m (by rw [nestingSteps_eq]; omega)
    exact ⟨_, _, _, ht, .initialized hn he hu hs, rfl⟩

theorem parses_printStmt (h : Means (production .printStmt) ts) : Parses .printStmt ts := by
  intro m hm
  obtain ⟨_, _, ⟨t, ht, rfl⟩, ⟨us, _, hu, ⟨semi, hs, rfl⟩, rfl⟩, rfl⟩ := h
  simp only [List.length_append, List.length_cons, List.length_nil, nestingSteps_eq] at hm
  obtain ⟨e, hu⟩ := hu m (by rw [nestingSteps_eq]; omega)
  exact ⟨_, _, .print ht hu hs⟩

theorem parses_returnStmt (h : Means (production .returnStmt) ts) : Parses .returnStmt ts := by
  intro m hm
  obtain ⟨_, _, ⟨t, ht, rfl⟩, ⟨us, _, hu, ⟨semi, hs, rfl⟩, rfl⟩, rfl⟩ := h
  simp only [List.length_append, List.length_cons, List.length_nil, nestingSteps_eq] at hm
  obtain ⟨o, hu⟩ := exists_optionalExpr (m := m) hu (by rw [nestingSteps_eq]; omega)
  exact ⟨_, _, .giveBack ht hu hs⟩

theorem parses_whileStmt (h : Means (production .whileStmt) ts) : Parses .whileStmt ts := by
  intro m hm
  obtain ⟨_, _, ⟨t, ht, rfl⟩, ⟨_, _, ⟨l, hl, rfl⟩, ⟨us, _, hu, ⟨_, vs, ⟨r, hr, rfl⟩, hv, rfl⟩, rfl⟩, rfl⟩,
    rfl⟩ := h
  simp only [List.length_append, List.length_cons, List.length_nil, nestingSteps_eq] at hm
  obtain ⟨cond, hc⟩ := hu m (by rw [nestingSteps_eq]; omega)
  obtain ⟨isOpen, body, hb⟩ := hv.statement (m := m) (by rw [nestingSteps_eq]; omega)
  exact ⟨_, _, .loop ht hl hc hr hb⟩

theorem parses_ifStmt (h : Means (production .ifStmt) ts) : Parses .ifStmt ts := by
  intro m hm
  obtain ⟨_, _, ⟨t, ht, rfl⟩, ⟨_, _, ⟨l, hl, rfl⟩, ⟨us, _, hu, ⟨_, _, ⟨r, hr, rfl⟩, ⟨vs, _, hv, ho, rfl⟩,
    rfl⟩, rfl⟩, rfl⟩, rfl⟩ := h
  simp only [List.length_append, List.length_cons, List.length_nil, nestingSteps_eq] at hm
  obtain ⟨cond, hc⟩ := hu m (by rw [nestingSteps_eq]; omega)
  obtain ⟨isOpen, yes, hy⟩ := hv.statement (m := m) (by rw [nestingSteps_eq]; omega)
  rcases ho with rfl | ⟨_, ws, ⟨other, ho, rfl⟩, hw, rfl⟩
  · have := Statement.branch ht hl hc hr hy
    exact ⟨_, _, by simpa using this⟩
  · simp only [List.length_append, List.length_cons, List.length_nil] at hm
    cases isOpen with
    | false =>
      obtain ⟨isOpen, no, hn⟩ := hw.statement (m := m) (by rw [nestingSteps_eq]; omega)
      have := Statement.branchElse ht hl hc hr hy ho hn
      exact ⟨_, _, by simpa using this⟩
    | true =>
      have hg : (within m 0).statement = Statement (within (m - 2) 0) := by
        rw [within_of_pos (by omega)]
      rw [hg] at hy
      obtain ⟨isOpen, s, hs⟩ := exists_statement_else ho hw _ (m - 2) vs yes (Nat.le_refl _)
        (by rw [nestingSteps_eq]; omega) hy
      have := Statement.branch ht hl hc hr (hg ▸ hs)
      exact ⟨_, _, by simpa using this⟩

theorem parses_forStmt (h : Means (production .forStmt) ts) : Parses .forStmt ts := by
  intro m hm
  obtain ⟨_, _, ⟨t, ht, rfl⟩, ⟨_, _, ⟨l, hl, rfl⟩, ⟨us, _, hini, ⟨vs, _, hcond, ⟨_, _, ⟨semi, hs, rfl⟩,
    ⟨ws, _, hinc, ⟨_, bs, ⟨r, hr, rfl⟩, hb, rfl⟩, rfl⟩, rfl⟩, rfl⟩, rfl⟩, rfl⟩, rfl⟩ := h
  simp only [List.length_append, List.length_cons, List.length_nil, nestingSteps_eq] at hm
  obtain ⟨cond, hc⟩ := exists_optionalExpr (m := m) hcond (by rw [nestingSteps_eq]; omega)
  obtain ⟨increment, hi⟩ := exists_optionalExpr (m := m) hinc (by rw [nestingSteps_eq]; omega)
  obtain ⟨isOpen, body, hb⟩ := hb.statement (m := m) (by rw [nestingSteps_eq]; omega)
  have hinit : ∃ o, ForInitializer (within m 0) us o := by
    rcases hini with h | h | ⟨semi, hs, rfl⟩
    · obtain ⟨t, us, s, ht, hv, rfl⟩ := h m (by rw [nestingSteps_eq]; omega)
      exact ⟨some s, .var ht hv⟩
    · obtain ⟨s, hs⟩ := h m (by rw [nestingSteps_eq]; omega)
      exact ⟨some s, .expr hs⟩
    · exact ⟨none, .none hs⟩
  obtain ⟨initializer, hi'⟩ := hinit
  have := Statement.forLoop ht hl hi' hc hs hi hr hb
  exact ⟨_, _, by simpa using this⟩

theorem exists_row {m : Nat} {phrase : Bool → List Token → Stmt → Prop} {segs : List (List Token)}
    (hp : ∀ us, Parses .declaration us → nestingSteps * us.length ≤ m →
      ∃ isOpen s, phrase isOpen us s)
    (hs : ∀ us ∈ segs, Parses .declaration us) (hm : nestingSteps * segs.flatten.length ≤ m) :
    ∃ ss, Row phrase segs.flatten ss := by
  induction segs with
  | nil => exact ⟨[], .nil⟩
  | cons seg segs ih =>
    simp only [List.flatten_cons, List.length_append, nestingSteps_eq] at hm
    obtain ⟨isOpen, s, h⟩ := hp seg (hs seg List.mem_cons_self) (by rw [nestingSteps_eq]; omega)
    obtain ⟨ss, hss⟩ := ih (fun us hu => hs us (List.mem_cons_of_mem _ hu))
      (by rw [nestingSteps_eq]; omega)
    exact ⟨s :: ss, .cons h hss⟩

theorem parses_block (h : Means (production .block) ts) : Parses .block ts := by
  intro m hm
  obtain ⟨_, _, ⟨l, hl, rfl⟩, ⟨_, _, ⟨segs, hs, rfl⟩, ⟨r, hr, rfl⟩, rfl⟩, rfl⟩ := h
  simp only [List.length_append, List.length_cons, List.length_nil, nestingSteps_eq] at hm
  obtain ⟨body, hb⟩ : ∃ body, Row (within m 0).declaration segs.flatten body :=
    exists_row (m := m - nestingSteps)
      (fun us hu hl => hu.declaration (m := m) (by rw [nestingSteps_eq] at hl ⊢; omega)) hs
      (by rw [nestingSteps_eq]; omega)
  exact ⟨l, _, r, body, hl, hb, hr, rfl⟩

theorem parses_statement (h : Means (production .statement) ts) : Parses .statement ts := by
  intro m hm
  rcases h with h | h | h | h | h | h | h
  · obtain ⟨s, h⟩ := h m hm
    exact ⟨_, s, .expr h⟩
  · exact h m hm
  · exact h m hm
  · exact h m hm
  · exact h m hm
  · exact h m hm
  · obtain ⟨l, us, r, body, hl, hb, hr, rfl⟩ := h m hm
    exact ⟨_, _, .block hl hb hr⟩

theorem parses_function (h : Means (production .function) ts) : Parses .function ts := by
  intro m hm
  obtain ⟨_, _, ⟨name, hn, rfl⟩, ⟨_, _, ⟨l, hl, rfl⟩, ⟨us, _, hps, ⟨_, vs, ⟨r, hr, rfl⟩, hb, rfl⟩, rfl⟩,
    rfl⟩, rfl⟩ := h
  simp only [List.length_append, List.length_cons, List.length_nil, nestingSteps_eq] at hm
  have hparams : ∃ ms, ParameterList us ms := by
    rcases hps with rfl | h
    · exact ⟨[], .none⟩
    · obtain ⟨ms, hms, hn⟩ := h m (by rw [nestingSteps_eq]; omega)
      exact ⟨ms, .some hms hn⟩
  obtain ⟨ms, hms⟩ := hparams
  obtain ⟨opening, vs, closing, body, ho, hrow, hc, rfl⟩ := hb m (by rw [nestingSteps_eq]; omega)
  have := Function.mk hn hl hms hr ho hrow hc
  exact ⟨_, by simpa using this⟩

theorem parses_funDecl (h : Means (production .funDecl) ts) : Parses .funDecl ts := by
  intro m hm
  obtain ⟨_, us, ⟨t, ht, rfl⟩, hu, rfl⟩ := h
  simp only [List.length_append, List.length_cons, List.length_nil, nestingSteps_eq] at hm
  obtain ⟨f, hf⟩ := hu m (by rw [nestingSteps_eq]; omega)
  exact ⟨_, _, .function ht hf⟩

theorem exists_methods {m : Nat} {segs : List (List Token)} (hs : ∀ us ∈ segs, Parses .function us)
    (hm : nestingSteps * segs.flatten.length ≤ m) : ∃ ms, Methods (within m 0) segs.flatten ms := by
  induction segs with
  | nil => exact ⟨[], .nil⟩
  | cons seg segs ih =>
    simp only [List.flatten_cons, List.length_append, nestingSteps_eq] at hm
    obtain ⟨f, h⟩ := hs seg List.mem_cons_self m (by rw [nestingSteps_eq]; omega)
    obtain ⟨ms, hms⟩ := ih (fun us hu => hs us (List.mem_cons_of_mem _ hu))
      (by rw [nestingSteps_eq]; omega)
    exact ⟨f :: ms, .cons h hms⟩

theorem parses_classDecl (h : Means (production .classDecl) ts) : Parses .classDecl ts := by
  intro m hm
  obtain ⟨_, _, ⟨t, ht, rfl⟩, ⟨_, _, ⟨name, hn, rfl⟩, ⟨us, _, hsup, ⟨_, _, ⟨l, hl, rfl⟩,
    ⟨_, _, ⟨segs, hs, rfl⟩, ⟨r, hr, rfl⟩, rfl⟩, rfl⟩, rfl⟩, rfl⟩, rfl⟩ := h
  simp only [List.length_append, List.length_cons, List.length_nil, nestingSteps_eq] at hm
  obtain ⟨ms, hms⟩ := exists_methods (m := m) hs (by rw [nestingSteps_eq]; omega)
  have hsuper : ∃ o, Superclass us o := by
    rcases hsup with rfl | ⟨_, _, ⟨less, hl, rfl⟩, ⟨super, hs, rfl⟩, rfl⟩
    · exact ⟨none, .none⟩
    · exact ⟨_, .some hl hs⟩
  obtain ⟨o, ho⟩ := hsuper
  have := ClassDecl.mk hn ho hl hms hr
  exact ⟨_, _, .classDecl ht (by simpa using this)⟩

theorem parses_declaration (h : Means (production .declaration) ts) : Parses .declaration ts := by
  intro m hm
  rcases h with h | h | h | h
  · exact h m hm
  · exact h m hm
  · obtain ⟨t, us, s, ht, hv, rfl⟩ := h m hm
    exact ⟨_, s, .var ht hv⟩
  · obtain ⟨isOpen, s, hs⟩ := h m hm
    exact ⟨isOpen, s, .statement hs⟩

theorem parses_program (h : Means (production .program) ts) : Parses .program ts := by
  intro m hm
  obtain ⟨_, _, ⟨segs, hs, rfl⟩, ⟨e, he, rfl⟩, rfl⟩ := h
  simp only [List.length_append, List.length_cons, List.length_nil, nestingSteps_eq] at hm
  obtain ⟨ss, hss⟩ : ∃ ss, Row (Declaration (within m 0)) segs.flatten ss :=
    exists_row (fun us hu hl => hu m hl) hs (by rw [nestingSteps_eq]; omega)
  exact ⟨_, e, ss, hss, he, rfl⟩

/-! ### Derivations -/

/-- What a production puts together from trees is a tree. -/
theorem parses_of_means : ∀ {s : Symbol} {ts : List Token}, Means (production s) ts → Parses s ts
  | .program, _, h => parses_program h
  | .declaration, _, h => parses_declaration h
  | .classDecl, _, h => parses_classDecl h
  | .funDecl, _, h => parses_funDecl h
  | .function, _, h => parses_function h
  | .varDecl, _, h => parses_varDecl h
  | .statement, _, h => parses_statement h
  | .exprStmt, _, h => parses_exprStmt h
  | .forStmt, _, h => parses_forStmt h
  | .ifStmt, _, h => parses_ifStmt h
  | .printStmt, _, h => parses_printStmt h
  | .returnStmt, _, h => parses_returnStmt h
  | .whileStmt, _, h => parses_whileStmt h
  | .block, _, h => parses_block h
  | .expression, _, h => h
  | .assignment, _, h => parses_assignment h
  | .ternary, _, h => parses_ternary h
  | .logicOr, _, h => fun _ => binary_of_operators ⟨[.kwOr], .logical⟩ (levels.drop 1) .logicAnd
      (fun h => h) (by simp) h
  | .logicAnd, _, h => fun _ => binary_of_operators ⟨[.kwAnd], .logical⟩ (levels.drop 2) .equality
      (fun h => h) (by simp) h
  | .equality, _, h => fun _ => binary_of_operators ⟨[.bangEqual, .equalEqual], .binary⟩ (levels.drop 3) .comparison
      (fun h => h) (by simp) h
  | .comparison, _, h => fun _ => binary_of_operators ⟨[.greater, .greaterEqual, .less, .lessEqual], .binary⟩ (levels.drop 4) .term
      (fun h => h) (by simp) h
  | .term, _, h => fun _ => binary_of_operators ⟨[.minus, .plus], .binary⟩ (levels.drop 5) .factor
      (fun h => h) (by simp) h
  | .factor, _, h => fun _ => binary_of_operators ⟨[.slash, .star], .binary⟩ (levels.drop 6) .unary
      (fun ⟨e, h⟩ => ⟨e, .unary h⟩) (by simp) h
  | .unary, _, h => parses_unary h
  | .call, _, h => parses_call h
  | .primary, _, h => parses_primary h
  | .arguments, _, h => parses_arguments h
  | .parameters, _, h => parses_parameters h

theorem Derives.means {r : Rule} (h : Derives r ts) : Means r ts := by
  induction h with
  | empty => rfl
  | token h => exact ⟨_, h, rfl⟩
  | symbol _ ih => exact parses_of_means ih
  | seq _ _ ih ih' => exact ⟨_, _, ih, ih', rfl⟩
  | left _ ih => exact .inl ih
  | right _ ih => exact .inr ih
  | done => exact ⟨[], by simp, rfl⟩
  | @again _ ts us _ _ ih ih' =>
    obtain ⟨segs, hs, rfl⟩ := ih'
    exact ⟨ts :: segs, by simpa using ⟨ih, hs⟩, by simp⟩
  | enough => exact ⟨[], by simp, by simp, rfl⟩
  | @once _ n ts us _ _ ih ih' =>
    obtain ⟨segs, hn, hs, rfl⟩ := ih'
    exact ⟨ts :: segs, by simpa using hn, by simpa using ⟨ih, hs⟩, by simp⟩

/-- What is derived from a symbol has a tree with enough steps. -/
theorem Derives.parses {s : Symbol} (h : Derives (.symbol s) ts) : Parses s ts :=
  h.means

end Lox
