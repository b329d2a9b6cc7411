/-
# Where a semicolon is missing, an expression may go on

An expression with another one behind it, and no semicolon between them, is
one expression if the second one begins with an opening parenthesis or a minus:
the last operand of the first one is called, or the minus takes away from it
(`Lox.Extends`). Only where the second one is assigned to, there is another target
than it had on its own, and that may be wrong (`Lox.WrongTarget`). The parser
reads all of these; a wrong target is reported, and nothing is refused.

Key definitions: `Lox.Extends`, `Lox.WrongTarget`, `Lox.ReadsWrong`.
Key theorems: `Lox.joins_ternary`, `Lox.assignment_append`,
`Lox.readsWrong_append`.
-/
import Lox.Proofs.Grammar.Nesting
import Lox.Proofs.Grammar.Program
import Lox.Proofs.Grammar.Deeds

namespace Lox

open Procedure Phrases

/-! ### Repetitions -/

namespace Derives

variable {f : Rule} {ts us : List Token}

/-- A repetition behind a repetition. -/
theorem star_append (h : Derives (.star f) us) (g : Derives (.star f) ts) :
    Derives (.star f) (us ++ ts) := by
  suffices ∀ r, Derives r us → r = .star f → Derives (.star f) (us ++ ts) from this _ h rfl
  intro r hr
  induction hr with
  | done => exact fun _ => g
  | again hfirst _ _ ih =>
    intro he
    obtain rfl := Rule.star.inj he
    exact (again hfirst (ih (by assumption) rfl)).cast (by simp)
  | _ => intro he; cases he

/-- The last of some repetitions. -/
theorem star_last (h : Derives (.star f) ts) :
    ts = [] ∨ ∃ us vs, Derives (.star f) us ∧ Derives f vs ∧ ts = us ++ vs := by
  suffices ∀ r, Derives r ts → r = .star f →
      ts = [] ∨ ∃ us vs, Derives (.star f) us ∧ Derives f vs ∧ ts = us ++ vs from this _ h rfl
  intro r hr
  induction hr with
  | done => exact fun _ => .inl rfl
  | @again _ vs ws hfirst _ _ ih =>
    intro he
    obtain rfl := Rule.star.inj he
    rcases ih (by assumption) rfl with rfl | ⟨us, vs', hus, hvs, rfl⟩
    · exact .inr ⟨[], vs, .done, hfirst, by simp⟩
    · exact .inr ⟨vs ++ us, vs', .again hfirst hus, hvs, by simp⟩
  | _ => intro he; cases he

end Derives

/-! ### How expressions begin -/

section Begins

variable {ts : List Token} {t : Token}

theorem Derives.call_begins (h : Derives (.symbol .call) ts) : Begins beginsCall ts := by
  obtain ⟨e, he⟩ := h.parses _ (Nat.le_refl _)
  exact he.begins

theorem Derives.assignment_begins (h : Derives (.symbol .assignment) ts) : Begins beginsExpr ts := by
  obtain ⟨e, he⟩ := h.parses _ (Nat.le_refl _)
  exact he.begins

theorem Derives.primary_begins (h : Derives (.symbol .primary) ts) : Begins beginsCall ts := by
  obtain ⟨e, he⟩ := h.parses _ (Nat.le_refl _)
  exact he.begins

theorem Derives.tier_ne_nil {ls : List Level} {s : Symbol} (hs : Tier ls s) :
    ∀ {ts : List Token}, Derives (.symbol s) ts → ts ≠ [] := by
  induction hs with
  | unary =>
    intro ts h
    obtain ⟨e, he⟩ := h.parses _ (Nat.le_refl _)
    obtain ⟨t, us, rfl, -⟩ := he.begins
    exact List.cons_ne_nil t us
  | operators _ hp ih =>
    intro ts h
    have hs := h.of_symbol
    rw [hp] at hs
    cases hs with
    | seq h₀ _ => exact fun he => ih h₀ (List.append_eq_nil_iff.mp he).1

/-- What begins with an opening parenthesis is an expression in parentheses. -/
theorem Derives.primary_parens (h : Derives (.symbol .primary) (t :: ts)) (ht : t.kind = .leftParen) :
    ∃ us r, Derives (.symbol .expression) us ∧ r.kind = .rightParen ∧ ts = us ++ [r] := by
  obtain ⟨e, he⟩ := h.parses _ (Nat.le_refl _)
  cases he with
  | grouping _ h hr => exact ⟨_, _, (derived_within _ _).expr _ _ h, hr, rfl⟩
  | constant hk => rcases hk with hk | hk <;> cases ht.symm.trans hk
  | no hk | yes hk | nil hk | name hk | receiver hk | superMethod hk => cases ht.symm.trans hk

theorem Derives.unary_operator (h : Derives (.any [.token .bang, .token .minus]) ts) :
    ∃ op, op.kind ∈ [TokenKind.bang, .minus] ∧ ts = [op] :=
  Means.any (show [TokenKind.bang, .minus] ≠ [] by simp) h.means

/-- A conditional is operands, or a condition with its branches. -/
theorem Derives.ternary_cases (h : Derives (.symbol .ternary) ts) : Derives (.symbol .logicOr) ts ∨
    ∃ cond yes no question colon, Derives (.symbol .logicOr) cond ∧ question.kind = .question ∧
      Derives (.symbol .expression) yes ∧ colon.kind = .colon ∧ Derives (.symbol .ternary) no ∧
        ts = cond ++ question :: yes ++ colon :: no := by
  obtain ⟨e, he⟩ := h.parses _ (Nat.le_refl _)
  have hg := derived_within (nestingSteps * ts.length) 0
  cases he with
  | binary h => exact .inl (h.derives hg _ tier_levels)
  | choice hc hq hy hk hn =>
    exact .inr ⟨_, _, _, _, _, hc.derives hg _ tier_levels, hq, hg.middle _ _ hy, hk,
      hg.ternary _ _ hn, rfl⟩

/-- An assignment is a conditional, or has a name or a property for its target. -/
theorem Derives.assignment_cases (h : Derives (.symbol .assignment) ts) :
    Derives (.symbol .ternary) ts ∨
    (∃ name equal us, name.kind = .identifier ∧ equal.kind = .equal ∧
      Derives (.symbol .assignment) us ∧ ts = name :: equal :: us) ∨
    ∃ object dot name equal us, Derives (.symbol .call) object ∧ dot.kind = .dot ∧
      name.kind = .identifier ∧ equal.kind = .equal ∧ Derives (.symbol .assignment) us ∧
        ts = object ++ dot :: name :: equal :: us := by
  obtain ⟨e, he⟩ := h.parses _ (Nat.le_refl _)
  have hg := derived_within (nestingSteps * ts.length) 0
  cases he with
  | ternary h => exact .inl (h.derives hg)
  | name hn he hv => exact .inr (.inl ⟨_, _, _, hn, he, hg.value _ _ hv, rfl⟩)
  | property ho hd hn he hv =>
    exact .inr (.inr ⟨_, _, _, _, _, ho.derives hg, hd, hn, he, hg.value _ _ hv, rfl⟩)

section Build

variable {us : List Token} {dot name equal : Token}

theorem Derives.assign_name (hn : name.kind = .identifier) (he : equal.kind = .equal)
    (h : Derives (.symbol .assignment) us) : Derives (.symbol .assignment) (name :: equal :: us) :=
  .symbol (.left (.seq (.left .empty) (.cons hn (.cons he h))))

theorem Derives.assign_property (ho : Derives (.symbol .call) ts) (hd : dot.kind = .dot)
    (hn : name.kind = .identifier) (he : equal.kind = .equal) (h : Derives (.symbol .assignment) us) :
    Derives (.symbol .assignment) (ts ++ dot :: name :: equal :: us) :=
  .symbol (.left ((Derives.seq (.right (.seq ho (.token hd))) (.cons hn (.cons he h))).cast (by simp)))

/-- An operand is a phrase of each looser level. -/
theorem Derives.of_operand {ls : List Level} {s : Symbol} (hs : Tier ls s)
    (h : Derives (.symbol .unary) ts) : Derives (.symbol s) ts := by
  induction hs with
  | unary => exact h
  | operators _ hp ih =>
    refine .symbol ?_
    rw [hp]
    exact (Derives.seq ih .done).cast (by simp)

theorem Derives.ternary_of_call (h : Derives (.symbol .call) ts) : Derives (.symbol .ternary) ts :=
  .symbol ((Derives.seq (Derives.of_operand tier_levels (.symbol (.right h))) (.left .empty)).cast
    (by simp))

/-- A property of a call is a call. -/
theorem Derives.property (h : Derives (.symbol .call) ts) (hd : dot.kind = .dot)
    (hn : name.kind = .identifier) : Derives (.symbol .call) (ts ++ [dot, name]) := by
  cases h.of_symbol with
  | seq hp hs =>
    exact .symbol ((Derives.seq hp (hs.snoc (.right (.cons hd (.token hn))))).cast (by simp))

end Build

/-- The first of some tokens that are put together of two parts, if there is a first part. -/
theorem exists_cons_of_append {p rest : List Token} (h : t :: ts = p ++ rest) (hp : p ≠ []) :
    ∃ ps, p = t :: ps ∧ ts = ps ++ rest :=
  (List.cons_eq_append_iff.mp h).resolve_left fun he => hp he.1

end Begins

/-! ### Expressions that go on -/

/-- Behind any phrase of the symbol, the tokens go on with it. -/
def Extends (s : Symbol) (w : List Token) : Prop :=
  ∀ x, Derives (.symbol s) x → Derives (.symbol s) (x ++ w)

section Extends

variable {s operand : Symbol} {ops : List TokenKind} {ls : List Level} {w rest us : List Token}
  {t : Token}

/-- What goes on with an operand goes on with the last one of some operands. -/
theorem Extends.operators (hp : production s = .operators ops operand) (h : Extends operand w) :
    Extends s w := by
  intro x hx
  have hs := hx.of_symbol
  refine .symbol ?_
  rw [hp] at hs ⊢
  cases hs with
  | @seq _ _ x₀ ys h₀ hys =>
    rcases hys.star_last with rfl | ⟨zs, y, hzs, hy, rfl⟩
    · exact (Derives.seq (h _ h₀) .done).cast (by simp)
    · cases hy with
      | seq hop hz => exact (Derives.seq h₀ (hzs.snoc (.seq hop (h _ hz)))).cast (by simp)

/-- More operators and operands may follow. -/
theorem Extends.more (hp : production s = .operators ops operand) (h : Extends s w)
    (hrest : Derives (.star (.seq (.any (ops.map .token)) (.symbol operand))) rest) :
    Extends s (w ++ rest) := by
  intro x hx
  have hs := (h x hx).of_symbol
  refine .symbol ?_
  rw [← List.append_assoc]
  generalize x ++ w = y at hs ⊢
  rw [hp] at hs ⊢
  cases hs with
  | seq h₀ hys => exact (Derives.seq h₀ (hys.star_append hrest)).cast (by simp)

/-- An expression in parentheses is the argument of a call of what is before it. -/
theorem joins_call (h : Derives (.symbol .call) (t :: us)) (ht : t.kind = .leftParen) :
    Extends .call (t :: us) := by
  generalize hw : t :: us = w at h
  cases h.of_symbol with
  | @seq _ _ p rest hp hrest =>
    have hne : p ≠ [] := by
      obtain ⟨q, qs, rfl, -⟩ := hp.primary_begins
      exact List.cons_ne_nil q qs
    obtain ⟨ps, rfl, rfl⟩ := exists_cons_of_append hw hne
    obtain ⟨arg, r, harg, hr, rfl⟩ := hp.primary_parens ht
    have hargs : Derives (.symbol .arguments) (arg ++ []) := .symbol (.seq harg .enough)
    intro x hx
    cases hx.of_symbol with
    | seq hq hcalls =>
      refine .symbol ((Derives.seq hq (hcalls.star_append (.again (.left (.cons ht
        (.seq (.right hargs) (.token hr)))) hrest))).cast ?_)
      simp

/-- Behind operators, what goes on with a call goes on with the last operand. -/
theorem Extends.unary (h : Extends .call w) : Extends .unary w := by
  intro x hx
  induction hn : x.length using Nat.strong_induction_on generalizing x with
  | h n ih =>
    cases hx.of_symbol with
    | right hc => exact .symbol (.right (h x hc))
    | left ho =>
      cases ho with
      | @seq _ _ _ y hop hy =>
        obtain ⟨op, hk, rfl⟩ := hop.unary_operator
        have hy' := ih y.length (by simp at hn; omega) y hy rfl
        exact .symbol (.left ((Derives.seq (Derives.any_of_mem hk) hy').cast (by simp)))

/-- Operands of a level begin as the first one does, and operators and operands follow. -/
theorem Derives.first_operand (hs : Tier ls operand) (hp : production s = .operators ops operand)
    (h : Derives (.symbol s) (t :: us)) : ∃ first rest, us = first ++ rest ∧
      Derives (.symbol operand) (t :: first) ∧
      Derives (.star (.seq (.any (ops.map .token)) (.symbol operand))) rest := by
  have h' := h.of_symbol
  rw [hp] at h'
  generalize hw : t :: us = w at h'
  cases h' with
  | seq hfirst hrest =>
    obtain ⟨first, rfl, rfl⟩ := exists_cons_of_append hw (hfirst.tier_ne_nil hs)
    exact ⟨first, _, rfl, hfirst, hrest⟩

/-- What begins with an opening parenthesis goes on with operands. -/
theorem joins_parens (hs : Tier ls s) : ∀ {us : List Token}, Derives (.symbol s) (t :: us) →
    t.kind = .leftParen → Extends s (t :: us) := by
  induction hs with
  | unary =>
    intro us h ht
    generalize hw : t :: us = w at h
    cases h.of_symbol with
    | right hc =>
      subst hw
      exact (joins_call hc ht).unary
    | left ho =>
      cases ho with
      | seq hop _ =>
        obtain ⟨op, hk, rfl⟩ := hop.unary_operator
        obtain rfl := (List.cons.inj hw).1
        simp [ht] at hk
  | operators hs hp ih =>
    intro us h ht
    obtain ⟨first, rest, rfl, hfirst, hrest⟩ := h.first_operand hs hp
    exact ((ih hfirst ht).operators hp).more hp hrest

/-- Without the minus they begin with, operands are operands. -/
theorem Derives.drop_minus (hs : Tier ls s) : ∀ {us : List Token}, Derives (.symbol s) (t :: us) →
    t.kind = .minus → Derives (.symbol s) us := by
  induction hs with
  | unary =>
    intro us h ht
    generalize hw : t :: us = w at h
    cases h.of_symbol with
    | right hc =>
      subst hw
      obtain ⟨_, _, he, hk⟩ := hc.call_begins
      obtain rfl := (List.cons.inj he).1
      rw [ht] at hk
      cases hk
    | left ho =>
      cases ho with
      | seq hop hy =>
        obtain ⟨op, -, rfl⟩ := hop.unary_operator
        obtain rfl := (List.cons.inj hw).2
        exact hy
  | operators hs hp ih =>
    intro us h ht
    obtain ⟨first, rest, rfl, hfirst, hrest⟩ := h.first_operand hs hp
    refine .symbol ?_
    rw [hp]
    exact .seq (ih hfirst ht) hrest

/-- What begins with a minus takes away from what is before it. -/
theorem joins_minus (hs : Tier ls s) (hl : ∃ level ∈ ls, .minus ∈ level.ops) :
    ∀ {us : List Token}, Derives (.symbol s) (t :: us) → t.kind = .minus → Extends s (t :: us) := by
  induction hs with
  | unary =>
    obtain ⟨_, h, -⟩ := hl
    cases h
  | @operators level tighter s operand hs hp ih =>
    intro us h ht
    by_cases hm : .minus ∈ level.ops
    · -- Here the minus is an operator.
      intro x hx
      have hx' := hx.of_symbol
      have hus := (h.drop_minus (.operators hs hp) ht).of_symbol
      refine .symbol ?_
      rw [hp] at hx' hus ⊢
      cases hx' with
      | seq h₀ hys =>
        cases hus with
        | seq h₁ hrest =>
          refine (Derives.seq h₀ (hys.star_append (.again (.seq (Derives.any_of_mem (t := t) (ht ▸ hm)) h₁)
            hrest))).cast ?_
          simp
    · have hl' : ∃ level ∈ tighter, .minus ∈ level.ops := by
        obtain ⟨l, hmem, hk⟩ := hl
        rcases List.mem_cons.mp hmem with rfl | hmem
        · exact absurd hk hm
        · exact ⟨l, hmem, hk⟩
      obtain ⟨first, rest, rfl, hfirst, hrest⟩ := h.first_operand hs hp
      exact ((ih hl' hfirst ht).operators hp).more hp hrest

/-- A conditional that begins so goes on with any conditional. -/
theorem joins_ternary (h : Derives (.symbol .ternary) (t :: us))
    (ht : t.kind = .leftParen ∨ t.kind = .minus) : Extends .ternary (t :: us) := by
  generalize hw : t :: us = w at h
  cases h.of_symbol with
  | @seq _ _ w₀ rest h₀ hrest =>
    obtain ⟨ps, rfl, rfl⟩ := exists_cons_of_append hw (h₀.tier_ne_nil tier_levels)
    have hjoins : Extends .logicOr (t :: ps) := ht.elim (joins_parens tier_levels h₀)
      (joins_minus tier_levels (by simp [levels]) h₀)
    intro x hx
    induction hn : x.length using Nat.strong_induction_on generalizing x with
    | h n ih =>
      rcases hx.ternary_cases with hx | ⟨cond, yes, no, question, colon, hc, hq, hy, hk, hno, rfl⟩
      · exact .symbol ((Derives.seq (hjoins _ hx) hrest).cast (by simp))
      · have hlt : no.length < n := by
          rw [← hn]
          simp only [List.length_append, List.length_cons]
          omega
        have hno' := ih no.length hlt no hno rfl
        exact .symbol ((Derives.seq hc (.right (.cons hq (.seq hy (.cons hk hno'))))).cast (by simp))

end Extends

/-! ### Assignments -/

/-- An assignment with a conditional for its target, at some depth on the right. -/
inductive WrongTarget : List Token → Prop
  | here {ts us : List Token} {equal : Token} : Derives (.symbol .ternary) ts → equal.kind = .equal →
      Derives (.symbol .assignment) us → WrongTarget (ts ++ equal :: us)
  | name {us : List Token} {t equal : Token} : t.kind = .identifier → equal.kind = .equal →
      WrongTarget us → WrongTarget (t :: equal :: us)
  | property {ts us : List Token} {dot name equal : Token} : Derives (.symbol .call) ts →
      dot.kind = .dot → name.kind = .identifier → equal.kind = .equal → WrongTarget us →
      WrongTarget (ts ++ dot :: name :: equal :: us)

/-- An expression with another one behind it that begins so is an expression, but for its target. -/
theorem assignment_append {x us : List Token} {t : Token} (hx : Derives (.symbol .assignment) x)
    (h : Derives (.symbol .assignment) (t :: us)) (ht : t.kind = .leftParen ∨ t.kind = .minus) :
    Derives (.symbol .assignment) (x ++ t :: us) ∨ WrongTarget (x ++ t :: us) := by
  induction hn : x.length using Nat.strong_induction_on generalizing x with
  | h n ih =>
    rcases hx.assignment_cases with hx | ⟨name, equal, v, hname, he, hv, rfl⟩ |
      ⟨object, dot, name, equal, v, ho, hd, hname, he, hv, rfl⟩
    · rcases h.assignment_cases with h | ⟨name, equal, v, hname, he, hv, hw⟩ |
        ⟨object, dot, name, equal, v, ho, hd, hname, he, hv, hw⟩
      · exact .inl (.symbol (.right (joins_ternary h ht _ hx)))
      · obtain rfl := (List.cons.inj hw).1
        rcases ht with ht | ht <;> cases ht.symm.trans hname
      · -- The target is the property of what goes on with the first expression.
        obtain ⟨q, qs, rfl, -⟩ := ho.call_begins
        obtain ⟨rfl, rfl⟩ := List.cons.inj hw
        have htarget := joins_ternary (ho.property hd hname).ternary_of_call ht x hx
        have := WrongTarget.here htarget he hv
        exact .inr (by simpa using this)
    · have hlt : v.length < n := by
        rw [← hn]
        simp only [List.length_cons]
        omega
      rcases ih v.length hlt hv rfl with hv | hv
      · exact .inl (.assign_name hname he hv)
      · exact .inr (.name hname he hv)
    · have hlt : v.length < n := by
        rw [← hn]
        simp only [List.length_append, List.length_cons]
        omega
      rcases ih v.length hlt hv rfl with hv | hv
      · exact .inl ((Derives.assign_property ho hd hname he hv).cast (by simp))
      · have := WrongTarget.property ho hd hname he hv
        exact .inr (by simpa using this)

/-! ### Reading them -/

namespace Inner

theorem within_drop (bound : Nat) : ∀ steps spent, within bound steps spent = within bound (steps - spent) 0
  | 0, _ => by rw [Nat.zero_sub, within, within]
  | _ + 1, 0 => rfl
  | steps + 1, spent + 1 => by rw [within, within_drop bound steps spent, Nat.add_sub_add_right]

/-- What is further in has fewer steps. -/
theorem within_of_pos {bound m : Nat} (h : 0 < m) : within bound m 0 =
    { bound
      expr := Parse.assignment (within bound (m - nestingSteps) 0)
      middle := Parse.assignment (within bound (m - 3) 0)
      value := Parse.assignment (within bound (m - 1) 0)
      ternary := Parse.ternary (within bound (m - 1) 0)
      unary := Parse.unary (within bound (m - 1) 0)
      statement := Parse.statement (within bound (m - 2) 0)
      declaration := Parse.declaration (within bound (m - 3) 0) } := by
  obtain ⟨m, rfl⟩ : ∃ n, m = n + 1 := ⟨m - 1, by omega⟩
  rw [within, within_drop bound m (nestingSteps - 1), within_drop bound m 2, within_drop bound m 1]
  rfl

end Inner

namespace Parse

variable {inner : Inner} {g : Phrases} {c c₁ c₂ d : Cursor} {ts us : List Token} {equal : Token}
  {target v : Expr} {ds : List Diagnostic}

/-- Behind a conditional and `=` a value is assigned to it, and a wrong target is reported. -/
theorem assignment_to (hi : inner.CompleteExpr g) (hb : c.bound ≤ inner.bound)
    (ht : Ternary g ts target) (he : equal.kind = .equal) (h₁ : c.Passes ts c₁)
    (h₂ : c₁.Passes [equal] c₂) (hv : inner.value c₂ = (.ok v, d)) (hm : c₂.Moves us ds d) :
    ∃ e d' es, assignment inner c = (.ok e, d') ∧ c.Moves (ts ++ equal :: us) (ds ++ es) d' ∧
      (es = [] ∨ target.isTarget = false ∧ ∃ r, es = [r] ∧ r.message = invalidTarget) := by
  have hmove : c.Moves (ts ++ equal :: us) ds d := by
    simpa using h₁.moves.trans (h₂.moves.trans hm)
  have hwrong := hmove.trans (d.moves_report equal.offset invalidTarget)
  rw [List.append_nil] at hwrong
  have hread := complete_ternary hi c ts target c₁ hb h₁ ht (by rw [h₂.here, he]; rfl)
  unfold assignment
  rw [bind_ok hread, bind_ok (accept?_some h₂ (by simp [he]) (by decide))]
  dsimp only
  rw [bind_ok hv]
  cases target with
  | «variable» use => exact ⟨_, d, [], rfl, by simpa using hmove, .inl rfl⟩
  | get object name => exact ⟨_, d, [], rfl, by simpa using hmove, .inl rfl⟩
  | _ => exact ⟨_, _, _, rfl, hwrong, .inr ⟨rfl, _, rfl, rfl⟩⟩

end Parse

/-- The tokens are read as an expression, with so many reports of a wrong target at most. -/
def ReadsWrong (n : Nat) (ts : List Token) : Prop :=
  ∀ (bound m : Nat) (c c' : Cursor), c.bound ≤ bound → nestingSteps * ts.length ≤ m →
    c.Passes ts c' → goesOnAssignment c'.here.kind = false → ∃ e d ds,
      Parse.assignment (Inner.within bound m 0) c = (.ok e, d) ∧ c.Moves ts ds d ∧ ds.length ≤ n ∧
        ∀ r ∈ ds, r.message = invalidTarget

namespace ReadsWrong

variable {n : Nat} {ts us : List Token} {equal : Token}

theorem of_derives (h : Derives (.symbol .assignment) ts) : ReadsWrong 0 ts := by
  intro bound m c c' hb hm hp hg
  obtain ⟨e, he⟩ := h.parses m hm
  have hread := Parse.complete_assignment (Inner.complete_within bound m 0).toCompleteExpr c ts e c'
    (by rw [Inner.bound_within]; exact hb) hp he hg
  exact ⟨e, c', [], hread, hp.moves, by simp, by simp⟩

/-- One more report at most where the target is no name and no property. -/
theorem behind (k : Nat) (ht : ∀ m, nestingSteps * ts.length ≤ m →
      ∃ target, Ternary (within m 0) ts target ∧ (target.isTarget = false → 0 < k))
    (he : equal.kind = .equal) (h : ReadsWrong n us) : ReadsWrong (n + k) (ts ++ equal :: us) := by
  intro bound m c c' hb hm hp hg
  simp only [List.length_append, List.length_cons, nestingSteps_eq] at hm
  obtain ⟨target, htarget, hk⟩ := ht m (by rw [nestingSteps_eq]; omega)
  obtain ⟨c₁, h₁, h₂⟩ := hp.split
  obtain ⟨c₂, h₂, h₃⟩ := h₂.uncons
  obtain ⟨v, d, ds, hv, hmove, hlen, hds⟩ := h bound (m - 1) c₂ c' (by rwa [h₂.bound, h₁.bound])
    (by rw [nestingSteps_eq]; omega) h₃ hg
  have hvalue : (Inner.within bound m 0).value c₂ = (.ok v, d) := by
    rw [Inner.within_of_pos (by omega)]
    exact hv
  obtain ⟨e, d', es, hrun, hmove', hes⟩ := Parse.assignment_to
    (Inner.complete_within bound m 0).toCompleteExpr (by rw [Inner.bound_within]; exact hb) htarget he
    h₁ h₂ hvalue hmove
  refine ⟨e, d', ds ++ es, hrun, hmove', ?_⟩
  rcases hes with rfl | ⟨hwrong, r, rfl, hr⟩
  · rw [List.append_nil]
    exact ⟨Nat.le_add_right_of_le hlen, hds⟩
  · refine ⟨?_, List.forall_mem_append.mpr ⟨hds, List.forall_mem_singleton.mpr hr⟩⟩
    rw [List.length_append]
    exact Nat.add_le_add hlen (hk hwrong)

end ReadsWrong

/-- The parser reads an expression with a misplaced target, with one report at most. -/
theorem WrongTarget.readsWrong {ts : List Token} (h : WrongTarget ts) : ReadsWrong 1 ts := by
  induction h with
  | here ht he hv =>
    exact .behind 1 (fun m hm => (ht.parses m hm).imp fun _ h => ⟨h, fun _ => Nat.one_pos⟩) he
      (.of_derives hv)
  | @name us t equal ht he _ ih =>
    have : ReadsWrong (1 + 0) ([t] ++ equal :: us) := .behind 0 (fun m _ =>
      ⟨_, .binary (.ofCall (.primary (.name ht)) _), fun h => by cases h⟩) he ih
    exact this
  | @property ts us dot name equal ho hd hn he _ ih =>
    have : ReadsWrong (1 + 0) (ts ++ [dot, name] ++ equal :: us) := .behind 0 (fun m hm => by
      simp only [List.length_append, List.length_cons, nestingSteps_eq] at hm
      obtain ⟨object, ho⟩ := ho.parses m (by rw [nestingSteps_eq]; omega)
      exact ⟨_, .binary (.ofCall (.get ho hd hn) _), fun h => by cases h⟩) he ih
    simpa using this

/-- Where an expression goes on with another one, both are read as one. -/
theorem readsWrong_append {x us : List Token} {t : Token} (hx : Derives (.symbol .assignment) x)
    (h : Derives (.symbol .assignment) (t :: us)) (ht : t.kind = .leftParen ∨ t.kind = .minus) :
    ReadsWrong 1 (x ++ t :: us) := by
  rcases assignment_append hx h ht with h | h
  · intro bound m c c' hb hm hp hg
    obtain ⟨e, d, ds, hrun, hmove, hlen, hds⟩ := ReadsWrong.of_derives h bound m c c' hb hm hp hg
    exact ⟨e, d, ds, hrun, hmove, Nat.le_succ_of_le hlen, hds⟩
  · exact h.readsWrong

end Lox
