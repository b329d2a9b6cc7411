/-
# Lenient expressions are read

If the productions further in read the lenient phrases further in and make
their reports, then so does each production of expressions, unless the token
behind a phrase goes on with it. For a call that is an opening parenthesis or a
dot; for each level of operators the operators of that level and of the tighter
ones too; for a conditional `?` as well, and for an assignment `=`.

Key definitions: `Lox.goesOnCall`, `Lox.goesOnBinary`, `Lox.goesOnTernary`,
`Lox.goesOnAssignment`, `Lox.Inner.FollowsExpr`.
Key theorems: `Lox.Parse.ceiling_eq`, `Lox.Parse.follows_arguments`,
`Lox.Parse.follows_assignment`.
-/
import Lox.Proofs.Grammar.Lenient.Phrase
import Lox.Proofs.Grammar.Passage

namespace Lox

open Procedure Phrases Lenient

/-- The kinds of tokens that go on with a call. -/
def goesOnCall (k : TokenKind) : Bool := k = .leftParen || k = .dot

/-- The kinds of tokens that go on with operators of some levels. -/
def goesOnBinary (ls : List Level) (k : TokenKind) : Bool :=
  goesOnCall k || ls.any (·.ops.contains k)

/-- The kinds of tokens that go on with a conditional. -/
def goesOnTernary (k : TokenKind) : Bool := goesOnBinary levels k || k = .question

/-- The kinds of tokens that go on with an assignment. -/
def goesOnAssignment (k : TokenKind) : Bool := goesOnTernary k || k = .equal

/-- No operator of a level goes on with the tighter levels. -/
def Separate : List Level → Prop
  | [] => True
  | level :: tighter =>
    (∀ k ∈ level.ops, goesOnBinary tighter k = false) ∧ .eof ∉ level.ops ∧ Separate tighter

theorem separate_levels : Separate levels := by
  simp [levels, Separate, goesOnBinary, goesOnCall]

/-- The expressions further in are read, with their reports. -/
structure Inner.FollowsExpr (inner : Inner) (g : Lenient) : Prop where
  expr : Parse.Follows inner.bound inner.expr g.expr goesOnAssignment
  middle : Parse.Follows inner.bound inner.middle g.middle goesOnAssignment
  value : Parse.Follows inner.bound inner.value g.value goesOnAssignment
  ternary : Parse.Follows inner.bound inner.ternary g.ternary goesOnTernary
  unary : Parse.Follows inner.bound inner.unary g.unary goesOnCall
  begins : ∀ ts ds e, g.expr ts ds e → Begins beginsExpr ts

/-- A call stands as an operand of every level. -/
theorem Lenient.Binary.ofCall {g : Lenient} {ts : List Token} {ds : List Diagnostic} {e : Expr}
    (h : g.Call ts ds e) : ∀ ls : List Level, g.Binary ls ts ds e
  | [] => .unary (.call h)
  | _ :: ls => .operand (Binary.ofCall h ls)

namespace Parse

variable {inner : Inner} {g : Lenient} {c c' : Cursor} {ts us : List Token}
  {ds : List Diagnostic} {e : Expr}

theorem primary_leaf (hp : c.Passes ts c') (h : Phrases.Primary .empty ts e) :
    primary inner c = (.ok e, c') := by
  have look {t : Token} {us : List Token} (hp : c.Passes (t :: us) c') : here c = (.ok t, c) :=
    hp.here ▸ rfl
  have leaf {t : Token} (e : Expr) (hp : c.Passes [t] c') (ht : t.kind ≠ .eof) :
      (do discard next; return e : Parse Expr) c = (.ok e, c') := bind_ok (discard_eq (next_eq hp ht))
  unfold primary
  cases h with
  | no h =>
    rw [bind_ok (look hp)]
    simp only [h]
    exact leaf _ hp (by simp [h])
  | yes h =>
    rw [bind_ok (look hp)]
    simp only [h]
    exact leaf _ hp (by simp [h])
  | nil h =>
    rw [bind_ok (look hp)]
    simp only [h]
    exact leaf _ hp (by simp [h])
  | constant h =>
    rw [bind_ok (look hp)]
    rcases h with h | h <;> simp only [h] <;> exact leaf _ hp (by simp [h])
  | name h =>
    rw [bind_ok (look hp)]
    simp only [h]
    exact leaf _ hp (by simp [h])
  | receiver h =>
    rw [bind_ok (look hp)]
    simp only [h]
    exact leaf _ hp (by simp [h])
  | @superMethod t dot name h hd hn =>
    rw [bind_ok (look hp)]
    obtain ⟨c1, h1, h2⟩ := hp.uncons
    obtain ⟨c2, h2, h3⟩ := h2.uncons
    simp only [h]
    rw [bind_ok (discard_eq (next_eq h1 (by simp [h]))),
      bind_ok (discard_eq (expect_eq h2 hd (by decide) _)), bind_ok (expect_eq h3 hn (by decide) _)]
    rfl
  | grouping _ h => exact h.elim

theorem follows_primary (hi : inner.FollowsExpr g) :
    Follows inner.bound (primary inner) g.Primary fun _ => false := by
  intro c ts ds e c' hb hp h _
  cases h with
  | leaf h => exact primary_leaf hp.passes h
  | @grouping l r us _ e h he hr =>
    obtain ⟨c2, h2, h3⟩ := hp.unsnoc
    obtain ⟨c1, h1, h2⟩ := h2.uncons
    have look : here c = (.ok l, c) := h1.here ▸ rfl
    unfold primary
    rw [bind_ok look]
    simp only [h]
    rw [bind_ok (discard_eq (next_eq h1 (by simp [h]))),
      bind_ok (hi.expr c1 us ds e c2 (h1.bound ▸ hb) h2 he (by rw [h3.here, hr]; rfl)),
      bind_ok (discard_eq (expect_eq h3 hr (by decide) _))]
    rfl

/-- An element of a list is reported if it is past the ceiling, and read all the same. -/
theorem ceiling_eq {α : Type} {message : String} {count : Nat} {t : Token} (rest : Parse α)
    (hp : c.Moves (t :: ts) (pastCeiling message count (t :: us) ++ ds) c') :
    ∃ c₁, c₁.Moves (t :: ts) ds c' ∧ c₁.bound = c.bound ∧
      (do if maxArgs ≤ count then report (← here) message
          rest : Parse α) c = rest c₁ := by
  by_cases hcount : maxArgs ≤ count
  · obtain rfl := hp.here
    rw [pastCeiling_of_le hcount] at hp
    refine ⟨c.report c.here.offset message, hp.report, rfl, ?_⟩
    rw [if_pos hcount]
    rfl
  · rw [pastCeiling_of_lt (Nat.lt_of_not_le hcount)] at hp
    refine ⟨c, hp, rfl, ?_⟩
    rw [if_neg hcount]

/-- Arguments before a closing parenthesis are all read, and those past the ceiling reported. -/
theorem follows_arguments (hi : inner.FollowsExpr g) {count : Nat} {args : List Expr}
    (h : g.Arguments count ts ds args) : ∀ fuel c c', c.bound ≤ inner.bound → c.Moves ts ds c' →
      c'.here.kind = .rightParen → args.length ≤ fuel →
      arguments inner fuel count c = (.ok args, c') := by
  induction h with
  | @last count ts ds e he =>
    rintro (_ | fuel) c c' hb hp hk hf
    · simp at hf
    · obtain ⟨t, us, rfl, -⟩ := hi.begins _ _ _ he
      obtain ⟨c1, h1, hb1, heq⟩ := ceiling_eq _ hp
      rw [arguments]
      refine heq.trans ?_
      refine (bind_ok (hi.expr c1 _ ds e c' (hb1 ▸ hb) h1 he (by rw [hk]; rfl))).trans ?_
      exact bind_ok (accept_false (by simp [hk]))
  | @more count ts us ds es e args comma he hk hes ih =>
    rintro (_ | fuel) c c' hb hp hr hf
    · simp at hf
    · rw [List.length_cons] at hf
      obtain ⟨t, vs, rfl, -⟩ := hi.begins _ _ _ he
      rw [List.append_assoc] at hp
      obtain ⟨c1, hp, hb1, heq⟩ := ceiling_eq _ hp
      obtain ⟨c2, h2, hp⟩ := Cursor.Moves.split
        (show c1.Moves ((t :: vs) ++ comma :: us) (ds ++ es) c' from hp)
      obtain ⟨c3, h3, h4⟩ := hp.uncons
      have hb2 : c1.bound ≤ inner.bound := by rwa [hb1]
      have hb3 : c3.bound ≤ inner.bound := by rwa [h3.bound, h2.bound]
      rw [arguments]
      refine heq.trans ?_
      refine (bind_ok (hi.expr c1 _ ds e c2 hb2 h2 he (by rw [h3.here, hk]; rfl))).trans ?_
      refine (bind_ok (accept_true h3 (by simp [hk]) (by decide))).trans ?_
      exact bind_ok (ih fuel c3 c' hb3 h4 hr (by omega))

theorem callOf_eq (hi : inner.FollowsExpr g) {args : List Expr} {r : Token} (callee : Expr)
    (hb : c.bound ≤ inner.bound) (h : g.ArgumentList us ds args) (hr : r.kind = .rightParen)
    (hp : c.Moves (us ++ [r]) ds c') :
    callOf inner callee c = (.ok (.call callee r.mark args), c') := by
  obtain ⟨c1, h1, h2⟩ := hp.unsnoc
  unfold callOf
  rw [bind_ok (check_eq _ c)]
  cases h with
  | none =>
    obtain rfl := h1.eq_of_nil
    rw [if_pos (by rw [h2.here, hr]; rfl), pure_bind]
    exact bind_ok (expect_eq h2 hr (by decide) _)
  | some h =>
    obtain ⟨t, vs, rfl, ht⟩ := h.begins hi.begins
    have hlen := h.length_le
    have := h1.length_le
    rw [if_neg (by rw [h1.here]; revert ht; generalize t.kind = k; cases k <;> decide),
      bind_ok (follows_arguments hi h inner.bound c c1 hb h1 (by rw [h2.here, hr]) (by omega))]
    exact bind_ok (expect_eq h2 hr (by decide) _)

/-- Reading a call is reading its last part behind the others. -/
theorem chain_eq (hi : inner.FollowsExpr g) (h : g.Call ts ds e) :
    ∀ fuel c c', c.bound ≤ inner.bound → c.Moves ts ds c' → ts.length ≤ fuel →
      ∃ m, fuel ≤ m + ts.length ∧
        (primary inner >>= chain inner fuel) c = chain inner m e c' := by
  induction h with
  | @primary ts ds e h =>
    intro fuel c c' hb hp hf
    exact ⟨fuel, by omega, bind_ok (follows_primary hi c ts ds e c' hb hp h rfl)⟩
  | @call ts us ds es e args l r _ hl ha hr ih =>
    intro fuel c c' hb hp hf
    simp only [List.length_append, List.length_cons, List.length_nil] at hf ⊢
    rw [List.append_assoc] at hp
    obtain ⟨c1, h1, h2⟩ := hp.split
    obtain ⟨c2, h2, h3⟩ := h2.uncons
    obtain ⟨m, hm, h⟩ := ih fuel c c1 hb h1 (by omega)
    obtain ⟨m, rfl⟩ : ∃ n, m = n + 1 := ⟨m - 1, by omega⟩
    refine ⟨m, by omega, h.trans ?_⟩
    rw [chain, bind_ok (accept_true h2 (by simp [hl]) (by decide)), if_pos rfl,
      bind_ok (callOf_eq hi e (h2.bound ▸ h1.bound ▸ hb) ha hr h3)]
  | @get ts ds e dot name _ hd hn ih =>
    intro fuel c c' hb hp hf
    simp only [List.length_append, List.length_cons, List.length_nil] at hf ⊢
    obtain ⟨c1, h1, h2⟩ := hp.unsnoc
    obtain ⟨c2, h2, h3⟩ := h2.uncons
    obtain ⟨m, hm, h⟩ := ih fuel c c1 hb h1 (by omega)
    obtain ⟨m, rfl⟩ : ∃ n, m = n + 1 := ⟨m - 1, by omega⟩
    refine ⟨m, by omega, h.trans ?_⟩
    rw [chain, bind_ok (accept_false (by simp [h2.here, hd])), if_neg (by decide),
      bind_ok (accept_true h2 (by simp [hd]) (by decide)), if_pos rfl,
      bind_ok (expect_eq h3 hn (by decide) _)]

theorem follows_callExpr (hi : inner.FollowsExpr g) :
    Follows inner.bound (callExpr inner) g.Call goesOnCall := by
  intro c ts ds e c' hb hp h hg
  have := hp.length_le
  obtain ⟨m, -, hm⟩ := chain_eq hi h inner.bound c c' hb hp (by omega)
  refine hm.trans ?_
  have hk : c'.here.kind ≠ .leftParen ∧ c'.here.kind ≠ .dot := by simpa [goesOnCall] using hg
  cases m with
  | zero => rfl
  | succ m =>
    rw [chain, bind_ok (accept_false (by simpa using hk.1)), if_neg (by decide),
      bind_ok (accept_false (by simpa using hk.2))]
    rfl

theorem follows_unary (hi : inner.FollowsExpr g) :
    Follows inner.bound (unary inner) g.Unary goesOnCall := by
  intro c ts ds e c' hb hp h hg
  unfold unary
  cases h with
  | call h =>
    obtain ⟨t, us, rfl, ht⟩ := h.begins
    have hk : t.kind ∉ [TokenKind.bang, .minus] := by
      revert ht
      generalize t.kind = k
      cases k <;> decide
    rw [bind_ok (accept?_none (by rwa [hp.here]))]
    exact follows_callExpr hi c _ ds e c' hb hp h hg
  | @operator op ts ds e ho he =>
    obtain ⟨c1, h1, h2⟩ := hp.uncons
    rw [bind_ok (accept?_some h1 (by simpa using ho) (by decide))]
    exact bind_ok (hi.unary c1 ts ds e c' (h1.bound ▸ hb) h2 he hg)

/-- Reading operands is reading the last one behind the others. -/
theorem operands_eq {operand : Parse Expr} {level : Level} {tighter : List Level} {bound : Nat}
    (hs : Separate (level :: tighter))
    (ho : Follows bound operand (g.Binary tighter) (goesOnBinary tighter)) {ls : List Level}
    (h : g.Binary ls ts ds e) (hls : ls = level :: tighter) :
    ∀ fuel c c', c.bound ≤ bound → c.Moves ts ds c' → goesOnBinary tighter c'.here.kind = false →
      ts.length ≤ fuel → ∃ m, fuel ≤ m + ts.length ∧
        (operand >>= operands operand level fuel) c = operands operand level m e c' := by
  induction h with
  | unary => cases hls
  | @operand l t ts ds e h _ =>
    obtain ⟨rfl, rfl⟩ := List.cons.inj hls
    intro fuel c c' hb hp hg hf
    exact ⟨fuel, by omega, bind_ok (ho c ts ds e c' hb hp h hg)⟩
  | @operator l t ts us ds es e r op _ hk hr ih _ =>
    obtain ⟨rfl, rfl⟩ := List.cons.inj hls
    intro fuel c c' hb hp hg hf
    simp only [List.length_append, List.length_cons] at hf ⊢
    obtain ⟨c1, h1, h2⟩ := hp.split
    obtain ⟨c2, h2, h3⟩ := h2.uncons
    obtain ⟨m, hm, h⟩ := ih rfl fuel c c1 hb h1 (by rw [h2.here]; exact hs.1 _ hk) (by omega)
    obtain ⟨m, rfl⟩ : ∃ n, m = n + 1 := ⟨m - 1, by omega⟩
    refine ⟨m, by omega, h.trans ?_⟩
    rw [operands, bind_ok (accept?_some h2 hk hs.2.1)]
    exact bind_ok (ho c2 us es r c' (h2.bound ▸ h1.bound ▸ hb) h3 hr hg)

theorem follows_binaryFrom (hi : inner.FollowsExpr g) : ∀ ls, Separate ls →
    Follows inner.bound (binaryFrom inner ls) (g.Binary ls) (goesOnBinary ls)
  | [], _ => by
    intro c ts ds e c' hb hp h hg
    cases h with
    | unary h => exact follows_unary hi c ts ds e c' hb hp h (by simpa [goesOnBinary] using hg)
  | level :: tighter, hs => by
    intro c ts ds e c' hb hp h hg
    have hlen := hp.length_le
    have hk : goesOnBinary tighter c'.here.kind = false ∧ c'.here.kind ∉ level.ops := by
      simp only [goesOnBinary, List.any_cons, Bool.or_eq_false_iff] at hg ⊢
      exact ⟨⟨hg.1, hg.2.2⟩, by simpa using hg.2.1⟩
    obtain ⟨m, -, hm⟩ := operands_eq hs (follows_binaryFrom hi tighter hs.2.2) h rfl inner.bound c
      c' hb hp hk.1 (by omega)
    refine hm.trans ?_
    cases m with
    | zero => rfl
    | succ m =>
      rw [operands, bind_ok (accept?_none hk.2)]
      rfl

theorem follows_ternary (hi : inner.FollowsExpr g) :
    Follows inner.bound (ternary inner) g.Ternary goesOnTernary := by
  intro c ts ds e c' hb hp h hg
  have hcond := follows_binaryFrom hi levels separate_levels
  unfold ternary
  cases h with
  | binary h =>
    have hk : goesOnBinary levels c'.here.kind = false ∧ c'.here.kind ≠ .question := by
      simpa [goesOnTernary] using hg
    rw [bind_ok (hcond c ts ds e c' hb hp h hk.1), bind_ok (accept_false (by simpa using hk.2))]
    rfl
  | @choice ts us vs ds es fs cond yes no question colon h hq hy hc hn =>
    rw [List.append_assoc, List.append_assoc] at hp
    obtain ⟨c1, h1, hp⟩ := hp.split
    obtain ⟨c2, h2, hp⟩ := hp.uncons
    obtain ⟨c3, h3, hp⟩ := hp.split
    obtain ⟨c4, h4, h5⟩ := hp.uncons
    have hb2 : c2.bound ≤ inner.bound := by rwa [h2.bound, h1.bound]
    have hb4 : c4.bound ≤ inner.bound := by rwa [h4.bound, h3.bound]
    rw [bind_ok (hcond c ts ds cond c1 hb h1 h (by rw [h2.here, hq]; rfl)),
      bind_ok (accept_true h2 (by simp [hq]) (by decide)), if_pos rfl,
      bind_ok (hi.middle c2 us es yes c3 hb2 h3 hy (by rw [h4.here, hc]; rfl)),
      bind_ok (discard_eq (expect_eq h4 hc (by decide) _)),
      bind_ok (hi.ternary c4 vs fs no c' hb4 h5 hn hg)]
    rfl

theorem follows_assignment (hi : inner.FollowsExpr g) :
    Follows inner.bound (assignment inner) g.Assignment goesOnAssignment := by
  intro c ts ds e c' hb hp h hg
  have htarget := follows_ternary hi
  unfold assignment
  cases h with
  | ternary h =>
    have hk : goesOnTernary c'.here.kind = false ∧ c'.here.kind ≠ .equal := by
      simpa [goesOnAssignment] using hg
    rw [bind_ok (htarget c ts ds e c' hb hp h hk.1), bind_ok (accept?_none (by simpa using hk.2))]
    rfl
  | @name t equal ts ds e ht he hv =>
    obtain ⟨c1, h1, hp⟩ := hp.uncons
    obtain ⟨c2, h2, h3⟩ := hp.uncons
    rw [bind_ok (htarget c [t] [] _ c1 hb h1.moves
        (.binary (.ofCall (.primary (.leaf (.name ht))) _)) (by rw [h2.here, he]; rfl)),
      bind_ok (accept?_some h2 (by simp [he]) (by decide))]
    exact bind_ok (hi.value c2 ts ds e c' (h2.bound ▸ h1.bound ▸ hb) h3 hv hg)
  | @property ts us ds es object e dot name equal ho hd hn he hv =>
    rw [show ts ++ dot :: name :: equal :: us = ts ++ [dot, name] ++ equal :: us by simp] at hp
    obtain ⟨c1, h1, hp⟩ := hp.split
    obtain ⟨c2, h2, h3⟩ := hp.uncons
    rw [bind_ok (htarget c _ ds _ c1 hb h1 (.binary (.ofCall (.get ho hd hn) _))
        (by rw [h2.here, he]; rfl)),
      bind_ok (accept?_some h2 (by simp [he]) (by decide))]
    exact bind_ok (hi.value c2 us es e c' (h2.bound ▸ h1.bound ▸ hb) h3 hv hg)

end Parse

end Lox
