/-
# Expressions read exactly their phrases

If the productions further in are sound for the phrases further in, then so is
each production of expressions for its own phrases: the tokens that it reads
without a report spell the tree it gives. And it is complete: it reads every
phrase, unless the token behind goes on with it. That is because it reads the
lenient phrases, and a phrase is one of them of which nothing is reported.

Key definitions: `Lox.Inner.SoundExpr`, `Lox.Inner.CompleteExpr`.
Key theorems: `Lox.Parse.sound_assignment`, `Lox.Parse.complete_assignment`.
-/
import Lox.Proofs.Grammar.Lenient.Expression

namespace Lox

open Procedure Phrases

/-- What is read further in as an expression spells it. -/
structure Inner.SoundExpr (inner : Inner) (g : Phrases) : Prop where
  expr : Parse.Sound inner.bound inner.expr fun _ => g.expr
  middle : Parse.Sound inner.bound inner.middle fun _ => g.middle
  value : Parse.Sound inner.bound inner.value fun _ => g.value
  ternary : Parse.Sound inner.bound inner.ternary fun _ => g.ternary
  unary : Parse.Sound inner.bound inner.unary fun _ => g.unary

/-- What spells an expression further in is read there. -/
structure Inner.CompleteExpr (inner : Inner) (g : Phrases) : Prop where
  expr : Parse.Complete inner.bound inner.expr g.expr goesOnAssignment
  middle : Parse.Complete inner.bound inner.middle g.middle goesOnAssignment
  value : Parse.Complete inner.bound inner.value g.value goesOnAssignment
  ternary : Parse.Complete inner.bound inner.ternary g.ternary goesOnTernary
  unary : Parse.Complete inner.bound inner.unary g.unary goesOnCall
  begins : ∀ ts e, g.expr ts e → Begins beginsExpr ts

/-- What is read further in without a report is read there as a lenient phrase. -/
theorem Inner.CompleteExpr.follows {inner : Inner} {g : Phrases} (hi : inner.CompleteExpr g) :
    inner.FollowsExpr g.silent :=
  ⟨hi.expr.follows, hi.middle.follows, hi.value.follows, hi.ternary.follows, hi.unary.follows,
    fun _ _ _ h => hi.begins _ _ h.2⟩

theorem eof_not_mem_levels : ∀ level ∈ levels, TokenKind.eof ∉ level.ops := by
  decide

/-- A name or a property: what can be assigned to. -/
def Expr.isTarget : Expr → Bool
  | .variable _ | .get .. => true
  | _ => false

theorem isTarget_levels : ∀ level ∈ levels, ∀ l op r, (level.node l op r).isTarget = false := by
  simp [levels, Expr.isTarget]

namespace Phrases

variable {g : Phrases} {ts : List Token} {e : Expr}

/-! ### What targets are spelled by -/

theorem Unary.toCall (h : Unary g ts e) (ht : e.isTarget) : Call g ts e := by
  cases h with
  | call h => exact h
  | operator => cases ht

theorem Binary.toCall {ls : List Level}
    (hl : ∀ level ∈ ls, ∀ l op r, (level.node l op r).isTarget = false) (h : Binary g ls ts e)
    (ht : e.isTarget) : Call g ts e := by
  induction h with
  | unary h => exact h.toCall ht
  | operand _ ih => exact ih (fun level hm => hl level (List.mem_cons_of_mem _ hm)) ht
  | operator =>
    rw [hl _ List.mem_cons_self] at ht
    cases ht

theorem Ternary.toCall (h : Ternary g ts e) (ht : e.isTarget) : Call g ts e := by
  cases h with
  | binary h => exact h.toCall isTarget_levels ht
  | choice => cases ht

/-- A call stands as an operand of every level. -/
theorem Binary.ofCall (h : Call g ts e) : ∀ ls : List Level, Binary g ls ts e
  | [] => .unary (.call h)
  | _ :: ls => .operand (Binary.ofCall h ls)

theorem Call.of_variable {use : NameUse} (h : Call g ts (.variable use)) :
    ∃ t, t.kind = .identifier ∧ ts = [t] ∧ use = .free t.mark := by
  cases h with
  | primary h =>
    cases h with
    | name h => exact ⟨_, h, rfl, rfl⟩

theorem Call.of_get {object : Expr} {name : Mark} (h : Call g ts (.get object name)) :
    ∃ us dot t, Call g us object ∧ dot.kind = .dot ∧ t.kind = .identifier ∧ ts = us ++ [dot, t] ∧
      name = t.mark := by
  cases h with
  | primary h => cases h
  | get h hd ht => exact ⟨_, _, _, h, hd, ht, rfl, rfl⟩

end Phrases

namespace Parse

/-! ### Soundness -/

section Sound

variable {inner : Inner} {g : Phrases}

/-- A token that was looked at is read, and that is all. -/
theorem sound_leaf {t : Token} {e : Expr} (ht : t.kind ≠ .eof) (h : Primary g [t] e) :
    Sound inner.bound (do discard next; return e) fun c' us b =>
      ∀ (c : Cursor) ts, c.Passes ts c' → ts = [] ∧ t = c.here → Primary g (ts ++ us) b := by
  refine sound_take.bind fun _ => .pure fun c'' c' us _ hu c ts hts ht' => ?_
  obtain ⟨rfl, rfl⟩ := ht'
  obtain rfl := hts.eq_of_nil
  rw [hu ht]
  exact h

theorem sound_primary (hi : inner.SoundExpr g) :
    Sound inner.bound (primary inner) fun _ => Primary g := by
  refine (sound_read _).bind fun t => ?_
  split
  case h_1 h => exact sound_leaf (by simp [h]) (.no h)
  case h_2 h => exact sound_leaf (by simp [h]) (.yes h)
  case h_3 h => exact sound_leaf (by simp [h]) (.nil h)
  case h_4 h => exact sound_leaf (by simp [h]) (.constant (.inl h))
  case h_5 h => exact sound_leaf (by simp [h]) (.constant (.inr h))
  case h_6 h => exact sound_leaf (by simp [h]) (.receiver h)
  case h_7 h =>
    refine sound_take.bind fun _ => (sound_skip (by decide) _).bind fun _ =>
      (sound_expect (by decide) _).bind fun name => .pure ?_
    rintro - - _ - ⟨rfl, hn⟩ - _ - ⟨dot, rfl, hd⟩ c us hus hu c' ts hts ⟨rfl, rfl⟩
    obtain rfl := hts.eq_of_nil
    rw [hu (by simp [h])]
    exact .superMethod h hd hn
  case h_8 h => exact sound_leaf (by simp [h]) (.name h)
  case h_9 h =>
    refine sound_take.bind fun _ => hi.expr.bind fun e =>
      (sound_skip (by decide) _).bind fun _ => .pure ?_
    rintro - - _ - ⟨r, rfl, hr⟩ - vs - he c us hus hu c' ts hts ⟨rfl, rfl⟩
    obtain rfl := hts.eq_of_nil
    rw [hu (by simp [h])]
    exact .grouping h he hr
  case h_10 => exact sound_refuse t _

theorem sound_arguments (hi : inner.SoundExpr g) : ∀ fuel count,
    Sound inner.bound (arguments inner fuel count) fun c ts es =>
      c.ahead.length ≤ fuel → Arguments g ts es ∧ count + es.length ≤ maxArgs
  | 0, _ => .pure fun c h => by simp [Cursor.ahead] at h
  | fuel + 1, count => by
    -- An argument from the ceiling on is reported, and read all the same.
    have rest : Sound inner.bound (do
        let arg ← inner.expr
        if ← accept [.comma] then return arg :: (← arguments inner fuel (count + 1))
        else return [arg]) fun c ts es => c.ahead.length ≤ fuel + 1 →
          Arguments g ts es ∧ (count < maxArgs → count + es.length ≤ maxArgs) := by
      refine hi.expr.bind fun e => (sound_accept (by decide)).bind fun b => ?_
      cases b with
      | false =>
        refine .pure ?_
        rintro - c' us - (⟨h, -⟩ | ⟨-, rfl⟩) c ts - he -
        · exact absurd h (by decide)
        · exact ⟨by simpa using .last he, fun h => h⟩
      | true =>
        refine (sound_arguments hi fuel (count + 1)).bind fun es => .pure ?_
        rintro - c'' us - hes c' vs hvs (⟨-, comma, rfl, hk⟩ | ⟨h, -⟩) c ts hts he hl
        · have h1 := congrArg List.length hts.ahead
          have h2 := congrArg List.length hvs.ahead
          simp only [List.length_append, List.length_singleton] at h1 h2
          obtain ⟨ha, hn⟩ := hes (by omega)
          refine ⟨by simpa using .more he (by simpa using hk) ha, fun _ => ?_⟩
          rw [List.length_cons]
          omega
        · exact absurd h (by decide)
    rw [arguments]
    split
    · exact (sound_read _).bind fun t => (sound_report t _).bind fun _ =>
        rest.mono fun _ _ _ _ _ _ _ h => h.elim
    · exact rest.mono fun _ _ _ h hl => ⟨(h hl).1, (h hl).2 (by omega)⟩

theorem sound_callOf (hi : inner.SoundExpr g) (callee : Expr) :
    Sound inner.bound (callOf inner callee) fun _ ts e =>
      ∃ us es r, ArgumentList g us es ∧ r.kind = .rightParen ∧ ts = us ++ [r] ∧
        e = .call callee r.mark es := by
  have close (es : List Expr) : Sound inner.bound (do
      let paren ← expect .rightParen "Expect ')' after arguments."
      return Expr.call callee paren.mark es) fun _ ts e =>
        ∃ r, r.kind = .rightParen ∧ ts = [r] ∧ e = .call callee r.mark es := by
    refine (sound_expect (by decide) _).bind fun r => .pure ?_
    rintro - c ts - ⟨rfl, hr⟩
    exact ⟨r, hr, rfl, rfl⟩
  refine (sound_read _).bind fun b => ?_
  cases b with
  | true =>
    refine (Sound.pure (G := fun _ => ArgumentList g) fun _ => .none).bind fun es =>
      (close es).mono ?_
    rintro - us e ⟨r, hr, rfl, rfl⟩ - ts - h c vs - ⟨rfl, -⟩
    exact ⟨ts, es, r, h, hr, rfl, rfl⟩
  | false =>
    refine (sound_arguments hi inner.bound 0).enough.bind fun es => (close es).mono ?_
    rintro - us e ⟨r, hr, rfl, rfl⟩ - ts - ⟨h, hn⟩ c vs - ⟨rfl, -⟩
    exact ⟨ts, es, r, .some h (by simpa using hn), hr, rfl, rfl⟩

theorem sound_chain (hi : inner.SoundExpr g) : ∀ fuel e,
    Sound inner.bound (chain inner fuel e) fun _ ts e' =>
      ∀ us, Call g us e → Call g (us ++ ts) e'
  | 0, _ => .pure fun _ us h => by simpa using h
  | fuel + 1, e => by
    rw [chain]
    refine (sound_accept (by decide)).bind fun b => ?_
    cases b with
    | true =>
      refine (sound_callOf hi e).bind fun e' => (sound_chain hi fuel e').mono ?_
      rintro - vs e'' h - us - ⟨args, es, r, ha, hr, rfl, rfl⟩ c ts - (⟨-, l, rfl, hl⟩ | ⟨h', -⟩) ws hw
      · have := h _ (.call hw (by simpa using hl) ha hr)
        simpa using this
      · exact absurd h' (by decide)
    | false =>
      refine (sound_accept (by decide)).bind fun b => ?_
      cases b with
      | true =>
        refine (sound_expect (by decide) _).bind fun name => (sound_chain hi fuel _).mono ?_
        rintro - vs e'' h - us - ⟨rfl, hn⟩ c ts - hd c' ts' - h' ws hw
        obtain ⟨dot, rfl, hd⟩ : ∃ dot, ts = [dot] ∧ dot.kind ∈ [TokenKind.dot] := by simpa using hd
        obtain rfl : ts' = [] := by simpa using h'
        have := h _ (.get hw (by simpa using hd) hn)
        simpa using this
      | false =>
        refine .pure ?_
        rintro - c ts - h c' ts' - h' ws hw
        obtain rfl : ts = [] := by simpa using h
        obtain rfl : ts' = [] := by simpa using h'
        simpa using hw

theorem sound_callExpr (hi : inner.SoundExpr g) :
    Sound inner.bound (callExpr inner) fun _ => Call g :=
  (sound_primary hi).bind fun e => (sound_chain hi inner.bound e).mono fun _ _ _ h _ _ _ hp =>
    h _ (.primary hp)

theorem sound_unary (hi : inner.SoundExpr g) :
    Sound inner.bound (unary inner) fun _ => Unary g := by
  refine (sound_accept? (by decide)).bind fun o => ?_
  cases o with
  | none =>
    refine (sound_callExpr hi).mono ?_
    rintro - us e h c ts - (⟨t, ht, -⟩ | ⟨-, rfl⟩)
    · cases ht
    · exact .call h
  | some op =>
    refine hi.unary.bind fun e => .pure ?_
    rintro - c us - he c' ts - (⟨t, ht, rfl, hk⟩ | ⟨ht, -⟩)
    · obtain rfl := Option.some.inj ht
      simpa using .operator (by simpa using hk) he
    · cases ht

theorem sound_operands {operand : Parse Expr} {level : Level} {tighter : List Level} {bound : Nat}
    (hl : .eof ∉ level.ops) (ho : Sound bound operand fun _ => Binary g tighter) : ∀ fuel left,
    Sound bound (operands operand level fuel left) fun _ ts e =>
      ∀ us, Binary g (level :: tighter) us left → Binary g (level :: tighter) (us ++ ts) e
  | 0, _ => .pure fun _ us h => by simpa using h
  | fuel + 1, left => by
    rw [operands]
    refine (sound_accept? hl).bind fun o => ?_
    cases o with
    | none =>
      refine .pure ?_
      rintro - c ts - (⟨t, ht, -⟩ | ⟨-, rfl⟩) us hu
      · cases ht
      · simpa using hu
    | some op =>
      refine ho.bind fun right => (sound_operands hl ho fuel _).mono ?_
      rintro - vs e h - us - hr c ts - (⟨t, ht, rfl, hk⟩ | ⟨ht, -⟩) ws hw
      · obtain rfl := Option.some.inj ht
        simpa using h _ (.operator hw hk hr)
      · cases ht

theorem sound_binaryFrom (hi : inner.SoundExpr g) : ∀ ls : List Level,
    (∀ level ∈ ls, .eof ∉ level.ops) →
      Sound inner.bound (binaryFrom inner ls) fun _ => Binary g ls
  | [], _ => (sound_unary hi).mono fun _ _ _ h => .unary h
  | level :: tighter, hl => by
    have ho := sound_binaryFrom hi tighter fun l h => hl l (List.mem_cons_of_mem _ h)
    exact ho.bind fun left => (sound_operands (hl _ List.mem_cons_self) ho _ left).mono
      fun _ _ _ h _ _ _ hu => h _ (.operand hu)

theorem sound_ternary (hi : inner.SoundExpr g) :
    Sound inner.bound (ternary inner) fun _ => Ternary g := by
  refine (sound_binaryFrom hi levels eof_not_mem_levels).bind fun cond =>
    (sound_accept (by decide)).bind fun b => ?_
  cases b with
  | true =>
    refine hi.middle.bind fun yes => (sound_skip (by decide) _).bind fun _ =>
      hi.ternary.bind fun no => .pure ?_
    rintro - - vs - hn - _ - ⟨colon, rfl, hc⟩ - us - hy - qs - hq c ts - h
    obtain ⟨q, rfl, hq⟩ : ∃ q, qs = [q] ∧ q.kind ∈ [TokenKind.question] := by simpa using hq
    have := Ternary.choice h (by simpa using hq) hy hc hn
    simpa using this
  | false =>
    refine .pure ?_
    rintro - c us - hu c' ts - h
    obtain rfl : us = [] := by simpa using hu
    simpa using .binary h

theorem sound_assignment (hi : inner.SoundExpr g) :
    Sound inner.bound (assignment inner) fun _ => Assignment g := by
  refine (sound_ternary hi).bind fun target => (sound_accept? (by decide)).bind fun o => ?_
  cases o with
  | none =>
    refine .pure ?_
    rintro - c us - hu c' ts - h
    obtain rfl : us = [] := by simpa using hu
    simpa using .ternary h
  | some equals =>
    refine hi.value.bind fun value => ?_
    split
    · refine .pure ?_
      rintro - - vs - hv - us - hu c ts - h
      obtain ⟨rfl, ht⟩ : us = [equals] ∧ equals.kind = .equal := by simpa using hu
      obtain ⟨name, hn, rfl, rfl⟩ := (h.toCall rfl).of_variable
      simpa using .name hn ht hv
    · refine .pure ?_
      rintro - - vs - hv - us - hu c ts - h
      obtain ⟨rfl, ht⟩ : us = [equals] ∧ equals.kind = .equal := by simpa using hu
      obtain ⟨ws, dot, name, ho, hd, hn, rfl, rfl⟩ := (h.toCall rfl).of_get
      have := Assignment.property ho hd hn ht hv
      simpa using this
    · refine (sound_report _ _).bind fun _ => .pure ?_
      rintro - - - - h
      exact h.elim

end Sound

/-! ### Completeness -/

section Complete

variable {inner : Inner} {g : Phrases}

theorem complete_ternary (hi : inner.CompleteExpr g) :
    Complete inner.bound (ternary inner) (Ternary g) goesOnTernary :=
  (follows_ternary hi.follows).complete fun _ _ => Ternary.lenient g.embeds_silent

theorem complete_assignment (hi : inner.CompleteExpr g) :
    Complete inner.bound (assignment inner) (Assignment g) goesOnAssignment :=
  (follows_assignment hi.follows).complete fun _ _ => Assignment.lenient g.embeds_silent

end Complete

end Parse

end Lox
