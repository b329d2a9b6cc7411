/-
# A statement that lacks its semicolon

What is read of a print, expression, variable or return statement up to its
semicolon, if that is missing. Before a token that neither begins nor goes on
with an expression the statement is refused, with one report. Before another
expression statement it is refused, or it goes on with that one through its
semicolon; then at most a wrong target is reported (`Lox.Parse.LacksAt`). A
production that comes to such a statement and has nothing to read behind it does
the same (`Lox.Parse.Lacks.behind`).

Key definitions: `Lox.Parse.RefusesAt`, `Lox.Parse.LacksAt`, `Lox.Parse.Lacks`.
Key theorems: `Lox.Parse.lacks_sentence`, `Lox.Parse.Lacks.behind`.
-/
import Lox.Proofs.Grammar.Confinement
import Lox.Proofs.Grammar.GoingOn

namespace Lox

open Procedure Phrases

/-- Where a statement stops: neither its semicolon nor a token that begins or goes on with an
expression. -/
structure Stuck (k : TokenKind) : Prop where
  semicolon : k ≠ .semicolon
  begins : beginsExpr k = false
  goesOn : goesOnAssignment k = false

namespace Parse

variable {α β : Type} {p : Parse α} {q : Parse β} {f : β → Parse α} {c c₁ c' : Cursor}
  {bound room m : Nat} {u x ts : List Token}

/-! ### Refusals -/

/-- The production reads up to the place without a report, and refuses the token there. -/
def RefusesAt (p : Parse α) (c c' : Cursor) : Prop :=
  ∃ message, p c = (.error (.refused ⟨message, some c'.here.offset⟩), c'.report c'.here.offset message)

theorem RefusesAt.of_eq {q : Parse α} (h : RefusesAt q c₁ c') (he : p c = q c₁) : RefusesAt p c c' := by
  obtain ⟨message, h⟩ := h
  exact ⟨message, he.trans h⟩

theorem RefusesAt.bind (h : RefusesAt q c c') (f : β → Parse α) : RefusesAt (q >>= f) c c' := by
  obtain ⟨message, h⟩ := h
  exact ⟨message, bind_error h⟩

/-- What is behind a token that is read refuses for it. -/
theorem RefusesAt.behind {b : β} (h : RefusesAt (f b) c₁ c') (hq : q c = (.ok b, c₁)) :
    RefusesAt (q >>= f) c c' := by
  obtain ⟨message, h⟩ := h
  exact ⟨message, (bind_ok hq).trans h⟩

theorem refusesAt_skip {kind : TokenKind} (h : c.here.kind ≠ kind) (message : String) :
    RefusesAt (discard (expect kind message)) c c :=
  ⟨message, discard_error (expect_refused h message)⟩

section Inner

variable {inner : Inner}

theorem refusesAt_primary (h : beginsExpr c.here.kind = false) : RefusesAt (primary inner) c c := by
  refine RefusesAt.behind ?_ (show here c = (.ok c.here, c) from rfl)
  split
  case h_10 => exact ⟨_, rfl⟩
  all_goals
    rename_i hk
    rw [hk] at h
    cases h

theorem refusesAt_binaryFrom (h : beginsExpr c.here.kind = false) : ∀ ls : List Level,
    RefusesAt (binaryFrom inner ls) c c
  | [] => by
    have hk : c.here.kind ∉ [TokenKind.bang, .minus] := fun hm => by
      rcases List.mem_cons.mp hm with hk | hm
      · rw [hk] at h
        cases h
      · rw [List.mem_singleton.mp hm] at h
        cases h
    exact RefusesAt.behind ((refusesAt_primary h).bind _) (accept?_none hk)
  | _ :: tighter => (refusesAt_binaryFrom h tighter).bind _

/-- What begins no expression is refused as one. -/
theorem refusesAt_assignment (h : beginsExpr c.here.kind = false) :
    RefusesAt (assignment inner) c c :=
  ((refusesAt_binaryFrom h levels).bind _).bind _

end Inner

/-! ### Lacking a semicolon -/

/-- What becomes of a production that was started at the place, behind tokens that lack their
semicolon. -/
structure LacksAt (room : Nat) (p : Parse α) (u : List Token) (c : Cursor) : Prop where
  stuck : ∀ c', c.Passes u c' → Stuck c'.here.kind → RefusesAt p c c'
  before : ∀ c' c'' w semi, c.Passes u c' → c'.Passes (w ++ [semi]) c'' →
    Derives (.symbol .assignment) w → w.length ≤ room → semi.kind = .semicolon →
    c''.here.kind ≠ .kwElse → RefusesAt p c c' ∨ ∃ a d ds, p c = (.ok a, d) ∧
      c.Moves (u ++ w ++ [semi]) ds d ∧ ds.length ≤ 1 ∧ ∀ r ∈ ds, r.message = invalidTarget

/-- The same from everywhere. -/
def Lacks (bound room : Nat) (p : Parse α) (u : List Token) : Prop :=
  ∀ c, c.bound ≤ bound → LacksAt room p u c

/-- Nothing more is read where no `else` is ahead. -/
def Closing (f : β → Parse α) : Prop :=
  ∀ a d, d.here.kind ≠ .kwElse → ∃ b, f a d = (.ok b, d)

theorem closing_pure (f : β → α) : Closing fun b => (pure (f b) : Parse α) := fun b _ _ => ⟨f b, rfl⟩

/-- Over some tokens the production comes to one that lacks its semicolon. -/
theorem Lacks.behind (h : ∀ c c₁ c', c.bound ≤ bound → c.Passes ts c₁ → c₁.Passes u c' →
    ∃ (β : Type) (q : Parse β) (f : β → Parse α), p c = (q >>= f) c₁ ∧ LacksAt room q u c₁ ∧
      Closing f) : Lacks bound room p (ts ++ u) := by
  intro c hb
  constructor
  · intro c' hp hk
    obtain ⟨c₁, h₁, h₂⟩ := hp.split
    obtain ⟨β, q, f, he, hq, -⟩ := h c c₁ c' hb h₁ h₂
    exact ((hq.stuck c' h₂ hk).bind f).of_eq he
  · intro c' c'' w semi hp hw hd hroom hs hk
    obtain ⟨c₁, h₁, h₂⟩ := hp.split
    obtain ⟨β, q, f, he, hq, hf⟩ := h c c₁ c' hb h₁ h₂
    rcases hq.before c' c'' w semi h₂ hw hd hroom hs hk with hr | ⟨a, d, ds, hrun, hm, hlen, hds⟩
    · exact .inl ((hr.bind f).of_eq he)
    · refine .inr ?_
      have hall := h₁.moves.trans hm
      have hhere : d.here = c''.here := by
        have hahead : (ts ++ (u ++ w ++ [semi])) ++ d.ahead = (ts ++ (u ++ w ++ [semi])) ++ c''.ahead := by
          rw [← hall.ahead, (hp.trans hw).ahead]
          simp
        exact (List.cons.inj (List.append_cancel_left hahead)).1
      obtain ⟨b, hb⟩ := hf a d (by rwa [hhere])
      exact ⟨b, d, ds, he.trans ((bind_ok hrun).trans hb), by simpa using hall, hlen, hds⟩

/-! ### Sentences -/

/-- What begins an expression goes on with another one only if it is an opening parenthesis or a
minus. -/
theorem not_goesOn_of_begins {k : TokenKind} (h : beginsExpr k)
    (hk : ¬ (k = .leftParen ∨ k = .minus)) : goesOnAssignment k = false := by
  revert h hk
  cases k <;> decide

/-- An expression that lacks the semicolon behind it. -/
theorem lacks_sentence {tree : Expr} (hx : Assignment (within m 0) x tree)
    (hm : nestingSteps * (x.length + room) ≤ m) (message : String) (f : Expr → α) :
    Lacks bound room (do
      let e ← assignment (Inner.within bound m 0)
      discard (expect .semicolon message)
      return f e) x := by
  have hi := (Inner.complete_within bound m 0).toCompleteExpr
  intro c hb
  have alone (c' : Cursor) (hp : c.Passes x c') (hg : goesOnAssignment c'.here.kind = false)
      (hk : c'.here.kind ≠ .semicolon) : RefusesAt (do
        let e ← assignment (Inner.within bound m 0)
        discard (expect .semicolon message)
        return f e) c c' :=
    RefusesAt.behind ((refusesAt_skip hk message).bind _)
      (complete_assignment hi c x tree c' (by rw [Inner.bound_within]; exact hb) hp hx hg)
  constructor
  · exact fun c' hp hk => alone c' hp hk.goesOn hk.semicolon
  · intro c' c'' w semi hp hw hd hroom hs _
    obtain ⟨t, us, rfl, ht⟩ := hd.assignment_begins
    by_cases hk : t.kind = .leftParen ∨ t.kind = .minus
    · refine .inr ?_
      obtain ⟨c₂, hw, hsemi⟩ := hw.split
      have hlen : nestingSteps * (x ++ t :: us).length ≤ m :=
        Nat.le_trans (Nat.mul_le_mul_left _ (by rw [List.length_append]; omega)) hm
      obtain ⟨e, d, ds, hrun, hmove, hone, hds⟩ := readsWrong_append (hx.derives (derived_within m 0))
        hd hk bound m c c₂ hb hlen (hp.trans hw) (by rw [hsemi.here, hs]; rfl)
      have hahead : d.ahead = semi :: c''.ahead := by
        have h := hmove.ahead.symm.trans (hp.trans (hw.trans hsemi)).ahead
        rw [List.append_assoc, List.append_assoc, List.append_assoc] at h
        exact List.append_cancel_left (List.append_cancel_left h)
      have hstep := Cursor.passes_advance_of_cons (by rw [hs]; decide) hahead (by simp [Cursor.ahead])
      refine ⟨f e, d.advance, ds, ?_, by simpa using hmove.trans hstep.moves, hone, hds⟩
      exact (bind_ok hrun).trans (bind_ok (discard_eq (expect_eq hstep hs (by decide) _)))
    · have hhere : c'.here = t := hw.here
      refine .inl (alone c' hp ?_ ?_)
      · rw [hhere]
        exact not_goesOn_of_begins ht hk
      · rw [hhere]
        rintro he
        rw [he] at ht
        cases ht

/-- The same, where what comes to it has nothing more to read. -/
theorem lacks_of_eq (h : ∀ c c₁ c', c.bound ≤ bound → c.Passes ts c₁ → c₁.Passes u c' →
    ∃ q : Parse α, p c = q c₁ ∧ LacksAt room q u c₁) : Lacks bound room p (ts ++ u) := by
  refine .behind fun c c₁ c' hb h₁ h₂ => ?_
  obtain ⟨q, he, hq⟩ := h c c₁ c' hb h₁ h₂
  exact ⟨α, q, Pure.pure, he.trans (by rw [bind_pure]), hq, closing_pure id⟩

theorem lacks_returnRest {v : Option Expr} (hx : OptionalExpr (within m 0) x v)
    (hm : nestingSteps * (x.length + room) ≤ m) (keyword : Token) :
    Lacks bound room (returnRest (Inner.within bound m 0) keyword) x := by
  have hi := Inner.complete_within bound m 0
  -- Where no semicolon is ahead, an expression is read.
  have read {c : Cursor} (h : c.here.kind ≠ .semicolon) :
      returnRest (Inner.within bound m 0) keyword c = (do
        let e ← assignment (Inner.within bound m 0)
        discard (expect .semicolon "Expect ';' after return value.")
        return Stmt.giveBack keyword.mark (some e) : Parse Stmt) c := by
    refine (bind_ok (check_eq _ c)).trans ?_
    rw [if_neg (by simpa using h), bind_map_left]
  cases hx with
  | none =>
    intro c hb
    constructor
    · intro c' hp hk
      obtain rfl := hp.eq_of_nil
      exact ((refusesAt_assignment hk.begins).bind _).of_eq (read hk.semicolon)
    · intro c' c'' w semi hp hw hd hroom hs _
      obtain rfl := hp.eq_of_nil
      obtain ⟨c₂, hw, hsemi⟩ := hw.split
      obtain ⟨t, us, rfl, ht⟩ := hd.assignment_begins
      obtain ⟨e, he⟩ := hd.parses m (Nat.le_trans (Nat.mul_le_mul_left _ (by simpa using hroom)) hm)
      refine .inr ⟨.giveBack keyword.mark (some e), c'', [], ?_, (hw.trans hsemi).moves, by simp, by simp⟩
      refine (read (fun hk => ?_)).trans ?_
      · rw [hw.here] at hk
        rw [hk] at ht
        cases ht
      · refine (bind_ok (complete_assignment hi.toCompleteExpr _ _ e c₂
          (by rw [Inner.bound_within]; exact hb) hw he (by rw [hsemi.here, hs]; rfl))).trans ?_
        exact bind_ok (discard_eq (expect_eq hsemi hs (by decide) _))
  | some hx =>
    show Lacks bound room _ ([] ++ x)
    refine lacks_of_eq fun c c₁ c' hb h₁ h₂ => ?_
    obtain rfl := h₁.eq_of_nil
    obtain ⟨t, us, rfl, ht⟩ := hx.begins
    refine ⟨_, read fun hk => ?_, lacks_sentence hx hm _ _ c₁ hb⟩
    rw [h₂.here] at hk
    rw [hk] at ht
    cases ht

/-- A variable declaration behind its keyword. -/
theorem lacks_varDecl {s : Stmt} {semi : Token} (h : VarDecl (within m 0) (x ++ [semi]) s)
    (hm : nestingSteps * (x.length + room) ≤ m) :
    Lacks bound room (varDecl (Inner.within bound m 0)) x := by
  generalize hts : x ++ [semi] = ts at h
  cases h with
  | @bare name semi' hn _ =>
    obtain ⟨rfl, -⟩ : x = [name] ∧ [semi] = [semi'] :=
      List.append_inj' (by simpa using hts) rfl
    have alone {c c' : Cursor} (hp : c.Passes [name] c') (hk : c'.here.kind ≠ .semicolon)
        (he : c'.here.kind ≠ .equal) : RefusesAt (varDecl (Inner.within bound m 0)) c c' := by
      refine RefusesAt.behind ?_ (expect_eq hp hn (by decide) _)
      refine RefusesAt.behind ?_ (accept_false (by simpa using he))
      exact (refusesAt_skip hk _).bind _
    intro c _
    constructor
    · refine fun c' hp hk => alone hp hk.semicolon fun he => ?_
      have := hk.goesOn
      rw [he] at this
      cases this
    · intro c' c'' w semi hp hw hd _ _ _
      obtain ⟨t, us, rfl, ht⟩ := hd.assignment_begins
      have hne (k : TokenKind) (hk : beginsExpr k = false) : c'.here.kind ≠ k := by
        rintro rfl
        rw [hw.here, ht] at hk
        cases hk
      exact .inl (alone hp (hne _ rfl) (hne _ rfl))
  | @initialized name equal semi' y e hn he hx _ =>
    obtain ⟨rfl, -⟩ : x = name :: equal :: y ∧ [semi] = [semi'] :=
      List.append_inj' (by simpa using hts) rfl
    simp only [List.length_cons] at hm
    have hlacks : Lacks bound room _ y := lacks_sentence hx
      (Nat.le_trans (Nat.mul_le_mul_left _ (by omega)) hm) "Expect ';' after variable declaration."
      fun e => Stmt.var name.mark (some e)
    show Lacks bound room _ ([name, equal] ++ y)
    refine lacks_of_eq fun c c₁ c' hb h₁ h₂ => ?_
    obtain ⟨c₂, h₀, h₁⟩ := h₁.uncons
    refine ⟨_, ?_, hlacks c₁ (by rwa [h₁.bound, h₀.bound])⟩
    refine (bind_ok (expect_eq h₀ hn (by decide) _)).trans ?_
    refine (bind_ok (accept_true h₁ (by simp [he]) (by decide))).trans ?_
    rw [if_pos rfl, bind_map_left]

/-! ### Behind their keywords -/

section Keywords

variable {inner : Inner} {t : Token}

theorem statement_eq_returnRest (hp : c.Passes [t] c') (ht : t.kind = .kwReturn) :
    statement inner c = returnRest inner t c' := by
  rw [statement_eq_returnStmt hp ht, ← hp.previous]
  rfl

theorem undertaking_eq_classDecl (hp : c.Passes [t] c') (ht : t.kind = .kwClass) :
    undertaking inner c = classDecl inner c' :=
  keyword_eq hp ht (by decide)

theorem undertaking_eq_function (hp : c.Passes [t] c') (ht : t.kind = .kwFun) :
    undertaking inner c = (do return .function (← function inner "function") : Parse Stmt) c' := by
  unfold undertaking
  rw [skip_keyword (by simp [hp.here, ht]), keyword_eq hp ht (by decide)]

theorem undertaking_eq_varDecl (hp : c.Passes [t] c') (ht : t.kind = .kwVar) :
    undertaking inner c = varDecl inner c' := by
  unfold undertaking
  rw [skip_keyword (by simp [hp.here, ht]), skip_keyword (by simp [hp.here, ht]), keyword_eq hp ht (by decide)]

end Keywords

end Parse

end Lox
