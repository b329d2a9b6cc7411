/-
# Lenient programs are read

The same for statements and declarations: if the productions further in read
the lenient phrases further in and make their reports, then so do these. A
phrase that ends with a conditional without `else` is read unless an `else`
follows; no token goes on with any other. So, step by step, with so many steps
left the productions read the lenient phrases within so many steps.

Key definitions: `Lox.goesOnOpen`, `Lox.Inner.FollowsStmt`.
Key theorems: `Lox.Parse.follows_parameters`, `Lox.Parse.follows_statement`,
`Lox.Parse.follows_declaration`, `Lox.Inner.follows_within`, `Lox.Parse.follows_program`.
-/
import Lox.Proofs.Grammar.Lenient.Expression

namespace Lox

open Procedure Phrases Lenient

/-- The kinds of tokens that go on with a statement. -/
def goesOnOpen (isOpen : Bool) (k : TokenKind) : Bool := isOpen && k = .kwElse

/-- The statements further in are read, with their reports. -/
structure Inner.FollowsStmt (inner : Inner) (g : Lenient) : Prop extends inner.FollowsExpr g where
  statement : ∀ isOpen, Parse.Follows inner.bound inner.statement (g.statement isOpen)
    (goesOnOpen isOpen)
  declaration : ∀ isOpen, Parse.Follows inner.bound inner.declaration
    (fun ts ds o => ∃ s, o = some s ∧ g.declaration isOpen ts ds s) (goesOnOpen isOpen)
  beginsDeclaration : ∀ isOpen ts ds s, g.declaration isOpen ts ds s → Begins beginsDeclaration ts

namespace Parse

theorem not_goesOnAssignment {k : TokenKind} (h : k = .semicolon ∨ k = .rightParen) :
    goesOnAssignment k = false ∧ beginsExpr k = false := by
  rcases h with rfl | rfl <;> decide

/-! ### Behind their keywords -/

section Keyword

variable {α : Type} {p q : Parse α} {inner : Inner} {kind : TokenKind} {t : Token} {c c' : Cursor}

theorem keyword_eq (hp : c.Passes [t] c') (ht : t.kind = kind) (hk : kind ≠ .eof) :
    (do if ← accept [kind] then p else q : Parse α) c = p c' :=
  bind_ok (accept_true hp (by simp [ht]) (by simpa using hk.symm))

/-- What does not begin with the keyword is not what begins with it. -/
theorem skip_keyword (h : c.here.kind ≠ kind) :
    (do if ← accept [kind] then p else q : Parse α) c = q c :=
  bind_ok (accept_false (by simpa using h))

theorem recovering_eq {a : α} (h : p c = (.ok a, c')) : recovering p c = (.ok (some a), c') := by
  rw [recovering, h]

/-- An expression is no other statement. -/
theorem statement_eq_exprStmt (h : beginsExpr c.here.kind) : statement inner c = exprStmt inner c := by
  have hne (k : TokenKind) (hk : beginsExpr k = false) : c.here.kind ≠ k := by
    intro he
    rw [he, hk] at h
    cases h
  unfold statement
  rw [skip_keyword (hne _ rfl), skip_keyword (hne _ rfl), skip_keyword (hne _ rfl),
    skip_keyword (hne _ rfl), skip_keyword (hne _ rfl), skip_keyword (hne _ rfl)]

theorem statement_eq_printStmt (hp : c.Passes [t] c') (ht : t.kind = .kwPrint) :
    statement inner c = printStmt inner c' := by
  have hc : c.here.kind = .kwPrint := hp.here ▸ ht
  unfold statement
  rw [skip_keyword (by simp [hc]), skip_keyword (by simp [hc]), keyword_eq hp ht (by decide)]

theorem statement_eq_returnStmt (hp : c.Passes [t] c') (ht : t.kind = .kwReturn) :
    statement inner c = returnStmt inner c' := by
  have hc : c.here.kind = .kwReturn := hp.here ▸ ht
  unfold statement
  rw [skip_keyword (by simp [hc]), skip_keyword (by simp [hc]), skip_keyword (by simp [hc]),
    keyword_eq hp ht (by decide)]

theorem statement_eq_whileStmt (hp : c.Passes [t] c') (ht : t.kind = .kwWhile) :
    statement inner c = whileStmt inner c' := by
  have hc : c.here.kind = .kwWhile := hp.here ▸ ht
  unfold statement
  rw [skip_keyword (by simp [hc]), skip_keyword (by simp [hc]), skip_keyword (by simp [hc]),
    skip_keyword (by simp [hc]), keyword_eq hp ht (by decide)]

theorem statement_eq_block (hp : c.Passes [t] c') (ht : t.kind = .leftBrace) :
    statement inner c = (do return .block (← bracedBody inner) : Parse Stmt) c' := by
  have hc : c.here.kind = .leftBrace := hp.here ▸ ht
  unfold statement
  rw [skip_keyword (by simp [hc]), skip_keyword (by simp [hc]), skip_keyword (by simp [hc]),
    skip_keyword (by simp [hc]), skip_keyword (by simp [hc]), keyword_eq hp ht (by decide)]

theorem statement_eq_ifStmt (hp : c.Passes [t] c') (ht : t.kind = .kwIf) :
    statement inner c = ifStmt inner c' := by
  have hc : c.here.kind = .kwIf := hp.here ▸ ht
  unfold statement
  rw [skip_keyword (by simp [hc]), keyword_eq hp ht (by decide)]

theorem statement_eq_forStmt (hp : c.Passes [t] c') (ht : t.kind = .kwFor) :
    statement inner c = forStmt inner c' :=
  keyword_eq hp ht (by decide)

end Keyword

variable {β : Type} {inner : Inner} {g : Lenient} {c c' c'' : Cursor} {ts us : List Token}
  {ds es : List Diagnostic} {e : Expr}

/-! ### Statements -/

/-- An expression before a semicolon or a closing parenthesis. -/
theorem assignment_eq (hi : inner.FollowsStmt g) {t : Token} {kind : TokenKind}
    (hb : c.bound ≤ inner.bound) (hp : c.Moves ts ds c') (h : g.Assignment ts ds e)
    (ht : c'.here = t) (hk : t.kind = kind) (hs : kind = .semicolon ∨ kind = .rightParen) :
    assignment inner c = (.ok e, c') :=
  follows_assignment hi.toFollowsExpr c ts ds e c' hb hp h
    (by rw [ht, hk]; exact (not_goesOnAssignment hs).1)

/-- An optional expression before a semicolon or a closing parenthesis. -/
theorem optional_eq (hi : inner.FollowsStmt g) {v : Option Expr} {t : Token} {kind : TokenKind}
    {f : Option Expr → Parse β} (hb : c.bound ≤ inner.bound) (hp : c.Moves ts ds c')
    (h : g.OptionalExpr ts ds v) (ht : c'.here = t) (hk : t.kind = kind)
    (hs : kind = .semicolon ∨ kind = .rightParen) :
    (check [kind] >>= fun b => if b = true then Pure.pure none >>= f
      else (some <$> assignment inner) >>= f) c = f v c' := by
  rw [bind_ok (check_eq _ c)]
  cases h with
  | none =>
    obtain rfl := hp.eq_of_nil
    rw [if_pos (by simp [ht, hk]), pure_bind]
  | some h =>
    obtain ⟨u, vs, rfl, hu⟩ := h.begins
    have hne : u.kind ≠ kind := fun he => by
      rw [he, (not_goesOnAssignment hs).2] at hu
      cases hu
    rw [if_neg (by simpa [hp.here] using hne)]
    exact bind_ok (map_eq (assignment_eq hi hb hp h ht hk hs))

theorem follows_exprStmt (hi : inner.FollowsStmt g) :
    Follows inner.bound (exprStmt inner) g.ExprStmt fun _ => false := by
  intro c ts ds s c' hb hp h _
  cases h with
  | mk he hs =>
    obtain ⟨c1, h1, h2⟩ := hp.unsnoc
    refine (bind_ok (assignment_eq hi hb h1 he h2.here hs (.inl rfl))).trans ?_
    exact bind_ok (discard_eq (expect_eq h2 hs (by decide) _))

theorem printStmt_eq (hi : inner.FollowsStmt g) {semi : Token} (hb : c.bound ≤ inner.bound)
    (h : g.Assignment ts ds e) (hs : semi.kind = .semicolon) (hp : c.Moves (ts ++ [semi]) ds c') :
    printStmt inner c = (.ok (.print e), c') := by
  obtain ⟨c1, h1, h2⟩ := hp.unsnoc
  refine (bind_ok (assignment_eq hi hb h1 h h2.here hs (.inl rfl))).trans ?_
  exact bind_ok (discard_eq (expect_eq h2 hs (by decide) _))

theorem returnStmt_eq (hi : inner.FollowsStmt g) {v : Option Expr} {semi : Token}
    (hb : c.bound ≤ inner.bound) (h : g.OptionalExpr ts ds v) (hs : semi.kind = .semicolon)
    (hp : c.Moves (ts ++ [semi]) ds c') :
    returnStmt inner c = (.ok (.giveBack c.previous.mark v), c') := by
  obtain ⟨c1, h1, h2⟩ := hp.unsnoc
  refine (bind_ok (show previous c = (.ok c.previous, c) from rfl)).trans ?_
  refine (optional_eq hi hb h1 h h2.here hs (.inl rfl)).trans ?_
  exact bind_ok (discard_eq (expect_eq h2 hs (by decide) _))

theorem follows_varDecl (hi : inner.FollowsStmt g) :
    Follows inner.bound (varDecl inner) g.VarDecl fun _ => false := by
  intro c ts ds s c' hb hp h _
  cases h with
  | bare hn hs =>
    obtain ⟨c1, h1, h2⟩ := hp.passes.uncons
    refine (bind_ok (expect_eq h1 hn (by decide) _)).trans ?_
    refine (bind_ok (accept_false (by simp [h2.here, hs]))).trans ?_
    exact bind_ok (discard_eq (expect_eq h2 hs (by decide) _))
  | initialized hn he h hs =>
    obtain ⟨c1, h1, hp⟩ := hp.uncons
    obtain ⟨c2, h2, hp⟩ := hp.uncons
    obtain ⟨c3, h3, h4⟩ := hp.unsnoc
    have hb2 : c2.bound ≤ inner.bound := by rwa [h2.bound, h1.bound]
    refine (bind_ok (expect_eq h1 hn (by decide) _)).trans ?_
    refine (bind_ok (accept_true h2 (by simp [he]) (by decide))).trans ?_
    refine (bind_ok (map_eq (assignment_eq hi hb2 h3 h h4.here hs (.inl rfl)))).trans ?_
    exact bind_ok (discard_eq (expect_eq h4 hs (by decide) _))

/-- Behind a declaration in a row, another one begins or the row ends: no `else` is there. -/
theorem here_ne_else {phrase : Bool → List Token → List Diagnostic → Stmt → Prop} {ss : List Stmt}
    (hg : ∀ isOpen ts ds s, phrase isOpen ts ds s → Begins beginsDeclaration ts)
    (h : Row phrase ts ds ss) (hp : c.Moves ts ds c') (hk : c'.here.kind ≠ .kwElse) :
    c.here.kind ≠ .kwElse := by
  rcases h.begins hg with rfl | ⟨t, us, rfl, ht⟩
  · have hhere : c.here = c'.here := (List.cons.inj hp.ahead).1
    rwa [hhere]
  · rw [hp.here]
    intro he
    rw [he] at ht
    cases ht

theorem follows_declarations (hi : inner.FollowsStmt g) {body : List Stmt}
    (h : Row g.declaration ts ds body) : ∀ fuel c c', c.bound ≤ inner.bound → c.Moves ts ds c' →
      c'.here.kind = .rightBrace → body.length < fuel →
      declarations inner fuel c = (.ok body, c') := by
  induction h with
  | nil =>
    rintro (_ | fuel) c c' hb hp hk hf
    · cases hf
    · obtain rfl := hp.eq_of_nil
      rw [declarations, bind_ok (check_eq _ _)]
      refine (bind_ok (show atEnd c' = (.ok c'.atEnd, c') from rfl)).trans ?_
      rw [if_pos (by simp [hk])]
      rfl
  | @cons isOpen ts us ds es s ss hs hss ih =>
    rintro (_ | fuel) c c' hb hp hk hf
    · cases hf
    · obtain ⟨c1, h1, h2⟩ := hp.split
      have hne := here_ne_else hi.beginsDeclaration hss h2 (by simp [hk])
      have hd := hi.declaration isOpen c ts ds (some s) c1 hb h1 ⟨s, rfl, hs⟩
        (by simp [goesOnOpen, hne])
      have hr := ih fuel c1 c' (h1.bound ▸ hb) h2 hk (by simpa using hf)
      obtain ⟨t, vs, rfl, ht⟩ := hi.beginsDeclaration _ _ _ _ hs
      have hc : c.here.kind = t.kind := by rw [h1.here]
      have hgo : t.kind ≠ .rightBrace ∧ t.kind ≠ .eof := by
        constructor <;> intro he <;> rw [he] at ht <;> cases ht
      rw [declarations, bind_ok (check_eq _ _)]
      refine (bind_ok (show atEnd c = (.ok c.atEnd, c) from rfl)).trans ?_
      rw [if_neg (by simp [Cursor.atEnd, hc, hgo])]
      refine (bind_ok hd).trans ?_
      exact bind_ok hr

theorem bracedBody_eq (hi : inner.FollowsStmt g) {body : List Stmt} {closing : Token}
    (hb : c.bound ≤ inner.bound) (h : Row g.declaration ts ds body)
    (hk : closing.kind = .rightBrace) (hp : c.Moves (ts ++ [closing]) ds c') :
    bracedBody inner c = (.ok body, c') := by
  obtain ⟨c1, h1, h2⟩ := hp.unsnoc
  have := h1.length_le
  have := h.length_le hi.beginsDeclaration
  refine (bind_ok (follows_declarations hi h inner.bound c c1 hb h1 (by rw [h2.here, hk])
    (by omega))).trans ?_
  exact bind_ok (discard_eq (expect_eq h2 hk (by decide) _))

/-- Parameters before a closing parenthesis are all read, and those past the ceiling reported. -/
theorem follows_parameters {count : Nat} {ms : List Mark} (h : Lenient.Parameters count ts ds ms) :
    ∀ fuel c c', c.Moves ts ds c' → c'.here.kind = .rightParen → ms.length ≤ fuel →
      parameters fuel count c = (.ok ms, c') := by
  induction h with
  | @last count t ht =>
    rintro (_ | fuel) c c' hp hk hf
    · simp at hf
    · rw [← List.append_nil (pastCeiling _ _ _)] at hp
      obtain ⟨c1, h1, -, heq⟩ := ceiling_eq _ hp
      rw [parameters]
      refine heq.trans ?_
      refine (bind_ok (expect_eq h1.passes ht (by decide) _)).trans ?_
      exact bind_ok (accept_false (by simp [hk]))
  | @more count t comma ts ds ms ht hk h ih =>
    rintro (_ | fuel) c c' hp hr hf
    · simp at hf
    · rw [List.length_cons] at hf
      obtain ⟨c1, hp, -, heq⟩ := ceiling_eq _ hp
      obtain ⟨c2, h2, hp⟩ := hp.uncons
      obtain ⟨c3, h3, h4⟩ := hp.uncons
      rw [parameters]
      refine heq.trans ?_
      refine (bind_ok (expect_eq h2 ht (by decide) _)).trans ?_
      refine (bind_ok (accept_true h3 (by simp [hk]) (by decide))).trans ?_
      exact bind_ok (ih fuel c3 c' h4 hr (by omega))

theorem parameterList_eq {ms : List Mark} {r : Token} (hb : c.bound ≤ inner.bound)
    (h : Lenient.ParameterList ts ds ms) (hr : r.kind = .rightParen) (hp : c.Moves ts ds c')
    (ht : c'.here = r) : parameterList inner c = (.ok ms, c') := by
  refine (bind_ok (check_eq _ c)).trans ?_
  cases h with
  | none =>
    obtain rfl := hp.eq_of_nil
    rw [if_pos (by rw [ht, hr]; rfl)]
    rfl
  | some h =>
    have := hp.length_le
    have := h.length_le
    obtain ⟨t, vs, rfl, hid⟩ := h.begins
    have hid : t.kind = .identifier := by simpa using hid
    rw [if_neg (by simp [hp.here, hid])]
    exact follows_parameters h inner.bound c c' hp (by rw [ht, hr]) (by omega)

theorem follows_function (hi : inner.FollowsStmt g) (kind : String) :
    Follows inner.bound (function inner kind) g.Function fun _ => false := by
  intro c ts ds f c' hb hp h _
  cases h with
  | @mk name l r opening closing ts us ds es params body hn hl hps hr ho hbody hc =>
    rw [show name :: l :: ts ++ r :: opening :: us ++ [closing] =
      name :: l :: (ts ++ r :: opening :: (us ++ [closing])) by simp] at hp
    obtain ⟨c1, h1, hp⟩ := hp.uncons
    obtain ⟨c2, h2, hp⟩ := hp.uncons
    obtain ⟨c3, h3, hp⟩ := hp.split
    obtain ⟨c4, h4, hq⟩ := hp.uncons
    obtain ⟨c5, h5, hq⟩ := hq.uncons
    have hb2 : c2.bound ≤ inner.bound := by rwa [h2.bound, h1.bound]
    have hb5 : c5.bound ≤ inner.bound := by rwa [h5.bound, h4.bound, h3.bound]
    refine (bind_ok (expect_eq h1 hn (by decide) _)).trans ?_
    refine (bind_ok (discard_eq (expect_eq h2 hl (by decide) _))).trans ?_
    refine (bind_ok (parameterList_eq hb2 hps hr h3 hp.here)).trans ?_
    refine (bind_ok (discard_eq (expect_eq h4 hr (by decide) _))).trans ?_
    refine (bind_ok (discard_eq (expect_eq h5 ho (by decide) _))).trans ?_
    exact bind_ok (bracedBody_eq hi hb5 hbody hc hq)

theorem follows_methods (hi : inner.FollowsStmt g) {ms : List Fun} (h : g.Methods ts ds ms) :
    ∀ fuel c c', c.bound ≤ inner.bound → c.Moves ts ds c' → c'.here.kind = .rightBrace →
      ms.length < fuel → methods inner fuel c = (.ok ms, c') := by
  induction h with
  | nil =>
    rintro (_ | fuel) c c' hb hp hk hf
    · cases hf
    · obtain rfl := hp.eq_of_nil
      rw [methods, bind_ok (check_eq _ _)]
      refine (bind_ok (show atEnd c' = (.ok c'.atEnd, c') from rfl)).trans ?_
      rw [if_pos (by simp [hk])]
      rfl
  | @cons ts us ds es m ms hm hms ih =>
    rintro (_ | fuel) c c' hb hp hk hf
    · cases hf
    · obtain ⟨c1, h1, h2⟩ := hp.split
      have hd := follows_function hi "method" c ts ds m c1 hb h1 hm rfl
      have hr := ih fuel c1 c' (h1.bound ▸ hb) h2 hk (by simpa using hf)
      obtain ⟨t, vs, rfl, ht⟩ := hm.begins
      have hc : c.here.kind = .identifier := by simpa [h1.here] using ht
      rw [methods, bind_ok (check_eq _ _)]
      refine (bind_ok (show atEnd c = (.ok c.atEnd, c) from rfl)).trans ?_
      rw [if_neg (by simp [Cursor.atEnd, hc])]
      refine (bind_ok hd).trans ?_
      exact bind_ok hr

theorem follows_classDecl (hi : inner.FollowsStmt g) :
    Follows inner.bound (classDecl inner) g.ClassDecl fun _ => false := by
  intro c ts ds s c' hb hp h _
  cases h with
  | @mk name opening closing ts us ds superclass ms hn hs ho hms hc =>
    rw [show name :: ts ++ opening :: us ++ [closing] =
      name :: (ts ++ opening :: (us ++ [closing])) by simp] at hp
    obtain ⟨c1, h1, hp⟩ := hp.uncons
    obtain ⟨c2, h2, hp⟩ := Cursor.Moves.split
      (show c1.Moves (ts ++ opening :: (us ++ [closing])) ([] ++ ds) c' from hp)
    obtain ⟨c3, h3, hp⟩ := hp.uncons
    obtain ⟨c4, h4, h5⟩ := hp.unsnoc
    have hb3 : c3.bound ≤ inner.bound := by rwa [h3.bound, h2.bound, h1.bound]
    have := h4.length_le
    have := hms.length_le
    have rest (superclass : Option NameUse) : (do
        discard (expect .leftBrace "Expect '\x7b' before class body.")
        let methods ← methods inner inner.bound
        discard (expect .rightBrace "Expect '\x7d' after class body.")
        return Stmt.classDecl name.mark superclass methods : Parse Stmt) c2 =
          (.ok (.classDecl name.mark superclass ms), c') := by
      refine (bind_ok (discard_eq (expect_eq h3 ho (by decide) _))).trans ?_
      refine (bind_ok (follows_methods hi hms inner.bound c3 c4 hb3 h4 (by rw [h5.here, hc])
        (by omega))).trans ?_
      exact bind_ok (discard_eq (expect_eq h5 hc (by decide) _))
    refine (bind_ok (expect_eq h1 hn (by decide) _)).trans ?_
    cases hs with
    | none =>
      obtain rfl := h2.eq_of_nil
      refine (bind_ok (accept_false (by simp [h3.here, ho]))).trans ?_
      exact rest none
    | @some less super hk hs =>
      obtain ⟨c6, h6, h7⟩ := h2.passes.uncons
      refine (bind_ok (accept_true h6 (by simp [hk]) (by decide))).trans ?_
      refine (bind_ok (expect_eq h7 hs (by decide) _)).trans ?_
      exact rest (some (.free super.mark))

theorem follows_forInitializer (hi : inner.FollowsStmt g) :
    Follows inner.bound (forInitializer inner) g.ForInitializer fun _ => false := by
  intro c ts ds s c' hb hp h _
  cases h with
  | none hs => exact bind_ok (accept_true hp.passes (by simp [hs]) (by decide))
  | @var t ts ds s ht h =>
    obtain ⟨c1, h1, h2⟩ := hp.uncons
    refine (bind_ok (accept_false (by simp [h1.here, ht]))).trans ?_
    refine (bind_ok (accept_true h1 (by simp [ht]) (by decide))).trans ?_
    exact map_eq (follows_varDecl hi c1 ts ds s c' (h1.bound ▸ hb) h2 h rfl)
  | @expr ts ds s h =>
    obtain ⟨t, us, rfl, ht⟩ := h.begins
    have hne : t.kind ≠ .semicolon ∧ t.kind ≠ .kwVar := by
      constructor <;> intro he <;> rw [he] at ht <;> cases ht
    refine (bind_ok (accept_false (by simp [hp.here, hne]))).trans ?_
    refine (bind_ok (accept_false (by simp [hp.here, hne]))).trans ?_
    exact map_eq (follows_exprStmt hi c _ ds s c' hb hp h rfl)

/-- A condition in parentheses, behind a keyword. -/
theorem condition_eq (hi : inner.FollowsStmt g) {l r : Token} {m m' : String} {f : Expr → Parse β}
    (hb : c.bound ≤ inner.bound) (hl : l.kind = .leftParen) (h : g.Assignment ts ds e)
    (hr : r.kind = .rightParen) (hp : c.Moves (l :: ts ++ [r]) ds c') :
    (do
      discard (expect .leftParen m)
      let e ← assignment inner
      discard (expect .rightParen m')
      f e) c = f e c' := by
  obtain ⟨c2, h2, h3⟩ := hp.unsnoc
  obtain ⟨c1, h1, h2⟩ := h2.uncons
  refine (bind_ok (discard_eq (expect_eq h1 hl (by decide) _))).trans ?_
  refine (bind_ok (assignment_eq hi (h1.bound ▸ hb) h2 h h3.here hr (.inr rfl))).trans ?_
  exact bind_ok (discard_eq (expect_eq h3 hr (by decide) _))

theorem whileStmt_eq (hi : inner.FollowsStmt g) {body : Stmt} {isOpen : Bool} {l r : Token}
    (hb : c.bound ≤ inner.bound) (hl : l.kind = .leftParen) (h : g.Assignment ts ds e)
    (hr : r.kind = .rightParen) (hbody : g.statement isOpen us es body)
    (hp : c.Moves (l :: ts ++ r :: us) (ds ++ es) c')
    (hg : goesOnOpen isOpen c'.here.kind = false) :
    whileStmt inner c = (.ok (.loop e body), c') := by
  rw [show l :: ts ++ r :: us = l :: ts ++ [r] ++ us by simp] at hp
  obtain ⟨c1, h1, h2⟩ := hp.split
  refine (condition_eq hi hb hl h hr h1).trans ?_
  exact bind_ok (hi.statement isOpen c1 us es body c' (h1.bound ▸ hb) h2 hbody hg)

theorem ifStmt_eq (hi : inner.FollowsStmt g) {yes : Stmt} {isOpen : Bool} {l r : Token}
    (hb : c.bound ≤ inner.bound) (hl : l.kind = .leftParen) (h : g.Assignment ts ds e)
    (hr : r.kind = .rightParen) (hyes : g.statement isOpen us es yes)
    (hp : c.Moves (l :: ts ++ r :: us) (ds ++ es) c') (hg : c'.here.kind ≠ .kwElse) :
    ifStmt inner c = (.ok (.branch e yes none), c') := by
  rw [show l :: ts ++ r :: us = l :: ts ++ [r] ++ us by simp] at hp
  obtain ⟨c1, h1, h2⟩ := hp.split
  refine (condition_eq hi hb hl h hr h1).trans ?_
  refine (bind_ok (hi.statement isOpen c1 us es yes c' (h1.bound ▸ hb) h2 hyes
    (by simp [goesOnOpen, hg]))).trans ?_
  refine (bind_ok (accept_false (by simpa using hg))).trans ?_
  rfl

theorem ifElseStmt_eq (hi : inner.FollowsStmt g) {yes no : Stmt} {isOpen : Bool}
    {l r other : Token} {vs : List Token} {fs : List Diagnostic} (hb : c.bound ≤ inner.bound)
    (hl : l.kind = .leftParen) (h : g.Assignment ts ds e) (hr : r.kind = .rightParen)
    (hyes : g.statement false us es yes) (ho : other.kind = .kwElse)
    (hno : g.statement isOpen vs fs no)
    (hp : c.Moves (l :: ts ++ r :: us ++ other :: vs) (ds ++ es ++ fs) c')
    (hg : goesOnOpen isOpen c'.here.kind = false) :
    ifStmt inner c = (.ok (.branch e yes (some no)), c') := by
  rw [show l :: ts ++ r :: us ++ other :: vs = l :: ts ++ [r] ++ (us ++ other :: vs) by simp,
    List.append_assoc ds] at hp
  obtain ⟨c1, h1, hp⟩ := hp.split
  obtain ⟨c2, h2, hp⟩ := hp.split
  obtain ⟨c3, h3, h4⟩ := hp.uncons
  have hb1 : c1.bound ≤ inner.bound := by rwa [h1.bound]
  have hb3 : c3.bound ≤ inner.bound := by rwa [h3.bound, h2.bound]
  refine (condition_eq hi hb hl h hr h1).trans ?_
  refine (bind_ok (hi.statement false c1 us es yes c2 hb1 h2 hyes rfl)).trans ?_
  refine (bind_ok (accept_true h3 (by simp [ho]) (by decide))).trans ?_
  exact bind_ok (map_eq (hi.statement isOpen c3 vs fs no c' hb3 h4 hno hg))

theorem forStmt_eq (hi : inner.FollowsStmt g) {initializer : Option Stmt}
    {cond increment : Option Expr} {body : Stmt} {isOpen : Bool} {l semi r : Token}
    {vs ws : List Token} {fs hs : List Diagnostic} (hb : c.bound ≤ inner.bound)
    (hl : l.kind = .leftParen) (hini : g.ForInitializer ts ds initializer)
    (hc : g.OptionalExpr us es cond) (hsemi : semi.kind = .semicolon)
    (hinc : g.OptionalExpr vs fs increment) (hr : r.kind = .rightParen)
    (hbody : g.statement isOpen ws hs body)
    (hp : c.Moves (l :: ts ++ us ++ semi :: vs ++ r :: ws) (ds ++ es ++ fs ++ hs) c')
    (hg : goesOnOpen isOpen c'.here.kind = false) :
    forStmt inner c = (.ok (forLoop initializer cond increment body), c') := by
  rw [show l :: ts ++ us ++ semi :: vs ++ r :: ws = l :: (ts ++ (us ++ semi :: (vs ++ r :: ws)))
    by simp, List.append_assoc, List.append_assoc] at hp
  obtain ⟨c1, h1, hp⟩ := hp.uncons
  obtain ⟨c2, h2, hp⟩ := hp.split
  obtain ⟨c3, h3, hp3⟩ := hp.split
  obtain ⟨c4, h4, hp⟩ := hp3.uncons
  obtain ⟨c5, h5, hp5⟩ := hp.split
  obtain ⟨c6, h6, h7⟩ := hp5.uncons
  have hb1 : c1.bound ≤ inner.bound := by rwa [h1.bound]
  have hb2 : c2.bound ≤ inner.bound := by rwa [h2.bound]
  have hb4 : c4.bound ≤ inner.bound := by rwa [h4.bound, h3.bound]
  have hb6 : c6.bound ≤ inner.bound := by rwa [h6.bound, h5.bound]
  refine (bind_ok (discard_eq (expect_eq h1 hl (by decide) _))).trans ?_
  refine (bind_ok (follows_forInitializer hi c1 ts ds _ c2 hb1 h2 hini rfl)).trans ?_
  refine (optional_eq hi hb2 h3 hc hp3.here hsemi (.inl rfl)).trans ?_
  refine (bind_ok (discard_eq (expect_eq h4 hsemi (by decide) _))).trans ?_
  refine (optional_eq hi hb4 h5 hinc hp5.here hr (.inr rfl)).trans ?_
  refine (bind_ok (discard_eq (expect_eq h6 hr (by decide) _))).trans ?_
  exact bind_ok (hi.statement isOpen c6 ws hs body c' hb6 h7 hbody hg)

theorem follows_statement (hi : inner.FollowsStmt g) (isOpen : Bool) :
    Follows inner.bound (statement inner) (g.Statement isOpen) (goesOnOpen isOpen) := by
  intro c ts ds s c' hb hp h hg
  cases h with
  | expr h =>
    obtain ⟨t, us, rfl, ht⟩ := h.begins
    rw [statement_eq_exprStmt (by rwa [hp.here])]
    exact follows_exprStmt hi c _ ds s c' hb hp h rfl
  | print ht h hs =>
    obtain ⟨c1, h1, h2⟩ := Cursor.Moves.uncons hp
    rw [statement_eq_printStmt h1 ht]
    exact printStmt_eq hi (h1.bound ▸ hb) h hs h2
  | giveBack ht h hs =>
    obtain ⟨c1, h1, h2⟩ := Cursor.Moves.uncons hp
    rw [statement_eq_returnStmt h1 ht, ← h1.previous]
    exact returnStmt_eq hi (h1.bound ▸ hb) h hs h2
  | loop ht hl h hr hbody =>
    obtain ⟨c1, h1, h2⟩ := Cursor.Moves.uncons hp
    rw [statement_eq_whileStmt h1 ht]
    exact whileStmt_eq hi (h1.bound ▸ hb) hl h hr hbody h2 hg
  | block ht h hclosing =>
    obtain ⟨c1, h1, h2⟩ := Cursor.Moves.uncons hp
    rw [statement_eq_block h1 ht]
    exact bind_ok (bracedBody_eq hi (h1.bound ▸ hb) h hclosing h2)
  | branch ht hl h hr hyes =>
    obtain ⟨c1, h1, h2⟩ := Cursor.Moves.uncons hp
    rw [statement_eq_ifStmt h1 ht]
    exact ifStmt_eq hi (h1.bound ▸ hb) hl h hr hyes h2 (by simpa [goesOnOpen] using hg)
  | branchElse ht hl h hr hyes ho hno =>
    obtain ⟨c1, h1, h2⟩ := Cursor.Moves.uncons hp
    rw [statement_eq_ifStmt h1 ht]
    exact ifElseStmt_eq hi (h1.bound ▸ hb) hl h hr hyes ho hno h2 hg
  | forLoop ht hl hini hcond hs hinc hr hbody =>
    obtain ⟨c1, h1, h2⟩ := Cursor.Moves.uncons hp
    rw [statement_eq_forStmt h1 ht]
    exact forStmt_eq hi (h1.bound ▸ hb) hl hini hcond hs hinc hr hbody h2 hg

theorem follows_declaration (hi : inner.FollowsStmt g) (isOpen : Bool) :
    Follows inner.bound (declaration inner)
      (fun ts ds o => ∃ s, o = some s ∧ g.Declaration isOpen ts ds s) (goesOnOpen isOpen) := by
  rintro c ts ds _ c' hb hp ⟨s, rfl, h⟩ hg
  refine recovering_eq ?_
  cases h with
  | classDecl ht h =>
    obtain ⟨c1, h1, h2⟩ := hp.uncons
    rw [keyword_eq h1 ht (by decide)]
    exact follows_classDecl hi c1 _ ds s c' (h1.bound ▸ hb) h2 h rfl
  | function ht h =>
    obtain ⟨c1, h1, h2⟩ := hp.uncons
    rw [skip_keyword (by simp [h1.here, ht]), keyword_eq h1 ht (by decide)]
    exact bind_ok (follows_function hi "function" c1 _ ds _ c' (h1.bound ▸ hb) h2 h rfl)
  | var ht h =>
    obtain ⟨c1, h1, h2⟩ := hp.uncons
    rw [skip_keyword (by simp [h1.here, ht]), skip_keyword (by simp [h1.here, ht]),
      keyword_eq h1 ht (by decide)]
    exact follows_varDecl hi c1 _ ds s c' (h1.bound ▸ hb) h2 h rfl
  | statement h =>
    obtain ⟨t, us, rfl, ht⟩ := h.begins
    have hne (k : TokenKind) (hk : beginsStatement k = false) : c.here.kind ≠ k := by
      rw [hp.here]
      rintro rfl
      rw [hk] at ht
      cases ht
    rw [skip_keyword (hne _ rfl), skip_keyword (hne _ rfl), skip_keyword (hne _ rfl)]
    exact follows_statement hi isOpen c _ ds s c' hb hp h hg

end Parse

/-! ### Step by step -/

namespace Inner

theorem bound_within (bound : Nat) : ∀ steps spent, (within bound steps spent).bound = bound
  | 0, _ => by rw [within]
  | steps + 1, spent + 1 => by
    rw [within]
    exact bound_within bound steps spent
  | steps + 1, 0 => by rw [within]

/-- With so many steps left, the productions read the lenient phrases within so many steps. -/
theorem follows_within (bound : Nat) : ∀ steps spent,
    (within bound steps spent).FollowsStmt (Lenient.within steps spent)
  | 0, _ => by
    rw [within, Lenient.within]
    refine ⟨⟨?_, ?_, ?_, ?_, ?_, ?_⟩, ?_, ?_, ?_⟩
    · rintro _ _ _ _ _ _ _ ⟨⟩
    · rintro _ _ _ _ _ _ _ ⟨⟩
    · rintro _ _ _ _ _ _ _ ⟨⟩
    · rintro _ _ _ _ _ _ _ ⟨⟩
    · rintro _ _ _ _ _ _ _ ⟨⟩
    · rintro _ _ _ ⟨⟩
    · rintro _ _ _ _ _ _ _ _ ⟨⟩
    · rintro _ _ _ _ _ _ _ _ ⟨_, _, ⟨⟩⟩
    · rintro _ _ _ _ ⟨⟩
  | steps + 1, spent + 1 => by
    rw [within, Lenient.within]
    exact follows_within bound steps spent
  | steps + 1, 0 => by
    rw [within, Lenient.within]
    have h (spent : Nat) := follows_within bound steps spent
    have assignment (spent : Nat) : Parse.Follows bound
        (Parse.assignment (within bound steps spent)) (Lenient.within steps spent).Assignment
        goesOnAssignment := by
      have := Parse.follows_assignment (h spent).toFollowsExpr
      rwa [bound_within] at this
    have ternary := Parse.follows_ternary (h 0).toFollowsExpr
    have unary := Parse.follows_unary (h 0).toFollowsExpr
    have statement := Parse.follows_statement (h 1)
    have declaration := Parse.follows_declaration (h 2)
    rw [bound_within] at ternary unary statement declaration
    exact ⟨⟨assignment (nestingSteps - 1), assignment 2, assignment 0, ternary, unary,
      fun _ _ _ => Lenient.Assignment.begins⟩, statement, declaration,
      fun _ _ _ _ => Lenient.Declaration.begins⟩

end Inner

namespace Parse

variable {inner : Inner} {g : Lenient} {ts : List Token} {ds : List Diagnostic} {ss : List Stmt}

/-- Declarations up to the end of the text are all read, with their reports. -/
theorem follows_program (hi : inner.FollowsStmt g) (h : g.Program ts ds ss) : ∀ fuel c c',
    c.bound ≤ inner.bound → c.Moves ts ds c' → c'.here.kind = .eof → ss.length < fuel →
      program inner fuel c = (.ok ss, c') := by
  induction h with
  | nil =>
    rintro (_ | fuel) c c' hb hp hk hf
    · cases hf
    · obtain rfl := hp.eq_of_nil
      rw [program]
      refine (bind_ok (show atEnd c' = (.ok c'.atEnd, c') from rfl)).trans ?_
      rw [if_pos (by simp [Cursor.atEnd, hk])]
      rfl
  | @cons isOpen ts us ds es s ss hs hss ih =>
    rintro (_ | fuel) c c' hb hp hk hf
    · cases hf
    · obtain ⟨c1, h1, h2⟩ := hp.split
      have hne := here_ne_else (fun _ _ _ _ => Lenient.Declaration.begins) hss h2 (by simp [hk])
      have hd := follows_declaration hi isOpen c ts ds (some s) c1 hb h1 ⟨s, rfl, hs⟩
        (by simp [goesOnOpen, hne])
      have ha : attempt (declaration inner) c = (.ok (.ok (some s)), c1) := by rw [attempt, hd]
      have hr := ih fuel c1 c' (h1.bound ▸ hb) h2 hk (by simpa using hf)
      obtain ⟨t, vs, rfl, ht⟩ := hs.begins
      have hgo : c.here.kind ≠ .eof := by
        rw [h1.here]
        intro he
        rw [he] at ht
        cases ht
      rw [program]
      refine (bind_ok (show atEnd c = (.ok c.atEnd, c) from rfl)).trans ?_
      rw [if_neg (by simp [Cursor.atEnd, hgo]), bind_ok ha]
      exact bind_ok hr

end Parse

end Lox
