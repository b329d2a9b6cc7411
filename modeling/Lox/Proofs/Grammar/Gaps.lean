/-
# Where a semicolon is missing

A semicolon that ends a statement, and not a clause of a for-loop, ends the
last one in a declaration of some row: of the program, or of the braces around
it (`Lox.Gap`). Without it that declaration lacks its semicolon. The productions
on the way in read what is before it and come to it, and so what becomes of the
whole is what becomes of this declaration (`Lox.Gap.Opens`).

Key definitions: `Lox.Gap`, `Lox.Gap.Opens`, `Lox.GapIn`.
Key theorems: `Lox.Gap.Opens.behind`, `Lox.opens_row`, `Lox.located_behind`,
`Lox.located_statement`, `Lox.located_declaration`, `Lox.opens_program`.
-/
import Lox.Proofs.Grammar.Approach
import Lox.Proofs.Grammar.Parentheses

namespace Lox

open Procedure Phrases

/-- The kinds of tokens that end a row of declarations. -/
def endsRow (k : TokenKind) : Bool := k = .rightBrace || k = .eof

/-- A declaration that lacks its semicolon: the tokens before it and those of it before the gap; those
of it behind the gap, the declarations behind it in its row, and the tokens from the end of the row on.
And what is further in where it stands. -/
structure Gap where
  inner : Inner
  kept : List Token
  begun : List Token
  after : List Token
  row : List Token
  post : List Token

/-- The production comes to the gap, which is in tokens of some form. -/
structure Gap.Opens (x : Gap) (bound room : Nat) {α : Type} (p : Parse α) (P : List Token → Prop)
    (semi : Token) (u v : List Token) : Prop where
  before_eq : u = x.kept ++ x.begun
  behind_eq : v = x.after ++ (x.row ++ x.post)
  begins : Begins beginsDeclaration x.begun
  /-- With its semicolon it is a declaration. -/
  declaration : Derives (.symbol .declaration) (x.begun ++ [semi])
  /-- Without it, it is refused or goes on. -/
  lacks : Parse.Lacks bound room (Parse.undertaking x.inner) x.begun
  /-- Only an else branch is part of it behind the gap. -/
  after : x.after = [] ∨ Begins (· = .kwElse) x.after
  row : Derives (.star (.symbol .declaration)) x.row
  post : Begins endsRow x.post
  carries : Parse.Carries bound inRow p x.kept (Parse.recovering (Parse.undertaking x.inner))
  /-- Other declarations in the place of it and of its row make tokens of that form. -/
  rebuild : ∀ w, Derives (.star (.symbol .declaration)) w → P (x.kept ++ (w ++ x.post))

/-- The semicolon ends the phrase or a branch of it before an `else`, or there is the gap in a row
further in. -/
def GapIn (bound room : Nat) (s : Symbol) {α : Type} (p : Parse α) (semi : Token)
    (u v : List Token) : Prop :=
  (Parse.Lacks bound room p u ∧ Derives (.symbol s) (u ++ [semi]) ∧
    (v = [] ∨ Begins (· = .kwElse) v)) ∨
  ∃ x : Gap, x.Opens bound room p (Derives (.symbol s)) semi u v

section Split

variable (ts : List Token) {us u v : List Token} {semi semi' : Token}

/-- A token of some tokens in a row is in the first or in the second ones. -/
theorem split_at (h : ts ++ us = u ++ semi :: v) :
    (∃ v', ts = u ++ semi :: v' ∧ v = v' ++ us) ∨ ∃ u', u = ts ++ u' ∧ us = u' ++ semi :: v := by
  rcases List.append_eq_append_iff.mp h with ⟨u', rfl, hus⟩ | ⟨v', rfl, hv⟩
  · exact .inr ⟨u', rfl, hus⟩
  · cases v' with
    | nil => exact .inr ⟨[], by simp, by simpa using hv.symm⟩
    | cons t v' =>
      obtain ⟨rfl, rfl⟩ := List.cons.inj hv
      exact .inl ⟨v', rfl, rfl⟩

/-- A semicolon is behind tokens that have none. -/
theorem split_behind (h : ts ++ us = u ++ semi :: v) (hs : semi.kind = .semicolon)
    (hts : ∀ t ∈ ts, t.kind ≠ .semicolon) : ∃ u', u = ts ++ u' ∧ us = u' ++ semi :: v := by
  rcases split_at ts h with ⟨v', rfl, -⟩ | h
  · exact absurd hs (hts semi (by simp))
  · exact h

/-- A semicolon is the first one, or behind it. -/
theorem split_semicolon (h : ts ++ semi' :: us = u ++ semi :: v) (hs : semi.kind = .semicolon)
    (hts : ∀ t ∈ ts, t.kind ≠ .semicolon) :
    u = ts ∧ semi' = semi ∧ us = v ∨ ∃ u', u = ts ++ semi' :: u' ∧ us = u' ++ semi :: v := by
  obtain ⟨u', rfl, hu⟩ := split_behind ts h hs hts
  cases u' with
  | nil =>
    obtain ⟨rfl, rfl⟩ := List.cons.inj hu
    exact .inl ⟨by simp, rfl, rfl⟩
  | cons t u' =>
    obtain ⟨rfl, rfl⟩ := List.cons.inj hu
    exact .inr ⟨u', rfl, rfl⟩

/-- The only semicolon is the last token. -/
theorem split_end (h : ts ++ [semi'] = u ++ semi :: v) (hs : semi.kind = .semicolon)
    (hts : ∀ t ∈ ts, t.kind ≠ .semicolon) : u = ts ∧ semi' = semi ∧ v = [] := by
  rcases split_semicolon ts h hs hts with ⟨hu, hsemi, rfl⟩ | ⟨u', -, h⟩
  · exact ⟨hu, hsemi, rfl⟩
  · cases u' <;> cases h

/-- A last token that is no semicolon is behind the semicolon. -/
theorem split_before (h : ts ++ [semi'] = u ++ semi :: v) (hs : semi.kind = .semicolon)
    (hs' : semi'.kind ≠ .semicolon) : ∃ v', v = v' ++ [semi'] ∧ ts = u ++ semi :: v' := by
  rcases split_at ts h with ⟨v', rfl, rfl⟩ | ⟨w, -, hw⟩
  · exact ⟨v', rfl, rfl⟩
  · have hmem : semi ∈ [semi'] := hw ▸ by simp
    exact absurd (List.mem_singleton.mp hmem ▸ hs) hs'

end Split

variable {α β : Type} {p : Parse α} {q : Parse β} {P Q : List Token → Prop} {bound room : Nat}
  {semi : Token} {ts u v : List Token} {x : Gap}

/-- What comes over some tokens to a production that comes to the gap comes to it. -/
theorem Gap.Opens.behind (zs : List Token) (h : x.Opens bound room q Q semi u v)
    (hc : Parse.Carries bound inRow p ts q) (hu : Begins inRow (u ++ semi :: v))
    (hP : ∀ y, Q y → P (ts ++ (y ++ zs))) :
    ∃ y : Gap, y.Opens bound room p P semi (ts ++ u) (v ++ zs) := by
  refine ⟨{ x with kept := ts ++ x.kept, post := x.post ++ zs }, ?_⟩
  have hkept : x.kept = [] ∧ (∀ k, inRow k = true → inRow k = true) ∨ Begins inRow x.kept := by
    obtain ⟨t, us, heq, ht⟩ := hu
    rw [h.before_eq] at heq
    cases hx : x.kept with
    | nil => exact .inl ⟨rfl, fun _ h => h⟩
    | cons k ks =>
      rw [hx] at heq
      exact .inr ⟨k, ks, rfl, by rwa [(List.cons.inj heq).1]⟩
  exact {
    before_eq := by simp [h.before_eq]
    behind_eq := by simp [h.behind_eq]
    begins := h.begins
    declaration := h.declaration
    lacks := h.lacks
    after := h.after
    row := h.row
    post := h.post.append zs
    carries := hc.trans h.carries hkept
    rebuild := fun w hw => by simpa using hP _ (h.rebuild w hw) }

/-- What comes over some tokens to a statement and reads nothing more behind it, or an `else`. -/
theorem GapIn.behind (zs : List Token) {f : β → Parse α} (h : GapIn bound room .statement q semi u v)
    (he : Parse.Enters bound Parse.anyKind p ts q f)
    (hf : ∀ a b, Parse.Parallel Parse.Any (f a) (f b)) (hclosing : Parse.Closing f)
    (hu : Begins inRow (u ++ semi :: v)) (hz : zs = [] ∨ Begins (· = .kwElse) zs)
    (hone : ∀ y, Derives (.symbol .statement) y → Derives (.symbol .statement) (ts ++ y))
    (hP : ∀ y, Derives (.symbol .statement) y → Derives (.symbol .statement) (ts ++ (y ++ zs))) :
    GapIn bound room .statement p semi (ts ++ u) (v ++ zs) := by
  rcases h with ⟨hlacks, hd, hv⟩ | ⟨x, hx⟩
  · refine .inl ⟨.behind fun c c₁ c' hb h₁ h₂ => ?_, ?_, ?_⟩
    · exact ⟨β, q, f, he c c₁ hb h₁ rfl, hlacks c₁ (h₁.bound ▸ hb), hclosing⟩
    · simpa using hone _ hd
    · rcases hv with rfl | hv
      · exact hz
      · exact .inr (hv.append zs)
  · exact .inr (hx.behind zs ((Parse.Carries.of_enters he hf).mono fun _ _ => rfl) hu hP)

/-- A declaration is given up where what it consists of is. -/
theorem Gap.Opens.recovering (h : x.Opens bound room p P semi u v) :
    x.Opens bound room (Parse.recovering p) P semi u v :=
  { h with carries := h.carries.recovering }

/-! ### Rows -/

/-- A row and the token that ends it. -/
def RowBefore (z : Token) (ts : List Token) : Prop :=
  ∃ row, Derives (.star (.symbol .declaration)) row ∧ ts = row ++ [z]

theorem begins_before {k : TokenKind → Bool} (h : Begins k (u ++ semi :: v)) (hs : k semi.kind = false) :
    Begins k u := by
  obtain ⟨t, us, heq, ht⟩ := h
  cases u with
  | nil =>
    obtain rfl := (List.cons.inj heq).1
    rw [ht] at hs
    cases hs
  | cons t' u =>
    obtain rfl := (List.cons.inj heq).1
    exact .cons ht u

section Row

variable {phrase : Bool → List Token → Stmt → Prop} {loop : Nat → Parse α} {z : Token}

/-- A loop that reads declarations comes to the one with the gap. -/
theorem opens_row (inner : Inner) (size : Nat) (hs : semi.kind = .semicolon)
    (hfirst : ∀ fuel, Parse.Carries bound inRow (loop (fuel + 1)) []
      (Parse.recovering (Parse.undertaking inner)))
    (hrest : ∀ fuel isOpen ts s, phrase isOpen ts s →
      Parse.Carries bound inRow (loop (fuel + 1)) ts (loop fuel))
    (hderives : ∀ isOpen ts s, phrase isOpen ts s → Derives (.symbol .declaration) ts)
    (hbegins : ∀ isOpen ts s, phrase isOpen ts s → Begins beginsDeclaration ts)
    (hpaired : ∀ isOpen ts s, phrase isOpen ts s → Paired ts)
    (hlocated : ∀ isOpen ts s u v, phrase isOpen ts s → ts = u ++ semi :: v → Paired u →
      ts.length < bound → u.length ≤ size →
        GapIn bound room .declaration (Parse.undertaking inner) semi u v)
    (hz : endsRow z.kind) {ss : List Stmt} (h : Row phrase ts ss) :
    ∀ fuel u v, ts = u ++ semi :: v → Paired u → ts.length < bound → u.length ≤ size →
      ss.length < fuel →
      ∃ x : Gap, x.Opens bound room (loop fuel) (RowBefore z) semi u (v ++ [z]) := by
  induction h with
  | nil =>
    intro fuel u v h
    cases u <;> cases h
  | @cons isOpen ts us s ss hphrase hss ih =>
    intro fuel u v heq hu hbound hsize hfuel
    obtain ⟨fuel, rfl⟩ : ∃ n, fuel = n + 1 := ⟨fuel - 1, by omega⟩
    rw [List.length_append] at hbound
    rcases split_at ts heq with ⟨v', rfl, rfl⟩ | ⟨u', rfl, rfl⟩
    · have hstarts := hbegins _ _ _ hphrase
      have hrow := hss.derives hderives
      rcases hlocated _ _ _ u v' hphrase rfl hu (by omega) hsize with ⟨hlacks, hd, hv⟩ | ⟨x, hx⟩
      · exact ⟨⟨inner, [], u, v', us, [z]⟩, {
          before_eq := rfl
          behind_eq := by simp
          begins := begins_before hstarts (by rw [hs]; rfl)
          declaration := hd
          lacks := hlacks
          after := hv
          row := hrow
          post := .cons hz []
          carries := hfirst fuel
          rebuild := fun w hw => ⟨w, hw, rfl⟩ }⟩
      · have h := hx.recovering.behind (P := RowBefore z) (us ++ [z]) (hfirst fuel)
          (hstarts.mono fun _ => inRow_of_begins)
          fun y hy => ⟨y ++ us, .again hy hrow, by simp⟩
        simpa using h
    · have hstarts : Begins inRow (u' ++ semi :: v) :=
        ((hss.begins hbegins).resolve_left (by simp)).mono fun _ => inRow_of_begins
      obtain ⟨x, hx⟩ := ih fuel u' v rfl ((hpaired _ _ _ hphrase).of_append hu) (by omega)
        (by rw [List.length_append] at hsize; omega) (by simpa using hfuel)
      have h := hx.behind (P := RowBefore z) [] (hrest fuel _ _ _ hphrase) (by simpa using hstarts.append [z])
        fun y ⟨row, hrow, hy⟩ => ⟨ts ++ row, .again (hderives _ _ _ hphrase) hrow, by simp [hy]⟩
      simpa using h

end Row

/-! ### Statements and declarations -/

theorem Gap.Opens.map (h : x.Opens bound room p P semi u v) (hP : ∀ y, P y → Q y) :
    x.Opens bound room p Q semi u v :=
  { h with rebuild := fun w hw => hP _ (h.rebuild w hw) }

theorem GapIn.map {s s' : Symbol} (h : GapIn bound room s p semi u v)
    (hs : ∀ y, Derives (.symbol s) y → Derives (.symbol s') y) : GapIn bound room s' p semi u v := by
  rcases h with ⟨hlacks, hd, hv⟩ | ⟨x, hx⟩
  · exact .inl ⟨hlacks, hs _ hd, hv⟩
  · exact .inr ⟨x, hx.map hs⟩

/-- Wherever a semicolon is in a statement with so many steps left, and not in the header of a loop,
its gap is located. -/
def LocatesStatement (bound room : Nat) (semi : Token) (m : Nat) : Prop :=
  ∀ p, Takes p (Inner.within bound m 0) → ∀ isOpen ts s u v, Statement (within m 0) isOpen ts s →
    ts = u ++ semi :: v → Paired u → ts.length < bound → nestingSteps * (u.length + room) ≤ m →
      GapIn bound room .statement p semi u v

/-- The same for declarations. -/
def LocatesDeclaration (bound room : Nat) (semi : Token) (m : Nat) : Prop :=
  ∀ isOpen ts s u v, Declaration (within m 0) isOpen ts s → ts = u ++ semi :: v → Paired u →
    ts.length < bound → nestingSteps * (u.length + room) ≤ m →
      GapIn bound room .declaration (Parse.undertaking (Inner.within bound m 0)) semi u v

section Build

variable {cond us vs ws : List Token} {t l r other : Token}

theorem Derives.while_behind (ht : t.kind = .kwWhile) (hl : l.kind = .leftParen)
    (hc : Derives (.symbol .expression) cond) (hr : r.kind = .rightParen)
    (h : Derives (.symbol .statement) us) :
    Derives (.symbol .statement) ((t :: l :: cond ++ [r]) ++ us) := by
  refine .symbol (.right (.right (.right (.right (.right (.left (.symbol ?_)))))))
  exact (Derives.cons ht (.cons hl (.seq hc (.cons hr h)))).cast (by simp)

theorem Derives.if_behind (ht : t.kind = .kwIf) (hl : l.kind = .leftParen)
    (hc : Derives (.symbol .expression) cond) (hr : r.kind = .rightParen)
    (h : Derives (.symbol .statement) us) :
    Derives (.symbol .statement) ((t :: l :: cond ++ [r]) ++ us) := by
  refine .symbol (.right (.right (.left (.symbol ?_))))
  exact (Derives.cons ht (.cons hl (.seq hc (.cons hr (.seq h (.left .empty)))))).cast (by simp)

theorem Derives.ifElse_behind (ht : t.kind = .kwIf) (hl : l.kind = .leftParen)
    (hc : Derives (.symbol .expression) cond) (hr : r.kind = .rightParen)
    (h : Derives (.symbol .statement) us) (ho : other.kind = .kwElse)
    (h' : Derives (.symbol .statement) vs) :
    Derives (.symbol .statement) ((t :: l :: cond ++ [r]) ++ (us ++ other :: vs)) := by
  refine .symbol (.right (.right (.left (.symbol ?_))))
  exact (Derives.cons ht (.cons hl (.seq hc (.cons hr (.seq h (.right (.cons ho h'))))))).cast (by simp)

theorem Derives.for_behind {g : Phrases} (hg : g.Derived) {ini inc : List Token}
    {initializer : Option Stmt} {condition increment : Option Expr} {semi : Token}
    (ht : t.kind = .kwFor) (hl : l.kind = .leftParen) (hini : ForInitializer g ini initializer)
    (hc : OptionalExpr g cond condition) (hs : semi.kind = .semicolon)
    (hinc : OptionalExpr g inc increment) (hr : r.kind = .rightParen)
    (h : Derives (.symbol .statement) us) :
    Derives (.symbol .statement) ((t :: l :: ini ++ cond ++ semi :: inc ++ [r]) ++ us) := by
  refine .symbol (.right (.left (.symbol ?_)))
  exact (Derives.cons ht (.cons hl (.seq (hini.derives hg) (.seq (hc.derives hg) (.cons hs
    (.seq (hinc.derives hg) (.cons hr h))))))).cast (by simp)

theorem Derives.block_around (hl : l.kind = .leftBrace) (h : RowBefore r us)
    (hr : r.kind = .rightBrace) : Derives (.symbol .block) (l :: us) := by
  obtain ⟨row, hrow, rfl⟩ := h
  exact .symbol (.cons hl (.seq hrow (.token hr)))

end Build

/-- There is no semicolon in a condition and its parentheses. -/
theorem behind_condition {g : Phrases} (hg : g.Seals) {us : List Token} {cond : Expr} {t l r : Token}
    (ht : t.kind = .kwWhile ∨ t.kind = .kwIf) (hl : l.kind = .leftParen) (hc : Assignment g ts cond)
    (hr : r.kind = .rightParen) (hs : semi.kind = .semicolon)
    (h : t :: l :: ts ++ r :: us = u ++ semi :: v) (hu : Paired u) :
    ∃ u', u = (t :: l :: ts ++ [r]) ++ u' ∧ us = u' ++ semi :: v ∧ Paired u' := by
  have hcond := hc.seals hg
  have hkeyword : Sealed [t] := .cons (by rcases ht with ht | ht <;> simp [ht]) sealed_nil
  obtain ⟨u', rfl, hus⟩ := split_behind (t :: l :: ts ++ [r]) (by simpa using h) hs (by
    simpa [or_imp, forall_and, hl, hr, hkeyword.semicolon] using hcond.semicolon)
  have hheader : Paired (t :: (l :: ts ++ [r])) := hkeyword.paired.append (.parens hl hcond.paired hr)
  exact ⟨u', rfl, hus, hheader.of_append hu⟩

/-- A semicolon that is not in the header of a for-loop is behind it. -/
theorem behind_header {g : Phrases} (hg : g.Seals) {ini cond inc us : List Token}
    {initializer : Option Stmt} {condition increment : Option Expr} {t l r semi' : Token}
    (ht : t.kind = .kwFor) (hl : l.kind = .leftParen) (hini : ForInitializer g ini initializer)
    (hc : OptionalExpr g cond condition) (hs' : semi'.kind = .semicolon)
    (hinc : OptionalExpr g inc increment) (hr : r.kind = .rightParen) (hs : semi.kind = .semicolon)
    (h : t :: l :: ini ++ cond ++ semi' :: inc ++ r :: us = u ++ semi :: v) (hu : Paired u) :
    ∃ u', u = (t :: l :: ini ++ cond ++ semi' :: inc ++ [r]) ++ u' ∧ us = u' ++ semi :: v ∧ Paired u' := by
  obtain ⟨y, first, hy, hfirst, rfl⟩ := hini.sealed hg
  have hcond := hc.seals hg
  have hinc := hinc.seals hg
  -- Up to a semicolon of the header its parenthesis is open.
  have hopen (w : List Token) (hw : Paired w) : ¬ Paired (t :: l :: w) := fun h =>
    not_paired_open hl hw ((show Paired [t] from .cons (by simp [ht]) paired_nil).of_append h)
  have hy' : ∀ k ∈ t :: l :: y, k.kind ≠ .semicolon := by
    simp only [List.forall_mem_cons]
    exact ⟨by simp [ht], by simp [hl], hy.semicolon⟩
  have hhead : Paired (y ++ first :: cond) :=
    hy.paired.append (.cons (by simp [hfirst]) hcond.paired)
  rcases split_semicolon (t :: l :: y) (by simpa using h) hs
    hy' with ⟨rfl, -, -⟩ | ⟨u₁, rfl, h₁⟩
  · exact absurd hu (hopen _ hy.paired)
  · rcases split_semicolon cond (by simpa using h₁) hs hcond.semicolon with
      ⟨rfl, -, -⟩ | ⟨u₂, rfl, h₂⟩
    · exact absurd (by simpa using hu) (hopen _ hhead)
    · obtain ⟨u', rfl, hus⟩ := split_behind (inc ++ [r]) (by simpa using h₂) hs (by
        simpa [or_imp, forall_and, hr] using hinc.semicolon)
      refine ⟨u', by simp, hus, ?_⟩
      have hheader : Paired (t :: (l :: ((y ++ first :: cond) ++ semi' :: inc) ++ [r])) :=
        .cons (by simp [ht]) (.parens hl (hhead.append (.cons (by simp [hs']) hinc.paired)) hr)
      exact hheader.of_append (by simpa using hu)

theorem steps_mono {n k m : Nat} (h : nestingSteps * k ≤ m) (hn : n ≤ k) : nestingSteps * n ≤ m :=
  Nat.le_trans (Nat.mul_le_mul_left _ hn) h

section Statements

open Parse

variable {m : Nat} {isOpen : Bool} {us vs : List Token} {t l r : Token} {s : Stmt}

/-- The statement behind a header is further in. -/
theorem located_body (ih : ∀ n < m, LocatesStatement bound room semi n)
    (h : (within m 0).statement isOpen ts s) (heq : ts = u ++ semi :: v) (hu : Paired u)
    (hb : ts.length < bound) (hm : nestingSteps * (u.length + 1 + room) ≤ m) :
    GapIn bound room .statement (Inner.within bound m 0).statement semi u v ∧
      Begins inRow (u ++ semi :: v) := by
  rw [nestingSteps_eq] at hm
  have hpos : 0 < m := by omega
  rw [within_of_pos hpos] at h
  rw [Inner.within_of_pos hpos]
  refine ⟨ih (m - 2) (by omega) _ (takes_statement _) isOpen ts s u v h heq hu hb
    (by rw [nestingSteps_eq]; omega), ?_⟩
  rw [← heq]
  exact h.begins.mono fun k hk => inRow_of_begins (by simp [beginsDeclaration, hk])

/-- A statement whose last part is a statement lacks its semicolon where that does. -/
theorem located_behind (ih : ∀ n < m, LocatesStatement bound room semi n) {p : Parse Stmt}
    {header : List Token} (hheader : header ≠ []) {f : Stmt → Parse Stmt}
    (henter : Enters (Inner.within bound m 0).bound anyKind p header (Inner.within bound m 0).statement f)
    (hf : ∀ a b, Parallel Any (f a) (f b)) (hclosing : Closing f)
    (hback : ∀ y, Derives (.symbol .statement) y → Derives (.symbol .statement) (header ++ y))
    (h : (within m 0).statement isOpen ts s) (heq : ts = u ++ semi :: v) (hu : Paired u)
    (hb : ts.length < bound) (hm : nestingSteps * ((header ++ u).length + room) ≤ m) :
    GapIn bound room .statement p semi (header ++ u) v := by
  have hpos := List.length_pos_iff.mpr hheader
  rw [List.length_append] at hm
  obtain ⟨hlocated, hstarts⟩ := located_body ih h heq hu hb (steps_mono hm (by omega))
  rw [Inner.bound_within] at henter
  have := hlocated.behind [] henter hf hclosing hstarts (.inl rfl) hback fun y hy => by
    simpa using hback y hy
  simpa using this

/-- Behind a keyword is what lacks the semicolon. -/
theorem gapIn_of_lacks {t : Token} {q : Parse Stmt} {p : Parse Stmt} {symbol : Symbol}
    (h : Lacks bound room q u) (hp : ∀ c c₁, c.Passes [t] c₁ → p c = q c₁)
    (hd : Derives (.symbol symbol) ((t :: u) ++ [semi])) : GapIn bound room symbol p semi (t :: u) [] := by
  refine .inl ⟨?_, hd, .inl rfl⟩
  show Lacks bound room p ([t] ++ u)
  exact lacks_of_eq fun c c₁ c' hb h₁ _ => ⟨q, hp c c₁ h₁, h c₁ (h₁.bound ▸ hb)⟩

/-- The declarations in braces are further in. -/
theorem opens_braces (hs : semi.kind = .semicolon)
    (ih : ∀ n < m, LocatesDeclaration bound room semi n) {body : List Stmt} {closing : Token}
    (h : Row (within m 0).declaration ts body) (hc : closing.kind = .rightBrace)
    (heq : ts = u ++ semi :: v) (hu : Paired u) (hb : ts.length < bound)
    (hm : nestingSteps * (u.length + 1 + room) ≤ m) :
    (∃ x : Gap, x.Opens bound room (declarations (Inner.within bound m 0) (Inner.within bound m 0).bound)
      (RowBefore closing) semi u (v ++ [closing])) ∧ Begins inRow (u ++ semi :: (v ++ [closing])) := by
  rw [nestingSteps_eq] at hm
  have hpos : 0 < m := by omega
  have hi := Inner.complete_within bound m 0
  have hconfined := Inner.confinedStmt_within bound m 0
  have hlength := h.length_le hi.beginsDeclaration
  have hstarts := (h.begins hi.beginsDeclaration).resolve_left (by simp [heq])
  refine ⟨?_, ?_⟩
  · refine opens_row (Inner.within bound (m - 3) 0) u.length hs
      (fun fuel => ?_) (fun fuel isOpen ts s h => ?_) (derived_within m 0).declaration
      hi.beginsDeclaration (seals_within m 0).declaration (fun isOpen ts s u v h heq hu hb hle => ?_)
      (by simp [endsRow, hc]) h _ u v heq hu hb (Nat.le_refl _) (by rw [Inner.bound_within]; omega)
    · have h : Carries bound inRow _ _ _ := carries_declaration hconfined fuel
      rw [Inner.within_of_pos hpos] at h ⊢
      exact h
    · have := carries_declarations hi fuel h
      rwa [Inner.bound_within] at this
    · rw [within_of_pos hpos] at h
      exact ih (m - 3) (by omega) isOpen ts s u v h heq hu hb (by rw [nestingSteps_eq]; omega)
  · have := (hstarts.mono fun _ => inRow_of_begins).append [closing]
    simpa [heq] using this

/-- Wherever the semicolon of a statement is, its gap is located. -/
theorem located_statement (hs : semi.kind = .semicolon)
    (ih : ∀ n < m, LocatesStatement bound room semi n)
    (ih' : ∀ n < m, LocatesDeclaration bound room semi n) : LocatesStatement bound room semi m := by
  intro p hp isOpen ts s u v h heq hu hb hm
  have hi := Inner.complete_within bound m 0
  have hconfined := Inner.confinedStmt_within bound m 0
  have hg := derived_within m 0
  have hseals := seals_within m 0
  have hbound : (Inner.within bound m 0).bound = bound := Inner.bound_within bound m 0
  have hd := h.derives hg
  cases h with
  | expr h =>
    cases h with
    | @mk y _ _ h _ =>
      obtain ⟨rfl, rfl, rfl⟩ := split_end y heq hs (h.seals hseals).semicolon
      obtain ⟨t, us, rfl, ht⟩ := h.begins
      have hlacks : Lacks bound room _ (t :: us) := lacks_sentence h hm
        "Expect ';' after expression." Stmt.expr
      refine .inl ⟨?_, hd, .inl rfl⟩
      show Lacks bound room p ([] ++ t :: us)
      refine lacks_of_eq fun c c₁ c' hb h₁ h₂ => ?_
      obtain rfl := h₁.eq_of_nil
      refine ⟨_, ?_, hlacks c₁ hb⟩
      rw [hp _ (by rw [h₂.here]; simp [beginsStatement, ht]),
        statement_eq_exprStmt (by rwa [h₂.here])]
      rfl
  | @print t semi' y _ ht h _ =>
    obtain ⟨rfl, rfl, rfl⟩ := split_end (t :: y) heq hs
      (List.forall_mem_cons.mpr ⟨by simp [ht], (h.seals hseals).semicolon⟩)
    refine gapIn_of_lacks (lacks_sentence h (steps_mono hm (by simp)) "Expect ';' after value." Stmt.print)
      (fun c c₁ h₁ => ?_) hd
    rw [hp _ (by rw [h₁.here, ht]; rfl), statement_eq_printStmt h₁ ht]
    rfl
  | @giveBack t semi' y _ ht h _ =>
    obtain ⟨rfl, rfl, rfl⟩ := split_end (t :: y) heq hs
      (List.forall_mem_cons.mpr ⟨by simp [ht], (h.seals hseals).semicolon⟩)
    refine gapIn_of_lacks (lacks_returnRest h (steps_mono hm (by simp)) t) (fun c c₁ h₁ => ?_) hd
    rw [hp _ (by rw [h₁.here, ht]; rfl), statement_eq_returnRest h₁ ht]
  | @block opening closing ts body ho h hc =>
    obtain ⟨u', rfl, hus⟩ := split_behind [opening] heq hs (by simp [ho])
    have hu' : Paired u' := (show Paired [opening] from .cons (by simp [ho]) paired_nil).of_append hu
    obtain ⟨v', rfl, hrow⟩ := split_before ts hus hs (by simp [hc])
    simp only [List.length_append, List.length_cons] at hb hm
    obtain ⟨⟨x, hx⟩, hstarts⟩ := opens_braces hs ih' h hc hrow hu' (by omega) (steps_mono hm (by omega))
    have henter := enters_block hp ho
    rw [hbound] at henter hx
    have hcarries : Carries bound anyKind p [opening] (declarations (Inner.within bound m 0) bound) :=
      .of_enters henter fun _ _ => .bind_same (Confined.skip (by decide) _) fun _ => .pure trivial
    have := hx.behind (P := Derives (.symbol .statement)) [] (hcarries.mono fun _ _ => rfl) hstarts
      fun y hy => .symbol (.right (.right (.right (.right (.right (.right
        ((Derives.block_around ho hy hc).cast (by simp))))))))
    exact .inr (by simpa using this)
  | @loop _ t l r ts us cond body ht hl hc hr hbody =>
    obtain ⟨u', rfl, hus, hu'⟩ := behind_condition hseals (.inl ht) hl hc hr hs heq hu
    simp only [List.length_append, List.length_cons] at hb
    exact located_behind ih (by simp) (enters_while hi hp ht hl hc hr) (fun _ _ => .pure trivial)
      (closing_pure _) (fun y => Derives.while_behind ht hl (hc.expression hg) hr) hbody hus hu'
      (by omega) hm
  | @branch _ t l r ts us cond yes ht hl hc hr hyes =>
    obtain ⟨u', rfl, hus, hu'⟩ := behind_condition hseals (.inr ht) hl hc hr hs heq hu
    simp only [List.length_append, List.length_cons] at hb
    exact located_behind ih (by simp) (enters_if hi hp ht hl hc hr) (parallel_branches hconfined cond)
      (closing_branches cond) (fun y => Derives.if_behind ht hl (hc.expression hg) hr) hyes hus hu'
      (by omega) hm
  | @branchElse _ t l r other ts us vs cond yes no ht hl hc hr hyes ho hno =>
    obtain ⟨u', rfl, hus, hu'⟩ := behind_condition hseals (.inr ht) hl hc hr hs (by simpa using heq) hu
    simp only [List.length_append, List.length_cons] at hb
    rcases split_at us hus with ⟨v', rfl, rfl⟩ | ⟨w, rfl, hvs⟩
    · obtain ⟨hlocated, hstarts⟩ := located_body ih hyes rfl hu' (by omega)
        (steps_mono hm (by simp only [List.length_append, List.length_cons]; omega))
      have henter := enters_if hi hp ht hl hc hr
      rw [hbound] at henter
      have := hlocated.behind (other :: vs) henter (parallel_branches hconfined cond)
        (closing_branches cond) hstarts (.inr (.cons (by simp [ho]) vs))
        (fun y hy => Derives.if_behind ht hl (hc.expression hg) hr hy)
        fun y hy => Derives.ifElse_behind ht hl (hc.expression hg) hr hy ho (hg.statement _ _ _ hno)
      simpa using this
    · obtain ⟨w, rfl, hno'⟩ := split_behind [other] hvs hs (by simp [ho])
      have hw : Paired w := (show Paired [other] from .cons (by simp [ho]) paired_nil).of_append
        ((hseals.statement _ _ _ hyes).of_append hu')
      have hback (y : List Token) (hy : Derives (.symbol .statement) y) :
          Derives (.symbol .statement) (t :: l :: ts ++ r :: us ++ [other] ++ y) :=
        (Derives.ifElse_behind ht hl (hc.expression hg) hr (hg.statement _ _ _ hyes) ho hy).cast (by simp)
      have := located_behind ih (by simp) (enters_else hi hp ht hl hc hr hyes ho)
        (fun _ _ => .pure trivial) (closing_pure _) hback hno hno' hw (by omega) (by simpa using hm)
      simpa using this
  | @forLoop _ t l semi' r ts us vs ws initializer cond increment body ht hl hini hc hs' hinc hr hbody =>
    obtain ⟨u', rfl, hus, hu'⟩ := behind_header hseals ht hl hini hc hs' hinc hr hs heq hu
    simp only [List.length_append, List.length_cons] at hb
    exact located_behind ih (by simp) (enters_for hi hp ht hl hini hc hs' hinc hr)
      (fun _ _ => .pure trivial) (closing_pure _)
      (fun y => Derives.for_behind hg ht hl hini hc hs' hinc hr) hbody hus hu' (by omega) hm

/-- The gap of a semicolon in a function is in its body. -/
theorem opens_function (hs : semi.kind = .semicolon)
    (ih : ∀ n < m, LocatesDeclaration bound room semi n) (kind : String) {f : Fun}
    (h : Function (within m 0) ts f) (heq : ts = u ++ semi :: v) (hu : Paired u)
    (hb : ts.length < bound) (hm : nestingSteps * (u.length + room) ≤ m) :
    ∃ x : Gap, x.Opens bound room (function (Inner.within bound m 0) kind)
      (Derives (.symbol .function)) semi u v := by
  cases h with
  | @mk name l r opening closing ts us params body hn hl hps hr ho h hc =>
    have hbound : (Inner.within bound m 0).bound = bound := Inner.bound_within bound m 0
    obtain ⟨u', rfl, hus⟩ := split_behind (name :: l :: ts ++ [r, opening]) (by simpa using heq) hs (by
      simpa [or_imp, forall_and, hn, hl, hr, ho] using hps.sealed.semicolon)
    have hheader : Paired (name :: (l :: ts ++ [r]) ++ [opening]) :=
      .append (.cons (by simp [hn]) (.parens hl hps.sealed.paired hr)) (.cons (by simp [ho]) paired_nil)
    obtain ⟨v', rfl, hrow⟩ := split_before us hus hs (by simp [hc])
    simp only [List.length_append, List.length_cons] at hb hm
    obtain ⟨⟨x, hx⟩, hstarts⟩ := opens_braces hs ih h hc hrow (hheader.of_append (by simpa using hu))
      (by omega) (steps_mono hm (by omega))
    have henter : Enters _ anyKind (function (Inner.within bound m 0) kind) _ _ _ :=
      enters_function hn hl hps hr ho
    rw [hbound] at henter hx
    have hcarries : Carries bound anyKind (function (Inner.within bound m 0) kind)
        (name :: l :: ts ++ [r, opening]) (declarations (Inner.within bound m 0) bound) :=
      .of_enters henter fun _ _ => .bind_same (Confined.skip (by decide) _) fun _ => .pure trivial
    have := hx.behind (P := Derives (.symbol .function)) [] (hcarries.mono fun _ _ => rfl) hstarts
      fun y hy => .symbol ((Derives.cons hn (.cons hl (.seq hps.derives (.cons hr
        (Derives.block_around ho hy hc))))).cast (by simp))
    simpa using this

/-- The gap of a semicolon in methods is in one of them. -/
theorem opens_methods (hs : semi.kind = .semicolon)
    (ih : ∀ n < m, LocatesDeclaration bound room semi n) {ms : List Fun}
    (h : Methods (within m 0) ts ms) : ∀ fuel u v, ts = u ++ semi :: v → Paired u →
      ts.length < bound → nestingSteps * (u.length + room) ≤ m → ms.length < fuel →
      ∃ x : Gap, x.Opens bound room (methods (Inner.within bound m 0) fuel)
        (Derives (.star (.symbol .function))) semi u v := by
  have hbound : (Inner.within bound m 0).bound = bound := Inner.bound_within bound m 0
  have hi := Inner.complete_within bound m 0
  have hg := derived_within m 0
  induction h with
  | nil =>
    intro fuel u v h
    cases u <;> cases h
  | @cons ts us f ms hf hms ih' =>
    intro fuel u v heq hu hb hm hfuel
    obtain ⟨fuel, rfl⟩ : ∃ n, fuel = n + 1 := ⟨fuel - 1, by omega⟩
    rw [List.length_append] at hb
    rcases split_at ts heq with ⟨v', rfl, rfl⟩ | ⟨u', rfl, rfl⟩
    · obtain ⟨x, hx⟩ := opens_function hs ih "method" hf rfl hu (by omega) hm
      exact hx.behind us (carries_method (Inner.confinedStmt_within bound m 0) fuel)
        (hf.begins.mono inRow_of_name) fun y hy => (Derives.again hy (hms.derives hg)).cast (by simp)
    · have hstarts : Begins inRow (u' ++ semi :: v) := (hms.begins.resolve_left (by simp)).mono inRow_of_name
      obtain ⟨x, hx⟩ := ih' fuel u' v rfl ((hf.paired (seals_within m 0)).of_append hu) (by omega)
        (steps_mono hm (by rw [List.length_append]; omega)) (by simpa using hfuel)
      have hcarries := carries_methods hi fuel hf
      rw [hbound] at hcarries
      have := hx.behind (P := Derives (.star (.symbol .function))) [] hcarries hstarts fun y hy =>
        (Derives.again (hf.derives hg) hy).cast (by simp)
      simpa using this

/-- Wherever the semicolon of a declaration is, its gap is located. -/
theorem located_declaration (hs : semi.kind = .semicolon)
    (ih : LocatesStatement bound room semi m)
    (ih' : ∀ n < m, LocatesDeclaration bound room semi n) : LocatesDeclaration bound room semi m := by
  intro isOpen ts s u v h heq hu hb hm
  have hbound : (Inner.within bound m 0).bound = bound := Inner.bound_within bound m 0
  have hg := derived_within m 0
  have hseals := seals_within m 0
  have hd := h.derives hg
  cases h with
  | @classDecl t ts s ht h =>
    cases h with
    | @mk name opening closing ts us superclass ms hn hsuper ho hms hc =>
      have hsealed := hsuper.sealed
      obtain ⟨u', rfl, hus⟩ := split_behind (t :: name :: ts ++ [opening]) (by simpa using heq) hs (by
        simpa [or_imp, forall_and, ht, hn, ho] using hsealed.semicolon)
      have hheader : Paired (t :: name :: ts ++ [opening]) :=
        .append (.cons (by simp [ht]) (.cons (by simp [hn]) hsealed.paired)) (.cons (by simp [ho]) paired_nil)
      obtain ⟨v', rfl, hmethods⟩ := split_before us hus hs (by simp [hc])
      simp only [List.length_append, List.length_cons] at hb hm
      have hlength := hms.length_le
      have hstarts : Begins inRow (u' ++ semi :: v') := by
        rw [← hmethods]
        exact (hms.begins.resolve_left (by simp [hmethods])).mono inRow_of_name
      obtain ⟨x, hx⟩ := opens_methods hs ih' hms bound u' v' hmethods (hheader.of_append hu) (by omega)
        (steps_mono hm (by omega)) (by omega)
      have henter : Enters bound anyKind (undertaking (Inner.within bound m 0))
          (t :: name :: ts ++ [opening]) (methods (Inner.within bound m 0) bound) fun methods => do
            discard (expect .rightBrace "Expect '\x7d' after class body.")
            return .classDecl name.mark superclass methods := by
        intro c c' hb hc hk
        obtain ⟨c₁, h₁, h₂⟩ := Cursor.Passes.uncons hc
        rw [undertaking_eq_classDecl h₁ ht]
        have hclass : Enters _ anyKind (classDecl (Inner.within bound m 0)) _ _ _ :=
          enters_classDecl hn hsuper ho
        rw [hbound] at hclass
        exact hclass c₁ c' (by rwa [h₁.bound]) h₂ hk
      have hcarries := Carries.of_enters henter fun _ _ =>
        .bind_same (Confined.skip (by decide) _) fun _ => .pure trivial
      have := hx.behind (P := Derives (.symbol .declaration)) [closing] (hcarries.mono fun _ _ => rfl)
        hstarts fun y hy => .symbol (.left (.symbol ((Derives.cons ht (.cons hn (.seq hsuper.derives
          (.cons ho (.seq hy (.token hc)))))).cast (by simp))))
      exact .inr (by simpa using this)
  | @function t ts f ht h =>
    obtain ⟨u', rfl, hts⟩ := split_behind [t] heq hs (by simp [ht])
    have hu' : Paired u' := (show Paired [t] from .cons (by simp [ht]) paired_nil).of_append hu
    simp only [List.length_cons, List.length_append] at hb hm
    obtain ⟨x, hx⟩ := opens_function hs ih' "function" h hts hu' (by omega) (steps_mono hm (by omega))
    have henter : Enters bound anyKind (undertaking (Inner.within bound m 0)) [t]
        (function (Inner.within bound m 0) "function") fun f => Pure.pure (.function f) :=
      fun c c' _ hc _ => undertaking_eq_function hc ht
    have hcarries := Carries.of_enters henter fun _ _ => .pure trivial
    have := hx.behind (P := Derives (.symbol .declaration)) [] (hcarries.mono fun _ _ => rfl)
      (by rw [← hts]; exact h.begins.mono inRow_of_name)
      fun y hy => .symbol (.right (.left (.symbol ((Derives.cons ht hy).cast (by simp)))))
    exact .inr (by simpa using this)
  | @var t ts s ht h =>
    obtain ⟨u', rfl, rfl⟩ := split_behind [t] heq hs (by simp [ht])
    obtain ⟨us, semi', hsealed, -, hts⟩ := h.sealed hseals
    obtain ⟨rfl, rfl, rfl⟩ := split_end us hts.symm hs hsealed.semicolon
    exact gapIn_of_lacks (lacks_varDecl h (steps_mono hm (by simp)))
      (fun c c₁ h₁ => undertaking_eq_varDecl h₁ ht) hd
  | statement h =>
    exact (ih _ (takes_undertaking _) _ _ _ u v h heq hu hb hm).map fun y hy =>
      .symbol (.right (.right (.right hy)))

theorem located (hs : semi.kind = .semicolon) (m : Nat) :
    LocatesStatement bound room semi m ∧ LocatesDeclaration bound room semi m := by
  induction m using Nat.strong_induction_on with
  | h m ih =>
    have ih' n (hn : n < m) := (ih n hn).2
    have h := located_statement hs (fun n hn => (ih n hn).1) ih'
    exact ⟨h, located_declaration hs h ih'⟩

/-- A program comes to the gap of every semicolon that is not in the header of a loop. -/
theorem opens_program (hs : semi.kind = .semicolon) {z : Token} (hz : endsRow z.kind) {ss : List Stmt}
    (h : Program (within m 0) ts ss) (heq : ts = u ++ semi :: v) (hu : Paired u)
    (hb : ts.length < bound) (hm : nestingSteps * (u.length + room) ≤ m) {fuel : Nat}
    (hfuel : ss.length < fuel) : ∃ x : Gap,
      x.Opens bound room (program (Inner.within bound m 0) fuel) (RowBefore z) semi u (v ++ [z]) := by
  have hi := Inner.complete_within bound m 0
  refine opens_row (Inner.within bound m 0) u.length hs
    (carries_turn (Inner.confinedStmt_within bound m 0)) (fun fuel isOpen ts s h => ?_)
    (fun _ _ _ h => h.derives (derived_within m 0)) (fun _ _ _ h => h.begins)
    (fun _ _ _ h => h.paired (seals_within m 0)) (fun isOpen ts s u v h heq hu hb hle => ?_) hz h
    fuel u v heq hu hb (Nat.le_refl _) hfuel
  · have := carries_program hi fuel h
    rwa [Inner.bound_within] at this
  · exact (located hs m).2 isOpen ts s u v h heq hu hb (steps_mono hm (by omega))

end Statements

end Lox
