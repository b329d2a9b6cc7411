/-
# What the parser accepts

A text parses without a report exactly if its tokens are derived from
`program`, where calls and functions keep the ceiling on arguments and
parameters, and the limits leave enough steps for the nesting. It is split
into declarations in one way as far as trees go: each part gives the one tree
that it gives on its own. What stands to the left of `=` is a name or ends
with a property name, whatever else it is made of.

Key definitions: `Lox.Assignable`, `Lox.Declarations`.
Key theorems: `Lox.derives_of_parse`, `Lox.parse_accepts_derived_programs`.
-/
import Lox.Proofs.Grammar.Nesting
import Lox.Proofs.Grammar.Program

namespace Lox

open Phrases

/-- A bare name, or a call with a property name behind it. -/
def Assignable (l : List Token) : Prop :=
  (∃ t, t.kind = .identifier ∧ l = [t]) ∨
    ∃ us dot t, Derives (.symbol .call) us ∧ dot.kind = .dot ∧ t.kind = .identifier ∧
      l = us ++ [dot, t]

/-- Some parts in a row, each of them a declaration. -/
def Declarations (parts : List (List Token)) (ts : List Token) : Prop :=
  parts.flatten = ts ∧ ∀ part ∈ parts, Derives (.symbol .declaration) part

variable {ts us l r : List Token} {m : Nat} {e : Token}

/-! ### Targets -/

/-- Of two phrases before tokens that do not go on with them, none is longer. -/
theorem Parse.Complete.unique {α : Type} {production : Nat → Parse α} {phrase : List Token → α → Prop}
    {goesOn : TokenKind → Bool} (hp : ∀ bound, Complete bound (production bound) phrase goesOn)
    {vs : List Token} {a b : Token} {t t' : α} (h : phrase l t) (h' : phrase r t')
    (heq : l ++ a :: us = r ++ b :: vs) (ha : goesOn a.kind = false) (hb : goesOn b.kind = false) :
    l = r := by
  obtain ⟨here, later, hc⟩ : ∃ here later, l ++ a :: us = here :: later := by
    cases l with
    | nil => exact ⟨_, _, rfl⟩
    | cons t l => exact ⟨_, _, rfl⟩
  let c : Cursor := ⟨[], here, later, #[]⟩
  have hl : c.Passes l ⟨l.reverse, a, us, #[]⟩ := ⟨hc.symm, by simp [c], rfl⟩
  have hr : c.Passes r ⟨r.reverse, b, vs, #[]⟩ := ⟨(heq ▸ hc).symm, by simp [c], rfl⟩
  have hone := (hp c.bound c l t _ (Nat.le_refl _) hl h ha).symm.trans
    (hp c.bound c r t' _ (Nat.le_refl _) hr h' hb)
  exact List.reverse_inj.mp (congrArg (fun p => p.2.done) hone)

theorem ternary_unique {vs : List Token} {a b : Token} {t t' : Expr}
    (h : Ternary (within m 0) l t) (h' : Ternary (within m 0) r t')
    (heq : l ++ a :: us = r ++ b :: vs) (ha : goesOnTernary a.kind = false)
    (hb : goesOnTernary b.kind = false) : l = r := by
  have hp (bound : Nat) := Parse.complete_ternary (Inner.complete_within bound m 0).toCompleteExpr
  simp only [Inner.bound_within] at hp
  exact Parse.Complete.unique hp h h' heq ha hb

theorem assignment_unique {vs : List Token} {a b : Token} {t t' : Expr}
    (h : Assignment (within m 0) l t) (h' : Assignment (within m 0) r t')
    (heq : l ++ a :: us = r ++ b :: vs) (ha : goesOnAssignment a.kind = false)
    (hb : goesOnAssignment b.kind = false) : l = r := by
  have hp (bound : Nat) := Parse.complete_assignment (Inner.complete_within bound m 0).toCompleteExpr
  simp only [Inner.bound_within] at hp
  exact Parse.Complete.unique hp h h' heq ha hb

/-- Before `=` there is what can be assigned to. -/
theorem assignable_of_assignment {vs : List Token} {a equal : Token} {t e : Expr}
    (ht : Ternary (within m 0) l t) (h : Assignment (within m 0) ts e)
    (heq : ts ++ a :: us = l ++ equal :: vs) (hk : equal.kind = .equal)
    (ha : goesOnAssignment a.kind = false) : Assignable l := by
  have hq (t : Token) (ht : t.kind = .equal) : goesOnTernary t.kind = false := by rw [ht]; rfl
  cases h with
  | ternary h =>
    have ha' : goesOnTernary a.kind = false ∧ a.kind ≠ .equal := by simpa [goesOnAssignment] using ha
    obtain rfl := ternary_unique h ht heq ha'.1 (hq _ hk)
    obtain ⟨rfl, -⟩ := List.cons.inj (List.append_cancel_left heq)
    exact absurd hk ha'.2
  | @name name equal' ts e hn he hv =>
    have h : Ternary (within m 0) [name] _ := .binary (.ofCall (.primary (.name hn)) _)
    exact .inl ⟨name, hn, (ternary_unique h ht heq (hq _ he) (hq _ hk)).symm⟩
  | @property ts us object e dot name equal' ho hd hn he hv =>
    have h : Ternary (within m 0) (ts ++ [dot, name]) _ := .binary (.ofCall (.get ho hd hn) _)
    exact .inr ⟨ts, dot, name, ho.derives (derived_within m 0), hd, hn,
      (ternary_unique h ht (by simpa using heq) (hq _ he) (hq _ hk)).symm⟩

theorem derives_of_assignable {equal : Token} (h : Assignable l) (hk : equal.kind = .equal)
    (hr : Derives (.symbol .assignment) r) : Derives (.symbol .expression) (l ++ equal :: r) := by
  refine .symbol (.symbol (.left ?_))
  rcases h with ⟨t, ht, rfl⟩ | ⟨us, dot, t, hu, hd, ht, rfl⟩
  · exact (Derives.seq (.left .empty) (.cons ht (.cons hk hr))).cast rfl
  · exact (Derives.seq (.right (.seq hu (.token hd))) (.cons ht (.cons hk hr))).cast (by simp)

/-- With a left side and a value there is an assignment exactly if one can assign to the left side. -/
theorem derives_assignment_iff {equal : Token} (hl : Derives (.symbol .ternary) l)
    (hk : equal.kind = .equal) (hr : Derives (.symbol .assignment) r) :
    Derives (.symbol .expression) (l ++ equal :: r) ↔ Assignable l := by
  refine ⟨fun h => ?_, fun h => derives_of_assignable h hk hr⟩
  have hm : nestingSteps * l.length ≤ nestingSteps * (l ++ equal :: r).length :=
    Nat.mul_le_mul_left _ (by simp)
  obtain ⟨t, ht⟩ := hl.parses _ hm
  obtain ⟨e, he⟩ := h.parses _ (Nat.le_refl _)
  have heq : (l ++ equal :: r) ++ [Token.eof 0] = l ++ equal :: (r ++ [Token.eof 0]) := by simp
  exact assignable_of_assignment ht he heq hk rfl

theorem Phrases.ExprStmt.split {g : Phrases} {s : Stmt} (h : ExprStmt g ts s) :
    ∃ us semi e, Assignment g us e ∧ semi.kind = .semicolon ∧ ts = us ++ [semi] := by
  cases h with
  | mk h hs => exact ⟨_, _, _, h, hs, rfl⟩

/-- A declaration that begins as an expression is one, with a semicolon. -/
theorem Phrases.Declaration.toExprStmt {g : Phrases} {isOpen : Bool} {t : Token} {s : Stmt}
    (h : Declaration g isOpen (t :: us) s) (ht : beginsExpr t.kind) : ExprStmt g (t :: us) s := by
  cases h with
  | classDecl hk | function hk | var hk =>
    rw [hk] at ht
    cases ht
  | statement h =>
    generalize hts : t :: us = ts at h
    cases h with
    | expr h => exact h
    | print hk | giveBack hk | block hk | loop hk | branch hk | branchElse hk | forLoop hk =>
      obtain ⟨rfl, -⟩ := List.cons.inj hts
      rw [hk] at ht
      cases ht

/-! ### Programs -/

variable {limits : Limits}

/-- What parses without a report is derived, whatever the limits. -/
theorem derives_of_parse (hts : ∀ t ∈ ts, t.kind ≠ .eof) (he : e.kind = .eof)
    (h : (parse limits (ts ++ [e])).diagnostics = []) :
    Derives (.symbol .program) (ts ++ [e]) :=
  .of_program he (program_of_parse hts he h)

theorem parse_of_derives (he : e.kind = .eof) (hm : nestingSteps * (ts.length + 1) ≤ limits.steps)
    (h : Derives (.symbol .program) (ts ++ [e])) : (parse limits (ts ++ [e])).diagnostics = [] := by
  obtain ⟨us, e', ss, hp, -, heq⟩ := h.parses limits.steps (by simpa using hm)
  obtain ⟨rfl, -⟩ := List.append_inj' heq rfl
  rw [parse_of_program he hp]

/-- The trees of parts in a row are those that the parts have on their own. -/
theorem exists_program_of_declarations (he : e.kind = .eof) :
    ∀ {parts : List (List Token)} {ts : List Token}, Declarations parts ts →
      nestingSteps * ts.length ≤ limits.steps →
      ∃ ss, Program (within limits.steps 0) ts ss ∧
        parts.map (fun part => parse limits (part ++ [e])) = ss.map fun s => ⟨[s], []⟩
  | [], _, ⟨rfl, _⟩, _ => ⟨[], .nil, rfl⟩
  | part :: parts, _, ⟨rfl, h⟩, hm => by
    rw [List.flatten_cons, List.length_append, nestingSteps_eq] at hm
    obtain ⟨isOpen, s, hs⟩ := (h part List.mem_cons_self).parses limits.steps
      (by rw [nestingSteps_eq]; omega)
    obtain ⟨ss, hss, hmap⟩ := exists_program_of_declarations he
      ⟨rfl, fun part hp => h part (List.mem_cons_of_mem _ hp)⟩ (by rw [nestingSteps_eq]; omega)
    have hone : Program (within limits.steps 0) part [s] := by
      have : Row (Declaration (within limits.steps 0)) (part ++ []) [s] := .cons hs .nil
      rwa [List.append_nil] at this
    refine ⟨s :: ss, .cons hs hss, ?_⟩
    rw [List.map_cons, List.map_cons, hmap, parse_of_program he hone]

theorem exists_declarations {ss : List Stmt} {g : Phrases} (hg : g.Derived) (h : Program g ts ss) :
    ∃ parts, Declarations parts ts := by
  induction h with
  | nil => exact ⟨[], rfl, by simp⟩
  | @cons _ ts us s ss hs _ ih =>
    obtain ⟨parts, rfl, hd⟩ := ih
    exact ⟨ts :: parts, rfl, by simpa using ⟨hs.derives hg, hd⟩⟩

/-- An assignment in a statement on its own is accepted exactly if one can assign to its left side. -/
theorem parse_assignment_iff {equal semi : Token} (hl : Derives (.symbol .ternary) l)
    (hk : equal.kind = .equal) (hr : Derives (.symbol .assignment) r)
    (hs : semi.kind = .semicolon) (hts : ∀ t ∈ l ++ equal :: r ++ [semi], t.kind ≠ .eof)
    (he : e.kind = .eof) (hm : nestingSteps * ((l ++ equal :: r ++ [semi]).length + 1) ≤ limits.steps) :
    (parse limits (l ++ equal :: r ++ [semi] ++ [e])).diagnostics = [] ↔ Assignable l := by
  constructor
  · intro h
    have hp := program_of_parse hts he h
    generalize hstmts : (parse limits (l ++ equal :: r ++ [semi] ++ [e])).stmts = ss at hp
    generalize hsplit : l ++ equal :: r ++ [semi] = ts at hp
    have hlen : nestingSteps * l.length ≤ limits.steps :=
      Nat.le_trans (Nat.mul_le_mul_left _ (by simp; omega)) hm
    obtain ⟨t, ht⟩ := hl.parses _ hlen
    obtain ⟨first, rest, rfl, hfirst⟩ := ht.begins
    cases hp with
    | nil => simp at hsplit
    | @cons isOpen us vs s ss hd hss =>
      obtain ⟨u, us, rfl, -⟩ := hd.begins
      obtain rfl : first = u := by
        simp only [List.cons_append] at hsplit
        exact (List.cons.inj hsplit).1
      obtain ⟨ws, semi', e, ha, hsemi, hus⟩ := (hd.toExprStmt hfirst).split
      have heq : ws ++ semi' :: vs = first :: rest ++ equal :: (r ++ [semi]) := by
        rw [hus] at hsplit
        simpa using hsplit.symm
      exact assignable_of_assignment ht ha heq hk (by rw [hsemi]; rfl)
  · intro h
    refine parse_of_derives he hm (.symbol (.seq ?_ (.token he)))
    have := Derives.again (.symbol (.right (.right (.right (.symbol (.left (.symbol
      (.seq (derives_of_assignable h hk hr) (.token hs)))))))) : Derives (.symbol .declaration) _) .done
    exact this.cast (by simp)

/-- A text of tokens that do not end it, with an end token behind, parses without a report exactly if
it is derived from `program`. Then there are parts in a row that are declarations, and however it is
parted, each part gives one tree, the one that it gives on its own. An `=` between what may stand
there otherwise is accepted exactly if one can assign to what is on its left: in an expression
wherever that is, and in a statement on its own. The limits are to leave steps for the nesting. -/
theorem parse_accepts_derived_programs (limits : Limits) (ts : List Token) (e : Token)
    (hts : ∀ t ∈ ts, t.kind ≠ .eof) (he : e.kind = .eof)
    (hm : nestingSteps * (ts.length + 1) ≤ limits.steps) :
    ((parse limits (ts ++ [e])).diagnostics = [] ↔ Derives (.symbol .program) (ts ++ [e])) ∧
    ((parse limits (ts ++ [e])).diagnostics = [] → ∃ parts, Declarations parts ts) ∧
    (∀ parts, Declarations parts ts → parts.map (fun part => parse limits (part ++ [e])) =
      (parse limits (ts ++ [e])).stmts.map fun s => ⟨[s], []⟩) ∧
    (∀ l equal r, Derives (.symbol .ternary) l → equal.kind = .equal →
      Derives (.symbol .assignment) r →
        (Derives (.symbol .expression) (l ++ equal :: r) ↔ Assignable l) ∧
        ∀ semi, semi.kind = .semicolon → ts = l ++ equal :: r ++ [semi] →
          ((parse limits (ts ++ [e])).diagnostics = [] ↔ Assignable l)) := by
  refine ⟨⟨derives_of_parse hts he, parse_of_derives he hm⟩, fun h => ?_, fun parts hp => ?_, ?_⟩
  · exact exists_declarations (derived_within _ _) (program_of_parse hts he h)
  · obtain ⟨ss, hss, hmap⟩ := exists_program_of_declarations he hp
      (Nat.le_trans (Nat.mul_le_mul_left _ (Nat.le_succ _)) hm)
    rw [parse_of_program he hss, hmap]
  · intro l equal r hl hk hr
    refine ⟨derives_assignment_iff hl hk hr, ?_⟩
    rintro semi hs rfl
    exact parse_assignment_iff hl hk hr hs hts he hm

/-- A name with a name assigned to it, as a statement. -/
theorem parse_accepts_name_assignment :
    let ts : List Token := [⟨.identifier, "a", .nil, 0⟩, ⟨.equal, "=", .nil, 2⟩,
      ⟨.identifier, "b", .nil, 4⟩, ⟨.semicolon, ";", .nil, 5⟩]
    (parse .usual (ts ++ [.eof 6])).diagnostics = [] ↔ Derives (.symbol .program) (ts ++ [.eof 6]) :=
  (parse_accepts_derived_programs .usual _ (.eof 6) (by decide) rfl (by decide)).1

end Lox
