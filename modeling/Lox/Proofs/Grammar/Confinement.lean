/-
# Productions are confined

From what is known of the productions further in: those of expressions are
confined by any stops, and so the operators, arguments and calls of an
expression are read and refused before its semicolon; statements, declarations
and a whole program are confined by the end.

Key definitions: `Lox.Inner.Confined`, `Lox.Inner.ConfinedStmt`.
Key theorems: `Lox.Inner.confined_within`, `Lox.Inner.confinedStmt_within`,
`Lox.Parse.Confined.program`.
-/
import Lox.Proofs.Grammar.Deeds

namespace Lox

open Procedure

/-- What is read of expressions further in is confined. -/
structure Inner.Confined (F : Confines) (inner : Inner) : Prop where
  expr : Parse.Confined F inner.expr
  middle : Parse.Confined F inner.middle
  value : Parse.Confined F inner.value
  ternary : Parse.Confined F inner.ternary
  unary : Parse.Confined F inner.unary

/-- What is read further in is confined by the end. -/
structure Inner.ConfinedStmt (inner : Inner) : Prop extends inner.Confined .text where
  statement : Parse.Confined .text inner.statement
  declaration : Parse.Confined .text inner.declaration

namespace Confines

variable (F : Confines) {k : TokenKind}

theorem not_stops (h : k ≠ .semicolon ∧ k ≠ .eof) : ¬ F.stops k := fun hk =>
  (F.only k hk).elim h.1 h.2

theorem not_stops_mem {kinds : List TokenKind} (h : .semicolon ∉ kinds ∧ .eof ∉ kinds) :
    ∀ k ∈ kinds, ¬ F.stops k := fun _ hk =>
  F.not_stops ⟨fun he => h.1 (he ▸ hk), fun he => h.2 (he ▸ hk)⟩

theorem not_stops_text (h : k ≠ .eof) : ¬ text.stops k := h

theorem not_stops_text_mem {kinds : List TokenKind} (h : .eof ∉ kinds) :
    ∀ k ∈ kinds, ¬ text.stops k := fun _ hk he => h (he ▸ hk)

end Confines

open Confines

namespace Parse

namespace Confined

variable {F : Confines} {inner : Inner}

/-! ### Expressions -/

theorem operands {operand : Parse Expr} {level : Level}
    (hops : .semicolon ∉ level.ops ∧ .eof ∉ level.ops) (ho : Confined F operand) :
    ∀ fuel left, Confined F (operands operand level fuel left)
  | 0, _ => .pure _
  | fuel + 1, left => by
    rw [Parse.operands]
    refine .accept? (F.not_stops_mem hops) fun o => ?_
    cases o with
    | none => exact .pure left
    | some op => exact ho.bind fun right => operands hops ho fuel _

theorem arguments (h : inner.Confined F) : ∀ fuel count, Confined F (arguments inner fuel count)
  | 0, _ => .pure _
  | fuel + 1, count => by
    have rest : Confined F (do
        let arg ← inner.expr
        if ← Parse.accept [.comma] then return arg :: (← Parse.arguments inner fuel (count + 1))
        else return [arg]) := by
      refine h.expr.bind fun arg => .accept (F.not_stops_mem (by decide)) fun b => ?_
      cases b with
      | true => exact (arguments h fuel (count + 1)).bind fun _ => .pure _
      | false => exact .pure _
    rw [Parse.arguments]
    split
    · exact .look (fun t => t) fun t => (Confined.report t F.arguments).bind fun _ => rest
    · exact rest

theorem callOf (h : inner.Confined F) (callee : Expr) : Confined F (callOf inner callee) := by
  have close (args : List Expr) : Confined F (do
      let paren ← Parse.expect .rightParen "Expect ')' after arguments."
      return Expr.call callee paren.mark args) :=
    (Confined.expect (F.not_stops (by decide)) _).bind fun _ => .pure _
  refine .check fun b => ?_
  cases b with
  | true => exact (Confined.pure []).bind close
  | false => exact (arguments h _ _).bind close

theorem chain (h : inner.Confined F) : ∀ fuel e, Confined F (chain inner fuel e)
  | 0, _ => .pure _
  | fuel + 1, e => by
    refine .accept (F.not_stops_mem (by decide)) fun b => ?_
    cases b with
    | true => exact (callOf h e).bind fun _ => chain h fuel _
    | false =>
      refine .accept (F.not_stops_mem (by decide)) fun b => ?_
      cases b with
      | true =>
        exact (Confined.expect (F.not_stops (by decide)) _).bind fun _ => chain h fuel _
      | false => exact .pure e

theorem primary (h : inner.Confined F) : Confined F (primary inner) := by
  intro ts t hts ht
  refine ConfinedAt.look (fun t => t) ?_
  by_cases hstop : F.stops (ts.headD t).kind
  · -- A stop is no expression, so it is refused.
    have hk := F.only _ hstop
    rcases hk with hk | hk <;> rw [hk] <;> exact .refuse _
  · cases ts with
    | nil => exact absurd ht hstop
    | cons x ts =>
      have hx : x.kind ≠ .eof := ne_eof hstop
      have behind {f : Unit → Parse Expr} (hf : Confined F (f ())) :
          ConfinedAt F (Functor.discard Parse.next >>= f) (x :: ts) t := by
        refine ConfinedAt.bind (p := Functor.discard Parse.next) ?_ fun _ us ⟨vs, hus⟩ =>
          hf us t (fun u hu => hts u (hus ▸ List.mem_append_right _ hu)) ht
        show ConfinedAt F ((fun _ => ()) <$> Parse.next) (x :: ts) t
        rw [map_eq_pure_bind]
        exact (ConfinedAt.next hx).bind fun _ _ _ => .pure _
      rw [List.headD_cons]
      split
      case h_7 =>
        exact behind ((Confined.expect (F.not_stops (by decide)) _).discard.bind fun _ =>
          (Confined.expect (F.not_stops (by decide)) _).bind fun _ => .pure _)
      case h_9 =>
        exact behind (h.expr.bind fun _ =>
          (Confined.expect (F.not_stops (by decide)) _).discard.bind fun _ => .pure _)
      case h_10 => exact @ConfinedAt.refuse _ F (x :: ts) t _
      all_goals exact behind (.pure _)

theorem callExpr (h : inner.Confined F) : Confined F (callExpr inner) :=
  (primary h).bind fun _ => chain h _ _

theorem unary (h : inner.Confined F) : Confined F (unary inner) := by
  refine .accept? (F.not_stops_mem (by decide)) fun o => ?_
  cases o with
  | some op => exact h.unary.bind fun _ => .pure _
  | none => exact callExpr h

theorem binaryFrom (h : inner.Confined F) : ∀ ls : List Level,
    (∀ level ∈ ls, .semicolon ∉ level.ops ∧ .eof ∉ level.ops) → Confined F (binaryFrom inner ls)
  | [], _ => unary h
  | level :: tighter, hls => by
    obtain ⟨hops, htighter⟩ := List.forall_mem_cons.mp hls
    have ih := binaryFrom h tighter htighter
    exact ih.bind fun left => operands hops ih _ left

theorem stop_not_mem_levels : ∀ level ∈ levels, .semicolon ∉ level.ops ∧ .eof ∉ level.ops := by
  simp [levels]

theorem ternary (h : inner.Confined F) : Confined F (ternary inner) := by
  refine (binaryFrom h levels stop_not_mem_levels).bind fun cond =>
    .accept (F.not_stops_mem (by decide)) fun b => ?_
  cases b with
  | true =>
    exact h.middle.bind fun _ => (Confined.expect (F.not_stops (by decide)) _).discard.bind fun _ =>
      h.ternary.bind fun _ => .pure _
  | false => exact .pure cond

theorem assignment (h : inner.Confined F) : Confined F (assignment inner) := by
  refine (ternary h).bind fun target => .accept? (F.not_stops_mem (by decide)) fun o => ?_
  cases o with
  | none => exact .pure target
  | some equals =>
    refine h.value.bind fun value => ?_
    split
    · exact .pure _
    · exact .pure _
    · exact (Confined.report equals F.target).bind fun _ => .pure target

/-! ### Statements -/

theorem skip {kind : TokenKind} (hk : kind ≠ .eof) (message : String) :
    Confined .text (Functor.discard (Parse.expect kind message)) :=
  (Confined.expect (not_stops_text hk) message).discard

theorem exprStmt (h : inner.Confined .text) : Confined .text (exprStmt inner) :=
  (assignment h).bind fun _ => (skip (by decide) _).bind fun _ => .pure _

theorem printStmt (h : inner.Confined .text) : Confined .text (printStmt inner) :=
  (assignment h).bind fun _ => (skip (by decide) _).bind fun _ => .pure _

/-- An expression that may be left out. -/
theorem optional {β : Type} {b : Bool} {q : Option Expr → Parse β} (h : inner.Confined .text)
    (hq : ∀ o, Confined .text (q o)) : Confined .text
      (if b then Pure.pure none >>= q else (some <$> Parse.assignment inner) >>= q) := by
  cases b with
  | true => exact (Confined.pure none).bind hq
  | false => exact ((assignment h).map some).bind hq

end Confined

/-- A return statement behind its keyword. -/
def returnRest (inner : Inner) (keyword : Token) : Parse Stmt := do
  let value ← if ← check [.semicolon] then pure none else some <$> assignment inner
  discard (expect .semicolon "Expect ';' after return value.")
  return .giveBack keyword.mark value

/-- The keyword that was read last is the one that was accepted. -/
theorem accept_return (inner : Inner) (q : Parse Stmt) :
    (do if ← accept [.kwReturn] then returnStmt inner else q) =
      (do
        match ← accept? [.kwReturn] with
        | some keyword => returnRest inner keyword
        | none => q) := by
  funext c
  simp only [accept, accept?, bind_assoc, pure_bind]
  rw [bind_ok (check_eq _ c), bind_ok (check_eq _ c)]
  cases [TokenKind.kwReturn].contains c.here.kind <;> rfl

namespace Confined

variable {inner : Inner}

theorem returnRest (h : inner.Confined .text) (keyword : Token) :
    Confined .text (returnRest inner keyword) :=
  .check fun _ => optional h fun _ => (skip (by decide) _).bind fun _ => .pure _

theorem varDecl (h : inner.Confined .text) : Confined .text (varDecl inner) := by
  have close (name : Token) (initial : Option Expr) : Confined .text (do
      Functor.discard (Parse.expect .semicolon "Expect ';' after variable declaration.")
      return Stmt.var name.mark initial) := (skip (by decide) _).bind fun _ => .pure _
  refine (Confined.expect (not_stops_text (by decide)) _).bind fun name =>
    .accept (not_stops_text_mem (by decide)) fun b => ?_
  cases b with
  | true => exact ((assignment h).map some).bind (close name)
  | false => exact (Confined.pure none).bind (close name)

theorem declarations (h : inner.ConfinedStmt) : ∀ fuel, Confined .text (declarations inner fuel)
  | 0 => .pure _
  | fuel + 1 => by
    refine .check fun b => .look (fun t => decide (t.kind = .eof)) fun b' => ?_
    cases b || b' with
    | true => exact .pure []
    | false => exact h.declaration.bind fun _ => (declarations h fuel).bind fun _ => .pure _

theorem bracedBody (h : inner.ConfinedStmt) : Confined .text (bracedBody inner) :=
  (declarations h _).bind fun _ => (skip (by decide) _).bind fun _ => .pure _

theorem parameters : ∀ fuel count, Confined .text (parameters fuel count)
  | 0, _ => .pure _
  | fuel + 1, count => by
    have rest : Confined .text (do
        let param ← Parse.expect .identifier "Expect parameter name."
        if ← Parse.accept [.comma] then
          let params ← Parse.parameters fuel (count + 1)
          return param.mark :: params
        else return [param.mark]) := by
      refine (Confined.expect (not_stops_text (by decide)) _).bind fun _ =>
        .accept (not_stops_text_mem (by decide)) fun b => ?_
      cases b with
      | true => exact (parameters fuel (count + 1)).bind fun _ => .pure _
      | false => exact .pure _
    rw [Parse.parameters]
    split
    · exact .look (fun t => t) fun t => (Confined.report t trivial).bind fun _ => rest
    · exact rest

theorem parameterList : Confined .text (parameterList inner) :=
  .check fun b => by
    cases b with
    | true => exact .pure []
    | false => exact parameters _ _

theorem function (h : inner.ConfinedStmt) (kind : String) : Confined .text (function inner kind) :=
  (Confined.expect (not_stops_text (by decide)) _).bind fun _ => (skip (by decide) _).bind fun _ =>
    parameterList.bind fun _ => (skip (by decide) _).bind fun _ => (skip (by decide) _).bind fun _ =>
    (bracedBody h).bind fun _ => .pure _

theorem methods (h : inner.ConfinedStmt) : ∀ fuel, Confined .text (methods inner fuel)
  | 0 => .pure _
  | fuel + 1 => by
    refine .check fun b => .look (fun t => decide (t.kind = .eof)) fun b' => ?_
    cases b || b' with
    | true => exact .pure []
    | false => exact (function h _).bind fun _ => (methods h fuel).bind fun _ => .pure _

theorem classDecl (h : inner.ConfinedStmt) : Confined .text (classDecl inner) := by
  have rest (name : Token) (superclass : Option NameUse) : Confined .text (do
      Functor.discard (Parse.expect .leftBrace "Expect '\x7b' before class body.")
      let methods ← Parse.methods inner inner.bound
      Functor.discard (Parse.expect .rightBrace "Expect '\x7d' after class body.")
      return Stmt.classDecl name.mark superclass methods) :=
    (skip (by decide) _).bind fun _ => (methods h _).bind fun _ => (skip (by decide) _).bind fun _ =>
      .pure _
  refine (Confined.expect (not_stops_text (by decide)) _).bind fun name =>
    .accept (not_stops_text_mem (by decide)) fun b => ?_
  cases b with
  | true =>
    exact (Confined.expect (not_stops_text (by decide)) _).bind fun super =>
      (Confined.pure _).bind (rest name)
  | false => exact (Confined.pure _).bind (rest name)

theorem forInitializer (h : inner.Confined .text) : Confined .text (forInitializer inner) := by
  refine .accept (not_stops_text_mem (by decide)) fun b => ?_
  cases b with
  | true => exact .pure none
  | false =>
    refine .accept (not_stops_text_mem (by decide)) fun b => ?_
    cases b with
    | true => exact (varDecl h).map some
    | false => exact (exprStmt h).map some

theorem forStmt (h : inner.ConfinedStmt) : Confined .text (forStmt inner) :=
  (skip (by decide) _).bind fun _ => (forInitializer h.toConfined).bind fun _ => .check fun _ =>
    optional h.toConfined fun _ => (skip (by decide) _).bind fun _ => .check fun _ =>
    optional h.toConfined fun _ => (skip (by decide) _).bind fun _ => h.statement.bind fun _ => .pure _

theorem ifStmt (h : inner.ConfinedStmt) : Confined .text (ifStmt inner) := by
  refine (skip (by decide) _).bind fun _ => (assignment h.toConfined).bind fun _ =>
    (skip (by decide) _).bind fun _ => h.statement.bind fun _ =>
    .accept (not_stops_text_mem (by decide)) fun b => ?_
  cases b with
  | true => exact (h.statement.map some).bind fun _ => .pure _
  | false => exact (Confined.pure none).bind fun _ => .pure _

theorem whileStmt (h : inner.ConfinedStmt) : Confined .text (whileStmt inner) :=
  (skip (by decide) _).bind fun _ => (assignment h.toConfined).bind fun _ =>
    (skip (by decide) _).bind fun _ => h.statement.bind fun _ => .pure _

/-- Of two readings, the first is for what begins with a keyword. -/
theorem keyword {kind : TokenKind} (hk : kind ≠ .eof) {α : Type} {p q : Parse α}
    (hp : Confined .text p) (hq : Confined .text q) :
    Confined .text (do if ← Parse.accept [kind] then p else q) :=
  .accept (not_stops_text_mem (by simpa using hk.symm)) fun b => by
    cases b with
    | true => exact hp
    | false => exact hq

theorem statement (h : inner.ConfinedStmt) : Confined .text (statement inner) := by
  refine keyword (by decide) (forStmt h) <| keyword (by decide) (ifStmt h) <|
    keyword (by decide) (printStmt h.toConfined) ?_
  rw [accept_return]
  refine .accept? (not_stops_text_mem (by decide)) fun o => ?_
  cases o with
  | some t => exact returnRest h.toConfined t
  | none =>
    exact keyword (by decide) (whileStmt h) <|
      keyword (by decide) ((bracedBody h).bind fun _ => .pure _) (exprStmt h.toConfined)

end Confined

/-- A declaration or statement that is given up where it is refused. -/
def undertaking (inner : Inner) : Parse Stmt := do
  if ← accept [.kwClass] then classDecl inner
  else if ← accept [.kwFun] then return .function (← function inner "function")
  else if ← accept [.kwVar] then varDecl inner
  else statement inner

theorem declaration_eq (inner : Inner) : declaration inner = recovering (undertaking inner) := rfl

namespace Confined

variable {inner : Inner}

theorem undertaking (h : inner.ConfinedStmt) : Confined .text (undertaking inner) :=
  keyword (by decide) (classDecl h) <| keyword (by decide) ((function h _).bind fun _ => .pure _) <|
    keyword (by decide) (varDecl h.toConfined) (statement h)

theorem declaration (h : inner.ConfinedStmt) : Confined .text (declaration inner) :=
  .recovering (undertaking h)

theorem turn (h : inner.ConfinedStmt) : Confined .text (turn inner) := by
  refine (declaration h).attempt.bind fun r => ?_
  cases r with
  | ok stmt => exact .pure _
  | error e =>
    exact .look (fun t => t) fun t => (Confined.report t trivial).bind fun _ =>
      Confined.synchronized.bind fun _ => .pure _

theorem program (h : inner.ConfinedStmt) : ∀ fuel, Confined .text (program inner fuel)
  | 0 => .pure _
  | fuel + 1 => by
    rw [program_succ]
    refine .look (fun t => decide (t.kind = .eof)) fun b => ?_
    cases b with
    | true => exact .pure []
    | false => exact (turn h).bind fun _ => (program h fuel).bind fun _ => .pure _

end Confined

end Parse

/-! ### Every depth of nesting -/

namespace Inner

open Parse

theorem confined_within (F : Confines) (bound : Nat) : ∀ steps spent,
    (within bound steps spent).Confined F
  | 0, _ => by
    rw [within]
    exact ⟨.tooDeep, .tooDeep, .tooDeep, .tooDeep, .tooDeep⟩
  | steps + 1, spent + 1 => by
    rw [within]
    exact confined_within F bound steps spent
  | steps + 1, 0 => by
    rw [within]
    have h (spent : Nat) := confined_within F bound steps spent
    exact ⟨.assignment (h _), .assignment (h _), .assignment (h _), .ternary (h _), .unary (h _)⟩

theorem confinedStmt_within (bound : Nat) : ∀ steps spent,
    (within bound steps spent).ConfinedStmt
  | 0, _ => by
    rw [within]
    exact ⟨⟨.tooDeep, .tooDeep, .tooDeep, .tooDeep, .tooDeep⟩, .tooDeep, .tooDeep⟩
  | steps + 1, spent + 1 => by
    rw [within]
    exact confinedStmt_within bound steps spent
  | steps + 1, 0 => by
    have he := confined_within .text bound (steps + 1) 0
    rw [within] at he ⊢
    have h (spent : Nat) := confinedStmt_within bound steps spent
    exact ⟨he, .statement (h _), .declaration (h _)⟩

end Inner

end Lox
