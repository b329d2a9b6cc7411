/-
# Productions go ahead

From what is known of the productions further in where fewer than `k` tokens
are left, the same is known of each production where fewer than `k + 1` are:
nothing further in is asked for before a token was read. So it is known of the
productions at every depth of nesting, whatever the number of steps
(`Lox.Inner.agree_within`); and where `nestingSteps` are left for every token
before the end, nesting too deep is never met, and the number of steps makes
no difference (`Lox.Inner.agree_deep`).

Key theorems: `Lox.Parse.Agree.assignment`, `Lox.Parse.Agree.declaration`,
`Lox.Inner.agree_within`, `Lox.Inner.agree_deep`.
-/
import Lox.Proofs.Grammar.Ahead
import Lox.Proofs.Grammar.Nesting
import Lox.Proofs.Grammar.Program

namespace Lox

namespace Parse

open Procedure

namespace Agree

variable {deep : Prop} {k : Nat} {inner inner' : Inner}

/-! ### Expressions -/

/-- Operators and operands: each turn reads an operator. -/
theorem operands {operand operand' : Parse Expr} {level : Level} (hops : .eof ∉ level.ops)
    (ho : Agree deep true k operand operand') : ∀ (fuel fuel' : Nat) (c : Cursor) (left : Expr),
    c.Ended → c.left ≤ k → c.left < fuel → c.left < fuel' →
      AgreeAt deep false (operands operand level fuel left) (Parse.operands operand' level fuel' left) c
  | 0, _, _, _, _, _, hl, _ => absurd hl (Nat.not_lt_zero _)
  | _ + 1, 0, _, _, _, _, _, hl => absurd hl (Nat.not_lt_zero _)
  | fuel + 1, fuel' + 1, c, left, hc, hk, hl, hl' => by
    refine AgreeAt.accept? hops hc (fun op c₁ hr₁ h₁ => ?_) (.pure left)
    have hc₁ := hr₁.ended hc
    refine (ho c₁ hc₁ (by omega)).behind hc₁ fun right c₂ hc₂ h₂ => ?_
    exact operands hops ho fuel fuel' c₂ _ hc₂ (by omega) (by omega) (by omega)

theorem arguments (h : Inner.Agree deep k inner inner') : ∀ (fuel fuel' count : Nat) (c : Cursor),
    c.Ended → c.left < k → c.left < fuel → c.left < fuel' →
      AgreeAt deep true (arguments inner fuel count) (Parse.arguments inner' fuel' count) c
  | 0, _, _, _, _, _, hl, _ => absurd hl (Nat.not_lt_zero _)
  | _ + 1, 0, _, _, _, _, _, hl => absurd hl (Nat.not_lt_zero _)
  | fuel + 1, fuel' + 1, count, c, hc, hk, hl, hl' => by
    have rest : ∀ d : Cursor, d.Ended → d.left ≤ c.left → AgreeAt deep true (do
        let arg ← inner.expr
        if ← Parse.accept [.comma] then return arg :: (← Parse.arguments inner fuel (count + 1))
        else return [arg]) (do
        let arg ← inner'.expr
        if ← Parse.accept [.comma] then return arg :: (← Parse.arguments inner' fuel' (count + 1))
        else return [arg]) d := fun d hd hle => by
      refine (h.expr d hd (by omega)).behind hd fun arg c₁ hc₁ h₁ => ?_
      refine AgreeAt.accept (by decide) hc₁ (fun c₂ hr₂ h₂ => ?_) (.pure _)
      have hc₂ := hr₂.ended hc₁
      exact (arguments h fuel fuel' (count + 1) c₂ hc₂ (by omega) (by omega) (by omega)).behind hc₂
        fun args c₃ _ _ => .pure _
    rw [Parse.arguments, Parse.arguments]
    split
    · exact .here ((AgreeAt.report c.here _).andThen hc fun _ c₁ hc₁ h₁ => rest c₁ hc₁ h₁)
    · exact rest c hc (Nat.le_refl _)

/-- The arguments of a call and the parenthesis behind them. -/
theorem callOf (h : Inner.Agree deep k inner inner') (callee : Expr) :
    Agree deep true k (callOf inner callee) (Parse.callOf inner' callee) := fun c hc hk => by
  have close : ∀ args (d : Cursor), d.Ended → AgreeAt deep true (do
      let paren ← Parse.expect .rightParen "Expect ')' after arguments."
      return Expr.call callee paren.mark args) (do
      let paren ← Parse.expect .rightParen "Expect ')' after arguments."
      return Expr.call callee paren.mark args) d := fun args d hd =>
    (AgreeAt.expect (by decide) hd _).behind hd fun _ _ _ _ => .pure _
  have hbound := h.bound
  have hbound' := h.bound'
  refine AgreeAt.check ?_
  cases [TokenKind.rightParen].contains c.here.kind with
  | true => exact (AgreeAt.pure []).andThen hc fun args c₁ hc₁ _ => close args c₁ hc₁
  | false =>
    exact (arguments h _ _ 0 c hc hk (by omega) (by omega)).andThen hc fun args c₁ hc₁ _ =>
      close args c₁ hc₁

/-- Calls and properties: each turn reads a parenthesis or a dot. -/
theorem chain (h : Inner.Agree deep k inner inner') : ∀ (fuel fuel' : Nat) (c : Cursor) (e : Expr),
    c.Ended → c.left ≤ k → c.left < fuel → c.left < fuel' →
      AgreeAt deep false (chain inner fuel e) (Parse.chain inner' fuel' e) c
  | 0, _, _, _, _, _, hl, _ => absurd hl (Nat.not_lt_zero _)
  | _ + 1, 0, _, _, _, _, _, hl => absurd hl (Nat.not_lt_zero _)
  | fuel + 1, fuel' + 1, c, e, hc, hk, hl, hl' => by
    refine AgreeAt.accept (by decide) hc (fun c₁ hr₁ h₁ => ?_) ?_
    · have hc₁ := hr₁.ended hc
      refine (callOf h e c₁ hc₁ (by omega)).behind hc₁ fun e' c₂ hc₂ h₂ => ?_
      exact chain h fuel fuel' c₂ e' hc₂ (by omega) (by omega) (by omega)
    · refine AgreeAt.accept (by decide) hc (fun c₁ hr₁ h₁ => ?_) (.pure e)
      have hc₁ := hr₁.ended hc
      refine (AgreeAt.expect (by decide) hc₁ _).behind hc₁ fun name c₂ hc₂ h₂ => ?_
      exact chain h fuel fuel' c₂ _ hc₂ (by omega) (by omega) (by omega)

theorem primary (h : Inner.Agree deep k inner inner') :
    Agree deep true (k + 1) (primary inner) (Parse.primary inner') := fun c hc hk => by
  have read (hend : c.here.kind ≠ .eof) : AgreeAt deep true (Functor.discard Parse.next)
      (Functor.discard Parse.next) c := (AgreeAt.next hc (Cursor.atEnd_eq_false hend)).discard
  refine AgreeAt.here ?_
  split
  case h_7 kind =>
    refine (read (by simp [kind])).behind hc fun _ c₁ hc₁ _ => ?_
    refine (AgreeAt.expect (by decide) hc₁ _).discard.behind hc₁ fun _ c₂ hc₂ _ => ?_
    exact (AgreeAt.expect (by decide) hc₂ _).behind hc₂ fun _ _ _ _ => .pure _
  case h_9 kind =>
    refine (read (by simp [kind])).behind hc fun _ c₁ hc₁ h₁ => ?_
    refine (h.expr c₁ hc₁ (by omega)).behind hc₁ fun e c₂ hc₂ _ => ?_
    exact (AgreeAt.expect (by decide) hc₂ _).discard.behind hc₂ fun _ _ _ _ => .pure _
  case h_10 => exact .refuse c.here _
  all_goals
    rename_i kind
    exact (read (by simp [kind])).behind hc fun _ _ _ _ => .pure _

theorem callExpr (h : Inner.Agree deep k inner inner') :
    Agree deep true (k + 1) (callExpr inner) (Parse.callExpr inner') := fun c hc hk => by
  have hbound := h.bound
  have hbound' := h.bound'
  refine (primary h c hc hk).behind hc fun e c₁ hc₁ h₁ => ?_
  exact chain h _ _ c₁ e hc₁ (by omega) (by omega) (by omega)

theorem unary (h : Inner.Agree deep k inner inner') :
    Agree deep true (k + 1) (unary inner) (Parse.unary inner') := fun c hc hk => by
  refine AgreeAt.accept? (by decide) hc (fun op c₁ hr₁ h₁ => ?_) (callExpr h c hc hk)
  have hc₁ := hr₁.ended hc
  exact (h.unary c₁ hc₁ (by omega)).behind hc₁ fun _ _ _ _ => .pure _

theorem binaryFrom (h : Inner.Agree deep k inner inner') : ∀ ls : List Level,
    (∀ level ∈ ls, .eof ∉ level.ops) →
      Agree deep true (k + 1) (binaryFrom inner ls) (Parse.binaryFrom inner' ls)
  | [], _ => unary h
  | level :: tighter, hls => fun c hc hk => by
    obtain ⟨hops, htighter⟩ := List.forall_mem_cons.mp hls
    have hbound := h.bound
    have hbound' := h.bound'
    have ih := binaryFrom h tighter htighter
    refine (ih c hc hk).behind hc fun left c₁ hc₁ h₁ => ?_
    have hless : Agree deep true k (Parse.binaryFrom inner tighter) (Parse.binaryFrom inner' tighter) :=
      fun d hd hl => ih d hd (by omega)
    exact operands hops hless _ _ c₁ left hc₁ (by omega) (by omega) (by omega)

theorem ternary (h : Inner.Agree deep k inner inner') :
    Agree deep true (k + 1) (ternary inner) (Parse.ternary inner') := fun c hc hk => by
  have hlevels := binaryFrom h levels eof_not_mem_levels
  refine (hlevels c hc hk).behind hc fun cond c₁ hc₁ h₁ => ?_
  refine AgreeAt.accept (by decide) hc₁ (fun c₂ hr₂ h₂ => ?_) (.pure cond)
  have hc₂ := hr₂.ended hc₁
  refine (h.middle c₂ hc₂ (by omega)).behind hc₂ fun yes c₃ hc₃ h₃ => ?_
  refine (AgreeAt.expect (by decide) hc₃ _).discard.behind hc₃ fun _ c₄ hc₄ h₄ => ?_
  exact (h.ternary c₄ hc₄ (by omega)).behind hc₄ fun _ _ _ _ => .pure _

theorem assignment (h : Inner.Agree deep k inner inner') :
    Agree deep true (k + 1) (assignment inner) (Parse.assignment inner') := fun c hc hk => by
  refine (ternary h c hc hk).behind hc fun target c₁ hc₁ h₁ => ?_
  refine AgreeAt.accept? (by decide) hc₁ (fun equals c₂ hr₂ h₂ => ?_) (.pure target)
  have hc₂ := hr₂.ended hc₁
  refine (h.value c₂ hc₂ (by omega)).behind hc₂ fun value c₃ hc₃ _ => ?_
  split
  · exact .pure _
  · exact .pure _
  · exact (AgreeAt.report equals _).andThen hc₃ fun _ _ _ _ => .pure _

/-! ### Statements -/

theorem exprStmt (h : Inner.Agree deep k inner inner') :
    Agree deep true (k + 1) (exprStmt inner) (Parse.exprStmt inner') := fun c hc hk => by
  refine (assignment h c hc hk).behind hc fun e c₁ hc₁ _ => ?_
  exact (AgreeAt.expect (by decide) hc₁ _).discard.behind hc₁ fun _ _ _ _ => .pure _

theorem printStmt (h : Inner.Agree deep k inner inner') :
    Agree deep true (k + 1) (printStmt inner) (Parse.printStmt inner') := fun c hc hk => by
  refine (assignment h c hc hk).behind hc fun e c₁ hc₁ _ => ?_
  exact (AgreeAt.expect (by decide) hc₁ _).discard.behind hc₁ fun _ _ _ _ => .pure _

/-- An expression that may be left out, and what follows it. -/
theorem optional {β : Type} {c : Cursor} {b : Bool} {q q' : Option Expr → Parse β}
    (h : Inner.Agree deep k inner inner') (hc : c.Ended) (hk : c.left < k + 1)
    (hq : ∀ o d, d.Ended → d.left ≤ c.left → AgreeAt deep true (q o) (q' o) d) :
    AgreeAt deep true (if b then Pure.pure none >>= q else (some <$> Parse.assignment inner) >>= q)
      (if b then Pure.pure none >>= q' else (some <$> Parse.assignment inner') >>= q') c := by
  cases b with
  | true => exact (AgreeAt.pure none).andThen hc hq
  | false => exact ((assignment h c hc hk).map some).andThen hc hq

/-- The keyword of a return statement was read. -/
theorem returnStmt (h : Inner.Agree deep k inner inner') {c : Cursor} (hc : c.Ended)
    (hk : c.left < k + 1) (hdone : c.done ≠ []) :
    AgreeAt deep true (returnStmt inner) (Parse.returnStmt inner') c := by
  refine AgreeAt.read (Cursor.cut_previous hdone) (AgreeAt.check ?_)
  refine optional h hc hk fun value c₁ hc₁ _ => ?_
  exact (AgreeAt.expect (by decide) hc₁ _).discard.behind hc₁ fun _ _ _ _ => .pure _

theorem varDecl (h : Inner.Agree deep k inner inner') :
    Agree deep true (k + 1) (varDecl inner) (Parse.varDecl inner') := fun c hc hk => by
  have close : ∀ (name : Token) (initial : Option Expr) (d : Cursor), d.Ended →
      AgreeAt deep true (do
        Functor.discard (Parse.expect .semicolon "Expect ';' after variable declaration.")
        return Stmt.var name.mark initial) (do
        Functor.discard (Parse.expect .semicolon "Expect ';' after variable declaration.")
        return Stmt.var name.mark initial) d := fun name initial d hd =>
    (AgreeAt.expect (by decide) hd _).discard.behind hd fun _ _ _ _ => .pure _
  refine (AgreeAt.expect (by decide) hc _).behind hc fun name c₁ hc₁ h₁ => ?_
  refine AgreeAt.accept (by decide) hc₁ (fun c₂ hr₂ h₂ => ?_) ?_
  · have hc₂ := hr₂.ended hc₁
    exact ((assignment h c₂ hc₂ (by omega)).map some).behind hc₂ fun initial c₃ hc₃ _ =>
      (close name initial c₃ hc₃).loosen
  · exact (AgreeAt.pure none).andThen hc₁ fun initial c₂ hc₂ _ => (close name initial c₂ hc₂).loosen

/-- Declarations: each turn takes a token, unless a closing brace or the end is ahead. -/
theorem declarations (h : Inner.Agree deep k inner inner') : ∀ (fuel fuel' : Nat) (c : Cursor),
    c.Ended → c.left < k → c.left < fuel → c.left < fuel' →
      AgreeAt deep false (declarations inner fuel) (Parse.declarations inner' fuel') c
  | 0, _, _, _, _, hl, _ => absurd hl (Nat.not_lt_zero _)
  | _ + 1, 0, _, _, _, _, hl => absurd hl (Nat.not_lt_zero _)
  | fuel + 1, fuel' + 1, c, hc, hk, hl, hl' => by
    refine AgreeAt.check (AgreeAt.read rfl ?_)
    cases hstop : [TokenKind.rightBrace].contains c.here.kind || c.atEnd with
    | true => exact .pure []
    | false =>
      have hend : c.atEnd = false := (Bool.or_eq_false_iff.mp hstop).2
      have hturn := h.declaration c hc hk
      rw [hend] at hturn
      refine AgreeAt.behind hturn hc fun stmt c₁ hc₁ h₁ => ?_
      exact (declarations h fuel fuel' c₁ hc₁ (by omega) (by omega) (by omega)).andThen hc₁
        fun rest _ _ _ => .pure _

theorem bracedBody (h : Inner.Agree deep k inner inner') :
    Agree deep true k (bracedBody inner) (Parse.bracedBody inner') := fun c hc hk => by
  have hbound := h.bound
  have hbound' := h.bound'
  refine (declarations h _ _ c hc hk (by omega) (by omega)).andThen hc fun body c₁ hc₁ _ => ?_
  exact (AgreeAt.expect (by decide) hc₁ _).discard.behind hc₁ fun _ _ _ _ => .pure _

theorem parameters : ∀ (fuel fuel' count : Nat) (c : Cursor), c.Ended → c.left < fuel →
    c.left < fuel' → AgreeAt deep false (parameters fuel count) (Parse.parameters fuel' count) c
  | 0, _, _, _, _, hl, _ => absurd hl (Nat.not_lt_zero _)
  | _ + 1, 0, _, _, _, _, hl => absurd hl (Nat.not_lt_zero _)
  | fuel + 1, fuel' + 1, count, c, hc, hl, hl' => by
    have rest : ∀ d : Cursor, d.Ended → d.left ≤ c.left → AgreeAt deep false (do
        let param ← Parse.expect .identifier "Expect parameter name."
        if ← Parse.accept [.comma] then
          let params ← Parse.parameters fuel (count + 1)
          return param.mark :: params
        else return [param.mark]) (do
        let param ← Parse.expect .identifier "Expect parameter name."
        if ← Parse.accept [.comma] then
          let params ← Parse.parameters fuel' (count + 1)
          return param.mark :: params
        else return [param.mark]) d := fun d hd hle => by
      refine (AgreeAt.expect (by decide) hd _).behind hd fun param c₁ hc₁ h₁ => ?_
      refine AgreeAt.accept (by decide) hc₁ (fun c₂ hr₂ h₂ => ?_) (.pure _)
      have hc₂ := hr₂.ended hc₁
      exact (parameters fuel fuel' (count + 1) c₂ hc₂ (by omega) (by omega)).andThen hc₂
        fun params _ _ _ => .pure _
    rw [Parse.parameters, Parse.parameters]
    split
    · exact .here ((AgreeAt.report c.here _).andThen hc fun _ c₁ hc₁ h₁ => rest c₁ hc₁ h₁)
    · exact rest c hc (Nat.le_refl _)

theorem parameterList (h : Inner.Agree deep k inner inner') :
    Agree deep false k (parameterList inner) (Parse.parameterList inner') := fun c hc hk => by
  have hbound := h.bound
  have hbound' := h.bound'
  refine AgreeAt.check ?_
  cases [TokenKind.rightParen].contains c.here.kind with
  | true => exact .pure []
  | false => exact parameters _ _ 0 c hc (by omega) (by omega)

theorem function (h : Inner.Agree deep k inner inner') (kind : String) :
    Agree deep true (k + 1) (function inner kind) (Parse.function inner' kind) := fun c hc hk => by
  refine (AgreeAt.expect (by decide) hc _).behind hc fun name c₁ hc₁ h₁ => ?_
  refine (AgreeAt.expect (by decide) hc₁ _).discard.behind hc₁ fun _ c₂ hc₂ h₂ => ?_
  refine (parameterList h c₂ hc₂ (by omega)).andThen hc₂ fun params c₃ hc₃ h₃ => ?_
  refine (AgreeAt.expect (by decide) hc₃ _).discard.behind hc₃ fun _ c₄ hc₄ h₄ => ?_
  refine (AgreeAt.expect (by decide) hc₄ _).discard.behind hc₄ fun _ c₅ hc₅ h₅ => ?_
  exact (bracedBody h c₅ hc₅ (by omega)).behind hc₅ fun body _ _ _ => .pure _

/-- Methods: each turn takes a token, or refuses one. -/
theorem methods (h : Inner.Agree deep k inner inner') : ∀ (fuel fuel' : Nat) (c : Cursor),
    c.Ended → c.left < k → c.left < fuel → c.left < fuel' →
      AgreeAt deep false (methods inner fuel) (Parse.methods inner' fuel') c
  | 0, _, _, _, _, hl, _ => absurd hl (Nat.not_lt_zero _)
  | _ + 1, 0, _, _, _, _, hl => absurd hl (Nat.not_lt_zero _)
  | fuel + 1, fuel' + 1, c, hc, hk, hl, hl' => by
    refine AgreeAt.check (AgreeAt.read rfl ?_)
    cases [TokenKind.rightBrace].contains c.here.kind || c.atEnd with
    | true => exact .pure []
    | false =>
      refine (function h "method" c hc (by omega)).behind hc fun method c₁ hc₁ h₁ => ?_
      exact (methods h fuel fuel' c₁ hc₁ (by omega) (by omega) (by omega)).andThen hc₁
        fun rest _ _ _ => .pure _

theorem classDecl (h : Inner.Agree deep k inner inner') :
    Agree deep true (k + 1) (classDecl inner) (Parse.classDecl inner') := fun c hc hk => by
  have hbound := h.bound
  have hbound' := h.bound'
  have close : ∀ (name : Token) (superclass : Option NameUse) (d : Cursor), d.Ended → d.left ≤ k →
      AgreeAt deep false (do
        Functor.discard (Parse.expect .leftBrace "Expect '\x7b' before class body.")
        let methods ← Parse.methods inner inner.bound
        Functor.discard (Parse.expect .rightBrace "Expect '\x7d' after class body.")
        return Stmt.classDecl name.mark superclass methods) (do
        Functor.discard (Parse.expect .leftBrace "Expect '\x7b' before class body.")
        let methods ← Parse.methods inner' inner'.bound
        Functor.discard (Parse.expect .rightBrace "Expect '\x7d' after class body.")
        return Stmt.classDecl name.mark superclass methods) d := fun name superclass d hd hle => by
    refine (AgreeAt.expect (by decide) hd _).discard.behind hd fun _ c₁ hc₁ h₁ => ?_
    refine (methods h _ _ c₁ hc₁ (by omega) (by omega) (by omega)).andThen hc₁ fun ms c₂ hc₂ h₂ => ?_
    exact (AgreeAt.expect (by decide) hc₂ _).discard.behind hc₂ fun _ _ _ _ => .pure _
  refine (AgreeAt.expect (by decide) hc _).behind hc fun name c₁ hc₁ h₁ => ?_
  refine AgreeAt.accept (by decide) hc₁ (fun c₂ hr₂ h₂ => ?_) ?_
  · have hc₂ := hr₂.ended hc₁
    refine (AgreeAt.expect (by decide) hc₂ _).behind hc₂ fun super c₃ hc₃ h₃ => ?_
    exact (AgreeAt.pure _).andThen hc₃ fun superclass c₄ hc₄ h₄ =>
      close name superclass c₄ hc₄ (by omega)
  · exact (AgreeAt.pure none).andThen hc₁ fun superclass c₂ hc₂ h₂ =>
      close name superclass c₂ hc₂ (by omega)

theorem forInitializer (h : Inner.Agree deep k inner inner') :
    Agree deep true (k + 1) (forInitializer inner) (Parse.forInitializer inner') := fun c hc hk => by
  refine AgreeAt.accept (by decide) hc (fun c₁ _ _ => .pure none) ?_
  refine AgreeAt.accept (by decide) hc (fun c₁ hr₁ h₁ => ?_) ((exprStmt h c hc hk).map some)
  exact ((varDecl h c₁ (hr₁.ended hc) (by omega)).map some).loosen

theorem forStmt (h : Inner.Agree deep k inner inner') :
    Agree deep true (k + 1) (forStmt inner) (Parse.forStmt inner') := fun c hc hk => by
  refine (AgreeAt.expect (by decide) hc _).discard.behind hc fun _ c₁ hc₁ h₁ => ?_
  refine (forInitializer h c₁ hc₁ (by omega)).behind hc₁ fun initializer c₂ hc₂ h₂ => ?_
  refine AgreeAt.check (AgreeAt.loosen (optional h hc₂ (by omega) fun cond c₃ hc₃ h₃ => ?_))
  refine (AgreeAt.expect (by decide) hc₃ _).discard.behind hc₃ fun _ c₄ hc₄ h₄ => ?_
  refine AgreeAt.check (AgreeAt.loosen (optional h hc₄ (by omega) fun increment c₅ hc₅ h₅ => ?_))
  refine (AgreeAt.expect (by decide) hc₅ _).discard.behind hc₅ fun _ c₆ hc₆ h₆ => ?_
  exact (h.statement c₆ hc₆ (by omega)).behind hc₆ fun _ _ _ _ => .pure _

theorem ifStmt (h : Inner.Agree deep k inner inner') :
    Agree deep true (k + 1) (ifStmt inner) (Parse.ifStmt inner') := fun c hc hk => by
  refine (AgreeAt.expect (by decide) hc _).discard.behind hc fun _ c₁ hc₁ h₁ => ?_
  refine (assignment h c₁ hc₁ (by omega)).behind hc₁ fun cond c₂ hc₂ h₂ => ?_
  refine (AgreeAt.expect (by decide) hc₂ _).discard.behind hc₂ fun _ c₃ hc₃ h₃ => ?_
  refine (h.statement c₃ hc₃ (by omega)).behind hc₃ fun yes c₄ hc₄ h₄ => ?_
  refine AgreeAt.accept (by decide) hc₄ (fun c₅ hr₅ h₅ => ?_) ?_
  · have hc₅ := hr₅.ended hc₄
    exact ((h.statement c₅ hc₅ (by omega)).map some).behind hc₅ fun _ _ _ _ => .pure _
  · exact (AgreeAt.pure none).andThen hc₄ fun _ _ _ _ => .pure _

theorem whileStmt (h : Inner.Agree deep k inner inner') :
    Agree deep true (k + 1) (whileStmt inner) (Parse.whileStmt inner') := fun c hc hk => by
  refine (AgreeAt.expect (by decide) hc _).discard.behind hc fun _ c₁ hc₁ h₁ => ?_
  refine (assignment h c₁ hc₁ (by omega)).behind hc₁ fun cond c₂ hc₂ h₂ => ?_
  refine (AgreeAt.expect (by decide) hc₂ _).discard.behind hc₂ fun _ c₃ hc₃ h₃ => ?_
  exact (h.statement c₃ hc₃ (by omega)).behind hc₃ fun _ _ _ _ => .pure _

theorem statement (h : Inner.Agree deep k inner inner') :
    Agree deep true (k + 1) (statement inner) (Parse.statement inner') := fun c hc hk => by
  refine AgreeAt.accept (by decide) hc (fun c₁ hr₁ h₁ => ?_) ?_
  · exact (forStmt h c₁ (hr₁.ended hc) (by omega)).loosen
  refine AgreeAt.accept (by decide) hc (fun c₁ hr₁ h₁ => ?_) ?_
  · exact (ifStmt h c₁ (hr₁.ended hc) (by omega)).loosen
  refine AgreeAt.accept (by decide) hc (fun c₁ hr₁ h₁ => ?_) ?_
  · exact (printStmt h c₁ (hr₁.ended hc) (by omega)).loosen
  refine AgreeAt.accept (by decide) hc (fun c₁ hr₁ h₁ => ?_) ?_
  · exact (returnStmt h (hr₁.ended hc) (by omega) (hr₁.done_ne_nil h₁)).loosen
  refine AgreeAt.accept (by decide) hc (fun c₁ hr₁ h₁ => ?_) ?_
  · exact (whileStmt h c₁ (hr₁.ended hc) (by omega)).loosen
  refine AgreeAt.accept (by decide) hc (fun c₁ hr₁ h₁ => ?_) (exprStmt h c hc hk)
  have hc₁ := hr₁.ended hc
  exact (bracedBody h c₁ hc₁ (by omega)).behind hc₁ fun _ _ _ _ => .pure _

/-- Where a declaration is refused, tokens are dropped, at least one if there is one. -/
theorem declaration (h : Inner.Agree deep k inner inner') {c : Cursor} (hc : c.Ended)
    (hk : c.left < k + 1) :
    AgreeAt deep (!c.atEnd) (declaration inner) (Parse.declaration inner') c := by
  refine AgreeAt.recovering hc ?_
  refine AgreeAt.accept (by decide) hc (fun c₁ hr₁ h₁ => ?_) ?_
  · exact (classDecl h c₁ (hr₁.ended hc) (by omega)).loosen
  refine AgreeAt.accept (by decide) hc (fun c₁ hr₁ h₁ => ?_) ?_
  · have hc₁ := hr₁.ended hc
    exact (function h "function" c₁ hc₁ (by omega)).behind hc₁ fun _ _ _ _ => .pure _
  refine AgreeAt.accept (by decide) hc (fun c₁ hr₁ h₁ => ?_) (statement h c hc hk)
  exact (varDecl h c₁ (hr₁.ended hc) (by omega)).loosen

end Agree

end Parse

/-! ### At every depth of nesting -/

namespace Inner

open Parse

variable {bound bound' : Nat}

/-- Without steps everything is nested too deeply. -/
theorem agree_none {k spent spent' : Nat} (hk : k ≤ bound) (hk' : k ≤ bound') :
    Agree True k (within bound 0 spent) (within bound' 0 spent') where
  bound := hk
  bound' := hk'
  expr := fun _ _ _ => .tooDeep trivial
  middle := fun _ _ _ => .tooDeep trivial
  value := fun _ _ _ => .tooDeep trivial
  ternary := fun _ _ _ => .tooDeep trivial
  unary := fun _ _ _ => .tooDeep trivial
  statement := fun _ _ _ => .tooDeep trivial
  declaration := fun _ _ _ => .tooDeep trivial

/-- Nowhere are fewer than no tokens left. -/
theorem agree_nowhere {deep : Prop} (inner inner' : Inner) : Agree deep 0 inner inner' where
  bound := Nat.zero_le _
  bound' := Nat.zero_le _
  expr := fun _ _ hl => absurd hl (Nat.not_lt_zero _)
  middle := fun _ _ hl => absurd hl (Nat.not_lt_zero _)
  value := fun _ _ hl => absurd hl (Nat.not_lt_zero _)
  ternary := fun _ _ hl => absurd hl (Nat.not_lt_zero _)
  unary := fun _ _ hl => absurd hl (Nat.not_lt_zero _)
  statement := fun _ _ hl => absurd hl (Nat.not_lt_zero _)
  declaration := fun _ _ hl => absurd hl (Nat.not_lt_zero _)

/-- The productions with some step left agree where fewer than `k + 1` tokens are left, if what they
go on with agrees where fewer than `k` are. -/
theorem agree_further {deep : Prop} {k steps steps' : Nat} (hk : k + 1 ≤ bound) (hk' : k + 1 ≤ bound')
    (h : ∀ spent < nestingSteps, Agree deep k (within bound steps spent) (within bound' steps' spent)) :
    Agree deep (k + 1) (within bound (steps + 1) 0) (within bound' (steps' + 1) 0) where
  bound := by rw [bound_within]; exact hk
  bound' := by rw [bound_within]; exact hk'
  expr := Parse.Agree.assignment (h (nestingSteps - 1) (by decide))
  middle := Parse.Agree.assignment (h 2 (by decide))
  value := Parse.Agree.assignment (h 0 (by decide))
  ternary := Parse.Agree.ternary (h 0 (by decide))
  unary := Parse.Agree.unary (h 0 (by decide))
  statement := Parse.Agree.statement (h 1 (by decide))
  declaration := fun _ => Parse.Agree.declaration (h 2 (by decide))

/-- With as many steps, the productions agree for all bounds on the loops that are large enough. -/
theorem agree_within : ∀ {k : Nat}, k ≤ bound → k ≤ bound' → ∀ steps spent,
    Agree True k (within bound steps spent) (within bound' steps spent)
  | _, hk, hk', 0, _ => agree_none hk hk'
  | _, hk, hk', steps + 1, spent + 1 => by
    rw [within, within]
    exact agree_within hk hk' steps spent
  | 0, _, _, _ + 1, 0 => agree_nowhere _ _
  | k + 1, hk, hk', steps + 1, 0 =>
    agree_further hk hk' fun spent _ => agree_within (by omega) (by omega) steps spent

/-- Where `nestingSteps` are left for each token, nesting too deep is not met, and it makes no
difference how many steps are left. -/
theorem agree_deep : ∀ {k : Nat}, k ≤ bound → k ≤ bound' → ∀ steps steps' spent,
    spent + nestingSteps * k ≤ steps → spent + nestingSteps * k ≤ steps' →
      Agree False k (within bound steps spent) (within bound' steps' spent)
  | 0, _, _, _, _, _, _, _ => agree_nowhere _ _
  | k + 1, hk, hk', steps, steps', spent, hs, hs' => by
    induction spent generalizing steps steps' with
    | zero =>
      rw [nestingSteps_eq] at hs hs'
      obtain ⟨n, rfl⟩ : ∃ n, steps = n + 1 := ⟨steps - 1, by omega⟩
      obtain ⟨n', rfl⟩ : ∃ n', steps' = n' + 1 := ⟨steps' - 1, by omega⟩
      refine agree_further hk hk' fun spent hspent => ?_
      rw [nestingSteps_eq] at hspent
      exact agree_deep (by omega) (by omega) n n' spent (by rw [nestingSteps_eq]; omega)
        (by rw [nestingSteps_eq]; omega)
    | succ spent ih =>
      obtain ⟨n, rfl⟩ : ∃ n, steps = n + 1 := ⟨steps - 1, by omega⟩
      obtain ⟨n', rfl⟩ : ∃ n', steps' = n' + 1 := ⟨steps' - 1, by omega⟩
      rw [within, within]
      exact ih n n' (by omega) (by omega)

end Inner

end Lox
