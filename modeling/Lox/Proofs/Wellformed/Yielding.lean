/-
# What the parser yields

Whatever tokens there are, and whether or not they are refused, every tree that
a production comes to is a tree over the vocabulary of these tokens: each of
its marks is the mark of a token of the kind that its place asks for. A
production is followed from any cursor among the tokens to its end
(`Lox.Parse.Yields`); one that halts comes to nothing, and leaves a cursor from
which the next one starts.

Key definitions: `Lox.Cursor.Among`, `Lox.Parse.Yields`, `Lox.Inner.Yields`.
Key theorems: `Lox.Inner.yields_within`, `Lox.over_of_parse`, `Lox.over_of_parseExpression?`.
-/
import Lox.Proofs.Grammar.Deeds
import Lox.Proofs.Grammar.Totality
import Lox.Proofs.Wellformed.Vocabulary

namespace Lox

open Procedure

variable {T : Token → Prop}

/-- The tokens ahead satisfy `T`, and the last of them is an end token. -/
structure Cursor.Among (T : Token → Prop) (c : Cursor) : Prop where
  closed : c.Closed
  ahead : ∀ t ∈ c.ahead, T t

namespace Cursor.Among

variable {c c' : Cursor} {ts : List Token}

theorem here (h : c.Among T) : T c.here := h.ahead _ List.mem_cons_self

theorem passes (h : c.Among T) (hp : c.Passes ts c') : c'.Among T :=
  ⟨hp.closed h.closed, fun t ht => h.ahead t (hp.ahead ▸ List.mem_append_right ts ht)⟩

theorem advance (h : c.Among T) : c.advance.Among T := by
  obtain ⟨ts, hp⟩ := Cursor.exists_passes_advance h.closed
  exact h.passes hp

theorem synchronized (h : c.Among T) : c.synchronized.Among T := by
  obtain ⟨ts, hp⟩ := Cursor.exists_passes_synchronized h.closed
  exact h.passes hp

theorem report (h : c.Among T) (offset : Int) (message : String) :
    (c.report offset message).Among T :=
  ⟨h.closed, h.ahead⟩

end Cursor.Among

namespace Parse

/-- From the cursor the production comes to another one among the tokens, and to no result but such
ones. -/
def YieldsAt {α : Type} (T : Token → Prop) (P : α → Prop) (p : Parse α) (c : Cursor) : Prop :=
  (p c).2.Among T ∧ ∀ a, (p c).1 = .ok a → P a

/-- From every cursor among the tokens the production comes to another one, and to no result but such
ones. -/
def Yields {α : Type} (T : Token → Prop) (P : α → Prop) (p : Parse α) : Prop :=
  ∀ c : Cursor, c.Among T → YieldsAt T P p c

namespace Yields

variable {α β : Type} {P : α → Prop} {Q : β → Prop} {p : Parse α} {f : α → Parse β} {c : Cursor}

theorem pure {a : α} (h : P a) : Yields T P (Pure.pure a) := by
  refine fun c hc => ⟨hc, fun b hb => ?_⟩
  obtain rfl : a = b := Except.ok.inj hb
  exact h

theorem bindAt (hp : YieldsAt T P p c) (hf : ∀ a, P a → Yields T Q (f a)) :
    YieldsAt T Q (p >>= f) c := by
  obtain ⟨hc, ha⟩ := hp
  unfold YieldsAt
  rcases hrun : p c with ⟨e | a, c'⟩
  · rw [hrun] at hc
    rw [bind_error hrun]
    exact ⟨hc, fun b hb => by cases hb⟩
  · rw [hrun] at hc ha
    rw [bind_ok hrun]
    exact hf a (ha a rfl) c' hc

theorem bind (hp : Yields T P p) (hf : ∀ a, P a → Yields T Q (f a)) : Yields T Q (p >>= f) :=
  fun c hc => bindAt (hp c hc) hf

theorem ite {b : Bool} {p q : Parse α} (hp : Yields T P p) (hq : Yields T P q) :
    Yields T P (if b then p else q) := by
  split
  · exact hp
  · exact hq

theorem map {g : α → β} (hp : Yields T P p) (h : ∀ a, P a → Q (g a)) : Yields T Q (g <$> p) :=
  have hbind : Yields T Q (p >>= fun a => Pure.pure (g a)) := hp.bind fun a ha => pure (h a ha)
  hbind

/-- Where the result is thrown away nothing need be known of it. -/
theorem discard (hp : Yields T P p) : Yields T (fun _ => True) (discard p) :=
  hp.map fun _ _ => trivial

theorem read {g : Cursor → α} (h : ∀ c : Cursor, c.Among T → P (g c)) :
    Yields T P (Procedure.read g) := by
  refine fun c hc => ⟨hc, fun a ha => ?_⟩
  obtain rfl : g c = a := Except.ok.inj ha
  exact h c hc

theorem look {g : Cursor → α} : Yields T (fun _ => True) (Procedure.read g) :=
  read fun _ _ => trivial

theorem change {m : Cursor → Cursor} (h : ∀ c : Cursor, c.Among T → (m c).Among T) :
    Yields T (fun _ => True) (Procedure.change m) :=
  fun c hc => ⟨h c hc, fun _ _ => trivial⟩

theorem halt {e : Halt} : Yields T P (Procedure.halt e) :=
  fun _ hc => ⟨hc, fun _ ha => by cases ha⟩

/-- What the production halts with is a result as well. -/
theorem attempt (hp : Yields T P p) :
    Yields T (fun r => ∀ a, r = .ok a → P a) (attempt p) := by
  intro c hc
  have hrun := hp c hc
  unfold YieldsAt Procedure.attempt
  rcases h : p c with ⟨r, c'⟩
  rw [YieldsAt, h] at hrun
  refine ⟨hrun.1, fun b hb => ?_⟩
  obtain rfl : r = b := Except.ok.inj hb
  exact hrun.2

theorem recovering (hp : Yields T P p) : Yields T (fun o => ∀ a ∈ o, P a) (recovering p) := by
  intro c hc
  have hrun := hp c hc
  unfold YieldsAt Parse.recovering
  rcases h : p c with ⟨(_ | _) | a, c'⟩
  · rw [YieldsAt, h] at hrun
    refine ⟨hrun.1.synchronized, fun o ho => ?_⟩
    obtain rfl : none = o := Except.ok.inj ho
    exact fun _ ha => by cases ha
  · rw [YieldsAt, h] at hrun
    exact ⟨hrun.1, fun o ho => by cases ho⟩
  · rw [YieldsAt, h] at hrun
    refine ⟨hrun.1, fun o ho => ?_⟩
    obtain rfl : some a = o := Except.ok.inj ho
    exact fun b hb => Option.some.inj hb ▸ hrun.2 a rfl

/-! ### Tokens -/

theorem here : Yields T T here := read fun _ hc => hc.here

theorem report (t : Token) (message : String) : Yields T (fun _ => True) (report t message) :=
  change fun _ hc => hc.report t.offset message

theorem refuse (t : Token) (message : String) : Yields T P (refuse t message) :=
  (report t message).bind fun _ _ => halt

/-- A token is read, and is not looked at. -/
theorem pass : Yields T (fun _ => True) (Functor.discard Parse.next) :=
  have hnext : Yields T (fun _ => True) Parse.next :=
    (change fun _ hc => hc.advance).bind fun _ _ => look
  hnext.discard

/-- A token that is read, if one of the kinds is ahead. -/
theorem accept? {kinds : List TokenKind} (hk : .eof ∉ kinds) :
    Yields T (fun o => ∀ t ∈ o, T t ∧ t.kind ∈ kinds) (accept? kinds) := by
  intro c hc
  by_cases h : c.here.kind ∈ kinds
  · have hp := Cursor.passes_advance hc.closed fun he => hk (he ▸ h)
    rw [YieldsAt, accept?_some hp h hk]
    refine ⟨hc.passes hp, fun o ho => ?_⟩
    obtain rfl : some c.here = o := Except.ok.inj ho
    exact fun t ht => Option.some.inj ht ▸ ⟨hc.here, h⟩
  · rw [YieldsAt, accept?_none h]
    refine ⟨hc, fun o ho => ?_⟩
    obtain rfl : none = o := Except.ok.inj ho
    exact fun t ht => by cases ht

theorem accept {kinds : List TokenKind} (hk : .eof ∉ kinds) :
    Yields T (fun _ => True) (accept kinds) :=
  (accept? hk).bind fun _ _ => pure trivial

theorem expect {kind : TokenKind} (hk : kind ≠ .eof) (message : String) :
    Yields T (fun t => T t ∧ t.kind = kind) (expect kind message) := by
  intro c hc
  by_cases h : c.here.kind = kind
  · have hp := Cursor.passes_advance hc.closed (h ▸ hk)
    rw [YieldsAt, expect_eq hp h hk]
    refine ⟨hc.passes hp, fun t ht => ?_⟩
    obtain rfl : c.here = t := Except.ok.inj ht
    exact ⟨hc.here, h⟩
  · rw [YieldsAt, expect_refused h message]
    exact ⟨hc.report _ _, fun t ht => by cases ht⟩

theorem skip {kind : TokenKind} (hk : kind ≠ .eof) (message : String) :
    Yields T (fun _ => True) (Functor.discard (Parse.expect kind message)) :=
  (expect hk message).discard

/-- What is done behind a token that was ahead may look back at it. -/
theorem behind {kinds : List TokenKind} (hk : .eof ∉ kinds) {p q : Parse α}
    (hp : ∀ c : Cursor, c.Among T → T c.previous → c.previous.kind ∈ kinds → YieldsAt T P p c)
    (hq : Yields T P q) :
    Yields T P (Parse.accept kinds >>= fun b => if b then p else q) := by
  intro c hc
  unfold YieldsAt
  by_cases h : c.here.kind ∈ kinds
  · have hpass := Cursor.passes_advance hc.closed fun he => hk (he ▸ h)
    rw [bind_ok (accept_true hpass h hk)]
    refine hp _ (hc.passes hpass) ?_ ?_ <;> rw [hpass.previous]
    · exact hc.here
    · exact h
  · rw [bind_ok (accept_false h)]
    exact hq c hc

end Yields

end Parse

/-- The productions further in yield trees over the vocabulary of the tokens. -/
structure Inner.Yields (T : Token → Prop) (inner : Inner) : Prop where
  expr : Parse.Yields T (Expr.Over (.ofTokens T)) inner.expr
  middle : Parse.Yields T (Expr.Over (.ofTokens T)) inner.middle
  value : Parse.Yields T (Expr.Over (.ofTokens T)) inner.value
  ternary : Parse.Yields T (Expr.Over (.ofTokens T)) inner.ternary
  unary : Parse.Yields T (Expr.Over (.ofTokens T)) inner.unary
  statement : Parse.Yields T (Stmt.Over (.ofTokens T)) inner.statement
  declaration : Parse.Yields T (fun o => ∀ s ∈ o, Stmt.Over (.ofTokens T) s) inner.declaration

/-- A mark of a token is a word of its kind. -/
theorem Vocabulary.word_mark {t : Token} {kind : TokenKind} (h : T t ∧ t.kind = kind) :
    (ofTokens T).word kind t.mark :=
  ⟨t, h.1, h.2, rfl⟩

/-- A name in a tree as it is parsed is not bound. -/
theorem Vocabulary.use_free {t : Token} {kind : TokenKind} (h : T t ∧ t.kind = kind) :
    (ofTokens T).Use kind (.free t.mark) :=
  ⟨word_mark h, rfl⟩

namespace Parse.Yields

open Vocabulary

variable {inner : Inner}

/-! ### Expressions -/

/-- The node of a level is over the vocabulary if its operands and its operator are. -/
def Joins (T : Token → Prop) (level : Level) : Prop :=
  ∀ left right (op : Token), left.Over (.ofTokens T) → right.Over (.ofTokens T) → T op →
    op.kind ∈ level.ops → (level.node left op.mark right).Over (.ofTokens T)

theorem joins_levels : ∀ level ∈ levels, Joins T level := by
  have logical {ops : List TokenKind} (hops : ops ⊆ logicalKinds) : Joins T ⟨ops, .logical⟩ :=
    fun _ _ op hl hr hop hk => .logical hl ⟨op, hop, hops hk, rfl⟩ hr
  have binary {ops : List TokenKind} (hops : ops ⊆ binaryKinds) : Joins T ⟨ops, .binary⟩ :=
    fun _ _ op hl hr hop hk => .binary hl ⟨op, hop, hops hk, rfl⟩ hr
  simp only [levels, List.forall_mem_cons]
  refine ⟨logical ?_, logical ?_, binary ?_, binary ?_, binary ?_, binary ?_, by simp⟩ <;> decide

theorem eof_not_mem_ops : ∀ level ∈ levels, .eof ∉ level.ops := by
  simp [levels]

theorem operands {operand : Parse Expr} {level : Level} (heof : .eof ∉ level.ops)
    (hj : Joins T level) (ho : Yields T (Expr.Over (.ofTokens T)) operand) : ∀ fuel left,
    left.Over (.ofTokens T) → Yields T (Expr.Over (.ofTokens T)) (operands operand level fuel left)
  | 0, _, hl => pure hl
  | fuel + 1, left, hl => by
    refine (accept? heof).bind fun o h => ?_
    cases o with
    | none => exact pure hl
    | some op =>
      obtain ⟨hop, hk⟩ := h op rfl
      exact ho.bind fun right hr => operands heof hj ho fuel _ (hj left right op hl hr hop hk)

section

variable (hi : inner.Yields T)

include hi

theorem arguments : ∀ fuel count,
    Yields T (fun args => ∀ arg ∈ args, arg.Over (.ofTokens T)) (arguments inner fuel count)
  | 0, _ => pure fun _ h => nomatch h
  | fuel + 1, count => by
    have rest : Yields T (fun args => ∀ arg ∈ args, arg.Over (.ofTokens T)) (do
        let arg ← inner.expr
        if ← Parse.accept [.comma] then return arg :: (← Parse.arguments inner fuel (count + 1))
        else return [arg]) :=
      hi.expr.bind fun arg harg => (accept (by decide)).bind fun _ _ =>
        ite ((arguments fuel (count + 1)).bind fun args hargs =>
            pure (List.forall_mem_cons.mpr ⟨harg, hargs⟩))
          (pure (List.forall_mem_singleton.mpr harg))
    rw [Parse.arguments]
    split
    · exact here.bind fun t _ => (report t _).bind fun _ _ => rest
    · exact rest

theorem callOf {callee : Expr} (hc : callee.Over (.ofTokens T)) :
    Yields T (Expr.Over (.ofTokens T)) (callOf inner callee) := by
  have close (args : List Expr) (hargs : ∀ arg ∈ args, arg.Over (.ofTokens T)) :
      Yields T (Expr.Over (.ofTokens T)) (do
        let paren ← Parse.expect .rightParen "Expect ')' after arguments."
        return Expr.call callee paren.mark args) :=
    (expect (by decide) _).bind fun paren hp => pure (.call hc (word_mark hp) hargs)
  refine look.bind fun b _ => ?_
  cases b with
  | true => exact (pure fun _ h => nomatch h).bind close
  | false => exact (arguments hi inner.bound 0).bind close

theorem chain : ∀ fuel {e : Expr}, e.Over (.ofTokens T) →
    Yields T (Expr.Over (.ofTokens T)) (chain inner fuel e)
  | 0, _, he => pure he
  | fuel + 1, _, he =>
    (accept (by decide)).bind fun _ _ => ite ((callOf hi he).bind fun _ he' => chain fuel he')
      ((accept (by decide)).bind fun _ _ => ite
        ((expect (by decide) _).bind fun _ hn => chain fuel (.get he (word_mark hn))) (pure he))

theorem primary : Yields T (Expr.Over (.ofTokens T)) (primary inner) := by
  refine here.bind fun t ht => ?_
  split
  case h_1 | h_2 => exact pass.bind fun _ _ => pure (.literal (.inr (.inl ⟨_, rfl⟩)))
  case h_3 => exact pass.bind fun _ _ => pure (.literal (.inl rfl))
  case h_4 hk => exact pass.bind fun _ _ => pure (.literal (.inr (.inr ⟨t, ht, .inl hk, rfl⟩)))
  case h_5 hk => exact pass.bind fun _ _ => pure (.literal (.inr (.inr ⟨t, ht, .inr hk, rfl⟩)))
  case h_6 hk => exact pass.bind fun _ _ => pure (.receiver (use_free ⟨ht, hk⟩))
  case h_7 hk =>
    exact pass.bind fun _ _ => (skip (by decide) _).bind fun _ _ =>
      (expect (by decide) _).bind fun _ hm => pure (.superMethod (use_free ⟨ht, hk⟩) (word_mark hm))
  case h_8 hk => exact pass.bind fun _ _ => pure (.variable (use_free ⟨ht, hk⟩))
  case h_9 =>
    exact pass.bind fun _ _ => hi.expr.bind fun _ he => (skip (by decide) _).bind fun _ _ =>
      pure (.grouping he)
  case h_10 => exact refuse t _

theorem callExpr : Yields T (Expr.Over (.ofTokens T)) (callExpr inner) :=
  (primary hi).bind fun _ he => chain hi inner.bound he

theorem unary : Yields T (Expr.Over (.ofTokens T)) (unary inner) := by
  refine (accept? (by decide)).bind fun o h => ?_
  cases o with
  | none => exact callExpr hi
  | some op => exact hi.unary.bind fun _ he => pure (.unary ⟨op, (h op rfl).1, (h op rfl).2, rfl⟩ he)

theorem binaryFrom : ∀ ls : List Level, (∀ level ∈ ls, .eof ∉ level.ops ∧ Joins T level) →
    Yields T (Expr.Over (.ofTokens T)) (binaryFrom inner ls)
  | [], _ => unary hi
  | level :: tighter, hl => by
    obtain ⟨⟨heof, hj⟩, htighter⟩ := List.forall_mem_cons.mp hl
    have ho := binaryFrom tighter htighter
    exact ho.bind fun left hleft => operands heof hj ho inner.bound left hleft

theorem ternary : Yields T (Expr.Over (.ofTokens T)) (ternary inner) :=
  (binaryFrom hi levels fun level hm => ⟨eof_not_mem_ops level hm, joins_levels level hm⟩).bind
    fun _ hc => (accept (by decide)).bind fun _ _ => ite
      (hi.middle.bind fun _ hy => (skip (by decide) _).bind fun _ _ => hi.ternary.bind fun _ hn =>
        pure (.ternary hc hy hn))
      (pure hc)

/-- A wrong target is reported, and is what there is then. -/
theorem assignment : Yields T (Expr.Over (.ofTokens T)) (assignment inner) := by
  refine (ternary hi).bind fun target ht => (accept? (by decide)).bind fun o _ => ?_
  cases o with
  | none => exact pure ht
  | some equals =>
    refine hi.value.bind fun value hv => ?_
    split
    · cases ht with
      | «variable» hu => exact pure (.assign hu hv)
    · cases ht with
      | get ho hn => exact pure (.set ho hn hv)
    · exact (report equals _).bind fun _ _ => pure ht

/-! ### Statements -/

theorem exprStmt : Yields T (Stmt.Over (.ofTokens T)) (exprStmt inner) :=
  (assignment hi).bind fun _ he => (skip (by decide) _).bind fun _ _ => pure (.expr he)

theorem printStmt : Yields T (Stmt.Over (.ofTokens T)) (printStmt inner) :=
  (assignment hi).bind fun _ he => (skip (by decide) _).bind fun _ _ => pure (.print he)

/-- Nothing, or an expression, and what follows it. -/
theorem optional {α : Type} {P : α → Prop} {b : Bool} {q : Option Expr → Parse α}
    (hq : ∀ o, (∀ e ∈ o, e.Over (.ofTokens T)) → Yields T P (q o)) :
    Yields T P (if b then Pure.pure none >>= q else some <$> Parse.assignment inner >>= q) := by
  have absent : Yields T (fun o => ∀ e ∈ o, Expr.Over (.ofTokens T) e)
      (Pure.pure none : Parse (Option Expr)) := pure fun _ h => by cases h
  have present : Yields T (fun o => ∀ e ∈ o, Expr.Over (.ofTokens T) e)
      (some <$> Parse.assignment inner) :=
    (assignment hi).map fun _ he _ h => Option.some.inj h ▸ he
  exact ite (absent.bind hq) (present.bind hq)

/-- The keyword of a return statement was read last. -/
theorem returnStmt {c : Cursor} (hc : c.Among T) (hT : T c.previous)
    (hk : c.previous.kind ∈ [TokenKind.kwReturn]) :
    YieldsAt T (Stmt.Over (.ofTokens T)) (returnStmt inner) c := by
  have hkeyword : (ofTokens T).word .kwReturn c.previous.mark :=
    word_mark ⟨hT, List.mem_singleton.mp hk⟩
  have hprevious : YieldsAt T (fun t => t = c.previous) Parse.previous c :=
    ⟨hc, fun t ht => (Except.ok.inj ht).symm⟩
  refine bindAt hprevious fun t ht => ?_
  subst ht
  exact look.bind fun _ _ => optional hi fun _ hv => (skip (by decide) _).bind fun _ _ =>
    pure (.giveBack hkeyword hv)

theorem varDecl : Yields T (Stmt.Over (.ofTokens T)) (varDecl inner) := by
  have close {name : Token} (hn : T name ∧ name.kind = .identifier) (initial : Option Expr)
      (he : ∀ e ∈ initial, e.Over (.ofTokens T)) : Yields T (Stmt.Over (.ofTokens T)) (do
        Functor.discard (Parse.expect .semicolon "Expect ';' after variable declaration.")
        return Stmt.var name.mark initial) :=
    (skip (by decide) _).bind fun _ _ => pure (.var (word_mark hn) he)
  refine (expect (by decide) _).bind fun name hn => (accept (by decide)).bind fun b _ => ite ?_ ?_
  · have present : Yields T (fun o => ∀ e ∈ o, Expr.Over (.ofTokens T) e)
        (some <$> Parse.assignment inner) :=
      (assignment hi).map fun _ he _ h => Option.some.inj h ▸ he
    exact present.bind (close hn)
  · exact close hn none fun _ h => by cases h

theorem declarations : ∀ fuel,
    Yields T (fun body => ∀ s ∈ body, s.Over (.ofTokens T)) (declarations inner fuel)
  | 0 => pure fun _ h => nomatch h
  | fuel + 1 =>
    look.bind fun _ _ => look.bind fun _ _ => ite (pure fun _ h => nomatch h)
      (hi.declaration.bind fun _ ho => (declarations fuel).bind fun _ hrest =>
        pure (List.forall_mem_append.mpr ⟨fun s hs => ho s (Option.mem_toList.mp hs), hrest⟩))

theorem bracedBody :
    Yields T (fun body => ∀ s ∈ body, s.Over (.ofTokens T)) (bracedBody inner) :=
  (declarations hi inner.bound).bind fun _ hb => (skip (by decide) _).bind fun _ _ => pure hb

omit hi in
theorem parameters : ∀ fuel count,
    Yields T (fun params => ∀ m ∈ params, (ofTokens T).word .identifier m) (parameters fuel count)
  | 0, _ => pure fun _ h => nomatch h
  | fuel + 1, count => by
    have rest : Yields T (fun params => ∀ m ∈ params, (ofTokens T).word .identifier m) (do
        let param ← Parse.expect .identifier "Expect parameter name."
        if ← Parse.accept [.comma] then
          let params ← Parse.parameters fuel (count + 1)
          return param.mark :: params
        else return [param.mark]) :=
      (expect (by decide) _).bind fun _ hp => (accept (by decide)).bind fun _ _ =>
        ite ((parameters fuel (count + 1)).bind fun _ hps =>
            pure (List.forall_mem_cons.mpr ⟨word_mark hp, hps⟩))
          (pure (List.forall_mem_singleton.mpr (word_mark hp)))
    rw [Parse.parameters]
    split
    · exact here.bind fun t _ => (report t _).bind fun _ _ => rest
    · exact rest

omit hi in
theorem parameterList : Yields T (fun params => ∀ m ∈ params, (ofTokens T).word .identifier m)
    (parameterList inner) :=
  look.bind fun _ _ => ite (pure fun _ h => nomatch h) (parameters inner.bound 0)

theorem function (kind : String) :
    Yields T (FunDecl.Over (.ofTokens T)) (function inner kind) :=
  (expect (by decide) _).bind fun _ hn => (skip (by decide) _).bind fun _ _ =>
    parameterList.bind fun _ hp => (skip (by decide) _).bind fun _ _ =>
      (skip (by decide) _).bind fun _ _ => (bracedBody hi).bind fun _ hb =>
        pure ⟨⟨word_mark hn, hp⟩, hb⟩

theorem methods : ∀ fuel,
    Yields T (fun ms => ∀ m ∈ ms, m.Over (.ofTokens T)) (methods inner fuel)
  | 0 => pure fun _ h => nomatch h
  | fuel + 1 =>
    look.bind fun _ _ => look.bind fun _ _ => ite (pure fun _ h => nomatch h)
      ((function hi "method").bind fun _ hm => (methods fuel).bind fun _ hms =>
        pure (List.forall_mem_cons.mpr ⟨hm, hms⟩))

theorem classDecl : Yields T (Stmt.Over (.ofTokens T)) (classDecl inner) := by
  have close {name : Token} (hn : T name ∧ name.kind = .identifier) (superclass : Option NameUse)
      (hs : ∀ use ∈ superclass, (ofTokens T).Use .identifier use) :
      Yields T (Stmt.Over (.ofTokens T)) (do
        Functor.discard (Parse.expect .leftBrace "Expect '\x7b' before class body.")
        let methods ← Parse.methods inner inner.bound
        Functor.discard (Parse.expect .rightBrace "Expect '\x7d' after class body.")
        return Stmt.classDecl name.mark superclass methods) :=
    (skip (by decide) _).bind fun _ _ => (methods hi inner.bound).bind fun _ hms =>
      (skip (by decide) _).bind fun _ _ => pure (.classDecl (word_mark hn) hs
        (fun m hm => (hms m hm).toHeaded) fun m hm => (hms m hm).body)
  refine (expect (by decide) _).bind fun name hn => (accept (by decide)).bind fun b _ => ite ?_ ?_
  · exact (expect (by decide) _).bind fun super hs =>
      close hn (some (.free super.mark)) fun _ h => Option.some.inj h ▸ use_free hs
  · exact close hn none fun _ h => by cases h

theorem forInitializer :
    Yields T (fun o => ∀ s ∈ o, Stmt.Over (.ofTokens T) s) (forInitializer inner) :=
  (accept (by decide)).bind fun _ _ => ite (pure fun _ h => by cases h)
    ((accept (by decide)).bind fun _ _ =>
      ite ((varDecl hi).map fun _ hs _ h => Option.some.inj h ▸ hs)
        ((exprStmt hi).map fun _ hs _ h => Option.some.inj h ▸ hs))

omit hi in
/-- The loop that a for-statement stands for is put together from its parts and a constant. -/
theorem over_forLoop {initializer : Option Stmt} {cond increment : Option Expr} {body : Stmt}
    (hs : ∀ s ∈ initializer, s.Over (.ofTokens T)) (hc : ∀ e ∈ cond, e.Over (.ofTokens T))
    (hi : ∀ e ∈ increment, e.Over (.ofTokens T)) (hb : body.Over (.ofTokens T)) :
    (forLoop initializer cond increment body).Over (.ofTokens T) := by
  have htest : (cond.getD (.literal (.bool true))).Over (.ofTokens T) := by
    cases cond with
    | none => exact .literal (.inr (.inl ⟨true, rfl⟩))
    | some e => exact hc e rfl
  have hloop : (forLoop none cond increment body).Over (.ofTokens T) := by
    refine .loop htest ?_
    cases increment with
    | none => exact hb
    | some e =>
      exact .block (List.forall_mem_cons.mpr ⟨hb, List.forall_mem_singleton.mpr (.expr (hi e rfl))⟩)
  cases initializer with
  | none => exact hloop
  | some s =>
    exact .block (List.forall_mem_cons.mpr ⟨hs s rfl, List.forall_mem_singleton.mpr hloop⟩)

theorem forStmt : Yields T (Stmt.Over (.ofTokens T)) (forStmt inner) :=
  (skip (by decide) _).bind fun _ _ => (forInitializer hi).bind fun _ hs =>
    look.bind fun _ _ => optional hi fun _ hc => (skip (by decide) _).bind fun _ _ =>
      look.bind fun _ _ => optional hi fun _ he => (skip (by decide) _).bind fun _ _ =>
        hi.statement.bind fun _ hb => pure (over_forLoop hs hc he hb)

theorem ifStmt : Yields T (Stmt.Over (.ofTokens T)) (ifStmt inner) := by
  refine (skip (by decide) _).bind fun _ _ => (assignment hi).bind fun cond hc =>
    (skip (by decide) _).bind fun _ _ => hi.statement.bind fun yes hy =>
      (accept (by decide)).bind fun b _ => ite ?_ ?_
  · have present : Yields T (fun o => ∀ s ∈ o, Stmt.Over (.ofTokens T) s)
        (some <$> inner.statement) :=
      hi.statement.map fun _ hs _ h => Option.some.inj h ▸ hs
    exact present.bind fun no hn => pure (.branch hc hy hn)
  · exact pure (.branch hc hy fun _ h => by cases h)

theorem whileStmt : Yields T (Stmt.Over (.ofTokens T)) (whileStmt inner) :=
  (skip (by decide) _).bind fun _ _ => (assignment hi).bind fun _ hc =>
    (skip (by decide) _).bind fun _ _ => hi.statement.bind fun _ hb => pure (.loop hc hb)

theorem statement : Yields T (Stmt.Over (.ofTokens T)) (statement inner) :=
  (accept (by decide)).bind fun _ _ => ite (forStmt hi) <|
  (accept (by decide)).bind fun _ _ => ite (ifStmt hi) <|
  (accept (by decide)).bind fun _ _ => ite (printStmt hi) <|
  behind (by decide) (fun _ => returnStmt hi) <|
  (accept (by decide)).bind fun _ _ => ite (whileStmt hi) <|
  (accept (by decide)).bind fun _ _ =>
    ite ((bracedBody hi).bind fun _ hb => pure (.block hb)) (exprStmt hi)

theorem declaration :
    Yields T (fun o => ∀ s ∈ o, Stmt.Over (.ofTokens T) s) (declaration inner) :=
  recovering <| (accept (by decide)).bind fun _ _ => ite (classDecl hi) <|
    (accept (by decide)).bind fun _ _ =>
      ite ((function hi "function").bind fun _ hd => pure (.function hd.toHeaded hd.body)) <|
    (accept (by decide)).bind fun _ _ => ite (varDecl hi) (statement hi)

/-! ### Programs -/

/-- A declaration that is nested too deeply gives nothing, and reading goes on behind it. -/
theorem program : ∀ fuel,
    Yields T (fun body => ∀ s ∈ body, s.Over (.ofTokens T)) (program inner fuel)
  | 0 => pure fun _ h => nomatch h
  | fuel + 1 => by
    refine look.bind fun _ _ => ite (pure fun _ h => nomatch h)
      ((declaration hi).attempt.bind fun r hr => ?_)
    cases r with
    | ok o =>
      exact (program fuel).bind fun _ hrest => pure (List.forall_mem_append.mpr
        ⟨fun s hs => hr o rfl s (Option.mem_toList.mp hs), hrest⟩)
    | error e =>
      exact here.bind fun t _ => (report t _).bind fun _ _ =>
        (change fun _ hc => hc.synchronized).bind fun _ _ => program fuel

omit hi in
theorem rewindAt {c : Cursor} (hc : c.Among T) (hdone : c.done = []) :
    YieldsAt T (fun _ => True) (Procedure.change Cursor.rewind) c := by
  have hrewind : c.rewind = c := by
    rw [Cursor.rewind, hdone]
    rfl
  refine ⟨?_, fun _ _ => trivial⟩
  show c.rewind.Among T
  rwa [hrewind]

theorem wholeProgram {c : Cursor} (hc : c.Among T) (hdone : c.done = []) :
    YieldsAt T (fun body => ∀ s ∈ body, s.Over (.ofTokens T)) (wholeProgram inner) c :=
  bindAt (rewindAt hc hdone) fun _ _ => program hi inner.bound

theorem wholeExpression {c : Cursor} (hc : c.Among T) (hdone : c.done = []) :
    YieldsAt T (fun o => ∀ e ∈ o, Expr.Over (.ofTokens T) e) (wholeExpression inner) c := by
  refine bindAt (rewindAt hc hdone) fun _ _ => look.bind fun before _ =>
    (assignment hi).attempt.bind fun r hr => ?_
  have absent : Yields T (fun o => ∀ e ∈ o, Expr.Over (.ofTokens T) e)
      (Pure.pure none : Parse (Option Expr)) := pure fun _ h => by cases h
  cases r with
  | error e => exact absent
  | ok e =>
    refine look.bind fun after _ => look.bind fun b _ => ?_
    split
    · exact pure fun _ h => Option.some.inj h ▸ hr e rfl
    · exact absent

end

end Parse.Yields

/-- With any number of steps left the productions yield trees over the vocabulary of the tokens. -/
theorem Inner.yields_within (bound : Nat) : ∀ steps spent,
    (Inner.within bound steps spent).Yields T
  | 0, _ => by
    unfold within
    exact ⟨.halt, .halt, .halt, .halt, .halt, .halt, .halt⟩
  | steps + 1, spent + 1 => by
    unfold within
    exact yields_within bound steps spent
  | steps + 1, 0 => by
    unfold within
    have h (spent : Nat) := yields_within bound steps spent
    exact ⟨.assignment (h _), .assignment (h _), .assignment (h _), .ternary (h _), .unary (h _),
      .statement (h _), .declaration (h _)⟩

/-! ### Whole lists of tokens -/

theorem Cursor.among_ofTokens (tokens : List Token) :
    (Cursor.ofTokens tokens).Among (· ∈ closed tokens) where
  closed := by
    unfold Closed
    rw [ahead_ofTokens]
    unfold Lox.closed
    cases h : tokens.getLast? with
    | none => exact ⟨[], _, rfl, rfl⟩
    | some t =>
      by_cases hk : t.kind = .eof
      · obtain ⟨ts, rfl⟩ := List.getLast?_eq_some_iff.mp h
        exact ⟨ts, t, if_pos hk, hk⟩
      · exact ⟨tokens, .eof t.stop, if_neg hk, rfl⟩
  ahead := by
    rw [ahead_ofTokens]
    exact fun _ ht => ht

/-- Every statement that the parser returns is one over the vocabulary of the tokens, whatever was
reported of them. -/
theorem over_of_parse (limits : Limits) (tokens : List Token) :
    ∀ s ∈ (parse limits tokens).stmts, s.Over (.ofTokens (· ∈ closed tokens)) := by
  have hyields := Parse.Yields.wholeProgram (Inner.yields_within (Cursor.ofTokens tokens).bound
    limits.steps 0) (Cursor.among_ofTokens tokens) (Cursor.done_ofTokens tokens)
  unfold parse
  dsimp only
  rcases hrun : Parse.wholeProgram (Inner.within (Cursor.ofTokens tokens).bound limits.steps 0)
    (Cursor.ofTokens tokens) with ⟨_ | stmts, c⟩
  · exact fun _ hs => nomatch hs
  · rw [Parse.YieldsAt, hrun] at hyields
    exact hyields.2 stmts rfl

theorem over_of_parseExpression? (limits : Limits) (tokens : List Token) :
    ∀ e ∈ parseExpression? limits tokens, e.Over (.ofTokens (· ∈ closed tokens)) := by
  have hyields := Parse.Yields.wholeExpression (Inner.yields_within (Cursor.ofTokens tokens).bound
    limits.steps 0) (Cursor.among_ofTokens tokens) (Cursor.done_ofTokens tokens)
  unfold parseExpression?
  dsimp only
  rcases hrun : (Parse.wholeExpression (Inner.within (Cursor.ofTokens tokens).bound limits.steps 0)
    (Cursor.ofTokens tokens)).1 with _ | o
  · exact fun _ he => nomatch he
  · exact hyields.2 o hrun

end Lox
