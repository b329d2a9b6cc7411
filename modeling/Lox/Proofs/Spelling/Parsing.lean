/-
# Parsing what is spelled otherwise

A parser asks for the kinds of tokens only. Of tokens that are spelled
otherwise it makes the trees that are spelled so, and it reports the same
messages where the tokens then stand: each production commutes with a
respelling (`Lox.Parse.Respells`), also where it refuses a token and goes on
behind it.

Key definitions: `Lox.Cursor.respell`, `Lox.Parse.Respells`, `Lox.Inner.Respells`.
Key theorems: `Lox.Inner.respells_within`, `Lox.parse_respell`, `Lox.parseExpression?_respell`.
-/
import Lox.Grammar.Program
import Lox.Proofs.Spelling.Respelling

namespace Lox

open Procedure

variable (r : Respelling)

def Diagnostic.respell (d : Diagnostic) : Diagnostic := { d with offset := r.place d.offset }

def ParseError.respell (e : ParseError) : ParseError := { e with offset := e.offset.map r.place }

def Halt.respell : Halt → Halt
  | .refused e => .refused (e.respell r)
  | .tooDeep => .tooDeep

namespace Cursor

/-- The cursor among tokens that are spelled otherwise. -/
def respell (c : Cursor) : Cursor where
  done := c.done.map (Token.respell r)
  here := c.here.respell r
  later := c.later.map (Token.respell r)
  diagnostics := c.diagnostics.map (Diagnostic.respell r)

variable (c : Cursor)

@[simp] theorem respell_here : (c.respell r).here = c.here.respell r := rfl

@[simp] theorem respell_previous : (c.respell r).previous = c.previous.respell r := by
  unfold previous respell
  cases c.done with
  | nil => cases hl : c.later.getLast? <;> simp [hl]
  | cons t ts => rfl

@[simp] theorem respell_atEnd : (c.respell r).atEnd = c.atEnd := rfl

@[simp] theorem respell_bound : (c.respell r).bound = c.bound := by
  simp [bound, respell]

theorem advance_respell : (c.respell r).advance = c.advance.respell r := by
  unfold advance
  rw [respell_atEnd]
  split
  · rfl
  · obtain ⟨done, here, later, ds⟩ := c
    cases later <;> rfl

theorem rewind_respell : (c.respell r).rewind = c.rewind.respell r := by
  unfold rewind
  have hdone : (c.respell r).done.reverse = c.done.reverse.map (Token.respell r) := by
    simp [respell]
  rw [hdone]
  cases c.done.reverse with
  | nil => rfl
  | cons t ts => simp [respell]

theorem report_respell (t : Token) (message : String) :
    (c.respell r).report (t.respell r).offset message = (c.report t.offset message).respell r := by
  simp [report, respell, Diagnostic.respell, Token.respell]

theorem skip_respell : ∀ (fuel : Nat) (c : Cursor), skip fuel (c.respell r) = (skip fuel c).respell r
  | 0, _ => rfl
  | fuel + 1, c => by
    unfold skip
    rw [respell_atEnd, respell_previous, respell_here, Token.respell_kind, Token.respell_kind,
      advance_respell, skip_respell fuel]
    split <;> rfl

theorem synchronized_respell : (c.respell r).synchronized = c.synchronized.respell r := by
  unfold synchronized
  rw [advance_respell, skip_respell]
  simp [respell]

end Cursor

namespace Parse

/-- What a production ends with, spelled otherwise. -/
def outcome {α β : Type} (g : α → β) : Except Halt α → Except Halt β
  | .ok a => .ok (g a)
  | .error halt => .error (halt.respell r)

/-- Among tokens that are spelled otherwise the second production does what the first one does. -/
def Respells {α β : Type} (g : α → β) (p : Parse α) (p' : Parse β) : Prop :=
  ∀ c : Cursor, p' (c.respell r) = (outcome r g (p c).1, (p c).2.respell r)

namespace Respells

variable {r} {α β γ δ : Type} {g : α → β} {h : γ → δ}

theorem pure {a : α} {b : β} (hb : b = g a) : Respells r g (Pure.pure a) (Pure.pure b) := by
  intro c
  rw [hb]
  rfl

theorem bind {p : Parse α} {p' : Parse β} {q : α → Parse γ} {q' : β → Parse δ}
    (hp : Respells r g p p') (hq : ∀ a, Respells r h (q a) (q' (g a))) :
    Respells r h (p >>= q) (p' >>= q') := by
  intro c
  have hc := hp c
  cases hrun : p c with
  | mk o c' =>
    rw [hrun] at hc
    cases o with
    | ok a => rw [bind_ok hrun, bind_ok hc, hq a c']
    | error halt =>
      rw [bind_error hrun, bind_error hc]
      rfl

theorem read {f : Cursor → α} {f' : Cursor → β} (hf : ∀ c, f' (c.respell r) = g (f c)) :
    Respells r g (Procedure.read f) (Procedure.read f') := by
  intro c
  show (Except.ok (f' (c.respell r)), _) = _
  rw [hf]
  rfl

theorem change {m m' : Cursor → Cursor} (hm : ∀ c, m' (c.respell r) = (m c).respell r) :
    Respells r id (Procedure.change m) (Procedure.change m') := by
  intro c
  show (Except.ok (), m' (c.respell r)) = _
  rw [hm]
  rfl

theorem tooDeep : Respells r g (Procedure.halt Halt.tooDeep) (Procedure.halt Halt.tooDeep) :=
  fun _ => rfl

theorem ite {b : Bool} {p q : Parse α} {p' q' : Parse β} (hp : Respells r g p p')
    (hq : Respells r g q q') :
    Respells r g (if b then p else q) (if b then p' else q') := by
  split
  · exact hp
  · exact hq

theorem discard {p : Parse α} {p' : Parse β} (hp : Respells r g p p') :
    Respells r id (discard p) (discard p') :=
  have hbind : Respells r id (p >>= fun _ => Pure.pure ()) (p' >>= fun _ => Pure.pure ()) :=
    hp.bind fun _ => pure rfl
  hbind

theorem map {k : γ → δ} {f : α → γ} {f' : β → δ} {p : Parse α} {p' : Parse β}
    (hp : Respells r g p p') (hf : ∀ a, f' (g a) = k (f a)) : Respells r k (f <$> p) (f' <$> p') :=
  have hbind : Respells r k (p >>= fun a => Pure.pure (f a)) (p' >>= fun b => Pure.pure (f' b)) :=
    hp.bind fun a => pure (hf a)
  hbind

theorem present {p : Parse α} {p' : Parse β} (hp : Respells r g p p') :
    Respells r (Option.map g) (some <$> p) (some <$> p') :=
  hp.map fun _ => rfl

theorem absent : Respells r (Option.map g) (Pure.pure none) (Pure.pure none) := pure rfl

theorem attempt {p : Parse α} {p' : Parse β} (hp : Respells r g p p') :
    Respells r (outcome r g) (attempt p) (attempt p') := by
  intro c
  unfold Procedure.attempt
  rw [hp c]
  rfl

theorem recovering {p : Parse α} {p' : Parse β} (hp : Respells r g p p') :
    Respells r (Option.map g) (recovering p) (recovering p') := by
  intro c
  unfold Parse.recovering
  rw [hp c]
  cases p c with
  | mk o c' =>
    obtain (_ | _) | a := o
    · simp [outcome, Halt.respell, Cursor.synchronized_respell]
    · rfl
    · rfl

/-! ### Tokens -/

theorem here : Respells r (Token.respell r) here here := read fun _ => rfl

theorem previous : Respells r (Token.respell r) previous previous :=
  read fun c => c.respell_previous r

theorem atEnd : Respells r id atEnd atEnd := read fun _ => rfl

theorem check (kinds : List TokenKind) : Respells r id (check kinds) (check kinds) :=
  read fun _ => rfl

theorem report (t : Token) (message : String) :
    Respells r id (report t message) (report (t.respell r) message) :=
  change fun c => c.report_respell r t message

theorem refuse (t : Token) (message : String) :
    Respells r g (refuse t message) (refuse (t.respell r) message) :=
  (report t message).bind fun _ _ => rfl

theorem next : Respells r (Token.respell r) next next :=
  (change fun c => c.advance_respell r).bind fun _ => previous

theorem accept? (kinds : List TokenKind) :
    Respells r (Option.map (Token.respell r)) (accept? kinds) (accept? kinds) :=
  (check kinds).bind fun _ => ite (next.bind fun _ => pure rfl) (pure rfl)

theorem accept (kinds : List TokenKind) : Respells r id (accept kinds) (accept kinds) :=
  (accept? kinds).bind fun o => pure (by cases o <;> rfl)

theorem expect (kind : TokenKind) (message : String) :
    Respells r (Token.respell r) (expect kind message) (expect kind message) :=
  (check [kind]).bind fun _ => ite next (here.bind fun t => refuse t message)

theorem skip (kind : TokenKind) (message : String) :
    Respells r id (Functor.discard (Parse.expect kind message))
      (Functor.discard (Parse.expect kind message)) :=
  (expect kind message).discard

end Respells

end Parse

/-- The productions further in do among tokens that are spelled otherwise what they do. -/
structure Inner.Respells (inner : Inner) : Prop where
  expr : Parse.Respells r (Expr.respell r) inner.expr inner.expr
  middle : Parse.Respells r (Expr.respell r) inner.middle inner.middle
  value : Parse.Respells r (Expr.respell r) inner.value inner.value
  ternary : Parse.Respells r (Expr.respell r) inner.ternary inner.ternary
  unary : Parse.Respells r (Expr.respell r) inner.unary inner.unary
  statement : Parse.Respells r (Stmt.respell r) inner.statement inner.statement
  declaration : Parse.Respells r (Option.map (Stmt.respell r)) inner.declaration inner.declaration

namespace Parse.Respells

variable {r} {inner : Inner} (hi : inner.Respells r)

/-! ### Expressions -/

/-- The nodes of binary operators are spelled otherwise with their operands. -/
def Nodes (r : Respelling) (ls : List Level) : Prop :=
  ∀ level ∈ ls, ∀ left op right, (level.node left op right).respell r =
    level.node (left.respell r) (op.respell r) (right.respell r)

theorem nodes_levels : Nodes r levels := by
  simp only [Nodes, levels, List.forall_mem_cons]
  refine ⟨?_, ?_, ?_, ?_, ?_, ?_, by simp⟩ <;> exact fun _ _ _ => rfl

theorem operands {operand : Parse Expr} {level : Level} (ho : Respells r (Expr.respell r) operand operand)
    (hl : ∀ left op right, (level.node left op right).respell r =
      level.node (left.respell r) (op.respell r) (right.respell r)) : ∀ fuel left,
    Respells r (Expr.respell r) (operands operand level fuel left)
      (Parse.operands operand level fuel (left.respell r))
  | 0, _ => pure rfl
  | fuel + 1, left => by
    refine (accept? level.ops).bind fun o => ?_
    cases o with
    | none => exact pure rfl
    | some op =>
      refine ho.bind fun right => ?_
      have hnode := hl left op.mark right
      have h := operands ho hl fuel (level.node left op.mark right)
      rwa [hnode, ← Token.respell_mark] at h

include hi

theorem arguments : ∀ fuel count,
    Respells r (argsRespell r) (arguments inner fuel count) (Parse.arguments inner fuel count)
  | 0, _ => pure rfl
  | fuel + 1, count => by
    have rest : Respells r (argsRespell r) (do
        let arg ← inner.expr
        if ← Parse.accept [.comma] then return arg :: (← Parse.arguments inner fuel (count + 1))
        else return [arg]) (do
        let arg ← inner.expr
        if ← Parse.accept [.comma] then return arg :: (← Parse.arguments inner fuel (count + 1))
        else return [arg]) :=
      hi.expr.bind fun arg => (accept _).bind fun b =>
        ite ((arguments fuel (count + 1)).bind fun args => pure rfl) (pure rfl)
    rw [Parse.arguments]
    split
    · exact here.bind fun t => (report t _).bind fun _ => rest
    · exact rest

theorem callOf (callee : Expr) :
    Respells r (Expr.respell r) (callOf inner callee) (Parse.callOf inner (callee.respell r)) := by
  have close (args : List Expr) : Respells r (Expr.respell r) (do
      let paren ← Parse.expect .rightParen "Expect ')' after arguments."
      return Expr.call callee paren.mark args) (do
      let paren ← Parse.expect .rightParen "Expect ')' after arguments."
      return Expr.call (callee.respell r) paren.mark (argsRespell r args)) :=
    (expect _ _).bind fun _ => pure (by simp [Expr.respell])
  refine (check _).bind fun b => ?_
  cases b with
  | true => exact (pure (g := argsRespell r) rfl).bind close
  | false => exact (arguments hi inner.bound 0).bind close

theorem chain : ∀ fuel e,
    Respells r (Expr.respell r) (chain inner fuel e) (Parse.chain inner fuel (e.respell r))
  | 0, _ => pure rfl
  | fuel + 1, e => by
    have hget (name : Token) : Respells r (Expr.respell r)
        (Parse.chain inner fuel (.get e name.mark))
        (Parse.chain inner fuel (.get (e.respell r) (name.respell r).mark)) := by
      rw [Token.respell_mark]
      exact chain fuel (.get e name.mark)
    exact (accept _).bind fun _ => ite ((callOf hi e).bind fun e' => chain fuel e')
      ((accept _).bind fun _ => ite ((expect _ _).bind hget) (pure rfl))

theorem primary : Respells r (Expr.respell r) (primary inner) (Parse.primary inner) := by
  refine here.bind fun t => ?_
  rw [Token.respell_kind]
  split
  case h_7 =>
    exact next.discard.bind fun _ => (skip _ _).bind fun _ => (expect _ _).bind fun _ =>
      pure (by simp [Expr.respell])
  case h_9 => exact next.discard.bind fun _ => hi.expr.bind fun _ => (skip _ _).bind fun _ => pure rfl
  case h_10 => exact refuse t _
  all_goals exact next.discard.bind fun _ => pure (by simp [Expr.respell])

theorem callExpr : Respells r (Expr.respell r) (callExpr inner) (Parse.callExpr inner) :=
  (primary hi).bind (chain hi inner.bound)

theorem unary : Respells r (Expr.respell r) (unary inner) (Parse.unary inner) := by
  refine (accept? _).bind fun o => ?_
  cases o with
  | none => exact callExpr hi
  | some op => exact hi.unary.bind fun _ => pure (by simp [Expr.respell])

theorem binaryFrom : ∀ ls : List Level, Nodes r ls →
    Respells r (Expr.respell r) (binaryFrom inner ls) (Parse.binaryFrom inner ls)
  | [], _ => unary hi
  | level :: tighter, hl =>
    have ho := binaryFrom tighter fun l hm => hl l (List.mem_cons_of_mem _ hm)
    ho.bind (operands ho (hl level List.mem_cons_self) inner.bound)

theorem ternary : Respells r (Expr.respell r) (ternary inner) (Parse.ternary inner) :=
  (binaryFrom hi levels nodes_levels).bind fun _ => (accept _).bind fun _ => ite
    (hi.middle.bind fun _ => (skip _ _).bind fun _ => hi.ternary.bind fun _ => pure rfl)
    (pure rfl)

theorem assignment : Respells r (Expr.respell r) (assignment inner) (Parse.assignment inner) := by
  refine (ternary hi).bind fun target => (accept? _).bind fun o => ?_
  cases o with
  | none => exact pure rfl
  | some equals =>
    refine hi.value.bind fun value => ?_
    cases target with
    | «variable» | get => exact pure rfl
    | _ => exact (report equals _).bind fun _ => pure rfl

/-! ### Statements -/

theorem exprStmt : Respells r (Stmt.respell r) (exprStmt inner) (Parse.exprStmt inner) :=
  (assignment hi).bind fun _ => (skip _ _).bind fun _ => pure rfl

theorem printStmt : Respells r (Stmt.respell r) (printStmt inner) (Parse.printStmt inner) :=
  (assignment hi).bind fun _ => (skip _ _).bind fun _ => pure rfl

/-- Nothing, or an expression, and what follows it. -/
theorem optional {α β : Type} {g : α → β} {b : Bool} {q : Option Expr → Parse α}
    {q' : Option Expr → Parse β} (hq : ∀ o, Respells r g (q o) (q' (o.map (Expr.respell r)))) :
    Respells r g
      (if b then Pure.pure none >>= q else some <$> Parse.assignment inner >>= q)
      (if b then Pure.pure none >>= q' else some <$> Parse.assignment inner >>= q') :=
  ite (absent.bind hq) ((assignment hi).present.bind hq)

theorem returnStmt : Respells r (Stmt.respell r) (returnStmt inner) (Parse.returnStmt inner) :=
  previous.bind fun _ => (check _).bind fun _ => optional hi fun _ =>
    (skip _ _).bind fun _ => pure (by simp [Stmt.respell])

theorem varDecl : Respells r (Stmt.respell r) (varDecl inner) (Parse.varDecl inner) :=
  have close (name : Token) (initial : Option Expr) : Respells r (Stmt.respell r) (do
      Functor.discard (Parse.expect .semicolon "Expect ';' after variable declaration.")
      return Stmt.var name.mark initial) (do
      Functor.discard (Parse.expect .semicolon "Expect ';' after variable declaration.")
      return Stmt.var (name.respell r).mark (initial.map (Expr.respell r))) :=
    (skip _ _).bind fun _ => pure (by simp [Stmt.respell])
  (expect _ _).bind fun name => (accept _).bind fun _ =>
    ite ((assignment hi).present.bind (close name)) (absent.bind (close name))

theorem declarations : ∀ fuel,
    Respells r (bodyRespell r) (declarations inner fuel) (Parse.declarations inner fuel)
  | 0 => pure rfl
  | fuel + 1 =>
    (check _).bind fun _ => atEnd.bind fun _ => ite (pure rfl)
      (hi.declaration.bind fun o => (declarations fuel).bind fun _ => pure (by cases o <;> rfl))

theorem bracedBody : Respells r (bodyRespell r) (bracedBody inner) (Parse.bracedBody inner) :=
  (declarations hi inner.bound).bind fun _ => (skip _ _).bind fun _ => pure rfl

omit hi in
theorem parameters : ∀ fuel count,
    Respells r (List.map (Mark.respell r)) (parameters fuel count) (Parse.parameters fuel count)
  | 0, _ => pure rfl
  | fuel + 1, count => by
    have rest : Respells r (List.map (Mark.respell r)) (do
        let param ← Parse.expect .identifier "Expect parameter name."
        if ← Parse.accept [.comma] then
          let params ← Parse.parameters fuel (count + 1)
          return param.mark :: params
        else return [param.mark]) (do
        let param ← Parse.expect .identifier "Expect parameter name."
        if ← Parse.accept [.comma] then
          let params ← Parse.parameters fuel (count + 1)
          return param.mark :: params
        else return [param.mark]) :=
      (expect _ _).bind fun _ => (accept _).bind fun _ =>
        ite ((parameters fuel (count + 1)).bind fun _ => pure (by simp)) (pure (by simp))
    rw [Parse.parameters]
    split
    · exact here.bind fun t => (report t _).bind fun _ => rest
    · exact rest

omit hi in
theorem parameterList :
    Respells r (List.map (Mark.respell r)) (parameterList inner) (Parse.parameterList inner) :=
  (check _).bind fun _ => ite (pure rfl) (parameters inner.bound 0)

theorem function (kind : String) :
    Respells r (functionRespell r) (function inner kind) (Parse.function inner kind) :=
  (expect _ _).bind fun _ => (skip _ _).bind fun _ => parameterList.bind fun _ =>
    (skip _ _).bind fun _ => (skip _ _).bind fun _ => (bracedBody hi).bind fun _ =>
      pure (by simp [functionRespell])

theorem methods : ∀ fuel,
    Respells r (methodsRespell r) (methods inner fuel) (Parse.methods inner fuel)
  | 0 => pure rfl
  | fuel + 1 =>
    (check _).bind fun _ => atEnd.bind fun _ => ite (pure rfl)
      ((function hi "method").bind fun _ => (methods fuel).bind fun _ => pure rfl)

theorem classDecl : Respells r (Stmt.respell r) (classDecl inner) (Parse.classDecl inner) := by
  have close (name : Token) (superclass : Option NameUse) : Respells r (Stmt.respell r) (do
      Functor.discard (Parse.expect .leftBrace "Expect '\x7b' before class body.")
      let methods ← Parse.methods inner inner.bound
      Functor.discard (Parse.expect .rightBrace "Expect '\x7d' after class body.")
      return Stmt.classDecl name.mark superclass methods) (do
      Functor.discard (Parse.expect .leftBrace "Expect '\x7b' before class body.")
      let methods ← Parse.methods inner inner.bound
      Functor.discard (Parse.expect .rightBrace "Expect '\x7d' after class body.")
      return Stmt.classDecl (name.respell r).mark (superclass.map (NameUse.respell r)) methods) :=
    (skip _ _).bind fun _ => (methods hi inner.bound).bind fun _ => (skip _ _).bind fun _ =>
      pure (by simp [Stmt.respell])
  exact (expect _ _).bind fun name => (accept _).bind fun _ =>
    ite ((expect _ _).bind fun _ =>
        (pure (g := Option.map (NameUse.respell r)) (by simp)).bind (close name))
      (absent.bind (close name))

theorem forInitializer :
    Respells r (Option.map (Stmt.respell r)) (forInitializer inner) (Parse.forInitializer inner) :=
  (accept _).bind fun _ => ite absent ((accept _).bind fun _ =>
    ite (varDecl hi).present (exprStmt hi).present)

omit hi in
theorem respell_forLoop (initializer : Option Stmt) (cond increment : Option Expr) (body : Stmt) :
    Lox.forLoop (initializer.map (Stmt.respell r)) (cond.map (Expr.respell r))
        (increment.map (Expr.respell r)) (body.respell r) =
      (Lox.forLoop initializer cond increment body).respell r := by
  cases initializer <;> cases cond <;> cases increment <;> rfl

theorem forStmt : Respells r (Stmt.respell r) (forStmt inner) (Parse.forStmt inner) :=
  (skip _ _).bind fun _ => (forInitializer hi).bind fun _ => (check _).bind fun _ =>
    optional hi fun _ => (skip _ _).bind fun _ => (check _).bind fun _ =>
      optional hi fun _ => (skip _ _).bind fun _ => hi.statement.bind fun _ =>
        pure (respell_forLoop ..)

theorem ifStmt : Respells r (Stmt.respell r) (ifStmt inner) (Parse.ifStmt inner) := by
  have close (cond : Expr) (yes : Stmt) (no : Option Stmt) : Respells r (Stmt.respell r)
      (Pure.pure (Stmt.branch cond yes no))
      (Pure.pure (Stmt.branch (cond.respell r) (yes.respell r) (no.map (Stmt.respell r)))) :=
    pure (by cases no <;> rfl)
  exact (skip _ _).bind fun _ => (assignment hi).bind fun cond => (skip _ _).bind fun _ =>
    hi.statement.bind fun yes => (accept _).bind fun _ =>
      ite (hi.statement.present.bind (close cond yes)) (absent.bind (close cond yes))

theorem whileStmt : Respells r (Stmt.respell r) (whileStmt inner) (Parse.whileStmt inner) :=
  (skip _ _).bind fun _ => (assignment hi).bind fun _ => (skip _ _).bind fun _ =>
    hi.statement.bind fun _ => pure rfl

theorem statement : Respells r (Stmt.respell r) (statement inner) (Parse.statement inner) :=
  (accept _).bind fun _ => ite (forStmt hi) <| (accept _).bind fun _ => ite (ifStmt hi) <|
  (accept _).bind fun _ => ite (printStmt hi) <| (accept _).bind fun _ => ite (returnStmt hi) <|
  (accept _).bind fun _ => ite (whileStmt hi) <| (accept _).bind fun _ =>
    ite ((bracedBody hi).bind fun _ => pure rfl) (exprStmt hi)

theorem declaration :
    Respells r (Option.map (Stmt.respell r)) (declaration inner) (Parse.declaration inner) :=
  recovering <| (accept _).bind fun _ => ite (classDecl hi) <| (accept _).bind fun _ =>
    ite ((function hi "function").bind fun _ => pure rfl) <| (accept _).bind fun _ =>
    ite (varDecl hi) (statement hi)

/-! ### Programs -/

theorem program : ∀ fuel,
    Respells r (bodyRespell r) (program inner fuel) (Parse.program inner fuel)
  | 0 => pure rfl
  | fuel + 1 => by
    refine atEnd.bind fun _ => ite (pure rfl) ((attempt (declaration hi)).bind fun o => ?_)
    cases o with
    | ok stmt => exact (program fuel).bind fun _ => pure (by cases stmt <;> simp [bodyRespell])
    | error halt =>
      exact here.bind fun t => (report t _).bind fun _ =>
        (change fun c => c.synchronized_respell r).bind fun _ => program fuel

theorem wholeProgram :
    Respells r (bodyRespell r) (wholeProgram inner) (Parse.wholeProgram inner) :=
  (change fun c => c.rewind_respell r).bind fun _ => program hi inner.bound

theorem wholeExpression : Respells r (Option.map (Expr.respell r)) (wholeExpression inner)
    (Parse.wholeExpression inner) := by
  have reports : Respells r id Parse.reports Parse.reports := read fun c => by simp [Cursor.respell]
  refine (change fun c => c.rewind_respell r).bind fun _ => reports.bind fun before =>
    (attempt (assignment hi)).bind fun o => ?_
  cases o with
  | ok e =>
    refine reports.bind fun after => atEnd.bind fun b => pure ?_
    dsimp only [id]
    split <;> rfl
  | error halt => exact pure rfl

end Parse.Respells

/-- With any number of steps left the productions do among tokens that are spelled otherwise what they
do. -/
theorem Inner.respells_within (r : Respelling) (bound : Nat) : ∀ steps spent,
    (Inner.within bound steps spent).Respells r
  | 0, _ => by
    unfold within
    exact ⟨.tooDeep, .tooDeep, .tooDeep, .tooDeep, .tooDeep, .tooDeep, .tooDeep⟩
  | steps + 1, spent + 1 => by
    unfold within
    exact respells_within r bound steps spent
  | steps + 1, 0 => by
    unfold within
    have h (spent : Nat) := respells_within r bound steps spent
    exact ⟨.assignment (h _), .assignment (h _), .assignment (h _), .ternary (h _), .unary (h _),
      .statement (h _), .declaration (h _)⟩

variable {r} {ts : List Token} {e : Token}

theorem Cursor.ofTokens_respell (he : e.kind = .eof) :
    Cursor.ofTokens ((ts ++ [e]).map (Token.respell r)) = (Cursor.ofTokens (ts ++ [e])).respell r := by
  have hclosed : ∀ {us : List Token} {t : Token}, t.kind = .eof → closed (us ++ [t]) = us ++ [t] := by
    intro us t ht
    simp [closed, ht]
  have hmap : (ts ++ [e]).map (Token.respell r) = ts.map (Token.respell r) ++ [e.respell r] := by simp
  unfold ofTokens
  rw [hmap, hclosed he, hclosed (t := e.respell r) he]
  cases ts <;> simp [Cursor.respell]

/-- The program of tokens that are spelled otherwise. -/
def Parsed.respell (r : Respelling) (p : Parsed) : Parsed :=
  ⟨bodyRespell r p.stmts, p.diagnostics.map (Diagnostic.respell r)⟩

/-- Of tokens that are spelled otherwise the parser makes the trees that are spelled so, and it reports
the same messages where the tokens then stand. -/
theorem parse_respell (limits : Limits) (he : e.kind = .eof) :
    parse limits ((ts ++ [e]).map (Token.respell r)) = (parse limits (ts ++ [e])).respell r := by
  unfold parse
  rw [Cursor.ofTokens_respell he]
  dsimp only
  generalize Cursor.ofTokens (ts ++ [e]) = c
  rw [Cursor.respell_bound,
    Parse.Respells.wholeProgram (Inner.respells_within r c.bound limits.steps 0) c]
  rcases Parse.wholeProgram (Inner.within c.bound limits.steps 0) c with ⟨_ | _, c'⟩
  · simp [Parse.outcome, Parsed.respell, Cursor.respell, bodyRespell]
  · simp [Parse.outcome, Parsed.respell, Cursor.respell]

/-- One expression, spelled otherwise. -/
theorem parseExpression?_respell (limits : Limits) (he : e.kind = .eof) :
    parseExpression? limits ((ts ++ [e]).map (Token.respell r)) =
      (parseExpression? limits (ts ++ [e])).map (Expr.respell r) := by
  unfold parseExpression?
  rw [Cursor.ofTokens_respell he]
  dsimp only
  generalize Cursor.ofTokens (ts ++ [e]) = c
  rw [Cursor.respell_bound,
    Parse.Respells.wholeExpression (Inner.respells_within r c.bound limits.steps 0) c]
  rcases Parse.wholeExpression (Inner.within c.bound limits.steps 0) c with ⟨_ | _, c'⟩ <;> rfl

end Lox
