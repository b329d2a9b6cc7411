/-
# Offsets that stay

The offsets in a tree are those of its marks. A moving of offsets leaves a tree
as it is exactly if it leaves all of them where they are
(`Lox.Stmt.respell_eq_self`). What the parser makes of tokens that stay then
stays, for it makes the moved trees of moved tokens; and the pass of names
notes misuses where marks stand, or at the start, so those it notes in a
program that stays have offsets that stay, whether or not the program fits the
limit: no step of the pass notes one elsewhere (`Lox.Resolve.Stays`).

Key definitions: `Lox.Node.offsets`, `Lox.Resolve.Stays`.
Key theorems: `Lox.functionRespell_eq_self`, `Lox.parse_stays`, `Lox.parseExpression?_stays`,
`Lox.resolve_stays`, `Lox.resolveExpression_stays`.
-/
import Lox.Proofs.Scanner.Words
import Lox.Proofs.Spelling.Parsing
import Lox.Proofs.Spelling.Resolving

namespace Lox

open Respelling

/-! ### The offsets in a tree -/

mutual

/-- The offsets in a labelled tree, from left to right. -/
def Node.offsets : Node → List Int
  | .tree _ children => offsetsIn children
  | .mark m => m.offset.toList
  | .literal _ | .absent => []

def Node.offsetsIn : List Node → List Int
  | [] => []
  | n :: ns => n.offsets ++ offsetsIn ns

end

variable {place : Int → Int}

theorem offset_map_eq_self (o : Option Int) : o.map place = o ↔ ∀ p ∈ o.toList, place p = p := by
  cases o <;> simp

theorem Mark.respell_eq_self (m : Mark) :
    m.respell (moving place) = m ↔ ∀ p ∈ (Node.mark m).offsets, place p = p := by
  rw [Node.offsets, ← offset_map_eq_self]
  obtain ⟨kind, text, offset⟩ := m
  simp [Mark.respell, moving]

theorem NameUse.respell_eq_self (use : NameUse) : use.respell (moving place) = use ↔
    ∀ p ∈ (Node.mark use.name).offsets, place p = p := by
  rw [← Mark.respell_eq_self]
  obtain ⟨name, hops⟩ := use
  simp [NameUse.respell]

theorem Stray.respell_eq_self (node : Stray) : node.respell (moving place) = node ↔
    ∀ p ∈ node.toNode.offsets, place p = p := by
  obtain ⟨label, offset, written⟩ := node
  simp [Stray.respell, Stray.toNode, Node.offsets, Node.offsetsIn, moving,
    offset_map_eq_self offset]

mutual

/-- Moving leaves an expression as it is just if it leaves all offsets in it. -/
theorem Expr.respell_eq_self : ∀ e : Expr, e.respell (moving place) = e ↔
    ∀ p ∈ e.toNode.offsets, place p = p
  | .literal _ => by simp [Expr.respell, Expr.toNode, Node.offsets, Node.offsetsIn]
  | .grouping e => by
    simp [Expr.respell, Expr.toNode, Node.offsets, Node.offsetsIn, e.respell_eq_self]
  | .unary op e | .get e op => by
    simp [Expr.respell, Expr.toNode, Node.offsets, Node.offsetsIn, or_imp, forall_and,
      e.respell_eq_self, op.respell_eq_self]
  | .binary l op r | .logical l op r | .set l op r => by
    simp [Expr.respell, Expr.toNode, Node.offsets, Node.offsetsIn, or_imp, forall_and,
      l.respell_eq_self, op.respell_eq_self, r.respell_eq_self]
  | .ternary cond yes no => by
    simp [Expr.respell, Expr.toNode, Node.offsets, Node.offsetsIn, or_imp, forall_and,
      cond.respell_eq_self, yes.respell_eq_self, no.respell_eq_self]
  | .variable use | .receiver use => by
    simp [Expr.respell, Expr.toNode, Node.offsets, Node.offsetsIn, use.respell_eq_self]
  | .assign use e => by
    simp [Expr.respell, Expr.toNode, Node.offsets, Node.offsetsIn, or_imp, forall_and,
      use.respell_eq_self, e.respell_eq_self]
  | .call callee paren args => by
    simp [Expr.respell, Expr.toNode, Node.offsets, Node.offsetsIn, or_imp, forall_and,
      callee.respell_eq_self, paren.respell_eq_self, argsRespell_eq_self args]
  | .superMethod use method => by
    simp [Expr.respell, Expr.toNode, Node.offsets, Node.offsetsIn, or_imp, forall_and,
      use.respell_eq_self, method.respell_eq_self]
  | .stray node => by simp [Expr.respell, Expr.toNode, node.respell_eq_self]

theorem argsRespell_eq_self : ∀ args : List Expr, argsRespell (moving place) args = args ↔
    ∀ p ∈ Node.offsetsIn (argNodes args), place p = p
  | [] => by simp [argsRespell, argNodes, Node.offsetsIn]
  | e :: args => by
    simp [argsRespell, argNodes, Node.offsetsIn, or_imp, forall_and, e.respell_eq_self,
      argsRespell_eq_self args]

end

theorem optionRespell_eq_self (e : Option Expr) : e.map (Expr.respell (moving place)) = e ↔
    ∀ p ∈ (optionNode e).offsets, place p = p := by
  cases e with
  | none => simp [optionNode, Node.offsets]
  | some e => simp [optionNode, e.respell_eq_self]

theorem paramsRespell_eq_self (params : List Mark) :
    params.map (Mark.respell (moving place)) = params ↔
      ∀ p ∈ Node.offsetsIn (params.map .mark), place p = p := by
  induction params with
  | nil => simp [Node.offsetsIn]
  | cons m params ih => simp [Node.offsetsIn, or_imp, forall_and, m.respell_eq_self, ih]

mutual

/-- Moving leaves a statement as it is just if it leaves all offsets in it. -/
theorem Stmt.respell_eq_self : ∀ s : Stmt, s.respell (moving place) = s ↔
    ∀ p ∈ s.toNode.offsets, place p = p
  | .expr e | .print e => by
    simp [Stmt.respell, Stmt.toNode, Node.offsets, Node.offsetsIn, e.respell_eq_self]
  | .var m e | .giveBack m e => by
    simp [Stmt.respell, Stmt.toNode, Node.offsets, Node.offsetsIn, or_imp, forall_and,
      m.respell_eq_self, optionRespell_eq_self e]
  | .block body => by simp [Stmt.respell, Stmt.toNode, Node.offsets, bodyRespell_eq_self body]
  | .branch cond yes none => by
    simp [Stmt.respell, Stmt.toNode, Node.offsets, Node.offsetsIn, or_imp, forall_and,
      cond.respell_eq_self, yes.respell_eq_self]
  | .branch cond yes (some no) => by
    simp [Stmt.respell, Stmt.toNode, Node.offsets, Node.offsetsIn, or_imp, forall_and,
      cond.respell_eq_self, yes.respell_eq_self, no.respell_eq_self]
  | .loop cond body => by
    simp [Stmt.respell, Stmt.toNode, Node.offsets, Node.offsetsIn, or_imp, forall_and,
      cond.respell_eq_self, body.respell_eq_self]
  | .function decl => by simp [Stmt.respell, Stmt.toNode, functionRespell_eq_self decl]
  | .classDecl name none ms => by
    simp [Stmt.respell, Stmt.toNode, optionNode, Node.offsets, Node.offsetsIn, or_imp, forall_and,
      name.respell_eq_self, methodsRespell_eq_self ms]
  | .classDecl name (some use) ms => by
    simp [Stmt.respell, Stmt.toNode, optionNode, Expr.toNode, Node.offsets, Node.offsetsIn, or_imp,
      forall_and, name.respell_eq_self, use.respell_eq_self, methodsRespell_eq_self ms]
  | .stray node => by simp [Stmt.respell, Stmt.toNode, node.respell_eq_self]

theorem bodyRespell_eq_self : ∀ body : List Stmt, bodyRespell (moving place) body = body ↔
    ∀ p ∈ Node.offsetsIn (bodyNodes body), place p = p
  | [] => by simp [bodyRespell, bodyNodes, Node.offsetsIn]
  | s :: body => by
    simp [bodyRespell, bodyNodes, Node.offsetsIn, or_imp, forall_and, s.respell_eq_self,
      bodyRespell_eq_self body]

theorem functionRespell_eq_self : ∀ decl : Fun, functionRespell (moving place) decl = decl ↔
    ∀ p ∈ (functionNode decl).offsets, place p = p
  | ⟨name, params, body⟩ => by
    simp [functionRespell, functionNode, Node.offsets, Node.offsetsIn, or_imp, forall_and,
      name.respell_eq_self, paramsRespell_eq_self params, bodyRespell_eq_self body]

theorem methodsRespell_eq_self : ∀ ms : List Fun, methodsRespell (moving place) ms = ms ↔
    ∀ p ∈ Node.offsetsIn (methodNodes ms), place p = p
  | [] => by simp [methodsRespell, methodNodes, Node.offsetsIn]
  | m :: ms => by
    simp [methodsRespell, methodNodes, Node.offsetsIn, or_imp, forall_and,
      functionRespell_eq_self m, methodsRespell_eq_self ms]

end

/-- An offset that stays, or the start, if there is none. -/
theorem getD_stays (h0 : place 0 = 0) {o : Option Int} (h : o.map place = o) :
    place (o.getD 0) = o.getD 0 := by
  cases o with
  | none => exact h0
  | some p => exact Option.some.inj h

theorem Expr.offset?_stays {e : Expr} (h : e.respell (moving place) = e) :
    e.offset?.map place = e.offset? :=
  (e.offset?_respell (r := moving place) rfl).symm.trans (congrArg Expr.offset? h)

theorem Stmt.offset?_stays {s : Stmt} (h : s.respell (moving place) = s) :
    s.offset?.map place = s.offset? :=
  (s.offset?_respell (r := moving place) rfl).symm.trans (congrArg Stmt.offset? h)

/-! ### Words and grammar -/

/-- The words of a text that stay, with what stands behind them. -/
theorem exists_spelled_stays {source : String}
    (h : ∀ t ∈ (scan source).tokens, place t.offset = t.offset) :
    ∃ ts e, (scan source).tokens = ts ++ [e] ∧ e.kind = .eof ∧
      (ts ++ [e]).map (Token.respell (moving place)) = ts ++ [e] := by
  obtain ⟨ts, e, hts, he, _⟩ := spelled_scan source
  refine ⟨ts, e, hts, he, ?_⟩
  rw [← hts]
  calc (scan source).tokens.map (Token.respell (moving place))
      = (scan source).tokens.map id := List.map_congr_left fun t ht => by
        have hplace := h t ht
        simp [Token.respell, moving, hplace]
    _ = (scan source).tokens := List.map_id _

/-- The trees of tokens that stay do, and so do the reports of the grammar. -/
theorem parse_stays (limits : Limits) {source : String}
    (h : ∀ t ∈ (scan source).tokens, place t.offset = t.offset) :
    let parsed := parse limits (scan source).tokens
    bodyRespell (moving place) parsed.stmts = parsed.stmts ∧
      ∀ d ∈ parsed.diagnostics, place d.offset = d.offset := by
  obtain ⟨ts, e, hts, he, htokens⟩ := exists_spelled_stays h
  have hparsed : parse limits ((ts ++ [e]).map (Token.respell (moving place))) =
      (parse limits (ts ++ [e])).respell (moving place) := parse_respell limits he
  rw [htokens, ← hts] at hparsed
  have hreports := congrArg Parsed.diagnostics hparsed.symm
  refine ⟨congrArg Parsed.stmts hparsed.symm, fun d hd => ?_⟩
  have hd' := List.map_inj_left.mp (hreports.trans (List.map_id _).symm) d hd
  exact congrArg Diagnostic.offset hd'

theorem parseExpression?_stays {limits : Limits} {source : String}
    (h : ∀ t ∈ (scan source).tokens, place t.offset = t.offset) {e : Expr}
    (he : parseExpression? limits (scan source).tokens = some e) : e.respell (moving place) = e := by
  obtain ⟨ts, last, hts, hlast, htokens⟩ := exists_spelled_stays h
  have hparsed : parseExpression? limits ((ts ++ [last]).map (Token.respell (moving place))) =
      (parseExpression? limits (ts ++ [last])).map (Expr.respell (moving place)) :=
    parseExpression?_respell limits hlast
  rw [htokens, ← hts, he] at hparsed
  exact (Option.some.inj hparsed).symm

/-! ### Names -/

/-- What was noted so far is reported at offsets that stay. -/
def Scoping.Stays (place : Int → Int) (σ : Scoping) : Prop :=
  ∀ e ∈ σ.errors, place e.diagnostic.offset = e.diagnostic.offset

namespace Scoping

variable {σ : Scoping} {m : Mark}

theorem Stays.push (h : σ.Stays place) {e : ScopeError}
    (he : place e.diagnostic.offset = e.diagnostic.offset) :
    ∀ e' ∈ σ.errors.push e, place e'.diagnostic.offset = e'.diagnostic.offset := by
  intro e' hm
  rcases Array.mem_push.mp hm with hm | rfl
  · exact h e' hm
  · exact he

theorem Stays.note (h : σ.Stays place) (h0 : place 0 = 0) (hm : m.respell (moving place) = m)
    (misuse : Misuse) : (σ.note misuse m).Stays place := by
  have hoffset : m.offset.map place = m.offset := congrArg Mark.offset hm
  exact h.push (getD_stays h0 hoffset)

theorem Stays.declare (h : σ.Stays place) (h0 : place 0 = 0) (hm : m.respell (moving place) = m) :
    (σ.declare m).Stays place := by
  unfold Scoping.declare
  split
  · exact h
  · dsimp only
    split
    · exact h.note h0 hm .declaredTwice
    · exact h

theorem Stays.define (h : σ.Stays place) : (σ.define m).Stays place := by
  unfold Scoping.define
  split <;> exact h

theorem Stays.within (h : σ.Stays place) (cls : ClassKind) :
    ({ σ with cls := cls } : Scoping).Stays place := h

end Scoping

namespace Resolve

variable {α β : Type}

/-- The step notes nothing where something moves. -/
def Stays (place : Int → Int) (p : Resolve α) : Prop :=
  ∀ σ : Scoping, σ.Stays place → (p.run σ).2.Stays place

namespace Stays

theorem pure (a : α) : Stays place (Pure.pure a : Resolve α) := fun _ h => h

theorem bind {p : Resolve α} {q : α → Resolve β} (hp : Stays place p) (hq : ∀ a, Stays place (q a)) :
    Stays place (p >>= q) :=
  fun σ h => hq (p.run σ).1 (p.run σ).2 (hp σ h)

theorem bind_get {q : Scoping → Resolve β} (hq : ∀ σ, Stays place (q σ)) : Stays place (get >>= q) :=
  fun σ h => hq σ σ h

theorem modify {m : Scoping → Scoping} (hm : ∀ σ : Scoping, σ.Stays place → (m σ).Stays place) :
    Stays place (modify m) := hm

theorem ite {c : Prop} [Decidable c] {p q : Resolve α} (hp : Stays place p) (hq : Stays place q) :
    Stays place (if c then p else q) := by
  split
  · exact hp
  · exact hq

theorem unlessStopped {room : Room} {a : α} {p : Resolve α} (hp : Stays place p) :
    Stays place (unlessStopped room a p) := by
  cases room with
  | none => exact hp
  | some n =>
    intro σ h
    rw [run_unlessStopped]
    cases σ.stopped with
    | true => exact h
    | false => exact hp σ h

theorem further {a : α} {step : Room → Resolve α} (h : ∀ room, Stays place (step room)) :
    ∀ room, Stays place (further room a step)
  | none => h none
  | some 0 => fun _ hσ => hσ
  | some (_ + 1) => unlessStopped (h _)

end Stays

end Resolve

open Resolve

theorem stays_resolveUse (use : NameUse) : Stays place (resolveUse use) :=
  .bind_get fun _ => .pure _

theorem stays_note (h0 : place 0 = 0) {m : Mark} (hm : m.respell (moving place) = m)
    (misuse : Misuse) : Stays place (modify (Scoping.note misuse m)) :=
  .modify fun _ h => h.note h0 hm misuse

theorem stays_resolveVariable (h0 : place 0 = 0) {use : NameUse}
    (h : use.respell (moving place) = use) : Stays place (resolveVariable use) := by
  have hname : use.name.respell (moving place) = use.name := congrArg NameUse.name h
  exact .bind_get fun σ => .ite (.bind (stays_note h0 hname _) fun _ => stays_resolveUse use)
    (stays_resolveUse use)

mutual

/-- In an expression that stays nothing is noted where something moves. -/
theorem stays_resolveExpr (h0 : place 0 = 0) : ∀ (e : Expr) (room : Room),
    e.respell (moving place) = e → Stays place (resolveExpr room e)
  | .literal _, room, _ => by
    refine .further (fun room => ?_) room
    exact .pure _
  | .grouping e, room, h => by
    refine .further (fun room => ?_) room
    injection h with he
    exact .bind (stays_resolveExpr h0 e room he) fun _ => .pure _
  | .unary _ e, room, h => by
    refine .further (fun room => ?_) room
    injection h with _ he
    exact .bind (stays_resolveExpr h0 e room he) fun _ => .pure _
  | .get e _, room, h => by
    refine .further (fun room => ?_) room
    injection h with he
    exact .bind (stays_resolveExpr h0 e room he) fun _ => .pure _
  | .binary l _ r, room, h | .logical l _ r, room, h => by
    refine .further (fun room => ?_) room
    injection h with hl _ hr
    exact .bind (stays_resolveExpr h0 l room hl) fun _ =>
      .bind (stays_resolveExpr h0 r room hr) fun _ => .pure _
  | .ternary cond yes no, room, h => by
    refine .further (fun room => ?_) room
    injection h with hcond hyes hno
    exact .bind (stays_resolveExpr h0 cond room hcond) fun _ =>
      .bind (stays_resolveExpr h0 yes room hyes) fun _ =>
        .bind (stays_resolveExpr h0 no room hno) fun _ => .pure _
  | .variable use, room, h => by
    refine .further (fun room => ?_) room
    injection h with huse
    exact .bind (stays_resolveVariable h0 huse) fun _ => .pure _
  | .assign use value, room, h => by
    refine .further (fun room => ?_) room
    injection h with _ hvalue
    exact .bind (stays_resolveExpr h0 value room hvalue) fun _ =>
      .bind (.unlessStopped (stays_resolveUse use)) fun _ => .pure _
  | .call callee _ args, room, h => by
    refine .further (fun room => ?_) room
    injection h with hcallee _ hargs
    exact .bind (stays_resolveExpr h0 callee room hcallee) fun _ =>
      .bind (stays_resolveArgs h0 args room hargs) fun _ => .pure _
  | .set object _ value, room, h => by
    refine .further (fun room => ?_) room
    injection h with hobject _ hvalue
    exact .bind (stays_resolveExpr h0 value room hvalue) fun _ =>
      .bind (stays_resolveExpr h0 object room hobject) fun _ => .pure _
  | .receiver use, room, h => by
    injection h with huse
    refine .further (fun room => .bind_get fun σ => ?_) room
    exact .ite (.bind (stays_note h0 (congrArg NameUse.name huse) _) fun _ => .pure _)
      (.bind (stays_resolveUse use) fun _ => .pure _)
  | .superMethod use method, room, h => by
    injection h with huse
    have hname := congrArg NameUse.name huse
    have hused : Stays place (do return .superMethod (← resolveUse use) method : Resolve Expr) :=
      .bind (stays_resolveUse use) fun _ => .pure _
    refine .further (fun room => .bind_get fun σ => ?_) room
    cases σ.cls with
    | none | plain => exact .bind (stays_note h0 hname _) fun _ => hused
    | subclass => exact hused
  | .stray node, room, _ => by
    refine .further (fun room => ?_) room
    exact .bind (.modify fun _ h => h) fun _ => .pure _

theorem stays_resolveArgs (h0 : place 0 = 0) : ∀ (es : List Expr) (room : Room),
    argsRespell (moving place) es = es → Stays place (resolveArgs room es)
  | [], _, _ => .pure _
  | e :: es, room, h => by
    injection h with he hes
    exact .bind (stays_resolveExpr h0 e room he) fun _ =>
      .bind (stays_resolveArgs h0 es room hes) fun _ => .pure _

end

theorem stays_resolveInitializer (h0 : place 0 = 0) (room : Room) (name : Mark) : ∀ o : Option Expr,
    o.map (Expr.respell (moving place)) = o → Stays place (resolveInitializer room name o)
  | none, _ => .pure _
  | some e, h => by
    have he := stays_resolveExpr h0 e room (Option.some.inj h)
    exact .bind_get fun σ => .ite
      (.bind (.modify fun _ h => h) fun _ => .bind he fun _ => .bind (.modify fun _ h => h) fun _ =>
        .pure _)
      (.bind he fun _ => .pure _)

theorem stays_declareParams (h0 : place 0 = 0) : ∀ params : List Mark,
    params.map (Mark.respell (moving place)) = params → Stays place (declareParams params)
  | [], _ => .pure _
  | m :: params, h => by
    injection h with hm hparams
    exact .bind (.modify fun _ h => (h.declare h0 hm).define) fun _ =>
      stays_declareParams h0 params hparams

mutual

/-- In a statement that stays nothing is noted where something moves. -/
theorem stays_resolveStmt (h0 : place 0 = 0) : ∀ (s : Stmt) (room : Room),
    s.respell (moving place) = s → Stays place (resolveStmt room s)
  | .expr e, room, h | .print e, room, h => by
    refine .further (fun room => ?_) room
    injection h with he
    exact .bind (stays_resolveExpr h0 e room he) fun _ => .pure _
  | .var name initial, room, h => by
    injection h with hname hinitial
    refine .further (fun room => ?_) room
    exact .bind (.modify fun _ h => h.declare h0 hname) fun _ =>
      .bind (stays_resolveInitializer h0 room name initial hinitial) fun _ =>
        .bind (.modify fun _ h => h.define) fun _ => .pure _
  | .block body, room, h => by
    injection h with hbody
    refine .further (fun room => ?_) room
    exact .bind (.modify fun _ h => h) fun _ => .bind (stays_resolveBody h0 body room hbody) fun _ =>
      .bind (.modify fun _ h => h) fun _ => .pure _
  | .branch cond yes none, room, h | .loop cond yes, room, h => by
    injection h with hcond hyes
    refine .further (fun room => ?_) room
    exact .bind (stays_resolveExpr h0 cond room hcond) fun _ =>
      .bind (stays_resolveStmt h0 yes room hyes) fun _ => .pure _
  | .branch cond yes (some no), room, h => by
    injection h with hcond hyes hno
    refine .further (fun room => ?_) room
    exact .bind (stays_resolveExpr h0 cond room hcond) fun _ =>
      .bind (stays_resolveStmt h0 yes room hyes) fun _ =>
        .bind (stays_resolveStmt h0 no room (Option.some.inj hno)) fun _ => .pure _
  | .function ⟨name, params, body⟩, room, h => by
    injection h with hdecl
    have hname : name.respell (moving place) = name := congrArg FunDecl.name hdecl
    refine .further (fun room => ?_) room
    exact .bind (.modify fun _ h => (h.declare h0 hname).define) fun _ =>
      .bind (stays_resolveFunction h0 .function ⟨name, params, body⟩ room hdecl) fun _ => .pure _
  | .giveBack keyword none, room, h => by
    injection h with hkeyword
    refine .further (fun room => .bind_get fun σ => ?_) room
    exact .ite (.bind (stays_note h0 hkeyword _) fun _ => .pure _) (.pure _)
  | .giveBack keyword (some e), room, h => by
    injection h with hkeyword he
    refine .further (fun room => ?_) room
    have hvalue : Stays place
        (do return .giveBack keyword (some (← resolveExpr room e)) : Resolve Stmt) :=
      .bind (stays_resolveExpr h0 e room (Option.some.inj he)) fun _ => .pure _
    have hinside : Stays place (do
        if (← get).function = .initializer then
          modify (·.note .valueFromInitializer keyword)
        return .giveBack keyword (some (← resolveExpr room e)) : Resolve Stmt) :=
      .bind_get fun σ => .ite (.bind (stays_note h0 hkeyword _) fun _ => hvalue) hvalue
    exact .bind_get fun σ => .ite (.bind (stays_note h0 hkeyword _) fun _ => hinside) hinside
  | .classDecl name none ms, room, h => by
    injection h with hname _ hms
    refine .further (fun room => .bind_get fun σ =>
      .bind (.modify fun _ h => ((h.within .plain).declare h0 hname).define) fun _ => ?_) room
    exact .bind (.modify fun _ h => h) fun _ => .bind (stays_resolveMethods h0 ms room hms) fun _ =>
      .bind (.modify fun _ h => h) fun _ => .pure _
  | .classDecl name (some use) ms, room, h => by
    injection h with hname huse hms
    have huse : use.respell (moving place) = use := Option.some.inj huse
    refine .further (fun room => .bind_get fun σ =>
      .bind (.modify fun _ h => ((h.within .plain).declare h0 hname).define) fun _ => ?_) room
    have hinside : Stays place (do
        modify fun s => { s with cls := .subclass }
        let use ← resolveVariable use
        modify fun s => (s.enter ["super"]).enter ["this"]
        let methods ← resolveMethods room ms
        modify fun s => { s.leave.leave with cls := σ.cls }
        return .classDecl name (some use) methods : Resolve Stmt) :=
      .bind (.modify fun _ h => h) fun _ => .bind (stays_resolveVariable h0 huse) fun _ =>
        .bind (.modify fun _ h => h) fun _ => .bind (stays_resolveMethods h0 ms room hms) fun _ =>
          .bind (.modify fun _ h => h) fun _ => .pure _
    exact .ite (.bind (stays_note h0 (congrArg NameUse.name huse) _) fun _ => hinside) hinside
  | .stray node, room, _ => by
    refine .further (fun room => ?_) room
    exact .bind (.modify fun _ h => h) fun _ => .pure _

theorem stays_resolveBody (h0 : place 0 = 0) : ∀ (body : List Stmt) (room : Room),
    bodyRespell (moving place) body = body → Stays place (resolveBody room body)
  | [], _, _ => .pure _
  | s :: body, room, h => by
    injection h with hs hbody
    exact .bind (stays_resolveStmt h0 s room hs) fun _ =>
      .bind (stays_resolveBody h0 body room hbody) fun _ => .pure _

theorem stays_resolveFunction (h0 : place 0 = 0) (kind : FunctionKind) : ∀ (decl : Fun) (room : Room),
    functionRespell (moving place) decl = decl → Stays place (resolveFunction room kind decl)
  | ⟨name, params, body⟩, room, h => by
    injection h with _ hparams hbody
    refine .unlessStopped (.bind_get fun σ => ?_)
    exact .bind (.modify fun _ h => h) fun _ => .bind (stays_declareParams h0 params hparams) fun _ =>
      .bind (stays_resolveBody h0 body room hbody) fun _ => .bind (.modify fun _ h => h) fun _ =>
        .pure _

theorem stays_resolveMethods (h0 : place 0 = 0) : ∀ (ms : List Fun) (room : Room),
    methodsRespell (moving place) ms = ms → Stays place (resolveMethods room ms)
  | [], _, _ => .pure _
  | m :: ms, room, h => by
    injection h with hm hms
    exact .bind (stays_resolveFunction h0 (methodKind m.name) m room hm) fun _ =>
      .bind (stays_resolveMethods h0 ms room hms) fun _ => .pure _

end

/-- A statement that is too deep is reported at its start, or at that of the text. -/
theorem stays_resolveTop (h0 : place 0 = 0) (depth : Nat) {s : Stmt}
    (h : s.respell (moving place) = s) : Stays place (resolveTop depth s) := by
  have hstart : place (s.offset?.getD 0) = s.offset?.getD 0 := getD_stays h0 (Stmt.offset?_stays h)
  exact .ite (stays_resolveStmt h0 s none h) (.bind (stays_resolveStmt h0 s (some depth) h) fun _ =>
    .bind (.modify fun σ hσ => hσ.push (e := ⟨.tooDeep, some (s.offset?.getD 0)⟩) hstart) fun _ =>
      .pure _)

theorem stays_resolveTops (h0 : place 0 = 0) (depth : Nat) : ∀ stmts : List Stmt,
    bodyRespell (moving place) stmts = stmts → Stays place (stmts.mapM (resolveTop depth))
  | [], _ => .pure _
  | s :: stmts, h => by
    injection h with hs hstmts
    rw [List.mapM_cons]
    exact .bind (stays_resolveTop h0 depth hs) fun _ =>
      .bind (stays_resolveTops h0 depth stmts hstmts) fun _ => .pure _

/-- Of a program that stays the pass of names makes one that stays, and it reports misuses at offsets
that stay. -/
theorem resolve_stays (h0 : place 0 = 0) (limits : Limits) {stmts : List Stmt}
    (h : bodyRespell (moving place) stmts = stmts) :
    bodyRespell (moving place) (resolve limits stmts).stmts = (resolve limits stmts).stmts ∧
      ∀ e ∈ (resolve limits stmts).errors, place e.diagnostic.offset = e.diagnostic.offset := by
  obtain ⟨hmoved, _⟩ := resolve_moving place limits stmts
  rw [h] at hmoved
  have hinitial : Scoping.initial.Stays place := fun e he => by simp [Scoping.initial] at he
  refine ⟨hmoved.symm, fun e he => ?_⟩
  exact stays_resolveTops h0 limits.steps stmts h .initial hinitial e (Array.mem_toList_iff.mp he)

/-- An expression alone is bound as the statement that it is. -/
theorem resolveExpression_stays (h0 : place 0 = 0) (limits : Limits) {e : Expr}
    (h : e.respell (moving place) = e) :
    (resolveExpression limits e).1.respell (moving place) = (resolveExpression limits e).1 ∧
      ∀ error ∈ (resolveExpression limits e).2,
        place error.diagnostic.offset = error.diagnostic.offset := by
  obtain ⟨hmoved, _⟩ := resolveExpression_moving place limits e
  rw [h] at hmoved
  have hstmt : bodyRespell (moving place) [.expr e] = [.expr e] := by
    simp [bodyRespell, Stmt.respell, h]
  have herrors : (resolveExpression limits e).2 = (resolve limits [.expr e]).errors := by
    unfold resolveExpression
    dsimp only
    split <;> rfl
  refine ⟨hmoved.symm, fun error herror => ?_⟩
  rw [herrors] at herror
  exact (resolve_stays h0 limits hstmt).2 error herror

end Lox
