/-
# Binding the names of well-formed trees

The pass that binds names meets every node where its label belongs, as far as
it follows the tree, so it notes no node out of place; and a tree over known
operators stays one, since only the records of uses change.

Key definitions: `Lox.Resolve.Keeps`.
Key theorems: `Lox.keeps_resolveStmt`, `Lox.resolve_over`.
-/
import Lox.Resolution
import Lox.Proofs.Wellformed.Vocabulary

namespace Lox

namespace Resolve

variable {α β : Type} {P : α → Prop} {Q : β → Prop}

/-- Where nothing was out of place the step finds nothing out of place, and has such a result. -/
def Keeps (P : α → Prop) (p : Resolve α) : Prop :=
  ∀ σ : Scoping, σ.misplaced = none → (p.run σ).2.misplaced = none ∧ P (p.run σ).1

namespace Keeps

theorem pure {a : α} (h : P a) : Keeps P (Pure.pure a) := fun _ hσ => ⟨hσ, h⟩

theorem bind {p : Resolve α} {q : α → Resolve β} (hp : Keeps P p)
    (hq : ∀ a, P a → Keeps Q (q a)) : Keeps Q (p >>= q) := by
  intro σ hσ
  obtain ⟨hstate, hresult⟩ := hp σ hσ
  exact hq _ hresult _ hstate

/-- What is known may be asked for. -/
theorem bind_get {q : Scoping → Resolve β} (hq : ∀ σ, Keeps Q (q σ)) : Keeps Q (get >>= q) :=
  fun σ hσ => hq σ σ hσ

theorem modify {m : Scoping → Scoping} (hm : ∀ σ, (m σ).misplaced = σ.misplaced) :
    Keeps (fun _ => True) (modify m) :=
  fun σ hσ => ⟨(hm σ).trans hσ, trivial⟩

theorem ite {c : Prop} [Decidable c] {p q : Resolve α} (hp : Keeps P p) (hq : Keeps P q) :
    Keeps P (if c then p else q) := by
  split
  · exact hp
  · exact hq

theorem unlessStopped {room : Room} {a : α} {p : Resolve α} (ha : P a) (hp : Keeps P p) :
    Keeps P (unlessStopped room a p) := by
  cases room with
  | none => exact hp
  | some n =>
    intro σ hσ
    rw [run_unlessStopped]
    cases σ.stopped with
    | true => exact ⟨hσ, ha⟩
    | false => exact hp σ hσ

theorem further {a : α} {step : Room → Resolve α} (ha : P a) (h : ∀ room, Keeps P (step room)) :
    ∀ room, Keeps P (further room a step)
  | none => h none
  | some 0 => fun _ hσ => ⟨hσ, ha⟩
  | some (_ + 1) => unlessStopped ha (h _)

end Keeps

end Resolve

open Resolve

namespace Scoping

theorem misplaced_declare (m : Mark) (σ : Scoping) : (σ.declare m).misplaced = σ.misplaced := by
  unfold declare
  split
  · rfl
  · dsimp only
    split <;> rfl

theorem misplaced_define (m : Mark) (σ : Scoping) : (σ.define m).misplaced = σ.misplaced := by
  unfold define
  split <;> rfl

theorem misplaced_defined (m : Mark) (σ : Scoping) :
    ((σ.declare m).define m).misplaced = σ.misplaced :=
  (misplaced_define m _).trans (misplaced_declare m σ)

end Scoping

open Scoping

/-! ### Expressions -/

theorem keeps_resolveUse {kind : TokenKind} (use : NameUse) :
    Keeps (Vocabulary.known.Use kind) (resolveUse use) :=
  .bind_get fun _ => .pure ⟨trivial, trivial⟩

theorem keeps_resolveVariable {kind : TokenKind} (use : NameUse) :
    Keeps (Vocabulary.known.Use kind) (resolveVariable use) :=
  .bind_get fun _ => .ite (.bind (.modify fun _ => rfl) fun _ _ => keeps_resolveUse use)
    (keeps_resolveUse use)

theorem keeps_resolveArgs : ∀ {args : List Expr} (room : Room),
    (∀ arg ∈ args, ∀ room, Keeps (Expr.Over .known) (resolveExpr room arg)) →
    Keeps (fun args => ∀ arg ∈ args, Expr.Over .known arg) (resolveArgs room args)
  | [], _, _ => .pure fun _ h => nomatch h
  | _ :: _, room, h => by
    obtain ⟨harg, hargs⟩ := List.forall_mem_cons.mp h
    exact .bind (harg room) fun _ h => .bind (keeps_resolveArgs room hargs) fun _ hs =>
      .pure (List.forall_mem_cons.mpr ⟨h, hs⟩)

theorem keeps_resolveExpr {e : Expr} (he : e.Over .known) :
    ∀ room, Keeps (Expr.Over .known) (resolveExpr room e) := by
  have free {kind : TokenKind} (use : NameUse) : Vocabulary.known.Use kind use := ⟨trivial, trivial⟩
  induction he with
  | literal hx => exact .further (.literal hx) fun _ => .pure (.literal hx)
  | grouping he ih =>
    exact .further (.grouping he) fun room => .bind (ih room) fun _ h => .pure (.grouping h)
  | unary hop he ih =>
    exact .further (.unary hop he) fun room => .bind (ih room) fun _ h => .pure (.unary hop h)
  | binary hl hop hr ihl ihr =>
    exact .further (.binary hl hop hr) fun room => .bind (ihl room) fun _ hl =>
      .bind (ihr room) fun _ hr => .pure (.binary hl hop hr)
  | logical hl hop hr ihl ihr =>
    exact .further (.logical hl hop hr) fun room => .bind (ihl room) fun _ hl =>
      .bind (ihr room) fun _ hr => .pure (.logical hl hop hr)
  | ternary hc hy hn ihc ihy ihn =>
    exact .further (.ternary hc hy hn) fun room => .bind (ihc room) fun _ hc =>
      .bind (ihy room) fun _ hy => .bind (ihn room) fun _ hn => .pure (.ternary hc hy hn)
  | «variable» hu =>
    exact .further (.variable hu) fun _ => .bind (keeps_resolveVariable _) fun _ h =>
      .pure (.variable h)
  | @assign use _ hu he ih =>
    exact .further (.assign hu he) fun room => .bind (ih room) fun _ he =>
      .bind (.unlessStopped (free use) (keeps_resolveUse use)) fun _ hu => .pure (.assign hu he)
  | call hc hp hargs ih iha =>
    exact .further (.call hc hp hargs) fun room => .bind (ih room) fun _ hc =>
      .bind (keeps_resolveArgs room iha) fun _ hargs => .pure (.call hc hp hargs)
  | get ho hn ih =>
    exact .further (.get ho hn) fun room => .bind (ih room) fun _ ho => .pure (.get ho hn)
  | set ho hn he iho ihe =>
    exact .further (.set ho hn he) fun room => .bind (ihe room) fun _ he =>
      .bind (iho room) fun _ ho => .pure (.set ho hn he)
  | receiver hu =>
    exact .further (.receiver hu) fun _ => .bind_get fun _ => .ite
      (.bind (.modify fun _ => rfl) fun _ _ => .pure (.receiver hu))
      (.bind (keeps_resolveUse _) fun _ hu => .pure (.receiver hu))
  | superMethod hu hm =>
    have used : ∀ use method, Keeps (Expr.Over .known)
        (do return Expr.superMethod (← resolveUse use) method) := fun use _ =>
      .bind (keeps_resolveUse use) fun _ hu => .pure (.superMethod hu trivial)
    refine .further (.superMethod hu hm) fun _ => .bind_get fun σ => ?_
    cases σ.cls with
    | none | plain => exact .bind (.modify fun _ => rfl) fun _ _ => used _ _
    | subclass => exact used _ _

/-! ### Statements -/

theorem keeps_resolveInitializer (room : Room) (name : Mark) : ∀ {o : Option Expr},
    (∀ e ∈ o, e.Over .known) →
    Keeps (fun o => ∀ e ∈ o, Expr.Over .known e) (resolveInitializer room name o)
  | none, _ => .pure fun _ h => by cases h
  | some _, h =>
    .bind_get fun _ => .ite
      (.bind (.modify fun _ => rfl) fun _ _ => .bind (keeps_resolveExpr (h _ rfl) room) fun _ he =>
        .bind (.modify fun _ => rfl) fun _ _ => .pure fun _ h => Option.some.inj h ▸ he)
      (.bind (keeps_resolveExpr (h _ rfl) room) fun _ he =>
        .pure fun _ h => Option.some.inj h ▸ he)

theorem keeps_declareParams : ∀ params : List Mark, Keeps (fun _ => True) (declareParams params)
  | [] => .pure trivial
  | param :: params =>
    .bind (.modify (misplaced_defined param)) fun _ _ => keeps_declareParams params

theorem keeps_resolveBody : ∀ {body : List Stmt} (room : Room),
    (∀ s ∈ body, ∀ room, Keeps (Stmt.Over .known) (resolveStmt room s)) →
    Keeps (fun body => ∀ s ∈ body, Stmt.Over .known s) (resolveBody room body)
  | [], _, _ => .pure fun _ h => nomatch h
  | _ :: _, room, h => by
    obtain ⟨hs, hbody⟩ := List.forall_mem_cons.mp h
    exact .bind (hs room) fun _ h => .bind (keeps_resolveBody room hbody) fun _ hs =>
      .pure (List.forall_mem_cons.mpr ⟨h, hs⟩)

theorem keeps_resolveFunction {decl : Fun} (room : Room) (kind : FunctionKind)
    (hd : decl.Over .known)
    (h : ∀ s ∈ decl.body, ∀ room, Keeps (Stmt.Over .known) (resolveStmt room s)) :
    Keeps (FunDecl.Over .known) (resolveFunction room kind decl) := by
  obtain ⟨name, params, body⟩ := decl
  refine .unlessStopped hd (.bind_get fun σ => ?_)
  exact .bind (.modify fun _ => rfl) fun _ _ => .bind (keeps_declareParams params) fun _ _ =>
    .bind (keeps_resolveBody room h) fun _ hb => .bind (.modify fun _ => rfl) fun _ _ =>
      .pure ⟨⟨hd.name, hd.params⟩, hb⟩

theorem keeps_resolveMethods : ∀ {methods : List Fun} (room : Room),
    (∀ m ∈ methods, m.Over .known) →
    (∀ m ∈ methods, ∀ s ∈ m.body, ∀ room, Keeps (Stmt.Over .known) (resolveStmt room s)) →
    Keeps (fun ms => ∀ m ∈ ms, FunDecl.Over .known m) (resolveMethods room methods)
  | [], _, _, _ => .pure fun _ h => nomatch h
  | _ :: _, room, hd, h => by
    obtain ⟨hm, hmethods⟩ := List.forall_mem_cons.mp hd
    obtain ⟨hbody, hbodies⟩ := List.forall_mem_cons.mp h
    exact .bind (keeps_resolveFunction room _ hm hbody) fun _ hm =>
      .bind (keeps_resolveMethods room hmethods hbodies) fun _ hms =>
        .pure (List.forall_mem_cons.mpr ⟨hm, hms⟩)

theorem keeps_resolveStmt {s : Stmt} (hs : s.Over .known) :
    ∀ room, Keeps (Stmt.Over .known) (resolveStmt room s) := by
  induction hs with
  | expr he =>
    exact .further (.expr he) fun room => .bind (keeps_resolveExpr he room) fun _ h =>
      .pure (.expr h)
  | print he =>
    exact .further (.print he) fun room => .bind (keeps_resolveExpr he room) fun _ h =>
      .pure (.print h)
  | @var name initial hn he =>
    exact .further (.var hn he) fun room => .bind (.modify (misplaced_declare name)) fun _ _ =>
      .bind (keeps_resolveInitializer room name he) fun _ he =>
        .bind (.modify (misplaced_define name)) fun _ _ => .pure (.var hn he)
  | block hb ih =>
    exact .further (.block hb) fun room => .bind (.modify fun _ => rfl) fun _ _ =>
      .bind (keeps_resolveBody room ih) fun _ hb => .bind (.modify fun _ => rfl) fun _ _ =>
        .pure (.block hb)
  | @branch cond yes no hc hy hn ihy ihn =>
    refine fun room => ?_
    cases no with
    | none =>
      refine .further (.branch hc hy hn) (fun room => ?_) room
      exact .bind (keeps_resolveExpr hc room) fun _ hc => .bind (ihy room) fun _ hy =>
        .pure (.branch hc hy hn)
    | some no =>
      refine .further (.branch hc hy hn) (fun room => ?_) room
      exact .bind (keeps_resolveExpr hc room) fun _ hc => .bind (ihy room) fun _ hy =>
        .bind (ihn no rfl room) fun _ hn => .pure (.branch hc hy fun _ h => Option.some.inj h ▸ hn)
  | loop hc hb ih =>
    exact .further (.loop hc hb) fun room => .bind (keeps_resolveExpr hc room) fun _ hc =>
      .bind (ih room) fun _ hb => .pure (.loop hc hb)
  | @function decl hd hb ih =>
    exact .further (.function hd hb) fun room => .bind (.modify (misplaced_defined decl.name))
      fun _ _ => .bind (keeps_resolveFunction room _ ⟨hd, hb⟩ ih) fun _ h =>
        .pure (.function h.toHeaded h.body)
  | @giveBack keyword value hk he =>
    refine fun room => ?_
    cases value with
    | none =>
      refine .further (.giveBack hk he) (fun room => .bind_get fun _ => ?_) room
      exact .ite (.bind (.modify fun _ => rfl) fun _ _ => .pure (.giveBack hk he))
        (.pure (.giveBack hk he))
    | some e =>
      refine .further (.giveBack hk he) (fun room => .bind_get fun _ => ?_) room
      have value : Keeps (Stmt.Over .known)
          (do return Stmt.giveBack keyword (some (← resolveExpr room e))) :=
        .bind (keeps_resolveExpr (he e rfl) room) fun _ he =>
          .pure (.giveBack hk fun _ h => Option.some.inj h ▸ he)
      have inside : Keeps (Stmt.Over .known) (do
          if (← get).function = .initializer then
            modify (·.note .valueFromInitializer keyword)
          return Stmt.giveBack keyword (some (← resolveExpr room e))) :=
        .bind_get fun _ => .ite (.bind (.modify fun _ => rfl) fun _ _ => value) value
      exact .ite (.bind (.modify fun _ => rfl) fun _ _ => inside) inside
  | @classDecl name superclass methods hn hu hm hb ih =>
    have hmethods : ∀ m ∈ methods, m.Over .known := fun m h => ⟨hm m h, hb m h⟩
    have made (room : Room) (superclass : Option NameUse) (leave : Scoping → Scoping)
        (hleave : ∀ σ, (leave σ).misplaced = σ.misplaced) : Keeps (Stmt.Over .known) (do
          let methods ← resolveMethods room methods
          modify leave
          return Stmt.classDecl name superclass methods) :=
      .bind (keeps_resolveMethods room hmethods ih) fun _ hms => .bind (.modify hleave) fun _ _ =>
        .pure (.classDecl hn (fun _ _ => ⟨trivial, trivial⟩) (fun m h => (hms m h).toHeaded)
          fun m h => (hms m h).body)
    refine fun room => ?_
    refine .further (.classDecl hn hu hm hb) (fun room => .bind_get fun σ => ?_) room
    refine .bind (.modify fun _ => misplaced_defined name _) fun _ _ => ?_
    cases superclass with
    | none => exact .bind (.modify fun _ => rfl) fun _ _ => made room none _ fun _ => rfl
    | some use =>
      have inherited : Keeps (Stmt.Over .known) (do
          modify fun s => { s with cls := .subclass }
          let use ← resolveVariable use
          modify fun s => (s.enter ["super"]).enter ["this"]
          let methods ← resolveMethods room methods
          modify fun s => { s.leave.leave with cls := σ.cls }
          return Stmt.classDecl name (some use) methods) :=
        .bind (.modify fun _ => rfl) fun _ _ =>
          .bind (@keeps_resolveVariable .identifier use) fun use _ =>
            .bind (.modify fun _ => rfl) fun _ _ => made room (some use) _ fun _ => rfl
      exact .ite (.bind (.modify fun _ => rfl) fun _ _ => inherited) inherited

/-! ### Programs -/

theorem keeps_resolveTop (depth : Nat) {s : Stmt} (hs : s.Over .known) :
    Keeps (Stmt.Over .known) (resolveTop depth s) := by
  unfold resolveTop
  split
  · exact keeps_resolveStmt hs none
  · exact .bind (keeps_resolveStmt hs _) fun _ h => .bind (.modify fun _ => rfl) fun _ _ => .pure h

theorem keeps_resolveTops (depth : Nat) : ∀ {stmts : List Stmt}, (∀ s ∈ stmts, s.Over .known) →
    Keeps (fun stmts => ∀ s ∈ stmts, Stmt.Over .known s) (stmts.mapM (resolveTop depth))
  | [], _ => .pure fun _ h => nomatch h
  | _ :: _, h => by
    obtain ⟨hs, hstmts⟩ := List.forall_mem_cons.mp h
    rw [List.mapM_cons]
    exact .bind (keeps_resolveTop depth hs) fun _ hs =>
      .bind (keeps_resolveTops depth hstmts) fun _ hstmts =>
        .pure (List.forall_mem_cons.mpr ⟨hs, hstmts⟩)

/-- The pass finds no node out of place in a program over known operators, and leaves a program over
known operators. -/
theorem resolve_over (limits : Limits) {stmts : List Stmt} (h : ∀ s ∈ stmts, s.Over .known) :
    (resolve limits stmts).misplaced = none ∧ ∀ s ∈ (resolve limits stmts).stmts, s.Over .known :=
  keeps_resolveTops limits.steps h .initial rfl

end Lox
