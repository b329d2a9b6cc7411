/-
# Outcomes and thrown returns

To pass an outcome upward is to throw the value of the return and to catch it
at the call. An outcome is thrown (`Lox.Throwing.thrown`) if it gives back a
value; then a body whose statements pass their outcomes on is a row of
statements that throw, and the call, which makes a value of the outcome, is
the one that catches. So each evaluation with outcomes agrees with the one in
which returns are thrown, construct by construct (`Lox.Thrower.Agrees`), and by
induction on the steps that are left. No expression throws a value: whoever
calls a function goes on behind the call.

Key definitions: `Lox.Throwing.thrown`, `Lox.Thrower.Agrees`.
Key theorems: `Lox.Throwing.thrown_next`, `Lox.Throwing.caught_thrown`,
`Lox.Thrower.agrees_watched`, `Lox.returns_are_thrown`.
-/
import Lox.Proofs.Returning.Ending
import Lox.Proofs.Returning.Throwing

namespace Lox

open Procedure

namespace Throwing

variable {α β : Type}

/-- A procedure with an outcome that throws the value it gives back. -/
def thrown (p : Run Flow) : Throwing Unit := do
  match ← lift p with
  | .next => return ()
  | .returning v => giveBack v

@[simp] theorem lift_pure (a : α) : lift (pure a : Run α) = pure a := rfl

@[simp] theorem lift_read (g : Store → α) : lift (read g : Run α) = read g := rfl

@[simp] theorem lift_bind (p : Run α) (next : α → Run β) :
    lift (p >>= next) = lift p >>= fun a => lift (next a) := by
  funext s
  rcases hp : p s with ⟨fault | a, s'⟩
  · have hlift : lift p s = (.error (.fault fault), s') := by rw [lift, hp]
    rw [bind_error hlift, lift, bind_error hp]
  · have hlift : lift p s = (.ok a, s') := by rw [lift, hp]
    rw [bind_ok hlift, lift, bind_ok hp]
    rfl

@[simp] theorem lift_map (g : α → β) (p : Run α) : lift (g <$> p) = g <$> lift p := by
  rw [map_eq_pure_bind, map_eq_pure_bind, lift_bind]
  rfl

@[simp] theorem lift_discard (p : Run α) : lift (discard p) = discard (lift p) := lift_map _ p

@[simp] theorem lift_ite {c : Prop} [Decidable c] (p q : Run α) :
    lift (if c then p else q) = if c then lift p else lift q := by
  split <;> rfl

/-- What is lifted throws no value. -/
theorem lift_ne_value (p : Run α) (s s' : Store) (v : Value) :
    lift p s ≠ (.error (.value v), s') := by
  unfold lift
  split <;> simp

@[simp] theorem thrown_pure_next : thrown (pure .next) = pure () := rfl

@[simp] theorem thrown_pure_returning (v : Value) : thrown (pure (.returning v)) = giveBack v := rfl

@[simp] theorem thrown_bind (p : Run α) (next : α → Run Flow) :
    thrown (p >>= next) = lift p >>= fun a => thrown (next a) := by
  unfold thrown
  rw [lift_bind, bind_assoc]

@[simp] theorem thrown_ite {c : Prop} [Decidable c] (p q : Run Flow) :
    thrown (if c then p else q) = if c then thrown p else thrown q := by
  split <;> rfl

/-- What ends normally whenever it ends well throws no value. -/
theorem thrown_behind (p : Run Unit) :
    thrown (do p; return .next) = lift p := by
  rw [thrown_bind]
  exact bind_pure_unit

/-- To go on behind what ends normally, and pass on what gives back a value, is to do one after the
other. -/
theorem thrown_next {p q : Run Flow} {next : Flow → Run Flow} (hnext : next .next = q)
    (hreturning : ∀ v, next (.returning v) = pure (.returning v)) :
    thrown (p >>= next) = thrown p >>= fun _ => thrown q := by
  rw [thrown_bind, thrown, bind_assoc]
  refine bind_congr fun flow => ?_
  cases flow with
  | next => rw [hnext]; rfl
  | returning v => rw [hreturning]; rfl

/-- To catch what is thrown is to make a value of the outcome. -/
theorem caught_thrown (p : Run Flow) :
    caught (thrown p) = lift (do
      match ← p with
      | .returning v => return v
      | .next => return .nil) := by
  funext s
  rcases hp : p s with ⟨fault | flow, s'⟩
  · have hlift : lift p s = (.error (.fault fault), s') := by rw [lift, hp]
    rw [lift, bind_error hp, caught, thrown, bind_error hlift]
  · have hlift : lift p s = (.ok flow, s') := by rw [lift, hp]
    rw [lift, bind_ok hp, caught, thrown, bind_ok hlift]
    cases flow <;> rfl

@[simp] theorem lift_placed (offset : Unit → Option Int) (p : Run α) :
    lift (Run.placed offset p) = placed offset (lift p) := by
  funext s
  rcases hp : p s with ⟨fault | a, s'⟩ <;> simp only [lift, Run.placed, placed, mapHalt, hp, Throw.place]

theorem placed_bind (offset : Unit → Option Int) (p : Throwing α) (next : α → Throwing β) :
    placed offset (p >>= next) = placed offset p >>= fun a => placed offset (next a) := by
  funext s
  rcases hp : p s with ⟨t | a, s'⟩
  · have hplaced : placed offset p s = (.error (t.place offset), s') := by rw [placed, mapHalt, hp]
    rw [bind_error hplaced, placed, mapHalt, bind_error hp]
  · have hplaced : placed offset p s = (.ok a, s') := by rw [placed, mapHalt, hp]
    rw [bind_ok hplaced, placed, mapHalt, bind_ok hp]
    rfl

/-- A place makes no difference to a value that is thrown. -/
@[simp] theorem thrown_placed (offset : Unit → Option Int) (p : Run Flow) :
    thrown (Run.placed offset p) = placed offset (thrown p) := by
  rw [thrown, lift_placed, thrown, placed_bind]
  congr 1
  funext flow
  cases flow <;> rfl

end Throwing

open Throwing (lift thrown caught)

namespace Thrower

/-- The evaluations do the same: expressions without a value that is thrown, and statements with
their outcomes thrown. -/
structure Agrees (T : Thrower) (E : Evaluator) : Prop where
  access : T.access = E.access
  turns : T.turns = E.turns
  expr : ∀ e f, T.expr e f = lift (E.expr e f)
  stmt : ∀ st f, T.stmt st f = thrown (E.stmt st f)
  called : ∀ st f, T.called st f = thrown (E.called st f)

section

variable {T : Thrower} {E : Evaluator} (h : T.Agrees E)

/-- A body passes on the outcome of a statement that gives back a value: it ends there. -/
theorem forM_thrown {exec : Stmt → FrameId → Throwing Unit} {outcome : Stmt → FrameId → Run Flow}
    (hexec : ∀ st f, exec st f = thrown (outcome st f)) (f : FrameId) : ∀ body : List Stmt,
    (forM body fun st => exec st f) = thrown (execBody outcome body f)
  | [] => rfl
  | st :: body => by
    rw [List.forM_cons, forM_thrown hexec f body, hexec]
    symm
    exact Throwing.thrown_next rfl fun _ => rfl

include h

/-- The call catches: what it makes of the outcome is the value that is thrown. -/
theorem Agrees.invoke (id : FunctionId) (outer : FrameId) (args : List Value) :
    T.invoke id outer args = lift (Lox.invoke E id outer args) := by
  unfold Thrower.invoke Lox.invoke
  simp only [Throwing.lift_bind, Throwing.lift_read, forM_thrown h.called, Throwing.caught_thrown,
    bind_assoc, Throwing.lift_ite]
  congr 1
  funext closure
  congr 1
  funext f
  congr 1
  funext _
  congr 1
  funext flow
  cases hinit : closure.isInitializer <;> cases flow <;> rfl

theorem Agrees.apply (callee : Value) (args : List Value) :
    T.apply callee args = lift (Lox.apply E callee args) := by
  unfold Thrower.apply Lox.apply
  cases callee with
  | native g => cases g; rfl
  | function id => simp only [h.invoke, Throwing.lift_bind, Throwing.lift_read]
  | method id => simp only [h.invoke, Throwing.lift_bind, Throwing.lift_read]
  | classRef c =>
    simp only [Throwing.lift_bind, Throwing.lift_read, h.invoke]
    refine bind_congr fun object => bind_congr fun init => ?_
    cases init with
    | none => rfl
    | some m => simp only [Throwing.lift_bind, Throwing.lift_discard, Throwing.lift_pure]
  | const _ => rfl
  | instanceRef _ => rfl

theorem Agrees.callWith (callee : Value) (args : List Value) (place : Option Int) :
    T.callWith callee args place = lift (Lox.callWith E callee args place) := by
  unfold Thrower.callWith Lox.callWith
  rw [Throwing.lift_bind, Throwing.lift_read]
  refine bind_congr fun arity => ?_
  cases arity with
  | none => rfl
  | some expected =>
    dsimp only
    rw [Throwing.lift_ite, h.apply]

theorem Agrees.evalArgs (f : FrameId) : ∀ args : List Expr,
    T.evalArgs args f = lift (Lox.evalArgs E args f)
  | [] => rfl
  | arg :: args => by
    unfold Thrower.evalArgs Lox.evalArgs
    simp only [h.expr, evalArgs f args, Throwing.lift_bind, Throwing.lift_pure]

theorem Agrees.evalOption (e : Option Expr) (f : FrameId) :
    T.evalOption e f = lift (Lox.evalOption E e f) := by
  cases e with
  | none => rfl
  | some e => exact h.expr e f

/-- No expression gives back a value of its own: it only may hold calls, and these catch. -/
theorem Agrees.evalExpr (e : Expr) (f : FrameId) :
    T.evalExpr e f = lift (Lox.evalExpr E e f) := by
  cases e with
  | literal _ | stray _ | superMethod _ _ => rfl
  | grouping e => exact h.expr e f
  | «variable» use => exact congrArg (fun a => lift (a.look use f)) h.access
  | receiver use => exact congrArg (fun a => lift (a.look use f)) h.access
  | assign use value =>
    simp only [Thrower.evalExpr, Lox.evalExpr, h.expr, h.access, Throwing.lift_bind, Throwing.lift_pure]
  | unary op operand => simp only [Thrower.evalExpr, Lox.evalExpr, h.expr, Throwing.lift_bind]
  | binary left op right => simp only [Thrower.evalExpr, Lox.evalExpr, h.expr, Throwing.lift_bind]
  | logical left op right =>
    simp only [Thrower.evalExpr, Lox.evalExpr, h.expr, Throwing.lift_bind, Throwing.lift_ite,
      Throwing.lift_pure]
  | ternary cond yes no =>
    simp only [Thrower.evalExpr, Lox.evalExpr, h.expr, Throwing.lift_bind, Throwing.lift_ite]
  | call callee paren args =>
    simp only [Thrower.evalExpr, Lox.evalExpr, h.expr, h.evalArgs, h.callWith, Throwing.lift_bind]
  | get object name => simp only [Thrower.evalExpr, Lox.evalExpr, h.expr, Throwing.lift_bind]
  | set object name value =>
    rw [Thrower.evalExpr, Lox.evalExpr, h.expr, Throwing.lift_bind]
    refine bind_congr fun v => ?_
    cases v with
    | instanceRef id => simp only [h.expr, Throwing.lift_bind, Throwing.lift_pure]
    | _ => rfl

/-- A loop ends with the turn that gives back a value: neither its condition nor its body is
evaluated again. -/
theorem Agrees.execLoop (cond : Expr) (body : Stmt) (f : FrameId) : ∀ turns : Nat,
    T.execLoop cond body f turns = thrown (Lox.execLoop E cond body f turns)
  | 0 => rfl
  | turns + 1 => by
    unfold Thrower.execLoop Lox.execLoop
    rw [h.expr, h.stmt, execLoop cond body f turns, Throwing.thrown_bind]
    refine bind_congr fun v => ?_
    rw [Throwing.thrown_ite]
    congr 1
    symm
    exact Throwing.thrown_next rfl fun _ => rfl

theorem Agrees.evalSuperclass (use : NameUse) (f : FrameId) :
    T.evalSuperclass use f = lift (Lox.evalSuperclass E use f) := by
  unfold Thrower.evalSuperclass Lox.evalSuperclass
  rw [h.expr, Throwing.lift_bind]
  refine bind_congr fun v => ?_
  cases v <;> rfl

theorem Agrees.execClass (name : Mark) (superclass : Option NameUse) (methods : List Fun)
    (f : FrameId) :
    T.execClass name superclass methods f = lift (Lox.execClass E name superclass methods f) := by
  unfold Thrower.execClass Lox.execClass
  cases superclass with
  | none => simp only [Throwing.lift_bind, Throwing.lift_pure]
  | some use => simp only [h.evalSuperclass, Throwing.lift_bind, Throwing.lift_map]

theorem Agrees.execStmt (st : Stmt) (f : FrameId) :
    T.execStmt st f = thrown (Lox.execStmt E st f) := by
  cases st with
  | expr value =>
    rw [Thrower.execStmt, Lox.execStmt, h.expr, Throwing.thrown_behind, Throwing.lift_discard]
  | print value =>
    rw [Thrower.execStmt, Lox.execStmt, h.expr, Throwing.thrown_bind]
    exact bind_congr fun v => (Throwing.thrown_behind _).symm
  | var name initial =>
    rw [Thrower.execStmt, Lox.execStmt, h.evalOption, Throwing.thrown_bind]
    exact bind_congr fun v => (Throwing.thrown_behind _).symm
  | block body =>
    rw [Lox.execStmt, Throwing.thrown_bind]
    exact bind_congr fun inside => forM_thrown h.stmt inside body
  | branch cond yes no =>
    have hyes := h.stmt yes f
    cases no with
    | none =>
      simp only [Thrower.execStmt, Lox.execStmt, h.expr, hyes, Throwing.thrown_bind, Throwing.thrown_ite,
        Throwing.thrown_pure_next]
    | some no =>
      simp only [Thrower.execStmt, Lox.execStmt, h.expr, hyes, h.stmt no f, Throwing.thrown_bind,
        Throwing.thrown_ite]
  | loop cond body =>
    show T.execLoop cond body f T.turns = _
    rw [h.turns]
    exact h.execLoop cond body f E.turns
  | function decl =>
    rw [Lox.execStmt, Throwing.thrown_bind]
    exact bind_congr fun id => (Throwing.thrown_behind _).symm
  | giveBack keyword value =>
    rw [Thrower.execStmt, Lox.execStmt, h.evalOption, Throwing.thrown_bind]
    rfl
  | classDecl name superclass methods =>
    rw [Thrower.execStmt, Lox.execStmt, h.execClass]
    exact (Throwing.thrown_behind _).symm
  | stray node => rfl

end

/-- Watched evaluations agree, however many steps are left. -/
theorem agrees_watched (W : Watch) (access : Access) (turns : Nat) : ∀ steps spent,
    (watched W access turns steps spent).Agrees (Evaluator.watched W access turns steps spent)
  | 0, _ => by
    unfold watched Evaluator.watched
    exact ⟨rfl, rfl, fun _ _ => rfl, fun _ _ => rfl, fun _ _ => rfl⟩
  | steps + 1, spent + 1 => by
    unfold watched Evaluator.watched
    exact agrees_watched W access turns steps spent
  | steps + 1, 0 => by
    have hinner := agrees_watched W access turns steps
    unfold watched Evaluator.watched
    refine ⟨rfl, rfl, fun e f => ?_, fun st f => ?_, fun st f => ?_⟩ <;> dsimp only
    · rw [(hinner _).evalExpr, Throwing.lift_bind, Throwing.lift_placed]
    · rw [(hinner _).execStmt, Throwing.thrown_bind, Throwing.thrown_placed]
    · rw [(hinner _).execStmt, Throwing.thrown_bind, Throwing.thrown_placed]

end Thrower

/-- **Returns are as if thrown**, for any way to reach names, however many steps and turns are left, and
under any watch (with the quiet one it is plain evaluation): a call does what it does if a return
throws its value and the call, which is the only one to catch, catches it; with the same result or
fault, and the same store. A statement has the outcome that it throws, and a body that of its
statements one after the other. No value is thrown out of a call, so what called goes on. And a return
ends all of its own call: if a statement gives back a value, wherever it stands in the blocks, branches
and loops of a body, the body gives that back, from the very store that the return left. -/
theorem returns_are_thrown (W : Watch) (access : Access) (turns steps spent : Nat) :
    let inner := Evaluator.watched W access turns steps spent
    let thrower := Thrower.watched W access turns steps spent
    (W = .quiet → inner = Evaluator.within access turns steps spent) ∧
    (∀ id outer args, thrower.invoke id outer args = lift (invoke inner id outer args)) ∧
    (∀ e f, thrower.expr e f = lift (inner.expr e f)) ∧
    (∀ st f, thrower.stmt st f = thrown (inner.stmt st f)) ∧
    (∀ body f, (forM body fun st => thrower.called st f) = thrown (execBody inner.called body f)) ∧
    (∀ id outer args s v s', thrower.invoke id outer args s ≠ (.error (.value v), s')) ∧
    ∀ before st behind f s s₁ part v s',
      execBody inner.called before f s = (.ok .next, s₁) →
      Relation.ReflTransGen Task.Part ⟨inner.called, st, f, s₁⟩ part →
      part.run = (.ok (.returning v), s') →
      execBody inner.called (before ++ st :: behind) f s = (.ok (.returning v), s') := by
  have hagrees := Thrower.agrees_watched W access turns steps spent
  refine ⟨fun hquiet => ?_, hagrees.invoke, hagrees.expr, hagrees.stmt, fun body f => ?_,
    fun id outer args s v s' => ?_,
    fun before st behind f s s₁ part v s' hbefore hparts hpart => ?_⟩
  · subst hquiet
    exact Evaluator.watched_quiet access turns steps spent
  · exact Thrower.forM_thrown hagrees.called f body
  · rw [hagrees.invoke]
    exact Throwing.lift_ne_value _ s s' v
  · exact execBody_returning behind (Task.returning_of_parts hparts hpart) hbefore

/-- An endless loop ends at once if its body returns, and nothing is printed behind it. -/
theorem return_ends_endless_loop :
    execBody (Evaluator.watched .quiet .recorded 1 10 0).called
        [.loop (.literal (.bool true)) (.giveBack (.bare "return") none), .print (.literal .nil)] 0
        default =
      (.ok (.returning .nil), default) := by
  have hturn : Task.Part
      ⟨(Evaluator.watched .quiet .recorded 1 10 0).called,
        .loop (.literal (.bool true)) (.giveBack (.bare "return") none), 0, default⟩
      ⟨(Evaluator.watched .quiet .recorded 1 9 6).stmt, .giveBack (.bare "return") none, 0, default⟩ :=
    .turn ⟨fun _ => none, rfl⟩ rfl .none rfl rfl
  exact (returns_are_thrown .quiet .recorded 1 10 0).2.2.2.2.2.2 [] _ _ 0 _ _ _ .nil _ rfl
    (.single hturn) rfl

end Lox
