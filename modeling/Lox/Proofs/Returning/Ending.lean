/-
# What a return ends

A statement is executed in the course of another one of the same call: in a
block, in an arm of a branch, in a turn of a loop (`Lox.Task.Part`), or in a
part of such a one. If it gives back a value, the whole one gives that back
and ends then and there, from the store that the return left. A watch of the
run is asked nothing more, for the equation holds of whatever the run is: no
statement behind it is executed, no condition and no increment evaluated.

Key definitions: `Lox.Task`, `Lox.Task.Part`, `Lox.Turned`.
Key theorems: `Lox.Task.Part.returning`, `Lox.execBody_returning`.
-/
import Mathlib.Logic.Relation
import Lox.Proofs.Running.Watch

namespace Lox

open Procedure

/-- A statement that is to be executed: the way to do so, the frame, and the store. -/
structure Task where
  exec : Stmt → FrameId → Run Flow
  stmt : Stmt
  frame : FrameId
  store : Store

/-- What comes of it. -/
def Task.run (t : Task) : Except Fault Flow × Store := t.exec t.stmt t.frame t.store

/-- The statement is executed now, by these evaluations further in. -/
def Task.Enters (t : Task) (inner : Evaluator) : Prop :=
  ∃ offset, t.run = Run.placed offset (execStmt inner t.stmt t.frame) t.store

/-- Some turns of a loop that end normally, each behind its condition: the turns that are left then,
and the store. -/
inductive Turned (inner : Evaluator) (cond : Expr) (body : Stmt) (f : FrameId) :
    Nat → Store → Nat → Store → Prop
  | none {turns s} : Turned inner cond body f turns s turns s
  | one {turns s v s₁ s₂ left s'} : inner.expr cond f s = (.ok v, s₁) → v.truthy →
    inner.stmt body f s₁ = (.ok .next, s₂) → Turned inner cond body f turns s₂ left s' →
    Turned inner cond body f (turns + 1) s left s'

/-- The second statement is executed next in the course of the first one: behind others in a block, in
an arm of a branch, or in a turn of a loop. -/
inductive Task.Part : Task → Task → Prop
  | block {t inner before st behind s} : t.Enters inner → t.stmt = .block (before ++ st :: behind) →
    execBody inner.stmt before t.store.frames.size (t.store.withFrame (some t.frame)) =
      (.ok .next, s) →
    Task.Part t ⟨inner.stmt, st, t.store.frames.size, s⟩
  | yes {t inner cond yes no v s} : t.Enters inner → t.stmt = .branch cond yes no →
    inner.expr cond t.frame t.store = (.ok v, s) → v.truthy →
    Task.Part t ⟨inner.stmt, yes, t.frame, s⟩
  | no {t inner cond yes no v s} : t.Enters inner → t.stmt = .branch cond yes (some no) →
    inner.expr cond t.frame t.store = (.ok v, s) → v.truthy = false →
    Task.Part t ⟨inner.stmt, no, t.frame, s⟩
  | turn {t inner cond body left s v s'} : t.Enters inner → t.stmt = .loop cond body →
    Turned inner cond body t.frame inner.turns t.store (left + 1) s →
    inner.expr cond t.frame s = (.ok v, s') → v.truthy →
    Task.Part t ⟨inner.stmt, body, t.frame, s'⟩

section

variable {exec : Stmt → FrameId → Run Flow} {inner : Evaluator} {cond : Expr} {body : Stmt} {f : FrameId}
  {s s₁ s' : Store} {v w : Value}

/-- Behind turns that end normally a loop goes on as with the turns that are left. -/
theorem Turned.execLoop {turns left : Nat} (h : Turned inner cond body f turns s left s') :
    execLoop inner cond body f turns s = Lox.execLoop inner cond body f left s' := by
  induction h with
  | none => rfl
  | one hcond hv hbody _ ih =>
    rw [Lox.execLoop, bind_ok hcond, if_pos hv, bind_ok hbody]
    exact ih

/-- A turn that gives back a value is the last one. -/
theorem execLoop_returning {turns left : Nat} (hturned : Turned inner cond body f turns s (left + 1) s₁)
    {s₂ : Store} (hcond : inner.expr cond f s₁ = (.ok w, s₂)) (hw : w.truthy)
    (hbody : inner.stmt body f s₂ = (.ok (.returning v), s')) :
    execLoop inner cond body f turns s = (.ok (.returning v), s') := by
  rw [hturned.execLoop, Lox.execLoop, bind_ok hcond, if_pos hw, bind_ok hbody]
  rfl

/-- A statement that gives back a value is the last one of a body. -/
theorem execBody_returning {st : Stmt} (behind : List Stmt)
    (hst : exec st f s₁ = (.ok (.returning v), s')) : ∀ {before : List Stmt} {s : Store},
    execBody exec before f s = (.ok .next, s₁) →
    execBody exec (before ++ st :: behind) f s = (.ok (.returning v), s')
  | [], s, hbefore => by
    cases hbefore
    rw [List.nil_append, execBody, bind_ok hst]
    rfl
  | first :: before, s, hbefore => by
    obtain ⟨flow, s₂, hfirst, hrest⟩ := exists_of_bind hbefore
    rw [List.cons_append, execBody, bind_ok hfirst]
    cases flow with
    | next => exact execBody_returning behind hst hrest
    | returning _ => cases hrest

namespace Task

variable {t u : Task}

/-- What is executed in the course of a statement ends it, if it gives back a value. -/
theorem Part.returning (h : t.Part u) (hu : u.run = (.ok (.returning v), s')) :
    t.run = (.ok (.returning v), s') := by
  cases h with
  | block hinner hst hbefore =>
    obtain ⟨offset, hrun⟩ := hinner
    rw [hrun, hst]
    exact placed_ok (execBody_returning _ hu hbefore)
  | yes hinner hst hcond hw =>
    obtain ⟨offset, hrun⟩ := hinner
    rw [hrun, hst]
    refine placed_ok ?_
    refine (bind_ok hcond).trans ?_
    rw [if_pos hw]
    exact hu
  | no hinner hst hcond hw =>
    obtain ⟨offset, hrun⟩ := hinner
    rw [hrun, hst]
    refine placed_ok ?_
    refine (bind_ok hcond).trans ?_
    rw [if_neg (by simp [hw])]
    exact hu
  | turn hinner hst hturned hcond hw =>
    obtain ⟨offset, hrun⟩ := hinner
    rw [hrun, hst]
    exact placed_ok (execLoop_returning hturned hcond hw hu)

/-- And so it is of what is executed in the course of its parts. -/
theorem returning_of_parts (h : Relation.ReflTransGen Part t u)
    (hu : u.run = (.ok (.returning v), s')) : t.run = (.ok (.returning v), s') := by
  induction h with
  | refl => exact hu
  | tail _ hpart ih => exact ih (hpart.returning hu)

end Task

end

end Lox
