/-
# What the other passes may rely on

Every tree that the parser gives is well formed, whether or not it found
errors: all its leaves come from tokens of the right kinds. So the passes
behind it meet each node where they expect one of its label, and each operator
among those that they know. The tree can be written, its names can be bound,
and it runs, before its names are bound and after.

Key definitions: `Lox.Expr.Serves`, `Lox.Stmt.Serves`.
Key theorems: `Lox.parse_serves`.
-/
import Lox.Proofs.Wellformed.Layout
import Lox.Proofs.Wellformed.Resolving
import Lox.Proofs.Wellformed.Running
import Lox.Proofs.Wellformed.Yielding

namespace Lox

/-- The program suits the other passes: it is well formed and can be written, no node is out of place
when its names are bound, and it runs undisturbed in every sane store. -/
structure Stmt.Serves (stmts : List Stmt) : Prop where
  wellFormed : ∀ s ∈ stmts, s.WellFormed
  written : ∀ s ∈ stmts, s.toNode.written = .ok s.render
  bound : ∀ limits, (resolve limits stmts).misplaced = none
  runs : ∀ limits store, store.Sane → Undisturbed (interpret limits stmts store)
  runsBound : ∀ limits limits' store, store.Sane →
    Undisturbed (interpret limits' (resolve limits stmts).stmts store)

/-- The expression suits the other passes as a program does. -/
structure Expr.Serves (e : Expr) : Prop where
  wellFormed : e.WellFormed
  written : e.toNode.written = .ok e.render
  bound : ∀ limits, (resolve limits [.expr e]).misplaced = none
  runs : ∀ limits store, store.Sane → Undisturbed (interpretExpr limits e store)
  runsBound : ∀ limits limits' store, store.Sane →
    Undisturbed (interpretExpr limits' (resolveExpression limits e).1 store)

theorem Evaluator.Safe.ofLimits (limits : Limits) : (ofLimits limits).Safe :=
  .within limits.turns limits.steps 0

/-- Well-formed statements are all that the other passes rely on. -/
theorem Stmt.Serves.of_wellFormed {stmts : List Stmt} (h : ∀ s ∈ stmts, s.WellFormed) :
    Stmt.Serves stmts := by
  have hover : ∀ s ∈ stmts, s.Over .known := fun s hs => (h s hs).over
  exact
    { wellFormed := h
      written := fun s hs => (h s hs).written
      bound := fun limits => (resolve_over limits hover).1
      runs := fun limits _ hs => undisturbed_interpretWith (.ofLimits limits) hover hs
      runsBound := fun limits limits' _ hs =>
        undisturbed_interpretWith (.ofLimits limits') (resolve_over limits hover).2 hs }

theorem resolveExpression_over (limits : Limits) {e : Expr} (he : e.Over .known) :
    (resolveExpression limits e).1.Over .known := by
  obtain ⟨-, hstmts⟩ := resolve_over limits (List.forall_mem_singleton.mpr (Stmt.Over.expr he))
  unfold resolveExpression
  dsimp only
  split
  · rename_i resolved heq
    rw [heq] at hstmts
    cases List.forall_mem_singleton.mp hstmts with
    | expr hresolved => exact hresolved
  · exact he

/-- A well-formed expression is all that the other passes rely on. -/
theorem Expr.Serves.of_wellFormed {e : Expr} (h : e.WellFormed) : e.Serves where
  wellFormed := h
  written := h.written
  bound limits := (resolve_over limits (List.forall_mem_singleton.mpr (Stmt.Over.expr h.over))).1
  runs limits _ hs := undisturbed_interpretExprWith (.ofLimits limits) h.over hs
  runsBound limits limits' _ hs :=
    undisturbed_interpretExprWith (.ofLimits limits') (resolveExpression_over limits h.over) hs

/-- **What the parser gives is well formed.** Whatever the tokens, and whatever was wrong with them, the
trees of a program and the tree of an expression have at every depth the children that their labels
ask for, with operators that there are for the label. So each has a written form; no pass that binds
names or runs it meets a node out of place; and no operator is reported as unsupported, from the
first store on and in every store that such runs lead to. -/
theorem parse_serves (limits : Limits) (tokens : List Token) :
    Stmt.Serves (parse limits tokens).stmts ∧
    (∀ e ∈ parseExpression? limits tokens, e.Serves) ∧
    ∀ clock, (Store.initial clock).Sane := by
  refine ⟨.of_wellFormed fun s hs => ?_, fun e he => .of_wellFormed ?_, Store.sane_initial⟩
  · exact (over_of_parse limits tokens s hs).wellFormed
  · exact (over_of_parseExpression? limits tokens e he).wellFormed

end Lox
