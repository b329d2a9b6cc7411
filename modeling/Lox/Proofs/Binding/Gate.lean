/-
# Programs that pass the gates

A program of which no pass makes a report: each of its statements fits the
limit, so binding its names reads it without regard to depth, and nothing is
reported behind the whole.

Key definitions: `Lox.resolveTops`.
Key theorems: `Lox.resolve_of_silent`, `Lox.resolve_of_fits`, `Lox.resolveExpression_of_silent`,
`Lox.clean_of_resolve`.
-/
import Lox.Proofs.Binding.Settled

namespace Lox

open Scoping

/-- The statements of the top level, one after the other. -/
def resolveTops (steps : Nat) (stmts : List Stmt) : Resolve (List Stmt) :=
  stmts.mapM (resolveTop steps)

theorem run_resolveTops_cons (steps : Nat) (s : Stmt) (stmts : List Stmt) (σ : Scoping) :
    (resolveTops steps (s :: stmts)).run σ =
      (((resolveTop steps s).run σ).1 ::
          ((resolveTops steps stmts).run ((resolveTop steps s).run σ).2).1,
        ((resolveTops steps stmts).run ((resolveTop steps s).run σ).2).2) := by
  simp only [resolveTops, List.mapM_cons]
  rfl

theorem run_resolveTop_of_fits {steps : Nat} {s : Stmt} (h : s.fits steps = true) (σ : Scoping) :
    (resolveTop steps s).run σ = (σ.boundStmt s, σ.behindStmt s) := by
  rw [resolveTop, if_pos h]
  rfl

/-- A statement that is too deep is reported. -/
theorem not_silent_resolveTop {steps : Nat} {s : Stmt} (h : s.fits steps = false) (σ : Scoping) :
    ¬ ((resolveTop steps s).run σ).2.Silent := by
  rw [resolveTop, if_neg (by simp [h])]
  show ¬ (Scoping.restart (s.offset?.getD 0) ((resolveStmt (some steps) s).run σ).2).Silent
  simp [Silent, restart]

/-- What was reported stays reported. -/
theorem silent_of_resolveTops {steps : Nat} : ∀ (stmts : List Stmt) (σ : Scoping),
    ((resolveTops steps stmts).run σ).2.Silent → σ.Silent
  | [], _, h => h
  | s :: stmts, σ, h => by
    rw [run_resolveTops_cons] at h
    have hs := silent_of_resolveTops stmts _ h
    cases hf : s.fits steps with
    | false => exact absurd hs (not_silent_resolveTop hf σ)
    | true =>
      rw [run_resolveTop_of_fits hf] at hs
      exact hs.of_le (le_behindStmt s σ)

theorem run_resolveTops_of_silent {steps : Nat} : ∀ {stmts : List Stmt} {σ : Scoping},
    ((resolveTops steps stmts).run σ).2.Silent →
      bodyFits stmts steps = true ∧
        (resolveTops steps stmts).run σ = (σ.boundBody stmts, σ.behindBody stmts)
  | [], _, _ => ⟨rfl, rfl⟩
  | s :: stmts, σ, h => by
    rw [run_resolveTops_cons] at h ⊢
    have hs := silent_of_resolveTops stmts _ h
    cases hf : s.fits steps with
    | false => exact absurd hs (not_silent_resolveTop hf σ)
    | true =>
      rw [run_resolveTop_of_fits hf] at h ⊢
      obtain ⟨hfits, heq⟩ := run_resolveTops_of_silent h
      dsimp only at heq ⊢
      rw [heq]
      exact ⟨by simp [bodyFits, hf, hfits], rfl⟩

variable {limits : Limits} {stmts : List Stmt}

/-- A program without a misuse is bound statement by statement. -/
theorem resolve_of_silent (h : (resolve limits stmts).diagnostics = []) :
    bodyFits stmts limits.steps = true ∧
      (resolve limits stmts).stmts = Scoping.initial.boundBody stmts ∧
        (Scoping.initial.behindBody stmts).Silent := by
  have herrors : (resolve limits stmts).errors = [] := List.map_eq_nil_iff.mp h
  have hsilent : ((resolveTops limits.steps stmts).run .initial).2.Silent := by
    rw [Silent, Array.size_eq_zero_iff, ← Array.toList_eq_nil_iff]
    exact herrors
  obtain ⟨hfits, hrun⟩ := run_resolveTops_of_silent hsilent
  have hstmts : (resolve limits stmts).stmts = ((resolveTops limits.steps stmts).run .initial).1 :=
    rfl
  refine ⟨hfits, ?_, ?_⟩
  · rw [hstmts, hrun]
  · rwa [hrun] at hsilent

theorem run_resolveTops_of_fits {steps : Nat} : ∀ {stmts : List Stmt} (σ : Scoping),
    bodyFits stmts steps = true →
      (resolveTops steps stmts).run σ = (σ.boundBody stmts, σ.behindBody stmts)
  | [], _, _ => rfl
  | s :: stmts, σ, h => by
    unfold bodyFits at h
    obtain ⟨hs, hstmts⟩ := Bool.and_eq_true_iff.mp h
    rw [run_resolveTops_cons, run_resolveTop_of_fits hs, run_resolveTops_of_fits _ hstmts]
    rfl

/-- A program whose statements fit the limit is bound statement by statement, and without a misuse if
nothing is reported behind them. -/
theorem resolve_of_fits (hfits : bodyFits stmts limits.steps = true)
    (h : (Scoping.initial.behindBody stmts).Silent) :
    (resolve limits stmts).diagnostics = [] ∧
      (resolve limits stmts).stmts = Scoping.initial.boundBody stmts := by
  have hrun := run_resolveTops_of_fits .initial hfits
  have hstmts : (resolve limits stmts).stmts = ((resolveTops limits.steps stmts).run .initial).1 :=
    rfl
  have herrors : (resolve limits stmts).errors =
      ((resolveTops limits.steps stmts).run .initial).2.errors.toList := rfl
  refine ⟨?_, by rw [hstmts, hrun]⟩
  rw [Resolution.diagnostics, herrors, hrun, List.map_eq_nil_iff, Array.toList_eq_nil_iff]
  exact Array.size_eq_zero_iff.mp h

/-- The whole of a program that the gates let pass. -/
theorem clean_of_resolve (hr : bodyRegular stmts) (h : (resolve limits stmts).diagnostics = []) :
    (Visit.whole stmts).Clean :=
  ⟨hr, (resolve_of_silent h).2.2⟩

/-- An expression that stands alone is bound as a statement. -/
theorem resolveExpression_of_silent {e : Expr} (h : (resolveExpression limits e).2 = []) :
    (resolve limits [.expr e]).diagnostics = [] ∧
      (resolveExpression limits e).1 = Scoping.initial.boundExpr e := by
  have hsecond : (resolveExpression limits e).2 = (resolve limits [.expr e]).errors := by
    unfold resolveExpression
    dsimp only
    split <;> rfl
  have hd : (resolve limits [.expr e]).diagnostics = [] :=
    List.map_eq_nil_iff.mpr (hsecond.symm.trans h)
  refine ⟨hd, ?_⟩
  have hstmts : (resolve limits [.expr e]).stmts = [.expr (Scoping.initial.boundExpr e)] :=
    (resolve_of_silent hd).2.1
  unfold resolveExpression
  dsimp only
  rw [hstmts]

end Lox
