/-
# What statements may give back

A return gives back to the call around it. The pass of names notes one that
stands in no function, and one with a value in an initializer. So what is left
of returns in a program without reports is fit for the function that they
stand in (`Lox.Stmt.ReturnsIn`), and a statement ends as is allowed there
(`Lox.FunctionKind.Allows`): at the top level normally, and in an initializer
normally or without a value. This needs nothing to be known of the frames.

Key definitions: `Lox.FunctionKind.Allows`, `Lox.Stmt.ReturnsIn`, `Lox.Run.Results`.
Key theorems: `Lox.returnsIn_boundStmt`, `Lox.returnsIn_boundFunction`,
`Lox.Evaluator.results_within`.
-/
import Lox.Evaluation
import Lox.Proofs.Running.Expressions

namespace Lox

open Procedure

/-- What is in a function of the kind may end so: nothing is given back at the top level, and no value
in an initializer. -/
def FunctionKind.Allows (kind : FunctionKind) : Flow → Prop
  | .next => True
  | .returning v => kind ≠ .none ∧ (kind = .initializer → v = .nil)

mutual

/-- The returns of the statement, but for those of functions in it, may stand in a function of the
kind. -/
def Stmt.ReturnsIn (kind : FunctionKind) : Stmt → Prop
  | .block body => bodyReturnsIn kind body
  | .branch _ yes none => yes.ReturnsIn kind
  | .branch _ yes (some no) => yes.ReturnsIn kind ∧ no.ReturnsIn kind
  | .loop _ body => body.ReturnsIn kind
  | .giveBack _ value => kind ≠ .none ∧ (kind = .initializer → value = none)
  | .expr _ | .print _ | .var _ _ | .function _ | .classDecl _ _ _ | .stray _ => True

def bodyReturnsIn (kind : FunctionKind) : List Stmt → Prop
  | [] => True
  | stmt :: body => stmt.ReturnsIn kind ∧ bodyReturnsIn kind body

end

theorem returnsIn_of_mem {kind : FunctionKind} {stmt : Stmt} : ∀ {body : List Stmt},
    bodyReturnsIn kind body → stmt ∈ body → stmt.ReturnsIn kind
  | _ :: _, h, .head _ => h.1
  | _ :: _, h, .tail _ hmem => returnsIn_of_mem h.2 hmem

/-! ### What the pass of names lets through -/

namespace Scoping

variable {σ : Scoping}

theorem behind_function (s : Stmt) : (σ.behind s).function = σ.function := by
  unfold behind
  split
  · exact define_function ..
  · rfl

theorem defineAll_function : ∀ (params : List Mark) (σ : Scoping),
    (σ.defineAll params).function = σ.function
  | [], _ => rfl
  | m :: params, σ => (defineAll_function params (σ.define m)).trans (define_function σ m)

/-- A return without reports is in a function, and one with a value in no initializer. -/
theorem function_of_silent_giveBack {keyword : Mark} (h : (σ.givingBack keyword).Silent) :
    σ.function ≠ .none ∧ σ.function ≠ .initializer := by
  unfold givingBack at h
  dsimp only at h
  refine ⟨fun hn => ?_, fun hi => ?_⟩
  · have hi : (σ.note .returnOutside keyword).function ≠ .initializer := by
      show σ.function ≠ _
      rw [hn]
      decide
    rw [if_pos hn, if_neg hi] at h
    exact not_silent_note _ _ h
  · have hn : σ.function ≠ .none := by
      rw [hi]
      decide
    rw [if_neg hn, if_pos hi] at h
    exact not_silent_note _ _ h

end Scoping

section

variable {P : Visit → Prop} (hst : Stock P)

include hst

mutual

/-- The returns of a place may stand in the function that it is in. -/
theorem returnsIn_boundStmt : ∀ {s : Stmt} {σ : Scoping} {os : List Opener}, P ⟨.stmt s, σ, os⟩ →
    (σ.boundStmt s).ReturnsIn σ.function
  | .expr _, _, _, _ | .print _, _, _, _ | .function _, _, _, _ | .var _ none, _, _, _
  | .classDecl _ none _, _, _, _ | .stray _, _, _, _ => trivial
  | .var name (some e), σ, _, _ => by
    rw [Scoping.boundStmt_var]
    trivial
  | .classDecl name (some use) ms, σ, _, _ => by
    rw [Scoping.boundStmt_subclass]
    trivial
  | .block body, σ, _, hP => bodyReturnsIn_boundBody (σ := σ.enter []) (hst.part hP (List.mem_singleton_self _))
  | .branch cond yes none, σ, os, hP => by
    have hPcond : P ⟨.expr cond, σ, os⟩ := hst.part hP (List.mem_cons_self ..)
    have hPyes : P ⟨.stmt yes, σ.behindExpr cond, os⟩ := hst.part hP (by simp [Visit.parts])
    show ((σ.behindExpr cond).boundStmt yes).ReturnsIn σ.function
    rw [hst.behindExpr_eq hPcond] at hPyes ⊢
    exact returnsIn_boundStmt hPyes
  | .branch cond yes (some no), σ, os, hP => by
    have hPcond : P ⟨.expr cond, σ, os⟩ := hst.part hP (List.mem_cons_self ..)
    have hPyes : P ⟨.stmt yes, σ.behindExpr cond, os⟩ := hst.part hP (by simp [Visit.parts])
    have hPno : P ⟨.stmt no, (σ.behindExpr cond).behindStmt yes, os⟩ :=
      hst.part hP (by simp [Visit.parts])
    show ((σ.behindExpr cond).boundStmt yes).ReturnsIn σ.function ∧
      (((σ.behindExpr cond).behindStmt yes).boundStmt no).ReturnsIn σ.function
    rw [hst.behindExpr_eq hPcond] at hPyes hPno ⊢
    have hfunction : (σ.behindStmt yes).function = σ.function := by
      rw [hst.behindStmt_eq hPyes, Scoping.behind_function]
    exact ⟨returnsIn_boundStmt hPyes, hfunction ▸ returnsIn_boundStmt hPno⟩
  | .loop cond body, σ, os, hP => by
    have hPcond : P ⟨.expr cond, σ, os⟩ := hst.part hP (List.mem_cons_self ..)
    have hPbody : P ⟨.stmt body, σ.behindExpr cond, os⟩ := hst.part hP (by simp [Visit.parts])
    show ((σ.behindExpr cond).boundStmt body).ReturnsIn σ.function
    rw [hst.behindExpr_eq hPcond] at hPbody ⊢
    exact returnsIn_boundStmt hPbody
  | .giveBack keyword none, σ, os, hP => by
    have hsilent := (hst.clean hP).silent
    show (σ.boundStmt (.giveBack keyword none)).ReturnsIn σ.function
    rw [Scoping.boundStmt_giveBack_none]
    refine ⟨fun hn => ?_, fun _ => rfl⟩
    have hsilent : (σ.behindStmt (.giveBack keyword none)).Silent := hsilent
    rw [Scoping.behindStmt_giveBack_none, if_pos hn] at hsilent
    exact Scoping.not_silent_note _ _ hsilent
  | .giveBack keyword (some e), σ, os, hP => by
    have hPe : P ⟨.expr e, σ.givingBack keyword, os⟩ := hst.part hP (List.mem_singleton_self _)
    obtain ⟨hnone, hinit⟩ := Scoping.function_of_silent_giveBack
      ((hst.clean hPe).silent.of_le (Scoping.le_behindExpr e (σ.givingBack keyword)))
    rw [Scoping.boundStmt_giveBack]
    exact ⟨hnone, fun h => absurd h hinit⟩

theorem bodyReturnsIn_boundBody : ∀ {body : List Stmt} {σ : Scoping} {os : List Opener},
    P ⟨.body body, σ, os⟩ → bodyReturnsIn σ.function (σ.boundBody body)
  | [], _, _, _ => trivial
  | s :: body, σ, os, hP => by
    have hPs : P ⟨.stmt s, σ, os⟩ := hst.part hP (List.mem_cons_self ..)
    have hPbody : P ⟨.body body, σ.behindStmt s, os⟩ := hst.part hP (by simp [Visit.parts])
    have hfunction : (σ.behindStmt s).function = σ.function := by
      rw [hst.behindStmt_eq hPs, Scoping.behind_function]
    exact ⟨returnsIn_boundStmt hPs, hfunction ▸ bodyReturnsIn_boundBody hPbody⟩

end

/-- The returns of a function may stand in one of its kind. -/
theorem returnsIn_boundFunction {kind : FunctionKind} {decl : Fun} {σ : Scoping} {os : List Opener}
    (hP : P ⟨.function kind decl, σ, os⟩) : bodyReturnsIn kind (σ.boundFunction kind decl).body := by
  obtain ⟨name, params, body⟩ := decl
  have hPbody : P ⟨.body body, σ.enteringFunction kind params, .call ⟨name, params, body⟩ :: os⟩ :=
    hst.part hP (List.mem_singleton_self _)
  have hentering := Scoping.enteringFunction_of_silent
    ((hst.clean hPbody).silent.of_le (Scoping.le_behindBody body (σ.enteringFunction kind params)))
  have hfunction : (σ.enteringFunction kind params).function = kind := by
    rw [hentering, Scoping.defineAll_function]
  have hbody := bodyReturnsIn_boundBody hst hPbody
  rw [hfunction] at hbody
  exact hbody

end

/-! ### What evaluation makes of it -/

section

variable {α β : Type}

/-- Whatever the procedure results in, from wherever it starts. -/
def Run.Results (p : Run α) (Q : α → Prop) : Prop := ∀ s a s', p s = (.ok a, s') → Q a

namespace Run.Results

variable {p : Run α} {Q : α → Prop} {R : β → Prop}

theorem pure {a : α} (h : Q a) : Results (Pure.pure a : Run α) Q := by
  intro s b s' hrun
  cases hrun
  exact h

theorem halt (fault : Fault) : Results (Procedure.halt fault : Run α) Q := by
  intro s a s' hrun
  cases hrun

theorem bind {f : α → Run β} (h : Results p Q) (hf : ∀ a, Q a → Results (f a) R) :
    Results (p >>= f) R := by
  intro s b s' hrun
  obtain ⟨a, s₁, hp, hrun⟩ := exists_of_bind hrun
  exact hf a (h s a s₁ hp) s₁ b s' hrun

/-- What comes last decides. -/
theorem after {f : α → Run β} (hf : ∀ a, Results (f a) R) : Results (p >>= f) R :=
  bind (fun _ _ _ _ => trivial) fun a (_ : True) => hf a

theorem placed {offset : Unit → Option Int} (h : Results p Q) : Results (Run.placed offset p) Q :=
  fun s a s' hrun => h s a s' (of_placed_ok hrun)

end Run.Results

end

section

variable {kind : FunctionKind} {f : FrameId}

theorem results_execBody {exec : Stmt → FrameId → Run Flow}
    (hexec : ∀ s, s.ReturnsIn kind → (exec s f).Results kind.Allows) :
    ∀ {body : List Stmt}, bodyReturnsIn kind body → (execBody exec body f).Results kind.Allows
  | [], _ => .pure trivial
  | s :: body, h => by
    refine (hexec s h.1).bind fun flow hflow => ?_
    cases flow with
    | next => exact results_execBody hexec h.2
    | returning v => exact .pure hflow

variable {inner : Evaluator} (hinner : ∀ s f, s.ReturnsIn kind → (inner.stmt s f).Results kind.Allows)

include hinner

theorem results_execLoop {cond : Expr} {body : Stmt} (h : body.ReturnsIn kind) :
    ∀ turns, (execLoop inner cond body f turns).Results kind.Allows
  | 0 => .halt _
  | turns + 1 => by
    refine .after fun v => ?_
    split
    · refine (hinner body f h).bind fun flow hflow => ?_
      cases flow with
      | next => exact results_execLoop h turns
      | returning v => exact .pure hflow
    · exact .pure trivial

/-- A statement ends as is allowed where its returns may stand. -/
theorem results_execStmt {s : Stmt} (h : s.ReturnsIn kind) :
    (execStmt inner s f).Results kind.Allows := by
  cases s with
  | expr _ | classDecl _ _ _ => exact .after fun _ => .pure trivial
  | print _ | var _ _ | function _ => exact .after fun _ => .after fun _ => .pure trivial
  | block body => exact .after fun inside => results_execBody (fun s => hinner s inside) h
  | branch cond yes no =>
    refine .after fun v => ?_
    cases no with
    | none =>
      split
      · exact hinner yes f h
      · exact .pure trivial
    | some no =>
      split
      · exact hinner yes f h.1
      · exact hinner no f h.2
  | loop cond body => exact results_execLoop hinner (show body.ReturnsIn kind from h) _
  | giveBack keyword value =>
    obtain ⟨hnone, hinit⟩ := h
    cases value with
    | none =>
      have hnil : (Pure.pure Value.nil : Run Value).Results (· = .nil) := .pure rfl
      exact hnil.bind fun v hv => .pure ⟨hnone, fun _ => hv⟩
    | some e => exact .after fun v => .pure ⟨hnone, fun hi => nomatch hinit hi⟩
  | stray _ => exact .halt _

end

/-- However many steps are left, a statement ends as is allowed where its returns may stand. -/
theorem Evaluator.results_within (kind : FunctionKind) (access : Access) (turns : Nat) :
    ∀ steps spent, (∀ s f, s.ReturnsIn kind →
      ((within access turns steps spent).stmt s f).Results kind.Allows) ∧
        ∀ s f, s.ReturnsIn kind → ((within access turns steps spent).called s f).Results kind.Allows
  | 0, _ => by
    unfold within
    exact ⟨fun _ _ _ => .halt _, fun _ _ _ => .halt _⟩
  | steps + 1, spent + 1 => by
    unfold within
    exact results_within kind access turns steps spent
  | steps + 1, 0 => by
    unfold within
    have hinner n := (results_within kind access turns steps n).1
    refine ⟨fun s f h => ?_, fun s f h => ?_⟩ <;> dsimp only
    · exact (results_execStmt (hinner s.stepsIn) h).placed
    · exact (results_execStmt (hinner (callSteps + s.stepsIn)) h).placed

end Lox
