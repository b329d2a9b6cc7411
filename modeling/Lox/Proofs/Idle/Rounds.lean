/-
# For-loops as they are meant

A for-loop opens one scope and runs its initializer there. Then it evaluates
the condition, where a missing one holds, and takes a turn as long as that
holds: it executes the body, and then evaluates the increment, if the body
ended normally. What the body gives back ends the loop at once. All turns take
place in the one frame of the loop (`Lox.ForLoop.run`). Condition, increment
and body are bound behind the initializer (`Lox.ForLoop.bound`).

The tree that stands for a for-loop has the increment behind the body, in a
block of its own. Nothing is bound in the frame of that block, so that the
tree's rounds are those of the loop without idle frames.

Key definitions: `Lox.ForLoop`, `Lox.ForLoop.bound`, `Lox.ForLoop.run`, `Lox.ForLoop.whole`.
Key theorems: `Lox.ForLoop.tracks_turn`, `Lox.ForLoop.tracks_rounds`, `Lox.ForLoop.tracks_inFrame`.
-/
import Lox.Proofs.Idle.Opening

namespace Lox

open Procedure

/-- The parts of a for-loop. -/
structure ForLoop where
  initializer : Option Stmt
  cond : Option Expr
  increment : Option Expr
  body : Stmt

namespace ForLoop

variable (l : ForLoop)

/-! ### What the loop means -/

/-- The scopes behind the initializer, in the scope of the loop. -/
def inside (σ : Scoping) : Scoping :=
  match l.initializer with
  | none => σ.enter []
  | some s => (σ.enter []).behindStmt s

/-- The loop with its names bound: the initializer in the scope of the loop, all else behind it. -/
def bound (σ : Scoping) : ForLoop where
  initializer := l.initializer.map (σ.enter []).boundStmt
  cond := l.cond.map (l.inside σ).boundExpr
  increment := l.increment.map (l.inside σ).boundExpr
  body := (l.inside σ).boundStmt l.body

/-- Each part of the loop is bound without a report and leaves the scope of the loop as it is for the
other parts. Outside, the scopes are what they were. -/
structure Settles (σ : Scoping) : Prop where
  silent : (l.inside σ).Silent
  cond : ∀ e ∈ l.cond, (l.inside σ).behindExpr e = l.inside σ
  increment : ∀ e ∈ l.increment, (l.inside σ).behindExpr e = l.inside σ
  body : (l.inside σ).behindStmt l.body = l.inside σ
  outside : (l.inside σ).leave = σ

/-- The steps on the way to the body; those on the way to the increment are two more. They are the ones
of the tree, and count only where a run is nested too deeply. -/
def bodySteps : Nat := if l.increment.isSome then 5 else 2

/-- The initializer, if there is one. -/
def start (inner : Nat → Evaluator) (f : FrameId) : Run Flow :=
  match l.initializer with
  | none => return .next
  | some s => (inner 0).stmt s f

/-- The condition; a missing one holds. -/
def holds (inner : Nat → Evaluator) (f : FrameId) : Run Bool :=
  match l.cond with
  | none => return true
  | some e => return (← (inner 2).expr e f).truthy

/-- The increment, if there is one. -/
def advance (inner : Nat → Evaluator) (f : FrameId) : Run Unit :=
  match l.increment with
  | none => return ()
  | some e => discard ((inner 7).expr e f)

/-- The body; and the increment, if the body ends normally. -/
def turn (inner : Nat → Evaluator) (f : FrameId) : Run Flow := do
  match ← (inner l.bodySteps).stmt l.body f with
  | .next =>
    l.advance inner f
    return .next
  | .returning v => return .returning v

/-- Turns as long as the condition holds, so many at most. -/
def rounds (inner : Nat → Evaluator) (f : FrameId) : Nat → Run Flow
  | 0 => halt .exhausted
  | turns + 1 => do
    if ← l.holds inner f then
      match ← l.turn inner f with
      | .next => rounds inner f turns
      | .returning v => return .returning v
    else
      return .next

/-- The initializer, and the rounds behind it. -/
def inFrame (inner : Nat → Evaluator) (turns : Nat) (g : FrameId) : Run Flow := do
  match ← l.start inner g with
  | .next => l.rounds inner g turns
  | .returning v => return .returning v

/-- The loop, in a frame of its own. -/
def run (inner : Nat → Evaluator) (turns : Nat) (f : FrameId) : Run Flow := do
  let g ← Run.newFrame (some f)
  l.inFrame inner turns g

/-! ### The tree that stands for it -/

/-- The tree that stands for the loop. -/
def stmt : Stmt := forLoop l.initializer l.cond l.increment l.body

/-- The condition in the tree. -/
def test : Expr := l.cond.getD (.literal (.bool true))

/-- What the tree repeats. -/
def repeated : Stmt :=
  match l.increment with
  | none => l.body
  | some e => .block [l.body, .expr e]

/-- What the scope of the loop is opened for. -/
def inScope : List Stmt := l.initializer.toList ++ [.loop l.test l.repeated]

/-- The tree with a block for the scope of the loop, also where there is no initializer. -/
def whole : Stmt := .block l.inScope

theorem stmt_of_none (h : l.initializer = none) : l.stmt = .loop l.test l.repeated := by
  rw [stmt, h]
  rfl

theorem stmt_of_some {s : Stmt} (h : l.initializer = some s) :
    l.stmt = .block [s, .loop l.test l.repeated] := by
  rw [stmt, h]
  rfl

theorem declared?_stmt : l.stmt.declared? = none := by
  cases h : l.initializer with
  | none => rw [l.stmt_of_none h]; rfl
  | some s => rw [l.stmt_of_some h]; rfl

end ForLoop

/-! ### Steps -/

namespace Evaluator

variable {access : Access} {turns : Nat}

theorem expr_overflow {steps spent : Nat} (h : steps ≤ spent) (e : Expr) (f : FrameId) :
    (within access turns steps spent).expr e f = halt .overflow := by
  rw [within_drop, Nat.sub_eq_zero_of_le h]
  unfold within
  rfl

theorem stmt_overflow {steps spent : Nat} (h : steps ≤ spent) (s : Stmt) (f : FrameId) :
    (within access turns steps spent).stmt s f = halt .overflow := by
  rw [within_drop, Nat.sub_eq_zero_of_le h]
  unfold within
  rfl

theorem stmt_loop (steps : Nat) (cond : Expr) (body : Stmt) (f : FrameId) :
    (within access turns (steps + 1) 0).stmt (.loop cond body) f =
      Run.placed (fun _ => (Stmt.loop cond body).offset?)
        (execLoop (within access turns (steps + 1) 2) cond body f turns) := by
  have hturns : (within access turns steps 1).turns = turns := turns_within ..
  have hloop : execStmt (within access turns steps 1) (.loop cond body) f =
      execLoop (within access turns steps 1) cond body f turns :=
    congrArg (execLoop (within access turns steps 1) cond body f) hturns
  exact congrArg (Run.placed fun _ => (Stmt.loop cond body).offset?) hloop

theorem stmt_block (steps : Nat) (body : List Stmt) (f : FrameId) :
    (within access turns (steps + 3) 2).stmt (.block body) f =
      Run.placed (fun _ => (Stmt.block body).offset?) (Run.newFrame (some f) >>= fun g =>
        execBody (within access turns steps 2).stmt body g) := rfl

theorem stmt_expr (steps : Nat) (e : Expr) (f : FrameId) :
    (within access turns (steps + 3) 2).stmt (.expr e) f =
      Run.placed (fun _ => (Stmt.expr e).offset?)
        (discard ((within access turns steps 1).expr e f) >>= fun _ => pure .next) := rfl

end Evaluator

/-- To end as something else ended. -/
theorem ends_eq (p : Run Flow) : (do
    match ← p with
    | .next => return .next
    | .returning v => return .returning v) = p := by
  have hpure : (fun flow : Flow => (match flow with
      | .next => Pure.pure .next
      | .returning v => Pure.pure (.returning v) : Run Flow)) = Pure.pure := by
    funext flow
    cases flow <;> rfl
  exact (congrArg (p >>= ·) hpure).trans (bind_pure p)

theorem execBody_singleton (exec : Stmt → FrameId → Run Flow) (s : Stmt) (f : FrameId) :
    execBody exec [s] f = exec s f := ends_eq _

/-! ### The rounds of the tree -/

namespace ForLoop

open Run

variable {l : ForLoop} {P : Visit → Prop} {σ : Scoping} {os : List Opener} {turns n : Nat}
  {w : Paring} {g : FrameId}

/-- What opens the scope of the loop in the tree. -/
def opener (l : ForLoop) : Opener := .block l.inScope

section

variable (hst : Stock P) (hP : P ⟨.stmt l.whole, σ, os⟩)
include hst hP

/-- The loop stands behind the initializer. -/
theorem place_loop : P ⟨.stmt (.loop l.test l.repeated), l.inside σ, l.opener :: os⟩ := by
  have hbody : P ⟨.body (l.initializer.toList ++ [.loop l.test l.repeated]), σ.enter [],
      l.opener :: os⟩ := hst.part hP (List.mem_singleton_self _)
  unfold inside
  generalize l.opener = o at hbody ⊢
  cases hi : l.initializer with
  | none =>
    rw [hi] at hbody
    exact hst.part hbody (List.mem_cons_self ..)
  | some s =>
    rw [hi] at hbody
    exact hst.part (hst.part hbody Visit.second_mem) (List.mem_cons_self ..)

theorem settled_inside : (l.inside σ).Settled (l.opener :: os) :=
  (hst.standing (place_loop hst hP)).1

theorem place_test : P ⟨.expr l.test, l.inside σ, l.opener :: os⟩ :=
  hst.part (place_loop hst hP) (List.mem_cons_self ..)

theorem place_repeated : P ⟨.stmt l.repeated, l.inside σ, l.opener :: os⟩ := by
  have hplace : P ⟨.stmt l.repeated, (l.inside σ).behindExpr l.test, l.opener :: os⟩ :=
    hst.part (place_loop hst hP) Visit.second_mem
  rwa [hst.behindExpr_eq (place_test hst hP)] at hplace

/-- The initializer stands in the scope of the loop. -/
theorem place_initializer {s : Stmt} (hi : l.initializer = some s) :
    P ⟨.stmt s, σ.enter [], l.opener :: os⟩ := by
  have hbody : P ⟨.body (l.initializer.toList ++ [.loop l.test l.repeated]), σ.enter [],
      l.opener :: os⟩ := hst.part hP (List.mem_singleton_self _)
  generalize l.opener = o at hbody ⊢
  rw [hi] at hbody
  exact hst.part hbody (List.mem_cons_self ..)

variable (hb : l.body.declared? = none)
include hb

/-- With an increment, body and increment stand in a block of their own, in the same scopes. -/
theorem place_block {e : Expr} (hn : l.increment = some e) : ∃ o,
    P ⟨.stmt l.body, (l.inside σ).enter [], o :: l.opener :: os⟩ ∧
      P ⟨.expr e, (l.inside σ).enter [], o :: l.opener :: os⟩ := by
  have hplace := place_repeated hst hP
  rw [repeated, hn] at hplace
  have hbody := hst.part hplace (List.mem_singleton_self _)
  have hstmt := hst.part hbody (List.mem_cons_self ..)
  have hrest := hst.part (hst.part hbody Visit.second_mem) (List.mem_cons_self ..)
  rw [hst.behindStmt_eq hstmt, Scoping.behind_of_declared hb] at hrest
  exact ⟨_, hstmt, hst.part hrest (List.mem_singleton_self _)⟩

/-- Body and increment are bound in the scope of their block. -/
theorem boundStmt_repeated {e : Expr} (hn : l.increment = some e) :
    (l.inside σ).boundStmt l.repeated = .block [((l.inside σ).enter []).boundStmt l.body,
      .expr (((l.inside σ).enter []).boundExpr e)] := by
  obtain ⟨_, hbody, _⟩ := place_block hst hP hb hn
  have hbehind : ((l.inside σ).enter []).behindStmt l.body = (l.inside σ).enter [] :=
    (hst.behindStmt_eq hbody).trans (Scoping.behind_of_declared hb)
  rw [repeated, hn]
  show Stmt.block [_, .expr ((((l.inside σ).enter []).behindStmt l.body).boundExpr e)] = _
  rw [hbehind]
  rfl

/-- The loop binds its parts without a report. -/
theorem settles : l.Settles σ := by
  have hinside := settled_inside hst hP
  have hidle := Scoping.Sheds.idle hinside
  refine ⟨?_, fun e he => ?_, fun e he => ?_, ?_, ?_⟩
  · exact (hst.clean (place_loop hst hP)).silent.of_le (Scoping.le_behindStmt _ (l.inside σ))
  · have htest := hst.behindExpr_eq (place_test hst hP)
    rwa [test, Option.mem_def.mp he] at htest
  · obtain ⟨_, _, hplace⟩ := place_block hst hP hb he
    have hclean := hst.clean hplace
    exact Scoping.behindExpr_of_silent hclean.regular
      ((hidle.behindExpr e).silent_iff.mpr hclean.silent)
  · refine Eq.trans ?_ (Scoping.behind_of_declared hb)
    cases hn : l.increment with
    | none =>
      have hplace := place_repeated hst hP
      rw [repeated, hn] at hplace
      exact hst.behindStmt_eq hplace
    | some e =>
      obtain ⟨_, hplace, _⟩ := place_block hst hP hb hn
      have hclean := hst.clean hplace
      have hsheds := hidle.behindStmt l.body hclean.regular (.inr hb)
      exact Scoping.behindStmt_of_silent hclean.regular hinside.pending
        (hsheds.silent_iff.mpr hclean.silent)
  · cases hi : l.initializer with
    | none =>
      rw [inside, hi]
      exact Scoping.leave_enter σ []
    | some s =>
      rw [inside, hi]
      dsimp only
      rw [hst.behindStmt_eq (place_initializer hst hP hi),
        (Scoping.leave_behind (List.cons_ne_nil _ _)).1, Scoping.leave_enter]

variable (htidy : ∀ {v}, P v → v.Tidy)
include htidy

/-- The increment, behind the body in the block that the tree has for it. -/
theorem tracks_advance {e : Expr} {h : FrameId} (hn : l.increment = some e) (hw : Pared w)
    (hh : w.Fits (true :: List.replicate (l.inside σ).scopes.length false) h) (m : Nat) :
    Tracks w (Lox.execBody (Evaluator.within .recorded turns m 2).stmt
        [.expr (((l.inside σ).enter []).boundExpr e)] h)
      (do (l.bound σ).advance (Evaluator.within .recorded turns (m + 3)) (w.image h)
          return .next) Paring.Ends := by
  obtain ⟨_, _, hincrement⟩ := place_block hst hP hb hn
  have hexpr := Expr.sheds_bound (htidy hincrement) (Scoping.Sheds.idle (settled_inside hst hP))
  have hadvance : (l.bound σ).advance (Evaluator.within .recorded turns (m + 3)) (w.image h) =
      discard ((Evaluator.within .recorded turns m 4).expr ((l.inside σ).boundExpr e) (w.image h)) := by
    rw [advance, bound, hn]
    rfl
  rw [execBody_singleton, hadvance]
  by_cases hm : m ≤ 2
  · rw [Evaluator.stmt_overflow hm, Evaluator.expr_overflow (by omega)]
    exact .ended hw rfl rfl (.same rfl)
  · obtain ⟨k, rfl⟩ : ∃ k, m = k + 3 := ⟨m - 3, by omega⟩
    rw [Evaluator.stmt_expr]
    exact ((Evaluator.tracks_within turns k 1).expr hw hexpr hh).effect.placedLeft _

/-- A turn of the tree is one of the loop: the block of the increment is idle. -/
theorem tracks_turn (hw : Pared w) (hf : w.Fits (List.replicate (l.inside σ).scopes.length false) g) :
    Tracks w ((Evaluator.within .recorded turns n 2).stmt ((l.inside σ).boundStmt l.repeated) g)
      ((l.bound σ).turn (Evaluator.within .recorded turns n) (w.image g)) Paring.Ends := by
  cases hn : l.increment with
  | none =>
    have hplace := place_repeated hst hP
    rw [repeated, hn] at hplace ⊢
    have hturn : (l.bound σ).turn (Evaluator.within .recorded turns n) (w.image g) =
        (Evaluator.within .recorded turns n 2).stmt ((l.inside σ).boundStmt l.body) (w.image g) := by
      rw [turn, bodySteps, advance, bound, hn]
      exact ends_eq _
    rw [hturn]
    exact (Evaluator.tracks_within turns n 2).stmt hw
      (Stmt.sheds_bound (htidy hplace) (.inr hb) (.refl _)) hf
  | some e =>
    obtain ⟨_, hbody, _⟩ := place_block hst hP hb hn
    have hidle := Scoping.Sheds.idle (settled_inside hst hP)
    have hstmt := Stmt.sheds_bound (htidy hbody) (.inr hb) hidle
    have hturn : (l.bound σ).turn (Evaluator.within .recorded turns n) (w.image g) = (do
        match ← (Evaluator.within .recorded turns n 5).stmt ((l.inside σ).boundStmt l.body)
          (w.image g) with
        | .next =>
          (l.bound σ).advance (Evaluator.within .recorded turns n) (w.image g)
          return .next
        | .returning v => return .returning v) := by
      rw [turn, bodySteps, bound, hn]
      rfl
    rw [boundStmt_repeated hst hP hb hn, hturn]
    by_cases h : n ≤ 2
    · rw [Evaluator.stmt_overflow h, Evaluator.stmt_overflow (Nat.le_trans h (by decide))]
      exact .ended hw rfl rfl (.same rfl)
    · obtain ⟨m, rfl⟩ : ∃ m, n = m + 3 := ⟨n - 3, by omega⟩
      rw [Evaluator.stmt_block]
      refine .placedLeft _ (.idleFrame hw hf fun w₁ h hle₁ hw₁ hf₁ himage => ?_)
      rw [← himage]
      refine ((Evaluator.tracks_within turns m 2).stmt hw₁ hstmt hf₁).bind
        fun flow flow' w₂ hle₂ hw₂ hflow => ?_
      cases hflow with
      | returning hv => exact .pure hw₂ (.returning hv)
      | next =>
        rw [← hle₂.image h hf₁.lt]
        exact tracks_advance hst hP hb htidy hn hw₂ (hf₁.mono hle₂) m

omit hb in
/-- Condition by condition, if there are steps left for it; in the tree a missing one is evaluated. -/
theorem tracks_holds (hn : 2 < n) (hw : Pared w)
    (hf : w.Fits (List.replicate (l.inside σ).scopes.length false) g) :
    Tracks w ((Evaluator.within .recorded turns n 2).expr ((l.inside σ).boundExpr l.test) g)
      ((l.bound σ).holds (Evaluator.within .recorded turns n) (w.image g))
      fun _ v holds => holds = v.truthy := by
  have hplace := place_test hst hP
  cases hc : l.cond with
  | none =>
    have hholds : (l.bound σ).holds (Evaluator.within .recorded turns n) (w.image g) =
        pure true := by
      rw [holds, bound, hc]
      rfl
    obtain ⟨m, rfl⟩ : ∃ m, n = m + 3 := ⟨n - 3, by omega⟩
    rw [hholds, test, hc]
    exact .step w (a := .bool true) (b := true) rfl rfl (.refl w) hw rfl
  | some e =>
    rw [test, hc, Option.getD_some] at hplace ⊢
    have hholds : (l.bound σ).holds (Evaluator.within .recorded turns n) (w.image g) = (do
        return (← (Evaluator.within .recorded turns n 2).expr ((l.inside σ).boundExpr e)
          (w.image g)).truthy) := by
      rw [holds, bound, hc]
      rfl
    rw [hholds, ← bind_pure ((Evaluator.within .recorded turns n 2).expr _ g)]
    refine ((Evaluator.tracks_within turns n 2).expr hw
      (Expr.sheds_bound (htidy hplace) (.refl _)) hf).bind fun _ v w' _ hw' ⟨heq, _⟩ => ?_
    subst heq
    exact .pure hw' rfl

omit hst hP hb htidy in
/-- Without steps left for the condition a round overflows. -/
theorem rounds_overflow (hn : n ≤ 2) (k : Nat) (s : Store) :
    l.rounds (Evaluator.within .recorded turns n) g (k + 1) s = (.error .overflow, s) := by
  have hbody : n ≤ l.bodySteps := by
    unfold bodySteps
    split <;> omega
  cases hc : l.cond with
  | none =>
    rw [rounds, holds, hc, turn, Evaluator.stmt_overflow hbody]
    rfl
  | some e =>
    rw [rounds, holds, hc]
    dsimp only
    rw [Evaluator.expr_overflow hn]
    rfl

/-- The rounds of the tree are those of the loop. -/
theorem tracks_rounds : ∀ {k : Nat} {w : Paring}, Pared w →
    w.Fits (List.replicate (l.inside σ).scopes.length false) g →
      Tracks w (execLoop (Evaluator.within .recorded turns n 2) ((l.inside σ).boundExpr l.test)
          ((l.inside σ).boundStmt l.repeated) g k)
        ((l.bound σ).rounds (Evaluator.within .recorded turns n) (w.image g) k) Paring.Ends
  | 0, _, hw, _ => .halt hw (.same rfl)
  | k + 1, w, hw, hf => by
    by_cases hn : n ≤ 2
    · refine .ended hw ?_ (rounds_overflow hn k _) (.same rfl)
      rw [execLoop, Evaluator.expr_overflow hn]
      rfl
    · refine (tracks_holds hst hP htidy (Nat.lt_of_not_le hn) hw hf).bind
        fun v _ w₁ hle₁ hw₁ heq => ?_
      subst heq
      rw [← hle₁.image g hf.lt]
      have hf₁ := hf.mono hle₁
      refine .ite ((tracks_turn hst hP hb htidy hw₁ hf₁).bind
        fun flow flow' w₂ hle₂ hw₂ hflow => ?_) (.pure hw₁ .next)
      cases hflow with
      | next =>
        rw [← hle₂.image g hf₁.lt]
        exact tracks_rounds hw₂ (hf₁.mono hle₂)
      | returning hv => exact .pure hw₂ (.returning hv)

/-- Behind the initializer the rounds are left, if there are steps left for them. -/
theorem tracks_rest (hpos : 0 < n) (hw : Pared w)
    (hg : w.Fits (List.replicate (l.inside σ).scopes.length false) g) :
    Tracks w (Lox.execBody (Evaluator.within .recorded turns n 0).stmt
        [(l.inside σ).boundStmt (.loop l.test l.repeated)] g)
      ((l.bound σ).rounds (Evaluator.within .recorded turns n) (w.image g) turns) Paring.Ends := by
  obtain ⟨m, rfl⟩ := Nat.exists_eq_add_one.mpr hpos
  have hloop : (l.inside σ).boundStmt (.loop l.test l.repeated) =
      .loop ((l.inside σ).boundExpr l.test) ((l.inside σ).boundStmt l.repeated) := by
    show Stmt.loop _ (((l.inside σ).behindExpr l.test).boundStmt l.repeated) = _
    rw [hst.behindExpr_eq (place_test hst hP)]
    rfl
  rw [execBody_singleton, hloop, Evaluator.stmt_loop]
  exact .placedLeft _ (tracks_rounds hst hP hb htidy hw hg)

/-- In the frame of the loop the tree runs as the loop, if there are steps left for the rounds. -/
theorem tracks_inFrame (hw : Pared w)
    (hg : w.Fits (List.replicate (σ.enter []).scopes.length false) g)
    (hn : l.initializer = none → 0 < n) :
    Tracks w (Lox.execBody (Evaluator.within .recorded turns n 0).stmt
        ((σ.enter []).boundBody l.inScope) g)
      ((l.bound σ).inFrame (Evaluator.within .recorded turns n) turns (w.image g)) Paring.Ends := by
  have hlength : (σ.enter []).scopes.length = (l.inside σ).scopes.length := by
    rw [(settled_inside hst hP).aligned.length_eq]
    exact congrArg (· + 1) (hst.standing hP).1.aligned.length_eq
  cases hi : l.initializer with
  | none =>
    have hinside : σ.enter [] = l.inside σ := by rw [inside, hi]
    have hframe : (l.bound σ).inFrame (Evaluator.within .recorded turns n) turns (w.image g) =
        (l.bound σ).rounds (Evaluator.within .recorded turns n) (w.image g) turns := by
      rw [inFrame, start, bound, hi]
      rfl
    rw [hframe, inScope, hi]
    rw [hinside] at hg ⊢
    exact tracks_rest hst hP hb htidy (hn hi) hw hg
  | some s =>
    have hinside : (σ.enter []).behindStmt s = l.inside σ := by rw [inside, hi]
    have hframe : (l.bound σ).inFrame (Evaluator.within .recorded turns n) turns (w.image g) = (do
        match ← (Evaluator.within .recorded turns n 0).stmt ((σ.enter []).boundStmt s)
          (w.image g) with
        | .next => (l.bound σ).rounds (Evaluator.within .recorded turns n) (w.image g) turns
        | .returning v => return .returning v) := by
      rw [inFrame, start, bound, hi]
      rfl
    rw [hframe, inScope, hi]
    show Tracks w (Lox.execBody _ [(σ.enter []).boundStmt s,
      ((σ.enter []).behindStmt s).boundStmt (.loop l.test l.repeated)] g) _ _
    rw [hinside]
    by_cases hpos : n = 0
    · subst hpos
      rw [Evaluator.stmt_overflow (Nat.le_refl 0)]
      exact .ended hw rfl rfl (.same rfl)
    · have hsheds := Stmt.sheds_bound (htidy (place_initializer hst hP hi)) (.inl busy_inside)
        (.refl (σ.enter []))
      refine ((Evaluator.tracks_within turns n 0).stmt hw hsheds hg).bind
        fun flow flow' w₁ hle hw₁ hflow => ?_
      cases hflow with
      | next =>
        rw [← hle.image g hg.lt]
        exact tracks_rest hst hP hb htidy (Nat.pos_of_ne_zero hpos) hw₁ (hlength ▸ hg.mono hle)
      | returning hv => exact .pure hw₁ (.returning hv)

end

end ForLoop

end Lox
