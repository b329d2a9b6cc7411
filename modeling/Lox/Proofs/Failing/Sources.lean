/-
# Where an error comes from

A run that ends in an error comes to a moment at which the own check of a node
rejects: from there the operands end well, and leave the store that the run
ends in, and the check rejects their values (`Lox.Moment.Raises`). What is
around the node may evaluate it anywhere, in other expressions, in statements,
in calls: nothing of this touches the error, but for the place of one that has
none, and the store (`Lox.Sourced`).

A watch makes no difference but for where it ends the run (`Lox.Heard`); so the
moments behind a part that ends well are moments of the whole run.

Key definitions: `Lox.Heard`, `Lox.Moment.Raises`, `Lox.Sourced`, `Lox.Evaluator.Sources`.
Key theorems: `Lox.Sourced.bind`, `Lox.Sourced.evalExpr`, `Lox.Sourced.execStmt`,
`Lox.Evaluator.sources_watched`.
-/
import Lox.Proofs.Failing.Checks

namespace Lox

open Procedure

variable {α β γ : Type}

/-- A lawful watch lets the run end as it does, or ends it at a moment that it comes to. -/
def Heard (run : Watch → Run α) (s : Store) : Prop :=
  ∀ W : Watch, W.Lawful → run W s = run .quiet s ∨
    ∃ t m, Comes run s t ∧ W t.site t.frame t.store = (.error (.misplaced m), t.store) ∧
      run W s = (.error (.misplaced m), t.store)

namespace Heard

variable {run : Watch → Run α} {s s' : Store}

/-- What no watch is asked in. -/
theorem step (p : Run α) : Heard (fun _ => p) s := fun _ _ => .inl rfl

/-- The moments behind a part that ends well. -/
theorem later {next : Watch → α → Run β} {a : α} {t : Moment} (h : Heard run s)
    (hrun : run .quiet s = (.ok a, s')) (ht : Comes (fun W => next W a) s' t) :
    Comes (fun W => run W >>= next W) s t := by
  intro m
  obtain heq | ⟨u, m', _, hstop, heq⟩ := h _ (Watch.lawful_stopAt t m)
  · exact (bind_ok (heq.trans hrun)).trans (ht m)
  · obtain ⟨rfl, rfl⟩ := Watch.stopAt_eq hstop
    exact bind_error heq

theorem bind {next : Watch → α → Run β} (h : Heard run s)
    (hnext : ∀ a s', run .quiet s = (.ok a, s') → Heard (fun W => next W a) s') :
    Heard (fun W => run W >>= next W) s := by
  intro W hW
  obtain heq | ⟨t, m, ht, hstop, heq⟩ := h W hW
  · rcases hrun : run .quiet s with ⟨fault | a, s'⟩
    · exact .inl ((bind_error (heq.trans hrun)).trans (bind_error hrun).symm)
    · obtain heq' | ⟨t, m, ht, hstop, heq'⟩ := hnext a s' hrun W hW
      · exact .inl ((bind_ok (heq.trans hrun)).trans (heq'.trans (bind_ok hrun).symm))
      · exact .inr ⟨t, m, h.later hrun ht, hstop, (bind_ok (heq.trans hrun)).trans heq'⟩
  · exact .inr ⟨t, m, ht.bind, hstop, bind_error heq⟩

theorem placed (h : Heard run s) (offset : Unit → Option Int) :
    Heard (fun W => Run.placed offset (run W)) s := by
  intro W hW
  obtain heq | ⟨t, m, ht, hstop, heq⟩ := h W hW
  · refine .inl ?_
    show mapHalt _ _ _ = mapHalt _ _ _
    rw [mapHalt, mapHalt, heq]
  · exact .inr ⟨t, m, ht.placed, hstop, placed_misplaced heq⟩

theorem watch {site : Site} {f : FrameId} (h : Heard run s) :
    Heard (fun W => do W site f; run W) s := by
  intro W hW
  obtain hpass | ⟨m, hstop⟩ := hW site f s
  · obtain heq | ⟨t, m, ht, hstop, heq⟩ := h W hW
    · exact .inl ((bind_ok hpass).trans heq)
    · exact .inr ⟨t, m, ht.watch, hstop, (bind_ok hpass).trans heq⟩
  · exact .inr ⟨⟨site, f, s⟩, m, comes_watch, hstop, bind_error hstop⟩

end Heard

/-! ### Errors and their moments -/

/-- At the moment the operands of the node end well and leave a store in which its own check rejects
their values; that is the cause of the error, and the mark of the node is its place. -/
def Moment.Raises (turns : Nat) (t : Moment) (e : RuntimeError) (s : Store) : Prop :=
  ∃ steps spent vs mark,
    evalArgs (.within .recorded turns steps spent) t.site.operands t.frame t.store = (.ok vs, s) ∧
    Rejects s t.frame t.site vs e.cause ∧ t.site.point? = some mark ∧
    ∀ n, mark.offset = some n → e.offset = some n

/-- A place makes no difference to what an error was raised for. -/
theorem Moment.Raises.attach {turns : Nat} {t : Moment} {e : RuntimeError} {s : Store}
    (h : t.Raises turns e s) (offset : Option Int) : t.Raises turns (e.attach offset) s := by
  obtain ⟨steps, spent, vs, mark, hargs, hrejects, hpoint, hoffset⟩ := h
  refine ⟨steps, spent, vs, mark, hargs, hrejects, hpoint, fun n hn => ?_⟩
  rw [RuntimeError.attach, hoffset n hn]
  rfl

/-- The run comes to a moment at which the error is raised, if the frame is there. -/
def Arises (turns : Nat) (run : Watch → Run α) (s : Store) (e : RuntimeError) (s' : Store) : Prop :=
  ∃ t, Comes run s t ∧ (t.frame < t.store.frames.size → t.Raises turns e s')

/-- Watches make no difference, and an error that the run ends in arises on its way, or is one of its
own. -/
structure Sourced (turns : Nat) (own : RuntimeError → Store → Prop) (run : Watch → Run α) (s : Store) :
    Prop where
  heard : Heard run s
  source : ∀ e s', run .quiet s = (.error (.error e), s') → own e s' ∨ Arises turns run s e s'

/-- The fault is not an error of the program. -/
def Fault.Foreign (fault : Fault) : Prop := ∀ e, fault ≠ .error e

namespace Sourced

variable {turns : Nat} {own : RuntimeError → Store → Prop} {run : Watch → Run α} {s s' : Store}

/-- A step that no watch is asked in. -/
theorem step {p : Run α} (hp : ∀ e s', p s = (.error (.error e), s') → own e s') :
    Sourced turns own (fun _ => p) s :=
  ⟨.step p, fun e s' h => .inl (hp e s' h)⟩

theorem ok {p : Run α} {a : α} (hp : p s = (.ok a, s')) : Sourced turns own (fun _ => p) s :=
  step fun e s'' h => by
    rw [hp] at h
    cases h

theorem pure (a : α) : Sourced turns own (fun _ => (Pure.pure a : Run α)) s := ok rfl

theorem halt {fault : Fault} (hf : fault.Foreign) :
    Sourced turns own (fun _ => (Procedure.halt fault : Run α)) s :=
  step fun e s'' h => by
    cases h
    exact absurd rfl (hf e)

theorem fail {cause : Cause} {offset : Option Int} (h : own ⟨cause, offset⟩ s) :
    Sourced turns own (fun _ => (Run.fail cause offset : Run α)) s :=
  step fun e s'' heq => by
    cases heq
    exact h

theorem mono {own' : RuntimeError → Store → Prop} (h : Sourced turns own run s)
    (hown : ∀ e s', own e s' → own' e s') : Sourced turns own' run s :=
  ⟨h.heard, fun e s' he => (h.source e s' he).imp_left (hown e s')⟩

/-- A part that has no errors of its own. -/
theorem within (h : Sourced turns (fun _ _ => False) run s) : Sourced turns own run s :=
  h.mono fun _ _ h => h.elim

/-- One run after the other. -/
theorem bind {next : Watch → α → Run β} (h : Sourced turns own run s)
    (hnext : ∀ a s', run .quiet s = (.ok a, s') → Sourced turns own (fun W => next W a) s') :
    Sourced turns own (fun W => run W >>= next W) s := by
  refine ⟨h.heard.bind fun a s' ha => (hnext a s' ha).heard, fun e s'' he => ?_⟩
  have he : (run .quiet >>= next .quiet) s = (.error (.error e), s'') := he
  rcases hrun : run .quiet s with ⟨fault | a, s'⟩
  · have heq := (bind_error (f := next .quiet) hrun).symm.trans he
    cases heq
    obtain hown | ⟨t, ht, hraises⟩ := h.source _ _ hrun
    · exact .inl hown
    · exact .inr ⟨t, ht.bind, hraises⟩
  · obtain hown | ⟨t, ht, hraises⟩ := (hnext a s' hrun).source e s'' ((bind_ok hrun).symm.trans he)
    · exact .inl hown
    · exact .inr ⟨t, h.heard.later hrun ht, hraises⟩

theorem read {g : Store → γ} {next : Watch → γ → Run α}
    (h : Sourced turns own (fun W => next W (g s)) s) :
    Sourced turns own (fun W => Procedure.read g >>= next W) s :=
  ⟨h.heard, h.source⟩

/-- A step that no watch is asked in comes first. -/
theorem after {p : Run β} {b : β} {next : Watch → β → Run α} (hp : p s = (.ok b, s'))
    (h : Sourced turns own (fun W => next W b) s') : Sourced turns own (fun W => p >>= next W) s :=
  have hok : Sourced turns own (fun _ => p) s := ok hp
  hok.bind fun a s'' ha => by
    cases hp.symm.trans ha
    exact h

theorem discard (h : Sourced turns own run s) :
    Sourced turns own (fun W => discard (run W)) s :=
  have hbind : Sourced turns own (fun W => run W >>= fun _ => Pure.pure ()) s := h.bind fun _ _ _ => pure _
  hbind

theorem ite {c : Prop} [Decidable c] {p q : Watch → Run α} (hp : Sourced turns own p s)
    (hq : Sourced turns own q s) : Sourced turns own (fun W => if c then p W else q W) s := by
  by_cases hc : c
  · simp only [if_pos hc]
    exact hp
  · simp only [if_neg hc]
    exact hq

/-- An evaluation that is watched and given a place: its own errors arise at its beginning. -/
theorem watch {site : Site} {f : FrameId} {offset : Unit → Option Int}
    (h : Sourced turns (fun e s' => f < s.frames.size → Moment.Raises turns ⟨site, f, s⟩ e s') run s) :
    Sourced turns (fun _ _ => False) (fun W => do W site f; Run.placed offset (run W)) s := by
  refine ⟨(h.heard.placed offset).watch, fun e s' he => .inr ?_⟩
  have he : Run.placed offset (run .quiet) s = (.error (.error e), s') := he
  unfold Run.placed mapHalt at he
  rcases hrun : run .quiet s with ⟨fault | a, s''⟩
  · rw [hrun] at he
    cases fault with
    | error e₁ =>
      have hattached : e = e₁.attach (offset ()) ∨ e = e₁ := by
        dsimp only at he
        split at he <;> cases he
        · exact .inl rfl
        · exact .inr rfl
      have hstore : s'' = s' := by
        dsimp only at he
        split at he <;> cases he <;> rfl
      subst hstore
      have hraises : ∀ t : Moment, t.Raises turns e₁ s'' → t.Raises turns e s'' := by
        intro t ht
        obtain rfl | rfl := hattached
        · exact ht.attach _
        · exact ht
      obtain hown | ⟨t, ht, hr⟩ := h.source e₁ s'' hrun
      · exact ⟨⟨site, f, s⟩, comes_watch, fun hf => hraises _ (hown hf)⟩
      · exact ⟨t, ht.placed.watch, fun hf => hraises t (hr hf)⟩
    | overflow | diverged _ | misplaced _ | exhausted => cases he
  · rw [hrun] at he
    cases he

end Sourced

/-! ### Evaluation -/

/-- The evaluations further in have no errors but those that arise on their way. -/
structure Evaluator.Sources (turns : Nat) (inner : Watch → Evaluator) : Prop where
  access : ∀ W, (inner W).access = .recorded
  loops : ∀ W, (inner W).turns = turns
  plain : ∃ steps spent, inner .quiet = .within .recorded turns steps spent
  expr : ∀ e f s, Sourced turns (fun _ _ => False) (fun W => (inner W).expr e f) s
  stmt : ∀ st f s, Sourced turns (fun _ _ => False) (fun W => (inner W).stmt st f) s
  called : ∀ st f s, Sourced turns (fun _ _ => False) (fun W => (inner W).called st f) s

section

variable {turns : Nat} {inner : Watch → Evaluator} {f : FrameId} {s s' : Store}

/-- What the check of a node rejects, behind its operands. -/
theorem Evaluator.Sources.raises (h : Evaluator.Sources turns inner) {site : Site} {vs : List Value}
    {e : RuntimeError} {mark : Mark} (hargs : evalArgs (inner .quiet) site.operands f s = (.ok vs, s'))
    (hrejects : Rejects s' f site vs e.cause) (hpoint : site.point? = some mark)
    (hoffset : e.offset = mark.offset) : Moment.Raises turns ⟨site, f, s⟩ e s' := by
  obtain ⟨steps, spent, hplain⟩ := h.plain
  exact ⟨steps, spent, vs, mark, by rw [← hplain]; exact hargs, hrejects, hpoint,
    fun n hn => hoffset.trans hn⟩

/-- A new frame for the receiver brings no error. -/
theorem receiverFrame_ok (m : FunctionId) (v : Value) (s : Store) :
    ∃ g s', receiverFrame m v s = (.ok g, s') := ⟨_, _, rfl⟩

theorem bindParams_ok (f : FrameId) : ∀ (params : List Mark) (args : List Value) (s : Store),
    ∃ s', bindParams f params args s = (.ok (), s')
  | [], _, s => ⟨s, rfl⟩
  | _ :: _, [], s => ⟨s, rfl⟩
  | p :: params, a :: args, s => bindParams_ok f params args (s.define f p.text a)

/-- The use of a superclass leaves the store as it is. -/
theorem store_of_variable {steps spent : Nat} {use : NameUse} {v : Value}
    (h : (Evaluator.within .recorded turns steps spent).expr (.variable use) f s = (.ok v, s')) :
    s' = s := by
  obtain ⟨n, h⟩ := Evaluator.exists_of_expr steps spent h
  have h : (Evaluator.within .recorded turns n _).access.look use f s = (.ok v, s') := h
  rw [Evaluator.within_access] at h
  obtain ⟨v', hlook⟩ | ⟨fault, hlook⟩ := look_cases (s := s) (f := f) use
  · cases hlook.symm.trans h
    rfl
  · cases hlook.symm.trans h

theorem Evaluator.Sources.store_of_superclass (h : Evaluator.Sources turns inner) {use : NameUse}
    {vs : List Value} (hargs : evalArgs (inner .quiet) [.variable use] f s = (.ok vs, s')) : s' = s := by
  obtain ⟨steps, spent, hplain⟩ := h.plain
  rw [hplain] at hargs
  obtain ⟨v, s₁, hv, hrest⟩ := exists_of_bind hargs
  cases hrest
  exact store_of_variable hv

namespace Sourced

variable (h : Evaluator.Sources turns inner)

include h

theorem evalArgs (f : FrameId) : ∀ (es : List Expr) (s : Store),
    Sourced turns (fun _ _ => False) (fun W => Lox.evalArgs (inner W) es f) s
  | [], _ => pure _
  | e :: es, s => (h.expr e f s).bind fun _ s₁ _ => (evalArgs f es s₁).bind fun _ _ _ => pure _

theorem evalOption (e : Option Expr) (f : FrameId) (s : Store) :
    Sourced turns (fun _ _ => False) (fun W => Lox.evalOption (inner W) e f) s := by
  cases e with
  | none => exact pure _
  | some e => exact h.expr e f s

omit h in
theorem execBody {exec : Watch → Stmt → FrameId → Run Flow}
    (hexec : ∀ st f s, Sourced turns (fun _ _ => False) (fun W => exec W st f) s) (f : FrameId) :
    ∀ (body : List Stmt) (s : Store),
      Sourced turns (fun _ _ => False) (fun W => Lox.execBody (exec W) body f) s
  | [], _ => pure _
  | st :: body, s => (hexec st f s).bind fun flow s₁ _ => by
    cases flow with
    | next => exact execBody hexec f body s₁
    | returning v => exact pure _

/-- A call of a function. -/
theorem invoke (id : FunctionId) (outer : FrameId) (args : List Value) (s : Store) :
    Sourced turns (fun _ _ => False) (fun W => Lox.invoke (inner W) id outer args) s := by
  refine read (after rfl ?_)
  obtain ⟨s₁, hparams⟩ := bindParams_ok s.frames.size (s.function id).decl.params args
    (s.withFrame (some outer))
  refine after hparams ((execBody h.called _ _ s₁).bind fun flow s₂ _ => ite ?_ ?_)
  · exact step fun e s' he => getAt_error he
  · cases flow <;> exact pure _

theorem apply (callee : Value) (args : List Value) (s : Store) :
    Sourced turns (fun _ _ => False) (fun W => Lox.apply (inner W) callee args) s := by
  cases callee with
  | native g =>
    cases g
    have htick : Run.tick s = (.ok s.clock.next, s.ticked) := rfl
    exact after htick (pure _)
  | function id => exact read (invoke h id _ args s)
  | method id => exact read (invoke h _ _ args s)
  | classRef c =>
    have hnew : Run.newInstance c s = (.ok s.instances.size, s.withInstance c) := rfl
    refine after hnew (read ?_)
    cases (s.withInstance c).findMethod? c Store.initName with
    | none => exact pure _
    | some m =>
      obtain ⟨g, s₁, hframe⟩ := receiverFrame_ok m (.instanceRef s.instances.size) (s.withInstance c)
      refine after hframe ((invoke h m g args s₁).discard.bind fun _ _ _ => ?_)
      exact pure _
  | const _ => exact pure _
  | instanceRef _ => exact pure _

/-- A call, behind the values of what is called and of the arguments. -/
theorem callWith {callee : Expr} {paren : Mark} {args : List Expr} (v : Value) (vs : List Value)
    (s : Store) :
    Sourced turns
      (fun e s' => s' = s ∧ Rejects s f (.expr (.call callee paren args)) (v :: vs) e.cause ∧
        e.offset = paren.offset)
      (fun W => Lox.callWith (inner W) v vs paren.offset) s := by
  refine read ?_
  cases harity : s.arity? v with
  | none => exact fail ⟨rfl, .notCallable harity, rfl⟩
  | some n =>
    by_cases hlen : vs.length = n
    · simp only [if_pos hlen]
      exact (apply h v vs s).within
    · simp only [if_neg hlen]
      exact fail ⟨rfl, .wrongArity harity hlen, rfl⟩

/-- The errors of an expression are those that its check raises behind the operands, and those that
arise further in. -/
theorem evalExpr (e : Expr) (f : FrameId) (s : Store) :
    Sourced turns (fun err s' => Moment.Raises turns ⟨.expr e, f, s⟩ err s')
      (fun W => Lox.evalExpr (inner W) e f) s := by
  simp only [evalExpr_eq_operands]
  refine (evalArgs h f e.operands s).within.bind fun vs s' hargs => ?_
  have hraises {err : RuntimeError} {s'' : Store} (point : Mark) (hpoint : e.point? = some point)
      (herr : s'' = s' ∧ Rejects s' f (.expr e) vs err.cause ∧ err.offset = point.offset) :
      Moment.Raises turns ⟨.expr e, f, s⟩ err s'' := by
    obtain ⟨rfl, hrejects, hoffset⟩ := herr
    exact h.raises hargs hrejects hpoint hoffset
  have hlen := length_of_evalArgs hargs
  cases e with
  | unary op operand =>
    obtain ⟨v, rfl⟩ := List.length_eq_one_iff.mp hlen
    exact step fun err s'' he => hraises op rfl (unaryResult_error he)
  | binary l op r =>
    obtain ⟨v, w, rfl⟩ := List.length_eq_two.mp hlen
    exact step fun err s'' he => hraises op rfl (binaryResult_error he)
  | assign use value =>
    obtain ⟨v, rfl⟩ := List.length_eq_one_iff.mp hlen
    simp only [Expr.finish, h.access]
    refine bind ?_ fun _ _ _ => pure _
    refine step fun err s'' he => hraises use.name rfl ?_
    obtain ⟨rfl, hhops, hholder, rfl⟩ := store_error he
    exact ⟨rfl, .undefinedTarget hhops hholder, rfl⟩
  | call callee paren args =>
    obtain ⟨v, vs, rfl⟩ := List.exists_cons_of_length_eq_add_one hlen
    exact (callWith h v vs s').mono fun err s'' he => hraises paren rfl he
  | get object name =>
    obtain ⟨v, rfl⟩ := List.length_eq_one_iff.mp hlen
    exact step fun err s'' he => hraises name rfl (getProperty_error he)
  | set object name value =>
    obtain ⟨v, rfl⟩ := List.length_eq_one_iff.mp hlen
    cases v with
    | instanceRef i =>
      refine (h.expr value f s').within.bind fun w s'' _ => ?_
      exact after rfl (pure _)
    | const _ | native _ | function _ | method _ | classRef _ =>
      exact fail (hraises name rfl ⟨rfl, .noFields (by rintro _ ⟨⟩), rfl⟩)
  | superMethod use method =>
    obtain rfl := List.length_eq_zero_iff.mp hlen
    exact step fun err s'' he => hraises method rfl (superProperty_error he)
  | «variable» use =>
    obtain rfl := List.length_eq_zero_iff.mp hlen
    show Sourced turns _ (fun W => (inner W).access.look use f) s'
    simp only [h.access]
    refine step fun err s'' he => hraises use.name rfl ?_
    obtain ⟨rfl, hhops, hget, rfl⟩ := look_error he
    exact ⟨rfl, .undefinedVariable hhops hget, rfl⟩
  | receiver use =>
    obtain rfl := List.length_eq_zero_iff.mp hlen
    show Sourced turns _ (fun W => (inner W).access.look use f) s'
    simp only [h.access]
    refine step fun err s'' he => hraises use.name rfl ?_
    obtain ⟨rfl, hhops, hget, rfl⟩ := look_error he
    exact ⟨rfl, .undefinedReceiver hhops hget, rfl⟩
  | literal value => exact pure _
  | grouping e => exact (h.expr e f s').within
  | logical l op r =>
    refine (h.expr l f s').within.bind fun v s'' _ => ite (pure _) ?_
    exact (h.expr r f s'').within
  | ternary cond yes no =>
    refine (h.expr cond f s').within.bind fun v s'' _ => ite ?_ ?_
    · exact (h.expr yes f s'').within
    · exact (h.expr no f s'').within
  | stray node => exact halt (by rintro _ ⟨⟩)

/-- A loop has no errors of its own. -/
theorem execLoop (cond : Expr) (body : Stmt) (f : FrameId) : ∀ (left : Nat) (s : Store),
    Sourced turns (fun _ _ => False) (fun W => Lox.execLoop (inner W) cond body f left) s
  | 0, _ => halt (by rintro _ ⟨⟩)
  | left + 1, s => by
    refine (h.expr cond f s).bind fun v s₁ _ => ite ?_ (pure _)
    refine (h.stmt body f s₁).bind fun flow s₂ _ => ?_
    cases flow with
    | next => exact execLoop cond body f left s₂
    | returning v => exact pure _

omit h in
/-- In a frame that is there a class is bound without an error. -/
theorem bindClass (name : Mark) (superclass : Option ClassId) (methods : List Fun) (f : FrameId)
    (s : Store) :
    Sourced turns (fun _ _ => ¬ f < s.frames.size)
      (fun _ => Lox.bindClass name superclass methods f) s := by
  refine step fun e s' he hf => ?_
  obtain ⟨c, s'', hbinds, _⟩ := bindClass_binds hf superclass methods
  cases hbinds.symm.trans he

/-- The errors of a statement in a frame that is there are those that its check raises behind the
operands, and those that arise further in. -/
theorem execStmt (st : Stmt) (f : FrameId) (s : Store) :
    Sourced turns (fun err s' => f < s.frames.size → Moment.Raises turns ⟨.stmt st, f, s⟩ err s')
      (fun W => Lox.execStmt (inner W) st f) s := by
  cases st with
  | expr e => exact (h.expr e f s).within.discard.bind fun _ _ _ => pure _
  | print e =>
    refine (h.expr e f s).within.bind fun v s₁ _ => ?_
    exact after rfl (pure _)
  | var name initial =>
    refine (evalOption h initial f s).within.bind fun v s₁ _ => ?_
    exact after rfl (pure _)
  | block body =>
    refine after rfl ?_
    exact (execBody h.stmt _ body _).within
  | branch cond yes no =>
    refine (h.expr cond f s).within.bind fun v s₁ _ => ite (h.stmt yes f s₁).within ?_
    cases no with
    | none => exact pure _
    | some no => exact (h.stmt no f s₁).within
  | loop cond body =>
    show Sourced turns _ (fun W => Lox.execLoop (inner W) cond body f (inner W).turns) s
    simp only [h.loops]
    exact (execLoop h cond body f turns s).within
  | function decl => exact after rfl (after rfl (pure _))
  | giveBack keyword value =>
    exact (evalOption h value f s).within.bind fun v _ _ => pure _
  | classDecl name superclass methods =>
    cases superclass with
    | none =>
      refine ((bindClass name none methods f s).mono ?_).bind fun _ _ _ => pure _
      exact fun err s' he hf => absurd hf he
    | some use =>
      simp only [execStmt_eq_operands]
      refine (evalArgs h f [Expr.variable use] s).within.bind fun vs s' hargs => ?_
      obtain ⟨v, rfl⟩ := List.length_eq_one_iff.mp (length_of_evalArgs hargs)
      have hrejects : (∀ c, v ≠ .classRef c) →
          Rejects s' f (.stmt (.classDecl name (some use) methods)) [v] .superclassNotClass :=
        .superclassNotClass
      cases v with
      | classRef c =>
        obtain rfl := h.store_of_superclass hargs
        refine ((bindClass name (some c) methods f s').mono ?_).bind fun _ _ _ => pure _
        exact fun err s' he hf => absurd hf he
      | const _ | native _ | function _ | method _ | instanceRef _ =>
        exact fail fun _ => h.raises hargs (hrejects (by rintro _ ⟨⟩)) rfl rfl
  | stray node => exact halt (by rintro _ ⟨⟩)

end Sourced

end

/-- Evaluation has no errors but those that arise on its way, however many steps are left. -/
theorem Evaluator.sources_watched (turns : Nat) : ∀ steps spent,
    Evaluator.Sources turns fun W => watched W .recorded turns steps spent
  | 0, spent => by
    refine ⟨fun _ => ?_, fun _ => ?_, ⟨0, spent, watched_quiet ..⟩, fun _ _ _ => ?_, fun _ _ _ => ?_,
      fun _ _ _ => ?_⟩ <;> unfold watched
    · rfl
    · rfl
    · exact .halt (by rintro _ ⟨⟩)
    · exact .halt (by rintro _ ⟨⟩)
    · exact .halt (by rintro _ ⟨⟩)
  | steps + 1, spent + 1 => by
    unfold watched
    exact sources_watched turns steps spent
  | steps + 1, 0 => by
    have hinner := sources_watched turns steps
    refine ⟨fun _ => ?_, fun _ => ?_, ⟨steps + 1, 0, watched_quiet ..⟩, fun e f s => ?_, fun st f s => ?_,
      fun st f s => ?_⟩ <;> unfold watched
    · rfl
    · rfl
    · exact .watch ((Sourced.evalExpr (hinner _) e f s).mono fun _ _ h _ => h)
    · exact .watch (Sourced.execStmt (hinner _) st f s)
    · exact .watch (Sourced.execStmt (hinner _) st f s)

end Lox
