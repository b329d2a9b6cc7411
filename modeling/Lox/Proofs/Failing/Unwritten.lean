/-
# A failed operation writes nothing

What a node writes of its own, it writes behind its check. So if the check
fails, everything is as the operands left it: the frames, the instances and
what was printed.

A class is the one statement that binds a name twice, first to nil, so that
its methods lie in the scope of the name. Its superclass comes before both,
and nothing is evaluated between them. So whatever is evaluated in the course
of the statement finds the store as it was before it; and in the end the name
is bound to the class, or the store is as it was.

Key definitions: `Lox.ClassBound`.
Key theorems: `Lox.classDecl_cases`, `Lox.failed_operations_write_nothing`.
-/
import Lox.Proofs.Failing.Positions

namespace Lox

open Procedure

/-! ### A class statement -/

/-- The frame binds the name to a class. -/
def ClassBound (s : Store) (f : FrameId) (name : String) : Prop :=
  ∃ c, (s.frame f).vars.get? name = some (.classRef c)

theorem placed_fails {α : Type} {p : Run α} {fault : Fault} {s s' : Store} (offset : Unit → Option Int)
    (h : p s = (.error fault, s')) : ∃ fault', Run.placed offset p s = (.error fault', s') := by
  refine ⟨if fault.isUnplaced then fault.attach (offset ()) else fault, ?_⟩
  show mapHalt _ _ _ = _
  rw [mapHalt, h]

section

variable {W : Watch} (hW : W.Lawful) (turns : Nat) {f : FrameId} {s : Store}

include hW

/-- The use of a superclass writes nothing. -/
theorem variable_cases (use : NameUse) : ∀ steps spent,
    (∃ v, (Evaluator.watched W .recorded turns steps spent).expr (.variable use) f s = (.ok v, s)) ∨
      ∃ fault, (Evaluator.watched W .recorded turns steps spent).expr (.variable use) f s =
        (.error fault, s)
  | 0, _ => by
    unfold Evaluator.watched
    exact .inr ⟨_, rfl⟩
  | steps + 1, spent + 1 => by
    unfold Evaluator.watched
    exact variable_cases use steps spent
  | steps + 1, 0 => by
    have haccess : (Evaluator.watched W .recorded turns steps 1).access = .recorded :=
      (Evaluator.sources_watched turns steps 1).access W
    unfold Evaluator.watched
    dsimp only
    obtain hok | ⟨m, hm⟩ := hW (.expr (.variable use)) f s
    · rw [bind_ok hok]
      obtain ⟨v, hlook⟩ | ⟨fault, hlook⟩ := look_cases (s := s) (f := f) use
      · refine .inl ⟨v, placed_ok ?_⟩
        show (Evaluator.watched W .recorded turns steps 1).access.look use f s = _
        rw [haccess]
        exact hlook
      · have hfails : (Evaluator.watched W .recorded turns steps 1).access.look use f s =
            (.error fault, s) := by
          rw [haccess]
          exact hlook
        exact .inr (placed_fails _ hfails)
    · exact .inr ⟨_, bind_error hm⟩

/-- Executed in a frame that is there, a class statement binds its name to a class, or fails and writes
nothing, whatever a watch does at the moments that it comes to. -/
theorem classDecl_cases (hf : f < s.frames.size) (name : Mark) (superclass : Option NameUse)
    (methods : List Fun) : ∀ steps spent,
    (∃ s', (Evaluator.watched W .recorded turns steps spent).stmt (.classDecl name superclass methods) f s =
        (.ok .next, s') ∧ ClassBound s' f name.text) ∨
      ∃ fault, (Evaluator.watched W .recorded turns steps spent).stmt
        (.classDecl name superclass methods) f s = (.error fault, s)
  | 0, _ => by
    unfold Evaluator.watched
    exact .inr ⟨_, rfl⟩
  | steps + 1, spent + 1 => by
    unfold Evaluator.watched
    exact classDecl_cases hf name superclass methods steps spent
  | steps + 1, 0 => by
    have hbinds : ∀ sup : Option ClassId, ∃ s', (do
        bindClass name sup methods f
        return .next : Run Flow) s = (.ok .next, s') ∧ ClassBound s' f name.text := by
      intro sup
      obtain ⟨c, s', hbound, hname⟩ := bindClass_binds hf sup methods
      exact ⟨s', bind_ok hbound, c, hname⟩
    unfold Evaluator.watched
    dsimp only
    obtain hok | ⟨m, hm⟩ := hW (.stmt (.classDecl name superclass methods)) f s
    · rw [bind_ok hok]
      cases superclass with
      | none =>
        obtain ⟨s', hrun, hbound⟩ := hbinds none
        exact .inl ⟨s', placed_ok hrun, hbound⟩
      | some use =>
        rw [execStmt_eq_operands]
        obtain ⟨v, hv⟩ | ⟨fault, hv⟩ := variable_cases (f := f) (s := s) hW turns use steps
          (Stmt.classDecl name (some use) methods).stepsIn
        · have hargs : evalArgs (Evaluator.watched W .recorded turns steps
              (Stmt.classDecl name (some use) methods).stepsIn) [.variable use] f s = (.ok [v], s) :=
            bind_ok hv
          cases v with
          | classRef c =>
            obtain ⟨s', hrun, hbound⟩ := hbinds (some c)
            exact .inl ⟨s', placed_ok ((bind_ok hargs).trans hrun), hbound⟩
          | const _ | native _ | function _ | method _ | instanceRef _ =>
            exact .inr (placed_fails _ ((bind_ok hargs).trans rfl))
        · have hargs : evalArgs (Evaluator.watched W .recorded turns steps
              (Stmt.classDecl name (some use) methods).stepsIn) [.variable use] f s = (.error fault, s) :=
            bind_error hv
          exact .inr (placed_fails _ (bind_error hargs))
    · exact .inr ⟨_, bind_error hm⟩

end

/-! ### Sessions -/

/-- **A failed operation writes nothing.** If the check of a node rejects the values of its operands, the
node fails in the very store that these left, whatever it is part of: an assignment to no variable
makes none, a call with a wrong number of arguments starts nothing, a set on a value without fields
does not evaluate what is set. So a program that was accepted leaves a session, if it stops with an
error, in the store that the operands of the failed node left, with what was printed by then. And a class
statement of it that begins at a moment leads to a binding of its name to a class, or leaves the store
as it was then; all that is evaluated in its course finds that store too, so that the binding to nil is
nowhere seen. -/
theorem failed_operations_write_nothing {limits : Limits} {clock : Clock} {earlier : List Input}
    {source : String} (h : Accepts limits source) :
    let session := (Session.start limits clock).after earlier
    (∀ (inner : Evaluator) site f s vs s' cause mark, inner.access = .recorded →
      evalArgs inner site.operands f s = (.ok vs, s') → Rejects s' f site vs cause →
      site.point? = some mark → site.run inner f s = (.error (.error ⟨cause, mark.offset⟩), s')) ∧
    (∀ d ∈ (session.run source).1.diagnostics, ∃ fault s',
      Stops (.ofLimits limits) (resolve limits (parse limits (scan source).tokens).stmts).stmts d fault s' ∧
      (session.run source).2.store = s' ∧ (session.run source).1.output = s'.output.toList ∧
      ∀ e, fault = .error e → ∃ t steps spent vs, session.Reaches (.program source) t ∧
        evalArgs (.within .recorded limits.turns steps spent) t.site.operands t.frame t.store =
          (.ok vs, s') ∧
        Rejects s' t.frame t.site vs e.cause) ∧
    ∀ t name superclass methods, session.Reaches (.program source) t →
      t.site = .stmt (.classDecl name superclass methods) → ∀ turns steps spent,
      let run := fun W => (Evaluator.watched W .recorded turns steps spent).stmt
        (.classDecl name superclass methods) t.frame
      ((∃ s', run .quiet t.store = (.ok .next, s') ∧ ClassBound s' t.frame name.text) ∨
        ∃ fault, run .quiet t.store = (.error fault, t.store)) ∧
      ∀ u, Comes run t.store u → u.store = t.store := by
  intro session
  have hlimits : session.limits = limits := Session.after_limits ..
  have haccepts : Accepts session.limits source := by rwa [hlimits]
  refine ⟨fun inner site f s vs s' cause mark haccess hargs hrejects hpoint =>
    hrejects.run hpoint haccess hargs, fun d hd => ?_,
    fun t name superclass methods ht _ turns steps spent => ?_⟩
  · obtain ⟨fault, s', hstops, hreport, harises⟩ := Session.stops_of_report haccepts hd
    rw [hlimits] at hstops
    refine ⟨fault, s', hstops, by rw [hreport], by rw [hreport], fun e he => ?_⟩
    obtain ⟨t, hreaches, hraises⟩ := harises e he
    obtain ⟨w, hexplained⟩ := Session.explained_of_reaches hreaches
    obtain ⟨steps, spent, vs, mark, hargs, hrejects, _, _⟩ := hraises hexplained.frame_lt
    rw [hlimits] at hargs
    exact ⟨t, steps, spent, vs, hreaches, hargs, hrejects⟩
  · obtain ⟨w, hexplained⟩ := Session.explained_of_reaches ht
    have hframe := hexplained.frame_lt
    refine ⟨classDecl_cases Watch.lawful_quiet turns hframe name superclass methods steps spent, fun u hu => ?_⟩
    have hends := hu (.statement "")
    obtain ⟨s', hrun, _⟩ | ⟨fault, hrun⟩ :=
      classDecl_cases (Watch.lawful_stopAt u (.statement "")) turns hframe name superclass methods steps
        spent
    · cases hrun.symm.trans hends
    · exact (Prod.mk.inj (hrun.symm.trans hends)).2.symm

/-- A class whose superclass is none leaves the class of that name as it was. -/
theorem refused_superclass_leaves_class :
    let source := "class A \x7b\x7d var B = 1; class A < B \x7b\x7d"
    let session := (Session.start ⟨60, 5⟩ (.still ⟨0⟩)).after []
    let d : Diagnostic := ⟨.runtime, 32, "Superclass must be a class."⟩
    Accepts ⟨60, 5⟩ source ∧ d ∈ (session.run source).1.diagnostics ∧
      ClassBound (session.run source).2.store Store.globals "A" ∧
      ∃ t steps spent vs cause, session.Reaches (.program source) t ∧
        evalArgs (.within .recorded 5 steps spent) t.site.operands t.frame t.store =
          (.ok vs, (session.run source).2.store) ∧
        Rejects (session.run source).2.store t.frame t.site vs cause := by
  intro source session d
  have haccepts : Accepts ⟨60, 5⟩ source := ⟨by decide +kernel, by decide +kernel, by decide +kernel⟩
  have hd : d ∈ (session.run source).1.diagnostics := by decide +kernel
  have hclass : ((session.run source).2.store.frame Store.globals).vars.get? "A" = some (.classRef 0) := by
    decide +kernel
  obtain ⟨fault, s', ⟨stmt, _, _, _, hreported⟩, hstore, _, herror⟩ :=
    (@failed_operations_write_nothing ⟨60, 5⟩ (.still ⟨0⟩) [] source haccepts).2.1 d hd
  cases fault with
  | error e =>
    obtain ⟨t, steps, spent, vs, hreaches, hargs, hrejects⟩ := herror e rfl
    refine ⟨haccepts, hd, ⟨0, hclass⟩, t, steps, spent, vs, e.cause, hreaches, ?_, ?_⟩
    · exact hargs.trans (by rw [← hstore])
    · have hstore : (session.run source).2.store = s' := hstore
      rw [hstore]
      exact hrejects
  | overflow =>
    have hmessage : stackOverflowMessage = "Superclass must be a class." :=
      congrArg Diagnostic.message (Option.some.inj hreported)
    exact absurd hmessage (by decide)
  | diverged _ | misplaced _ | exhausted => cases hreported

end Lox
