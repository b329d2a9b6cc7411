/-
# Running well-formed trees

A run of a tree over known operators meets no stray node and no operator that
it cannot apply. The functions that it makes are parts of the tree, so the
store keeps only functions over known operators (`Lox.Store.Sane`), and what is
called later is of this sort again.

Key definitions: `Lox.Fault.Usual`, `Lox.Store.Sane`, `Lox.Run.Safe`, `Lox.Evaluator.Safe`,
`Lox.Undisturbed`.
Key theorems: `Lox.safe_evalExpr`, `Lox.safe_execStmt`, `Lox.Evaluator.Safe.within`,
`Lox.undisturbed_interpretWith`.
-/
import Lox.Proofs.Running.History
import Lox.Proofs.Wellformed.Vocabulary

namespace Lox

open Procedure

/-! ### Faults -/

/-- The cause is no operator that cannot be applied, and one that is not raised from outside. -/
def Cause.Usual : Cause → Prop
  | .unsupportedOperator _ | .unsupportedUnary _ | .raised _ => False
  | _ => True

/-- The fault is no node out of place, and no error for an operator that cannot be applied. -/
def Fault.Usual : Fault → Prop
  | .error e => e.cause.Usual
  | .misplaced _ => False
  | .overflow | .diverged _ | .exhausted => True

theorem Fault.Usual.attach {fault : Fault} (h : fault.Usual) (offset : Option Int) :
    (fault.attach offset).Usual := by
  cases fault <;> exact h

/-! ### Safe runs -/

/-- The bodies of all functions are over known operators. -/
def Store.Sane (s : Store) : Prop := ∀ id, ∀ stmt ∈ (s.function id).decl.body, stmt.Over .known

namespace Store

theorem sane_initial (clock : Clock) : (initial clock).Sane := fun _ _ h => nomatch h

theorem Sane.withFunction {s : Store} (h : s.Sane) {closure : Closure}
    (hc : ∀ stmt ∈ closure.decl.body, stmt.Over .known) : (s.withFunction closure).Sane := by
  intro id
  rw [function_withFunction]
  split
  · exact hc
  · exact h id

end Store

/-- From a sane store the run leads to a sane one, and only a usual fault can end it. -/
def Run.Safe {α : Type} (p : Run α) : Prop :=
  ∀ s, s.Sane → (p s).2.Sane ∧ ∀ fault, (p s).1 = .error fault → fault.Usual

namespace Run.Safe

variable {α β : Type}

theorem pure (a : α) : Safe (Pure.pure a) := fun _ hs => ⟨hs, fun _ h => nomatch h⟩

theorem bind {p : Run α} {q : α → Run β} (hp : Safe p) (hq : ∀ a, Safe (q a)) :
    Safe (p >>= q) := by
  intro s hs
  obtain ⟨hstore, hfault⟩ := hp s hs
  rcases h : p s with ⟨fault | a, s'⟩ <;> rw [h] at hstore hfault
  · rw [bind_error h]
    exact ⟨hstore, fun fault' heq => by cases heq; exact hfault fault rfl⟩
  · rw [bind_ok h]
    exact hq a s' hstore

/-- What is read comes from a sane store. -/
theorem bind_read {g : Store → α} {q : α → Run β} (hq : ∀ s, s.Sane → Safe (q (g s))) :
    Safe (read g >>= q) :=
  fun s hs => hq s hs s hs

theorem bind_read' {g : Store → α} {q : α → Run β} (hq : ∀ a, Safe (q a)) :
    Safe (read g >>= q) :=
  bind_read fun _ _ => hq _

theorem map {p : Run α} {g : α → β} (hp : Safe p) : Safe (g <$> p) :=
  bind hp fun _ => pure _

theorem halt {fault : Fault} (h : fault.Usual) : Safe (halt fault : Run α) :=
  fun _ hs => ⟨hs, fun _ heq => by cases heq; exact h⟩

theorem fail {cause : Cause} {offset : Option Int} (h : cause.Usual) :
    Safe (Run.fail cause offset : Run α) :=
  halt h

/-- A change that leaves the functions alone. -/
theorem change {g : Store → Store} (h : ∀ s, (g s).functions = s.functions) : Safe (change g) := by
  refine fun s hs => ⟨fun id => ?_, fun _ h => nomatch h⟩
  show ∀ stmt ∈ ((g s).functions.getD id default).decl.body, _
  rw [h s]
  exact hs id

theorem ite {c : Prop} [Decidable c] {p q : Run α} (hp : Safe p) (hq : Safe q) :
    Safe (if c then p else q) := by
  split
  · exact hp
  · exact hq

theorem placed {p : Run α} (hp : Safe p) (offset : Unit → Option Int) :
    Safe (Run.placed offset p) := by
  intro s hs
  obtain ⟨hstore, hfault⟩ := hp s hs
  show (mapHalt _ p s).2.Sane ∧ ∀ fault, (mapHalt _ p s).1 = .error fault → fault.Usual
  unfold mapHalt
  rcases h : p s with ⟨fault | a, s'⟩ <;> rw [h] at hstore hfault
  · refine ⟨hstore, fun fault' heq => ?_⟩
    cases heq
    dsimp only
    split
    · exact (hfault fault rfl).attach _
    · exact hfault fault rfl
  · exact ⟨hstore, fun _ h => nomatch h⟩

end Run.Safe

open Run.Safe

/-! ### Steps on the store -/

namespace Run

theorem safe_newFrame (parent : Option FrameId) : Safe (newFrame parent) :=
  fun _ hs => ⟨hs, fun _ h => nomatch h⟩

theorem safe_newMethod (bound : BoundMethod) : Safe (newMethod bound) :=
  fun _ hs => ⟨hs, fun _ h => nomatch h⟩

theorem safe_newClass (cls : ClassObject) : Safe (newClass cls) :=
  fun _ hs => ⟨hs, fun _ h => nomatch h⟩

theorem safe_newInstance (cls : ClassId) : Safe (newInstance cls) :=
  fun _ hs => ⟨hs, fun _ h => nomatch h⟩

theorem safe_newFunction {closure : Closure}
    (h : ∀ stmt ∈ closure.decl.body, stmt.Over .known) : Safe (newFunction closure) :=
  fun _ hs => ⟨hs.withFunction h, fun _ h => nomatch h⟩

theorem safe_define (f : FrameId) (name : String) (v : Value) : Safe (define f name v) :=
  .change fun _ => rfl

theorem safe_print (v : Value) : Safe (print v) :=
  .bind_read' fun _ => .change fun _ => rfl

theorem safe_get (f : FrameId) (name : Mark) : Safe (get f name) := by
  refine .bind_read' fun found => ?_
  cases found with
  | none => exact .fail trivial
  | some v => exact .pure v

theorem safe_assign (f : FrameId) (name : Mark) (v : Value) : Safe (assign f name v) := by
  refine .bind_read' fun found => ?_
  cases found with
  | none => exact .fail trivial
  | some h => exact safe_define h name.text v

theorem safe_ancestor (f : FrameId) (distance : Int) : Safe (ancestor f distance) := by
  refine .bind_read' fun found => ?_
  cases found with
  | none => exact .halt trivial
  | some a => exact .pure a

theorem safe_getAt (f : FrameId) (distance : Int) (name : String) :
    Safe (getAt f distance name) := by
  refine .bind (safe_ancestor f distance) fun a => .bind_read' fun found => ?_
  cases found with
  | none => exact .halt trivial
  | some v => exact .pure v

theorem safe_assignAt (f : FrameId) (distance : Int) (name : String) (v : Value) :
    Safe (assignAt f distance name v) :=
  .bind (safe_ancestor f distance) fun a => .bind_read' fun _ =>
    .ite (safe_define a name v) (.halt trivial)

end Run

open Run

/-! ### Operators -/

theorem safe_joinOrAdd (op : Mark) (v w : Value) : Safe (joinOrAdd op v w) := by
  unfold joinOrAdd
  split
  · exact .pure _
  · exact .bind_read' fun _ => .pure _
  · exact .bind_read' fun _ => .pure _
  · exact .fail trivial

/-- A binary operator that a tree may have is one that can be applied. -/
theorem safe_binaryResult {op : Mark} (hop : op.kind ∈ binaryKinds) (v w : Value) :
    Safe (binaryResult op v w) := by
  obtain ⟨kind, text, offset⟩ := op
  unfold binaryResult
  simp only [binaryKinds, List.mem_cons, List.not_mem_nil, or_false] at hop
  rcases hop with rfl | rfl | rfl | rfl | rfl | rfl | rfl | rfl | rfl | rfl <;>
    dsimp only [arithmetic?]
  -- equality, and the sum, which may join texts; the others take two numbers
  case inl | inr.inl => exact .pure _
  case inr.inr.inr.inr.inr.inr.inr.inl => exact safe_joinOrAdd _ v w
  all_goals
    split
    · exact .pure _
    · exact .fail trivial

theorem safe_unaryResult {op : Mark} (hop : op.kind ∈ unaryKinds) (v : Value) :
    Safe (unaryResult op v) := by
  obtain ⟨kind, text, offset⟩ := op
  unfold unaryResult
  simp only [unaryKinds, List.mem_cons, List.not_mem_nil, or_false] at hop
  rcases hop with rfl | rfl <;> dsimp only
  · exact .pure _
  · split
    · exact .pure _
    · exact .fail trivial

/-! ### Properties -/

theorem safe_receiverFrame (id : FunctionId) (v : Value) : Safe (receiverFrame id v) :=
  .bind_read' fun _ => .bind (safe_newFrame _) fun frame =>
    .bind (safe_define frame "this" v) fun _ => .pure frame

theorem safe_bindMethod (id : FunctionId) (v : Value) : Safe (bindMethod id v) :=
  .bind (safe_receiverFrame id v) fun _ => .bind (safe_newMethod _) fun _ => .pure _

theorem safe_getProperty (v : Value) (name : Mark) : Safe (getProperty v name) := by
  cases v with
  | instanceRef id =>
    refine .bind_read' fun field => ?_
    cases field with
    | some v => exact .pure v
    | none =>
      refine .bind_read' fun method => ?_
      cases method with
      | some m => exact safe_bindMethod m _
      | none => exact .fail trivial
  | _ => exact .fail trivial

theorem safe_superProperty (use : NameUse) (name : Mark) (f : FrameId) :
    Safe (superProperty use name f) := by
  unfold superProperty
  cases use.hops with
  | none => exact .halt trivial
  | some d =>
    refine .bind (safe_getAt f d "super") fun superclass =>
      .bind (safe_getAt f (d - 1) "this") fun receiver => .bind_read' fun method => ?_
    cases method with
    | some m => exact safe_bindMethod m receiver
    | none => exact .fail trivial

/-! ### Evaluation -/

/-- Names, and trees over known operators, are safe to evaluate. -/
structure Evaluator.Safe (inner : Evaluator) : Prop where
  look : ∀ use f, (inner.access.look use f).Safe
  store : ∀ use v f, (inner.access.store use v f).Safe
  expr : ∀ {e : Expr} f, e.Over .known → (inner.expr e f).Safe
  stmt : ∀ {s : Stmt} f, s.Over .known → (inner.stmt s f).Safe
  called : ∀ {s : Stmt} f, s.Over .known → (inner.called s f).Safe

section

variable {inner : Evaluator}

theorem safe_execBody {exec : Stmt → FrameId → Run Flow} : ∀ {body : List Stmt} (f : FrameId),
    (∀ s ∈ body, Safe (exec s f)) → Safe (execBody exec body f)
  | [], _, _ => .pure _
  | _ :: _, f, h => by
    obtain ⟨hs, hbody⟩ := List.forall_mem_cons.mp h
    refine .bind hs fun flow => ?_
    cases flow with
    | next => exact safe_execBody f hbody
    | returning v => exact .pure _

theorem safe_bindParams (f : FrameId) : ∀ (params : List Mark) (args : List Value),
    Safe (bindParams f params args)
  | [], _ | _ :: _, [] => .pure _
  | _ :: params, _ :: args => .bind (safe_define f _ _) fun _ => safe_bindParams f params args

theorem safe_invoke (h : inner.Safe) (id : FunctionId) (outer : FrameId) (args : List Value) :
    Safe (invoke inner id outer args) := by
  refine .bind_read fun s hs => .bind (safe_newFrame _) fun f =>
    .bind (safe_bindParams f _ args) fun _ =>
      .bind (safe_execBody f fun stmt hstmt => h.called f (hs id stmt hstmt)) fun flow => ?_
  refine .ite (safe_getAt outer 0 "this") ?_
  cases flow with
  | next => exact .pure _
  | returning v => exact .pure v

theorem safe_apply (h : inner.Safe) (callee : Value) (args : List Value) :
    Safe (apply inner callee args) := by
  unfold apply
  split
  · exact .bind_read' fun _ => .pure _
  · exact .bind_read' fun _ => safe_invoke h _ _ args
  · exact .bind_read' fun _ => safe_invoke h _ _ args
  · refine .bind (safe_newInstance _) fun object => .bind_read' fun method => ?_
    cases method with
    | none => exact .pure _
    | some m =>
      exact .bind (safe_receiverFrame m _) fun frame =>
        .bind (.map (safe_invoke h m frame args)) fun _ => .pure _
  · exact .pure _
  · exact .pure _

theorem safe_callWith (h : inner.Safe) (callee : Value) (args : List Value) (place : Option Int) :
    Safe (callWith inner callee args place) := by
  refine .bind_read' fun arity => ?_
  cases arity with
  | none => exact .fail trivial
  | some expected => exact .ite (safe_apply h callee args) (.fail trivial)

theorem safe_evalArgs (h : inner.Safe) (f : FrameId) : ∀ {args : List Expr},
    (∀ arg ∈ args, arg.Over .known) → Safe (evalArgs inner args f)
  | [], _ => .pure _
  | _ :: _, hargs => by
    obtain ⟨harg, hargs⟩ := List.forall_mem_cons.mp hargs
    exact .bind (h.expr f harg) fun _ => .bind (safe_evalArgs h f hargs) fun _ => .pure _

theorem safe_evalExpr (h : inner.Safe) {e : Expr} (he : e.Over .known) (f : FrameId) :
    Safe (evalExpr inner e f) := by
  cases he with
  | literal => exact .pure _
  | grouping he => exact h.expr f he
  | unary hop he => exact .bind (h.expr f he) fun v => safe_unaryResult hop v
  | binary hl hop hr =>
    exact .bind (h.expr f hl) fun v => .bind (h.expr f hr) fun w => safe_binaryResult hop v w
  | logical hl _ hr => exact .bind (h.expr f hl) fun v => .ite (.pure v) (h.expr f hr)
  | ternary hc hy hn => exact .bind (h.expr f hc) fun _ => .ite (h.expr f hy) (h.expr f hn)
  | «variable» | receiver => exact h.look _ f
  | assign _ he =>
    exact .bind (h.expr f he) fun v => .bind (h.store _ v f) fun _ => .pure v
  | call hc _ hargs =>
    exact .bind (h.expr f hc) fun v => .bind (safe_evalArgs h f hargs) fun vs =>
      safe_callWith h v vs _
  | get ho => exact .bind (h.expr f ho) fun v => safe_getProperty v _
  | set ho _ he =>
    refine .bind (h.expr f ho) fun object => ?_
    cases object with
    | instanceRef id =>
      exact .bind (h.expr f he) fun v => .bind (.change fun _ => rfl) fun _ => .pure v
    | _ => exact .fail trivial
  | superMethod => exact safe_superProperty _ _ f

theorem safe_evalOption (h : inner.Safe) (f : FrameId) : ∀ {o : Option Expr},
    (∀ e ∈ o, e.Over .known) → Safe (evalOption inner o f)
  | none, _ => .pure _
  | some _, he => h.expr f (he _ rfl)

theorem safe_execLoop (h : inner.Safe) {cond : Expr} {body : Stmt} (hcond : cond.Over .known)
    (hbody : body.Over .known) (f : FrameId) : ∀ turns, Safe (execLoop inner cond body f turns)
  | 0 => .halt trivial
  | turns + 1 => by
    refine .bind (h.expr f hcond) fun _ => .ite (.bind (h.stmt f hbody) fun flow => ?_) (.pure _)
    cases flow with
    | next => exact safe_execLoop h hcond hbody f turns
    | returning v => exact .pure _

theorem safe_makeMethods (f : FrameId) : ∀ {methods : List Fun} (made : Bindings FunctionId),
    (∀ m ∈ methods, ∀ s ∈ m.body, s.Over .known) → Safe (makeMethods f methods made)
  | [], _, _ => .pure _
  | _ :: _, _, h => by
    obtain ⟨hm, hmethods⟩ := List.forall_mem_cons.mp h
    exact .bind (safe_newFunction hm) fun _ => safe_makeMethods f _ hmethods

theorem safe_evalSuperclass (h : inner.Safe) (use : NameUse) (f : FrameId) :
    Safe (evalSuperclass inner use f) := by
  refine .bind (h.expr f (.variable ⟨trivial, trivial⟩)) fun v => ?_
  cases v with
  | classRef c => exact .pure c
  | _ => exact .fail trivial

theorem safe_methodFrame (superclass : Option ClassId) (f : FrameId) :
    Safe (methodFrame superclass f) := by
  cases superclass with
  | none => exact .pure f
  | some c =>
    exact .bind (safe_newFrame _) fun inside => .bind (safe_define inside "super" _) fun _ =>
      .pure inside

theorem safe_execClass (h : inner.Safe) (name : Mark) (superclass : Option NameUse)
    {methods : List Fun} (hm : ∀ m ∈ methods, ∀ s ∈ m.body, s.Over .known) (f : FrameId) :
    Safe (execClass inner name superclass methods f) := by
  have bound (superclass : Option ClassId) : Safe (do
      Run.define f name.text .nil
      let inside ← methodFrame superclass f
      let made ← makeMethods inside methods .empty
      let c ← Run.newClass ⟨name.text, superclass, made⟩
      Run.assign f name (.classRef c)) :=
    .bind (safe_define f name.text .nil) fun _ => .bind (safe_methodFrame superclass f) fun _ =>
      .bind (safe_makeMethods _ .empty hm) fun _ => .bind (safe_newClass _) fun _ =>
        safe_assign f name _
  cases superclass with
  | none => exact bound none
  | some use => exact .bind (.map (safe_evalSuperclass h use f)) bound

theorem safe_execStmt (h : inner.Safe) {s : Stmt} (hs : s.Over .known) (f : FrameId) :
    Safe (execStmt inner s f) := by
  cases hs with
  | expr he => exact .bind (.map (h.expr f he)) fun _ => .pure _
  | print he => exact .bind (h.expr f he) fun v => .bind (safe_print v) fun _ => .pure _
  | var _ he =>
    exact .bind (safe_evalOption h f he) fun v => .bind (safe_define f _ v) fun _ => .pure _
  | block hb =>
    exact .bind (safe_newFrame _) fun inside =>
      safe_execBody inside fun s hs => h.stmt inside (hb s hs)
  | @branch _ _ no hc hy hn =>
    refine .bind (h.expr f hc) fun _ => .ite (h.stmt f hy) ?_
    cases no with
    | none => exact .pure _
    | some s => exact h.stmt f (hn s rfl)
  | loop hc hb => exact safe_execLoop h hc hb f inner.turns
  | function _ hb =>
    exact .bind (safe_newFunction hb) fun _ => .bind (safe_define f _ _) fun _ => .pure _
  | giveBack _ he => exact .bind (safe_evalOption h f he) fun _ => .pure _
  | classDecl _ _ _ hb => exact .bind (safe_execClass h _ _ hb f) fun _ => .pure _

end

theorem safe_recorded_look (use : NameUse) (f : FrameId) : Safe (Access.recorded.look use f) := by
  unfold Access.recorded
  dsimp only
  cases use.hops with
  | none => exact safe_get Store.globals use.name
  | some d => exact safe_getAt f d use.name.text

theorem safe_recorded_store (use : NameUse) (v : Value) (f : FrameId) :
    Safe (Access.recorded.store use v f) := by
  unfold Access.recorded
  dsimp only
  cases use.hops with
  | none => exact safe_assign Store.globals use.name v
  | some d => exact safe_assignAt f d use.name.text v

/-- Evaluation is safe at any number of steps. -/
theorem Evaluator.Safe.within (turns : Nat) : ∀ steps spent,
    (Evaluator.within .recorded turns steps spent).Safe
  | 0, _ =>
    { look := safe_recorded_look
      store := safe_recorded_store
      expr := fun _ _ => .halt trivial
      stmt := fun _ _ => .halt trivial
      called := fun _ _ => .halt trivial }
  | steps + 1, spent + 1 => within turns steps spent
  | steps + 1, 0 =>
    { look := safe_recorded_look
      store := safe_recorded_store
      expr := fun f he => .placed (safe_evalExpr (within turns steps _) he f) _
      stmt := fun f hs => .placed (safe_execStmt (within turns steps _) hs f) _
      called := fun f hs => .placed (safe_execStmt (within turns steps _) hs f) _ }

/-! ### Reports -/

/-- The first three characters of the text are of the sort. -/
def Opens (p : List Char → Prop) (text : String) : Prop :=
  3 ≤ text.toList.length ∧ p (text.toList.take 3)

theorem Opens.append {p : List Char → Prop} {text : String} (h : Opens p text) (rest : String) :
    Opens p (text ++ rest) := by
  obtain ⟨hlength, htake⟩ := h
  constructor
  · rw [String.toList_append, List.length_append]
    omega
  · rwa [String.toList_append, List.take_append_of_le_length hlength]

/-- The words of an operator that cannot be applied. -/
def Diagnostic.IsUnsupported (d : Diagnostic) : Prop :=
  ∃ text, d.message = (Cause.unsupportedOperator text).message ∨
    d.message = (Cause.unsupportedUnary text).message

/-- Complaints about operators begin alike. -/
theorem Diagnostic.IsUnsupported.opens {d : Diagnostic} (h : d.IsUnsupported) :
    Opens (· = ['U', 'n', 's']) d.message := by
  obtain ⟨text, h | h⟩ := h <;> rw [h] <;> exact .append (.append ⟨by decide, by decide⟩ _) _

/-- The words of other causes begin otherwise. -/
theorem Cause.Usual.opens {cause : Cause} (h : cause.Usual) :
    Opens (· ≠ ['U', 'n', 's']) cause.message := by
  cases cause with
  | unsupportedOperator | unsupportedUnary | raised => exact h.elim
  | undefinedVariable | undefinedProperty => exact .append (.append ⟨by decide, by decide⟩ _) _
  | wrongArity => exact .append (.append (.append (.append ⟨by decide, by decide⟩ _) _) _) _
  | _ => exact ⟨by decide, by decide⟩

theorem opens_stackOverflowMessage : Opens (· ≠ ['U', 'n', 's']) stackOverflowMessage :=
  ⟨by decide, by decide⟩

/-- No usual fault is reported as an operator that cannot be applied. -/
theorem Fault.Usual.not_isUnsupported {fault : Fault} (h : fault.Usual) {start : Option Int}
    {d : Diagnostic} (hd : fault.diagnostic? start = some d) : ¬ d.IsUnsupported := by
  have hopens : Opens (· ≠ ['U', 'n', 's']) d.message := by
    cases fault with
    | error e =>
      cases hd
      exact Cause.Usual.opens h
    | overflow =>
      cases hd
      exact opens_stackOverflowMessage
    | diverged | misplaced | exhausted => cases hd
  exact fun hunsupported => hopens.2 hunsupported.opens.2

/-- The store is sane now, no node out of place ended the run, and no report is one of an operator
that cannot be applied. -/
structure Undisturbed (ending : Except Fault (List Diagnostic) × Store) : Prop where
  sane : ending.2.Sane
  placed : ∀ m, ending.1 ≠ .error (.misplaced m)
  supported : ∀ ds, ending.1 = .ok ds → ∀ d ∈ ds, ¬ d.IsUnsupported

namespace Undisturbed

variable {s : Store}

theorem ok {ds : List Diagnostic} (hs : s.Sane) (hds : ∀ d ∈ ds, ¬ d.IsUnsupported) :
    Undisturbed (.ok ds, s) where
  sane := hs
  placed _ h := nomatch h
  supported := by
    rintro _ ⟨⟩
    exact hds

theorem error {fault : Fault} (hs : s.Sane) (h : fault.Usual) : Undisturbed (.error fault, s) where
  sane := hs
  placed := by
    rintro _ ⟨⟩
    exact h
  supported _ h := nomatch h

end Undisturbed

section

variable {evaluator : Evaluator} {s : Store}

theorem undisturbed_reported {start : Unit → Option Int} {p : Run Unit} (hp : p.Safe)
    (hs : s.Sane) : Undisturbed (reported start p s) := by
  obtain ⟨hstore, hfault⟩ := hp s hs
  rcases h : p s with ⟨fault | u, s'⟩ <;> rw [h] at hstore hfault
  · have husual : fault.Usual := hfault fault rfl
    rw [reported_error h]
    cases hd : fault.diagnostic? (start ()) with
    | none => exact .error hstore husual
    | some d =>
      exact .ok hstore (List.forall_mem_singleton.mpr (husual.not_isUnsupported hd))
  · rw [reported_ok h]
    exact .ok hstore fun _ h => nomatch h

/-- A program over known operators runs undisturbed. -/
theorem undisturbed_interpretWith (he : evaluator.Safe) : ∀ {stmts : List Stmt} {s : Store},
    (∀ stmt ∈ stmts, stmt.Over .known) → s.Sane → Undisturbed (interpretWith evaluator stmts s)
  | [], _, _, hs => .ok hs fun _ h => nomatch h
  | stmt :: stmts, s, h, hs => by
    obtain ⟨hstmt, hstmts⟩ := List.forall_mem_cons.mp h
    have hfirst : Undisturbed (reported (fun _ => stmt.offset?)
        (discard (evaluator.stmt stmt Store.globals)) s) :=
      undisturbed_reported (.map (he.stmt _ hstmt)) hs
    rcases hrun : reported (fun _ => stmt.offset?) (discard (evaluator.stmt stmt Store.globals)) s
      with ⟨fault | _ | ⟨d, ds⟩, s'⟩ <;> rw [hrun] at hfirst
    · rw [interpretWith_escaped hrun]
      exact hfirst
    · rw [interpretWith_next hrun]
      exact undisturbed_interpretWith he hstmts hfirst.sane
    · rw [interpretWith_reported hrun]
      exact hfirst

theorem undisturbed_interpretExprWith (h : evaluator.Safe) {e : Expr} (he : e.Over .known)
    (hs : s.Sane) : Undisturbed (interpretExprWith evaluator e s) :=
  undisturbed_reported (.bind (h.expr _ he) fun v => safe_print v) hs

end

end Lox
