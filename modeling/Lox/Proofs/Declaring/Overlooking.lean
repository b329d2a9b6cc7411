/-
# Running with one more name in the frames

From a store and the one beside it, a program that does not say the name and
the one that has the declaration besides lead to stores beside each other,
with the same values, and with the same errors but for their places
(`Lox.Run.Overlooks`). The statement of the declaration needs a step to run
itself. Another statement of its scope needs one too; in a scope that has no
other one the second run may run out of steps where the first one does not.

Key definitions: `Lox.Fault.placeless`, `Lox.Run.Overlooks`, `Lox.Evaluator.Overlooks`.
Key theorems: `Lox.Run.Overlooks.execBody`, `Lox.Run.Overlooks.evalExpr`,
`Lox.Run.Overlooks.execStmt`, `Lox.Evaluator.overlooks_within`, `Lox.Run.Overlooks.interpretWith`.
-/
import Lox.Proofs.Declaring.Beside
import Lox.Proofs.Spelling.Interactive

namespace Lox

open Procedure

/-- The fault without the place of its error. -/
def Fault.placeless : Fault → Fault
  | .error e => .error ⟨e.cause, none⟩
  | fault => fault

theorem Fault.placeless_attach (fault : Fault) (offset : Option Int) :
    (if fault.isUnplaced then fault.attach offset else fault).placeless = fault.placeless := by
  cases fault with
  | error e => by_cases h : (Fault.error e).isUnplaced <;> simp [h, attach, placeless, RuntimeError.attach]
  | overflow | diverged _ | misplaced _ | exhausted => rfl

/-- Faults that differ in the place only are reported alike, or not reported at all. -/
theorem Fault.reported_alike {fault fault' : Fault} (h : fault'.placeless = fault.placeless)
    (start start' : Option Int) :
    (∃ d d', fault.diagnostic? start = some d ∧ fault'.diagnostic? start' = some d' ∧
        d'.saying = d.saying) ∨
      (fault.diagnostic? start = none ∧ fault'.diagnostic? start' = none ∧ fault' = fault) := by
  cases fault <;> cases fault' <;> simp_all [placeless, diagnostic?, Diagnostic.saying]

namespace Run

variable {α β γ : Type} {g : Addition}

/-- From a store and the one beside it both runs end alike, in stores beside each other, unless the
declaration stands alone and the second run runs out of steps. -/
def Overlooks (g : Addition) (p p' : Run α) : Prop :=
  ∀ s s' : Store, s.Beside g s' →
    (g.Lonely ∧ (p' s').1 = .error .overflow) ∨
      ((p' s').1.mapError Fault.placeless = (p s).1.mapError Fault.placeless ∧
        (p s).2.Beside g (p' s').2)

namespace Overlooks

variable {p p' : Run α}

theorem step {a : α} {m m' : Store → Store} (hp : ∀ s, p s = (.ok a, m s))
    (hp' : ∀ s, p' s = (.ok a, m' s)) (hm : ∀ {s s'}, s.Beside g s' → (m s).Beside g (m' s')) :
    Overlooks g p p' := by
  intro s s' h
  rw [hp, hp']
  exact .inr ⟨rfl, hm h⟩

theorem pure (a : α) : Overlooks g (Pure.pure a : Run α) (Pure.pure a) := fun _ _ h => .inr ⟨rfl, h⟩

theorem halt {fault fault' : Fault} (hf : fault'.placeless = fault.placeless) :
    Overlooks g (Procedure.halt fault : Run α) (Procedure.halt fault') :=
  fun _ _ h => .inr ⟨congrArg Except.error hf, h⟩

theorem fail (cause : Cause) (offset : Option Int) :
    Overlooks g (Run.fail cause offset : Run α) (Run.fail cause offset) := halt rfl

theorem bind {q q' : α → Run β} (hp : Overlooks g p p') (hq : ∀ a, Overlooks g (q a) (q' a)) :
    Overlooks g (p >>= q) (p' >>= q') := by
  intro s s' h
  cases hrun : p s with
  | mk r s₁ =>
    cases hrun' : p' s' with
    | mk r' s₁' =>
      have hboth := hp s s' h
      rw [hrun, hrun'] at hboth
      obtain ⟨hlonely, hover⟩ | ⟨hsame, hbeside⟩ := hboth
      · obtain rfl : r' = .error .overflow := hover
        rw [bind_error hrun']
        exact .inl ⟨hlonely, rfl⟩
      · match r, r' with
        | .ok a, .ok a' =>
          obtain rfl : a' = a := Except.ok.inj hsame
          rw [bind_ok hrun, bind_ok hrun']
          exact hq a' _ _ hbeside
        | .error fault, .error fault' =>
          rw [bind_error hrun, bind_error hrun']
          exact .inr ⟨congrArg Except.error (Except.error.inj hsame), hbeside⟩

theorem discard (hp : Overlooks g p p') : Overlooks g (discard p) (discard p') :=
  have hbind : Overlooks g (p >>= fun _ => Pure.pure ()) (p' >>= fun _ => Pure.pure ()) :=
    hp.bind fun _ => pure ()
  hbind

/-- What the stores tell may be told apart. -/
theorem bind_read {r : Store → γ} {q q' : γ → Run α}
    (h : ∀ {s s'}, s.Beside g s' → Overlooks g (q (r s)) (q' (r s'))) :
    Overlooks g (Procedure.read r >>= q) (Procedure.read r >>= q') := fun _ _ hs => h hs _ _ hs

/-- Both stores tell the same. -/
theorem read {r : Store → γ} {q q' : γ → Run α} (hr : ∀ {s s'}, s.Beside g s' → r s' = r s)
    (hq : ∀ a, Overlooks g (q a) (q' a)) :
    Overlooks g (Procedure.read r >>= q) (Procedure.read r >>= q') :=
  bind_read fun hs => by
    rw [hr hs]
    exact hq _

theorem ite {P : Prop} [Decidable P] {q q' : Run α} (hp : Overlooks g p p') (hq : Overlooks g q q') :
    Overlooks g (if P then p else q) (if P then p' else q') := by
  split
  · exact hp
  · exact hq

theorem placed {offset offset' : Unit → Option Int} (hp : Overlooks g p p') :
    Overlooks g (Run.placed offset p) (Run.placed offset' p') := by
  intro s s' h
  have hboth := hp s s' h
  unfold Run.placed mapHalt
  cases hrun : p s with
  | mk r s₁ =>
    cases hrun' : p' s' with
    | mk r' s₁' =>
      rw [hrun, hrun'] at hboth
      obtain ⟨hlonely, hover⟩ | ⟨hsame, hbeside⟩ := hboth
      · obtain rfl : r' = .error .overflow := hover
        exact .inl ⟨hlonely, rfl⟩
      · match r, r' with
        | .ok _, .ok _ => exact .inr ⟨hsame, hbeside⟩
        | .error fault, .error fault' =>
          refine .inr ⟨congrArg Except.error ?_, hbeside⟩
          rw [Fault.placeless_attach, Fault.placeless_attach]
          exact Except.error.inj hsame

/-! ### Frames, functions and classes -/

/-- A step that both take beside frames and functions. -/
theorem aside {r : Store → α} {m : Store → Store} (hp : ∀ s, p s = (.ok (r s), m s))
    (hr : ∀ {s s'}, s.Beside g s' → r s' = r s) (hm : Pair.Aside m) : Overlooks g p p := by
  intro s s' h
  rw [hp, hp, hr h]
  exact .inr ⟨rfl, h.aside hm⟩

theorem print (v : Value) : Overlooks g (Run.print v) (Run.print v) :=
  read (fun h => h.display v) fun _ => aside (fun _ => rfl) (fun _ => rfl) fun _ _ _ => rfl

theorem tick : Overlooks g Run.tick Run.tick :=
  aside (m := Store.ticked) (fun _ => rfl) (fun h => congrArg Clock.next h.clock) fun _ _ _ => rfl

theorem newFrame (parent : Option FrameId) : Overlooks g (Run.newFrame parent) (Run.newFrame parent) :=
  fun _ _ h => .inr ⟨congrArg Except.ok h.frames, h.withFrame parent⟩

theorem newFunction {closure closure' : Closure} (hc : closure.Gains g closure') :
    Overlooks g (Run.newFunction closure) (Run.newFunction closure') :=
  fun _ _ h => .inr ⟨congrArg Except.ok h.functions, h.withFunction hc⟩

theorem newMethod (bound : BoundMethod) : Overlooks g (Run.newMethod bound) (Run.newMethod bound) :=
  aside (r := (·.methods.size)) (fun _ => rfl) (fun h => by rw [h.rest]) fun _ _ _ => rfl

theorem newClass (cls : ClassObject) : Overlooks g (Run.newClass cls) (Run.newClass cls) :=
  aside (r := (·.classes.size)) (fun _ => rfl) (fun h => by rw [h.rest]) fun _ _ _ => rfl

theorem newInstance (cls : ClassId) : Overlooks g (Run.newInstance cls) (Run.newInstance cls) :=
  aside (r := (·.instances.size)) (fun _ => rfl) (fun h => by rw [h.rest]) fun _ _ _ => rfl

theorem setProperty (id : InstanceId) (name : Mark) (v : Value) :
    Overlooks g (setProperty id name v) (setProperty id name v) :=
  aside (fun _ => rfl) (fun _ => rfl) fun _ _ _ => rfl

theorem define (f : FrameId) (name : String) (v : Value) :
    Overlooks g (Run.define f name v) (Run.define f name v) :=
  step (fun _ => rfl) (fun _ => rfl) fun h => h.define f name v

/-! ### Names -/

theorem get {name : Mark} (hn : name.text ≠ g.mark.text) (f : FrameId) :
    Overlooks g (Run.get f name) (Run.get f name) := by
  refine read (fun h => h.get? hn f) fun found => ?_
  cases found with
  | none => exact fail _ _
  | some v => exact pure v

theorem assign {name : Mark} (hn : name.text ≠ g.mark.text) (f : FrameId) (v : Value) :
    Overlooks g (Run.assign f name v) (Run.assign f name v) := by
  refine read (fun h => h.holder? hn f) fun found => ?_
  cases found with
  | none => exact fail _ _
  | some a => exact define a name.text v

theorem ancestor (f : FrameId) (d : Int) : Overlooks g (Run.ancestor f d) (Run.ancestor f d) := by
  refine read (fun h => h.ancestor? d.toNat f) fun found => ?_
  cases found with
  | none => exact halt rfl
  | some a => exact pure a

theorem getAt {name : String} (hn : name ≠ g.mark.text) (f : FrameId) (d : Int) :
    Overlooks g (Run.getAt f d name) (Run.getAt f d name) := by
  refine (ancestor f d).bind fun a => read (fun h => h.vars a name hn) fun found => ?_
  cases found with
  | none => exact halt rfl
  | some v => exact pure v

theorem assignAt {name : String} (hn : name ≠ g.mark.text) (f : FrameId) (d : Int) (v : Value) :
    Overlooks g (Run.assignAt f d name v) (Run.assignAt f d name v) :=
  (ancestor f d).bind fun a => read (fun h => h.contains hn a) fun _ => ite (define a name v) (halt rfl)

theorem look {use : NameUse} (hn : use.name.text ≠ g.mark.text) (f : FrameId) :
    Overlooks g (Access.recorded.look use f) (Access.recorded.look use f) := by
  unfold Access.recorded
  dsimp only
  cases use.hops with
  | none => exact get hn _
  | some d => exact getAt hn f d

theorem store {use : NameUse} (hn : use.name.text ≠ g.mark.text) (v : Value) (f : FrameId) :
    Overlooks g (Access.recorded.store use v f) (Access.recorded.store use v f) := by
  unfold Access.recorded
  dsimp only
  cases use.hops with
  | none => exact assign hn _ v
  | some d => exact assignAt hn f d v

/-! ### Instances and operators -/

theorem receiverFrame (id : FunctionId) (v : Value) :
    Overlooks g (receiverFrame id v) (receiverFrame id v) :=
  read (fun h => (h.function id).frame) fun _ => (newFrame _).bind fun f =>
    (define f "this" v).bind fun _ => pure f

theorem bindMethod (id : FunctionId) (v : Value) : Overlooks g (bindMethod id v) (bindMethod id v) :=
  (receiverFrame id v).bind fun f => (newMethod ⟨id, f⟩).bind fun _ => pure _

theorem getProperty (v : Value) (name : Mark) :
    Overlooks g (getProperty v name) (getProperty v name) := by
  cases v with
  | const _ | native _ | function _ | method _ | classRef _ => exact fail _ _
  | instanceRef id =>
    refine read (fun h => by rw [h.instanceObject]) fun field => ?_
    cases field with
    | some v => exact pure v
    | none =>
      refine read (fun h => by rw [h.findMethod?, h.instanceObject]) fun found => ?_
      cases found with
      | some m => exact bindMethod m _
      | none => exact fail _ _

theorem superProperty (use : NameUse) (name : Mark) (f : FrameId) :
    Overlooks g (superProperty use name f) (superProperty use name f) := by
  unfold Lox.superProperty
  cases use.hops with
  | none => exact halt rfl
  | some d =>
    refine (getAt g.ne_super f _).bind fun superclass => (getAt g.ne_this f _).bind fun receiver => ?_
    refine read (fun h => h.methodOf? superclass name.text) fun found => ?_
    cases found with
    | some m => exact bindMethod m receiver
    | none => exact fail _ _

theorem unaryResult (op : Mark) (v : Value) : Overlooks g (unaryResult op v) (unaryResult op v) := by
  unfold Lox.unaryResult
  split
  · split
    · exact pure _
    · exact fail _ _
  · exact pure _
  · exact fail _ _

theorem joinOrAdd (op : Mark) (u v : Value) : Overlooks g (joinOrAdd op u v) (joinOrAdd op u v) := by
  unfold Lox.joinOrAdd
  split
  · exact pure _
  · exact read (fun h => h.display _) fun _ => pure _
  · exact read (fun h => h.display _) fun _ => pure _
  · exact fail _ _

theorem binaryResult (op : Mark) (u v : Value) :
    Overlooks g (binaryResult op u v) (binaryResult op u v) := by
  unfold Lox.binaryResult
  split
  · exact joinOrAdd op u v
  · exact pure _
  · exact pure _
  · split
    · exact fail _ _
    · split
      · exact pure _
      · exact fail _ _

end Overlooks

end Run

/-! ### Evaluations -/

/-- Without steps left every statement runs out of them; otherwise the one of the declaration binds
its name. -/
def Run.Bare (g : Addition) (exec : Stmt → FrameId → Run Flow) : Prop :=
  (∀ s f, exec s f = Procedure.halt .overflow) ∨
    ∀ f, exec (.var g.mark none) f = Run.define f g.mark.text .nil >>= fun _ => Pure.pure .next

/-- The evaluations further in overlook the name. -/
structure Evaluator.Overlooks (g : Addition) (inner : Evaluator) : Prop where
  access : inner.access = .recorded
  expr : ∀ {e} f, g.Unsaid e.marks → Run.Overlooks g (inner.expr e f) (inner.expr e f)
  stmt : ∀ {s s'} f, Construct.Gains g (.stmt s) (.stmt s') →
    Run.Overlooks g (inner.stmt s f) (inner.stmt s' f)
  called : ∀ {s s'} f, Construct.Gains g (.stmt s) (.stmt s') →
    Run.Overlooks g (inner.called s f) (inner.called s' f)
  bareStmt : Run.Bare g inner.stmt
  bareCalled : Run.Bare g inner.called

namespace Run.Overlooks

variable {g : Addition} {inner : Evaluator}

/-- Statements in order, and with the declaration among them. -/
theorem execBody {exec : Stmt → FrameId → Run Flow} {f : FrameId}
    (hexec : ∀ {s s'}, Construct.Gains g (.stmt s) (.stmt s') → Overlooks g (exec s f) (exec s' f))
    (hbare : Run.Bare g exec) {body body' : List Stmt} (h : Padded g body body')
    (hempty : body = [] → body' = [] ∨ g.Lonely) :
    Overlooks g (execBody exec body f) (execBody exec body' f) := by
  obtain hover | hbare := hbare
  · -- without steps left it counts whether there is a statement
    have runsOut : ∀ (s : Stmt) (body : List Stmt),
        Lox.execBody exec (s :: body) f = Procedure.halt .overflow := by
      intro s body
      rw [Lox.execBody, hover]
      rfl
    match body, body' with
    | [], [] => exact pure _
    | [], s' :: body' =>
      intro _ _ _
      rw [runsOut]
      exact .inl ⟨(hempty rfl).resolve_left (List.cons_ne_nil _ _), rfl⟩
    | s :: body, s' :: body' =>
      rw [runsOut, runsOut]
      exact halt rfl
  · clear hempty
    induction h with
    | nil => exact pure _
    | cons hs _ ih =>
      refine (hexec hs).bind fun flow => ?_
      cases flow with
      | next => exact ih
      | returning v => exact pure _
    | @besides body body' _ ih =>
      intro s s' hbeside
      rw [Lox.execBody, hbare]
      exact ih _ _ (hbeside.defineBesides f .nil)

theorem bindParams (f : FrameId) : ∀ (params : List Mark) (args : List Value),
    Overlooks g (bindParams f params args) (bindParams f params args)
  | [], _ => pure ()
  | _ :: _, [] => pure ()
  | m :: params, v :: args => (define f m.text v).bind fun _ => bindParams f params args

theorem makeMethods (f : FrameId) {ms ms' : List Fun} (h : List.Forall₂ (Fun.Gains g) ms ms') :
    ∀ made, Overlooks g (makeMethods f ms made) (makeMethods f ms' made) := by
  induction h with
  | nil => exact fun made => pure made
  | @cons m m' ms ms' hm _ ih =>
    intro made
    have hclosure : Closure.Gains g ⟨m, f, m.name.text = Store.initName⟩
        ⟨m', f, m'.name.text = Store.initName⟩ := ⟨hm, rfl, by rw [hm.name]⟩
    refine (newFunction hclosure).bind fun id => ?_
    rw [hm.name]
    exact ih _

theorem methodFrame (superclass : Option ClassId) (f : FrameId) :
    Overlooks g (methodFrame superclass f) (methodFrame superclass f) := by
  cases superclass with
  | none => exact pure f
  | some cls => exact (newFrame _).bind fun inside => (define inside "super" _).bind fun _ => pure inside

variable (h : inner.Overlooks g)
include h

theorem invoke (id : FunctionId) (outer : FrameId) (args : List Value) :
    Overlooks g (invoke inner id outer args) (invoke inner id outer args) := by
  refine bind_read fun hs => ?_
  obtain ⟨hdecl, -, hinit⟩ := hs.function id
  rw [hdecl.params, hinit]
  refine (newFrame _).bind fun f => (bindParams f _ args).bind fun _ => ?_
  refine (execBody (h.called f) h.bareCalled hdecl.body hdecl.empty).bind fun flow => ?_
  refine ite (getAt g.ne_this _ _) ?_
  cases flow <;> exact pure _

theorem apply (v : Value) (args : List Value) : Overlooks g (apply inner v args) (apply inner v args) := by
  cases v with
  | const _ | instanceRef _ => exact pure _
  | native n =>
    cases n
    exact tick.bind fun _ => pure _
  | function id => exact read (fun hs => (hs.function id).frame) fun outer => invoke h id outer args
  | method id => exact read (fun hs => hs.method id) fun bound => invoke h bound.function bound.frame args
  | classRef cls =>
    refine (newInstance cls).bind fun object => ?_
    refine read (fun hs => hs.findMethod? cls Store.initName) fun found => ?_
    cases found with
    | none => exact pure _
    | some m =>
      exact (receiverFrame m _).bind fun f => (invoke h m f args).discard.bind fun _ => pure _

theorem callWith (v : Value) (args : List Value) (offset : Option Int) :
    Overlooks g (callWith inner v args offset) (callWith inner v args offset) := by
  refine read (fun hs => hs.arity? v) fun arity => ?_
  cases arity with
  | none => exact fail _ _
  | some expected => exact ite (apply h v args) (fail _ _)

theorem evalArgs (f : FrameId) : ∀ {es : List Expr}, g.Unsaid (argMarks es) →
    Overlooks g (evalArgs inner es f) (evalArgs inner es f)
  | [], _ => pure []
  | e :: es, hm => by
    obtain ⟨he, hes⟩ := List.forall_mem_append.mp hm
    exact (h.expr f he).bind fun v => (evalArgs f hes).bind fun vs => pure (v :: vs)

theorem evalExpr {e : Expr} (f : FrameId) (hm : g.Unsaid e.marks) :
    Overlooks g (evalExpr inner e f) (evalExpr inner e f) := by
  cases e with
  | literal value => exact pure _
  | grouping e => exact h.expr f hm
  | «variable» use | receiver use =>
    show Overlooks g (inner.access.look use f) (inner.access.look use f)
    rw [h.access]
    exact look (hm use.name (List.mem_singleton_self _)) f
  | assign use value =>
    obtain ⟨hname, hvalue⟩ := List.forall_mem_cons.mp hm
    refine (h.expr f hvalue).bind fun v => ?_
    rw [h.access]
    exact (store hname v f).bind fun _ => pure v
  | unary op e =>
    exact (h.expr f (List.forall_mem_cons.mp hm).2).bind fun v => unaryResult op v
  | binary l op r =>
    obtain ⟨hl, hr⟩ := List.forall_mem_append.mp hm
    exact (h.expr f hl).bind fun u => (h.expr f (List.forall_mem_cons.mp hr).2).bind fun v =>
      binaryResult op u v
  | logical l op r =>
    obtain ⟨hl, hr⟩ := List.forall_mem_append.mp hm
    exact (h.expr f hl).bind fun v => ite (pure v) (h.expr f (List.forall_mem_cons.mp hr).2)
  | ternary cond yes no =>
    obtain ⟨hm, hno⟩ := List.forall_mem_append.mp hm
    obtain ⟨hcond, hyes⟩ := List.forall_mem_append.mp hm
    exact (h.expr f hcond).bind fun v => ite (h.expr f hyes) (h.expr f hno)
  | call callee paren args =>
    obtain ⟨hcallee, hargs⟩ := List.forall_mem_append.mp hm
    exact (h.expr f hcallee).bind fun v =>
      (evalArgs h f (List.forall_mem_cons.mp hargs).2).bind fun vs => callWith h v vs _
  | get e name =>
    exact (h.expr f (List.forall_mem_append.mp hm).1).bind fun v => getProperty v name
  | set object name value =>
    obtain ⟨hobject, hvalue⟩ := List.forall_mem_append.mp hm
    refine (h.expr f hobject).bind fun o => ?_
    cases o with
    | const _ | native _ | function _ | method _ | classRef _ => exact fail _ _
    | instanceRef id =>
      exact (h.expr f (List.forall_mem_cons.mp hvalue).2).bind fun v =>
        (setProperty id name v).bind fun _ => pure v
  | superMethod use method => exact superProperty use method f
  | stray node => exact halt rfl

theorem evalOption {e : Option Expr} (f : FrameId) (hm : g.Unsaid (optionMarks e)) :
    Overlooks g (evalOption inner e f) (evalOption inner e f) := by
  cases e with
  | none => exact pure _
  | some e => exact h.expr f hm

theorem execLoop {cond : Expr} {body body' : Stmt} (f : FrameId) (hcond : g.Unsaid cond.marks)
    (hbody : Construct.Gains g (.stmt body) (.stmt body')) : ∀ turns : Nat,
      Overlooks g (execLoop inner cond body f turns) (execLoop inner cond body' f turns)
  | 0 => halt rfl
  | turns + 1 => by
    refine (h.expr f hcond).bind fun v => ite ((h.stmt f hbody).bind fun flow => ?_) (pure _)
    cases flow with
    | next => exact execLoop f hcond hbody turns
    | returning v => exact pure _

theorem evalSuperclass {use : NameUse} (f : FrameId) (hm : use.name.text ≠ g.mark.text) :
    Overlooks g (evalSuperclass inner use f) (evalSuperclass inner use f) := by
  refine (h.expr f (e := .variable use) (List.forall_mem_singleton.mpr hm)).bind fun v => ?_
  cases v with
  | classRef cls => exact pure cls
  | const _ | native _ | function _ | method _ | instanceRef _ => exact fail _ _

theorem execClass {name : Mark} {superclass : Option NameUse} {ms ms' : List Fun} (f : FrameId)
    (hname : name.text ≠ g.mark.text) (hsuper : ∀ use ∈ superclass, use.name.text ≠ g.mark.text)
    (hms : List.Forall₂ (Fun.Gains g) ms ms') :
    Overlooks g (execClass inner name superclass ms f) (execClass inner name superclass ms' f) := by
  have hfinish : ∀ cls : Option ClassId, Overlooks g
      (do
        Run.define f name.text .nil
        let inside ← Lox.methodFrame cls f
        let made ← Lox.makeMethods inside ms .empty
        let c ← Run.newClass ⟨name.text, cls, made⟩
        Run.assign f name (.classRef c))
      (do
        Run.define f name.text .nil
        let inside ← Lox.methodFrame cls f
        let made ← Lox.makeMethods inside ms' .empty
        let c ← Run.newClass ⟨name.text, cls, made⟩
        Run.assign f name (.classRef c)) := fun cls =>
    (define f name.text .nil).bind fun _ => (methodFrame cls f).bind fun inside =>
      (makeMethods inside hms _).bind fun made => (newClass _).bind fun c => assign hname f _
  cases superclass with
  | none => exact hfinish none
  | some use =>
    have hevaluated : Overlooks g (some <$> Lox.evalSuperclass inner use f)
        (some <$> Lox.evalSuperclass inner use f) :=
      (evalSuperclass h f (hsuper use rfl)).bind fun cls => pure (some cls)
    exact hevaluated.bind hfinish

theorem execStmt {s s' : Stmt} (f : FrameId) (hs : Construct.Gains g (.stmt s) (.stmt s')) :
    Overlooks g (execStmt inner s f) (execStmt inner s' f) := by
  cases s with
  | expr e =>
    obtain ⟨heq | hgrown, hm⟩ := hs
    · cases heq
      exact (h.expr f hm).discard.bind fun _ => pure _
    · cases hgrown
  | print e =>
    obtain ⟨heq | hgrown, hm⟩ := hs
    · cases heq
      exact (h.expr f hm).bind fun v => (print v).bind fun _ => pure _
    · cases hgrown
  | var name initial =>
    obtain ⟨heq | hgrown, hm⟩ := hs
    · cases heq
      exact (evalOption h f (List.forall_mem_cons.mp hm).2).bind fun v =>
        (define f name.text v).bind fun _ => pure _
    · cases hgrown
  | block body =>
    obtain ⟨body', rfl, hbody, hempty⟩ := hs.block
    exact (newFrame _).bind fun inside => execBody (h.stmt inside) h.bareStmt hbody hempty
  | branch cond yes no =>
    obtain ⟨yes', no', rfl, hcond, hyes, hno⟩ := hs.branch
    refine (h.expr f hcond).bind fun v => ite (h.stmt f hyes) ?_
    cases hno with
    | none => exact pure _
    | some hno => exact h.stmt f hno
  | loop cond body =>
    obtain ⟨body', rfl, hcond, hbody⟩ := hs.loop
    exact execLoop h f hcond hbody _
  | function decl =>
    obtain ⟨decl', rfl, hdecl⟩ := hs.function
    show Overlooks g
      (do
        let id ← Run.newFunction ⟨decl, f, false⟩
        Run.define f decl.name.text (.function id)
        return Flow.next)
      (do
        let id ← Run.newFunction ⟨decl', f, false⟩
        Run.define f decl'.name.text (.function id)
        return Flow.next)
    have hclosure : Closure.Gains g ⟨decl, f, false⟩ ⟨decl', f, false⟩ := ⟨hdecl, rfl, rfl⟩
    rw [hdecl.name]
    exact (newFunction hclosure).bind fun id => (define f _ (.function id)).bind fun _ => pure _
  | giveBack keyword value =>
    obtain ⟨heq | hgrown, hm⟩ := hs
    · cases heq
      exact (evalOption h f (List.forall_mem_cons.mp hm).2).bind fun v => pure _
    · cases hgrown
  | classDecl name superclass ms =>
    obtain ⟨ms', rfl, hname, hsuper, hms⟩ := hs.classDecl
    exact (execClass h f hname hsuper hms).bind fun _ => pure _
  | stray node =>
    obtain ⟨heq | hgrown, -⟩ := hs
    · cases heq
      exact halt rfl
    · cases hgrown

end Run.Overlooks

namespace Evaluator

/-- Evaluation with any number of steps left overlooks the name. -/
theorem overlooks_within (g : Addition) (turns : Nat) :
    ∀ steps spent, (within .recorded turns steps spent).Overlooks g
  | 0, _ => by
    unfold within
    exact ⟨rfl, fun _ _ => .halt rfl, fun _ _ => .halt rfl, fun _ _ => .halt rfl, .inl fun _ _ => rfl,
      .inl fun _ _ => rfl⟩
  | steps + 1, spent + 1 => by
    unfold within
    exact overlooks_within g turns steps spent
  | steps + 1, 0 => by
    unfold within
    refine ⟨rfl, fun f hm => ?_, fun f hs => ?_, fun f hs => ?_, .inr fun _ => rfl, .inr fun _ => rfl⟩ <;>
      dsimp only
    · exact .placed (.evalExpr (overlooks_within g turns steps _) f hm)
    · rw [hs.stepsIn_eq]
      exact .placed (.execStmt (overlooks_within g turns steps _) f hs)
    · rw [hs.stepsIn_eq]
      exact .placed (.execStmt (overlooks_within g turns steps _) f hs)

end Evaluator

/-! ### Programs -/

namespace Run

variable {g : Addition}

/-- From a store and the one beside it both programs say the same and print the same, unless the
declaration stands alone and the second one runs out of steps. -/
def Echoes (g : Addition) (p p' : Run (List Diagnostic)) : Prop :=
  ∀ s s' : Store, s.Beside g s' →
    (g.Lonely ∧ ∃ ds, (p' s').1 = .ok ds ∧
        (Phase.runtime, stackOverflowMessage) ∈ ds.map Diagnostic.saying) ∨
      ((p' s').1.map (List.map Diagnostic.saying) = (p s).1.map (List.map Diagnostic.saying) ∧
        (p s).2.Beside g (p' s').2)

theorem Overlooks.reported {p p' : Run Unit} (h : Overlooks g p p') (start start' : Unit → Option Int) :
    Echoes g (reported start p) (reported start' p') := by
  intro s s' hs
  have hboth := h s s' hs
  unfold Lox.reported
  cases hrun : p s with
  | mk r s₁ =>
    cases hrun' : p' s' with
    | mk r' s₁' =>
      rw [hrun, hrun'] at hboth
      obtain ⟨hlonely, hover⟩ | ⟨hsame, hbeside⟩ := hboth
      · obtain rfl : r' = .error .overflow := hover
        exact .inl ⟨hlonely, _, rfl, List.mem_singleton_self _⟩
      · match r, r' with
        | .ok _, .ok _ => exact .inr ⟨rfl, hbeside⟩
        | .error fault, .error fault' =>
          have hsame : fault'.placeless = fault.placeless := Except.error.inj hsame
          obtain ⟨d, d', hd, hd', hsaid⟩ | ⟨hnone, hnone', rfl⟩ :=
            Fault.reported_alike hsame (start ()) (start' ())
          · simp only [hd, hd']
            exact .inr ⟨congrArg (fun said => Except.ok [said]) hsaid, hbeside⟩
          · refine .inr ⟨?_, ?_⟩
            · simp only [hnone, hnone']
            · simpa only [hnone, hnone'] using hbeside

theorem Echoes.bind {p p' q q' : Run (List Diagnostic)} (hp : Echoes g p p') (hq : Echoes g q q') :
    Echoes g
      (do
        match ← p with
        | [] => q
        | ds => return ds)
      (do
        match ← p' with
        | [] => q'
        | ds => return ds) := by
  intro s s' h
  have hboth := hp s s' h
  cases hrun : p s with
  | mk r s₁ =>
    cases hrun' : p' s' with
    | mk r' s₁' =>
      rw [hrun, hrun'] at hboth
      obtain ⟨hlonely, ds, hds, hout⟩ | ⟨hsaid, hbeside⟩ := hboth
      · obtain rfl : r' = .ok ds := hds
        match ds with
        | d :: ds =>
          rw [bind_ok hrun']
          exact .inl ⟨hlonely, _, rfl, hout⟩
      · match r, r' with
        | .error fault, .error fault' =>
          rw [bind_error hrun, bind_error hrun']
          exact .inr ⟨hsaid, hbeside⟩
        | .ok [], .ok [] =>
          rw [bind_ok hrun, bind_ok hrun']
          exact hq _ _ hbeside
        | .ok (_ :: _), .ok (_ :: _) =>
          rw [bind_ok hrun, bind_ok hrun']
          exact .inr ⟨hsaid, hbeside⟩

/-- A program and the one that has the declaration besides, inside one of its statements. -/
theorem Echoes.interpretWith {evaluator : Evaluator} (h : evaluator.Overlooks g)
    {stmts stmts' : List Stmt} (hs : Construct.Gains g (.body stmts) (.body stmts')) :
    Echoes g (interpretWith evaluator stmts) (interpretWith evaluator stmts') := by
  have hstmts := hs.body
  clear hs
  induction hstmts with
  | nil => exact fun _ _ hs => .inr ⟨rfl, hs⟩
  | cons hs _ ih => exact .bind (Overlooks.reported (h.stmt Store.globals hs).discard _ _) ih

end Run

namespace Session

/-- What a store without the name says and prints, or the second program runs out of steps. -/
theorem execute_echoes {g : Addition} {session : Session} {p p' : Run (List Diagnostic)}
    (h : Run.Echoes g p p') (hs : ∀ id, g.Unsaid (functionMarks (session.store.function id).decl)) :
    (g.Lonely ∧ (session.execute p').1.RunsOut) ∨ (session.execute p).1.Alike (session.execute p').1 := by
  have hself : session.opening.Beside g session.opening := Store.beside_self hs
  have hboth := h _ _ hself
  cases hp : p session.opening with
  | mk r s =>
    cases hp' : p' session.opening with
    | mk r' s' =>
      rw [hp, hp'] at hboth
      rw [execute_eq hp, execute_eq hp']
      obtain ⟨hlonely, ds, hds, hout⟩ | ⟨hsaid, hbeside⟩ := hboth
      · obtain rfl : r' = .ok ds := hds
        exact .inl ⟨hlonely, hout⟩
      · have hbeside : s.Beside g s' := hbeside
        have houtput : s.output.toList = s'.output.toList := by rw [hbeside.rest]
        refine .inr ?_
        match r, r' with
        | .ok _, .ok _ => exact ⟨rfl, (Except.ok.inj hsaid).symm, rfl, houtput⟩
        | .error _, .error _ =>
          exact ⟨rfl, rfl, congrArg some (Except.error.inj hsaid).symm, houtput⟩

end Session

end Lox
