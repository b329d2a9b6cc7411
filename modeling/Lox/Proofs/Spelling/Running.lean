/-
# Running elsewhere

What a program does depends on no offset, and on nothing that was printed
before. If the functions of a store and the statements that run are moved in
their texts, and lines stand before what was printed, then all happens as
before, and offsets of errors are moved with the rest: each way of evaluation
commutes with carrying the store (`Lox.Run.Moves`).

Key definitions: `Lox.Store.carry`, `Lox.Run.Moves`, `Lox.Evaluator.Moves`.
Key theorems: `Lox.Run.Moves.evalExpr`, `Lox.Run.Moves.execStmt`, `Lox.Evaluator.moves_within`,
`Lox.says_interpretWith`, `Lox.says_interpretExprWith`.
-/
import Lox.Proofs.Dispatch.Superclasses
import Lox.Proofs.Spelling.Respelling
import Lox.Session

namespace Lox

open Procedure

open Respelling

def RuntimeError.move (place : Int → Int) (e : RuntimeError) : RuntimeError :=
  { e with offset := e.offset.map place }

/-- The fault with the offset of its error elsewhere. -/
def Fault.move (place : Int → Int) : Fault → Fault
  | .error e => .error (e.move place)
  | fault => fault

/-- The closure of the function spelled otherwise. -/
def Closure.respell (r : Respelling) (closure : Closure) : Closure :=
  { closure with decl := functionRespell r closure.decl }

/-- The store with the marks of its functions elsewhere, and lines before what was printed. -/
def Store.carry (place : Int → Int) (lines : Array String) (s : Store) : Store :=
  { s with
    functions := s.functions.map (Closure.respell (moving place))
    output := lines ++ s.output }

variable {place : Int → Int} {lines : Array String}

/-! ### What a store tells -/

namespace Store

variable (s : Store)

@[simp] theorem carry_frame (g : FrameId) : (s.carry place lines).frame g = s.frame g := rfl

@[simp] theorem carry_method (id : MethodId) : (s.carry place lines).method id = s.method id := rfl

@[simp] theorem carry_classObject (c : ClassId) :
    (s.carry place lines).classObject c = s.classObject c := rfl

@[simp] theorem carry_instanceObject (id : InstanceId) :
    (s.carry place lines).instanceObject id = s.instanceObject id := rfl

@[simp] theorem carry_function (id : FunctionId) :
    (s.carry place lines).function id = (s.function id).respell (moving place) := by
  unfold function carry
  by_cases hid : id < s.functions.size
  · simp [Array.getD_eq_getD_getElem?, hid]
  · simp [Array.getD_eq_getD_getElem?, hid]
    rfl

@[simp] theorem carry_ancestor? (d : Nat) : ∀ g : FrameId,
    (s.carry place lines).ancestor? d g = s.ancestor? d g := by
  induction d with
  | zero => exact fun _ => rfl
  | succ d ih =>
    intro g
    unfold ancestor?
    simp only [carry_frame, ih]

@[simp] theorem carry_holder? (name : String) (g : FrameId) :
    (s.carry place lines).holder? name g = s.holder? name g := by
  have within : ∀ fuel g, (s.carry place lines).holderWithin? name fuel g = s.holderWithin? name fuel g := by
    intro fuel
    induction fuel with
    | zero => exact fun _ => rfl
    | succ fuel ih =>
      intro g
      simp only [holderWithin?, carry_frame, ih]
  exact within _ g

@[simp] theorem carry_get? (g : FrameId) (name : String) :
    (s.carry place lines).get? g name = s.get? g name := by
  simp only [get?, carry_holder?, carry_frame]

@[simp] theorem carry_findMethod? (c : ClassId) (name : String) :
    (s.carry place lines).findMethod? c name = s.findMethod? c name :=
  findMethod?_congr (show (s.carry place lines).classes = s.classes from rfl)

@[simp] theorem carry_methodOf? (v : Value) (name : String) :
    (s.carry place lines).methodOf? v name = s.methodOf? v name := by
  cases v <;> simp [methodOf?]

@[simp] theorem carry_functionArity (id : FunctionId) :
    (s.carry place lines).functionArity id = s.functionArity id := by
  simp [functionArity, Closure.respell]

@[simp] theorem carry_arity? (v : Value) : (s.carry place lines).arity? v = s.arity? v := by
  cases v <;> simp [arity?]

@[simp] theorem carry_display (v : Value) : (s.carry place lines).display v = s.display v := by
  cases v <;> simp [display, Closure.respell, moving]

end Store

/-! ### Steps -/

namespace Run

variable {α β γ : Type}

/-- From the store elsewhere the second run does what the first one does, elsewhere. -/
def Moves (place : Int → Int) (lines : Array String) (p p' : Run α) : Prop :=
  ∀ s : Store, p' (s.carry place lines) =
    ((p s).1.mapError (Fault.move place), (p s).2.carry place lines)

namespace Moves

theorem pure (a : α) : Moves place lines (Pure.pure a : Run α) (Pure.pure a) := fun _ => rfl

theorem bind {p p' : Run α} {q q' : α → Run β} (hp : Moves place lines p p')
    (hq : ∀ a, Moves place lines (q a) (q' a)) : Moves place lines (p >>= q) (p' >>= q') := by
  intro s
  cases hrun : p s with
  | mk r s' =>
    have hmoved := hp s
    rw [hrun] at hmoved
    cases r with
    | ok a => rw [bind_ok hrun, bind_ok hmoved, hq a s']
    | error fault =>
      rw [bind_error hrun, bind_error hmoved]
      rfl

theorem discard {p p' : Run α} (hp : Moves place lines p p') :
    Moves place lines (discard p) (discard p') :=
  have hbind : Moves place lines (p >>= fun _ => Pure.pure ()) (p' >>= fun _ => Pure.pure ()) :=
    hp.bind fun _ => pure ()
  hbind

/-- What the store tells may be moved too. -/
theorem bind_read {r : Store → γ} {q q' : γ → Run α}
    (h : ∀ s, Moves place lines (q (r s)) (q' (r (s.carry place lines)))) :
    Moves place lines (Procedure.read r >>= q) (Procedure.read r >>= q') :=
  fun s => h s s

/-- What the store tells is the same elsewhere. -/
theorem read {r : Store → γ} (h : ∀ s, r (s.carry place lines) = r s) :
    Moves place lines (Procedure.read r : Run γ) (Procedure.read r) := by
  intro s
  show ((Except.ok (r (s.carry place lines)) : Except Fault γ), s.carry place lines) = _
  rw [h]
  rfl

theorem change {m : Store → Store} (h : ∀ s, m (s.carry place lines) = (m s).carry place lines) :
    Moves place lines (Procedure.change m : Run Unit) (Procedure.change m) := by
  intro s
  show ((Except.ok () : Except Fault Unit), m (s.carry place lines)) = _
  rw [h]
  rfl

theorem halt {fault : Fault} :
    Moves place lines (Procedure.halt fault : Run α) (Procedure.halt (fault.move place)) := fun _ => rfl

theorem fail (cause : Cause) (offset : Option Int) :
    Moves place lines (Run.fail cause offset : Run α) (Run.fail cause (offset.map place)) := fun _ => rfl

theorem ite {c : Prop} [Decidable c] {p p' q q' : Run α} (hp : Moves place lines p p')
    (hq : Moves place lines q q') :
    Moves place lines (if c then p else q) (if c then p' else q') := by
  split
  · exact hp
  · exact hq

theorem move_attach (fault : Fault) (offset : Option Int) :
    (if fault.isUnplaced then fault.attach offset else fault).move place =
      if (fault.move place).isUnplaced then (fault.move place).attach (offset.map place)
      else fault.move place := by
  cases fault with
  | error e =>
    obtain ⟨cause, place⟩ := e
    cases place <;> rfl
  | overflow | diverged _ | misplaced _ | exhausted => rfl

theorem placed {p p' : Run α} {offset offset' : Unit → Option Int} (hp : Moves place lines p p')
    (ho : offset' () = (offset ()).map place) :
    Moves place lines (Run.placed offset p) (Run.placed offset' p') := by
  intro s
  show mapHalt _ p' _ = Prod.mk ((mapHalt _ p s).1.mapError _) ((mapHalt _ p s).2.carry place lines)
  unfold mapHalt
  rw [hp s, ho]
  cases p s with
  | mk r s' =>
    cases r with
    | ok a => rfl
    | error fault =>
      refine Prod.ext (congrArg Except.error ?_) rfl
      exact (move_attach fault (offset ())).symm

/-! ### Frames, functions and classes -/

theorem print (v : Value) : Moves place lines (Run.print v) (Run.print v) := by
  refine bind (read fun s => s.carry_display v) fun line => change fun s => ?_
  simp [Store.carry]

theorem tick : Moves place lines Run.tick Run.tick := fun _ => rfl

theorem newFrame (parent : Option FrameId) :
    Moves place lines (Run.newFrame parent) (Run.newFrame parent) := fun _ => rfl

theorem newFunction (closure : Closure) :
    Moves place lines (Run.newFunction closure) (Run.newFunction (closure.respell (moving place))) := by
  intro s
  refine Prod.ext (congrArg Except.ok ?_) ?_ <;> simp [Run.newFunction, Store.carry]

theorem newMethod (bound : BoundMethod) :
    Moves place lines (Run.newMethod bound) (Run.newMethod bound) := fun _ => rfl

theorem newClass (cls : ClassObject) :
    Moves place lines (Run.newClass cls) (Run.newClass cls) := fun _ => rfl

theorem newInstance (cls : ClassId) :
    Moves place lines (Run.newInstance cls) (Run.newInstance cls) := fun _ => rfl

theorem define (g : FrameId) (name : String) (v : Value) :
    Moves place lines (Run.define g name v) (Run.define g name v) := change fun _ => rfl

theorem get (g : FrameId) (name : Mark) :
    Moves place lines (Run.get g name) (Run.get g (name.respell (moving place))) := by
  refine bind (read fun s => s.carry_get? g name.text) fun o => ?_
  cases o with
  | none => exact fail _ _
  | some v => exact pure v

theorem assign (g : FrameId) (name : Mark) (v : Value) :
    Moves place lines (Run.assign g name v) (Run.assign g (name.respell (moving place)) v) := by
  refine bind (read fun s => s.carry_holder? name.text g) fun o => ?_
  cases o with
  | none => exact fail _ _
  | some h => exact define h name.text v

theorem ancestor (g : FrameId) (d : Int) :
    Moves place lines (Run.ancestor g d) (Run.ancestor g d) := by
  refine bind (read fun s => s.carry_ancestor? d.toNat g) fun o => ?_
  cases o with
  | none => exact halt
  | some a => exact pure a

theorem getAt (g : FrameId) (d : Int) (name : String) :
    Moves place lines (Run.getAt g d name) (Run.getAt g d name) := by
  refine bind (ancestor g d) fun a => bind (read fun _ => rfl) fun o => ?_
  cases o with
  | none => exact halt
  | some v => exact pure v

theorem assignAt (g : FrameId) (d : Int) (name : String) (v : Value) :
    Moves place lines (Run.assignAt g d name v) (Run.assignAt g d name v) := by
  refine bind (ancestor g d) fun a => bind (read fun _ => rfl) fun b => ?_
  exact ite (define a name v) halt

theorem look (use : NameUse) (g : FrameId) :
    Moves place lines (Access.recorded.look use g) (Access.recorded.look (use.respell (moving place)) g) := by
  unfold Access.recorded
  simp only [NameUse.respell_hops]
  cases use.hops with
  | none => exact get _ _
  | some d => exact getAt _ _ _

theorem store (use : NameUse) (v : Value) (g : FrameId) :
    Moves place lines (Access.recorded.store use v g)
      (Access.recorded.store (use.respell (moving place)) v g) := by
  unfold Access.recorded
  simp only [NameUse.respell_hops]
  cases use.hops with
  | none => exact assign _ _ _
  | some d => exact assignAt _ _ _ _

/-! ### Properties and operators -/

theorem receiverFrame (id : FunctionId) (receiver : Value) :
    Moves place lines (receiverFrame id receiver) (receiverFrame id receiver) := by
  refine bind_read fun s => ?_
  rw [Store.carry_function]
  exact bind (newFrame _) fun g => bind (define g "this" receiver) fun _ => pure g

theorem bindMethod (id : FunctionId) (receiver : Value) :
    Moves place lines (bindMethod id receiver) (bindMethod id receiver) :=
  bind (receiverFrame id receiver) fun g => bind (newMethod ⟨id, g⟩) fun _ => pure _

theorem getProperty (v : Value) (name : Mark) :
    Moves place lines (getProperty v name) (getProperty v (name.respell (moving place))) := by
  cases v with
  | const _ | native _ | function _ | method _ | classRef _ => exact fail _ _
  | instanceRef id =>
    refine bind (read fun _ => rfl) fun field => ?_
    cases field with
    | some v => exact pure v
    | none =>
      refine bind (read fun s => s.carry_findMethod? _ name.text) fun method => ?_
      cases method with
      | some m => exact bindMethod m _
      | none => exact fail _ _

theorem setProperty (id : InstanceId) (name : Mark) (v : Value) :
    Moves place lines (setProperty id name v) (setProperty id (name.respell (moving place)) v) :=
  change fun _ => rfl

theorem superProperty (use : NameUse) (name : Mark) (g : FrameId) :
    Moves place lines (superProperty use name g)
      (superProperty (use.respell (moving place)) (name.respell (moving place)) g) := by
  unfold Lox.superProperty
  rw [NameUse.respell_hops]
  cases use.hops with
  | none => exact halt
  | some d =>
    refine bind (getAt _ _ _) fun superclass => bind (getAt _ _ _) fun receiver => ?_
    refine bind (read fun s => s.carry_methodOf? superclass name.text) fun method => ?_
    cases method with
    | some m => exact bindMethod m receiver
    | none => exact fail _ _

theorem unaryResult (op : Mark) (v : Value) :
    Moves place lines (unaryResult op v) (unaryResult (op.respell (moving place)) v) := by
  unfold Lox.unaryResult
  rw [Mark.respell_kind]
  split
  · split
    · exact pure _
    · exact fail _ _
  · exact pure _
  · exact fail _ _

theorem joinOrAdd (op : Mark) (u v : Value) :
    Moves place lines (joinOrAdd op u v) (joinOrAdd (op.respell (moving place)) u v) := by
  unfold Lox.joinOrAdd
  split
  · exact pure _
  · exact bind (read fun s => s.carry_display _) fun _ => pure _
  · exact bind (read fun s => s.carry_display _) fun _ => pure _
  · exact fail _ _

theorem binaryResult (op : Mark) (u v : Value) :
    Moves place lines (binaryResult op u v) (binaryResult (op.respell (moving place)) u v) := by
  unfold Lox.binaryResult
  rw [Mark.respell_kind]
  split
  · exact joinOrAdd op u v
  · exact pure _
  · exact pure _
  · split
    · exact fail _ _
    · split
      · exact pure _
      · exact fail _ _

end Moves

end Run

/-! ### Evaluations -/

/-- The evaluations further in do elsewhere what they do. -/
structure Evaluator.Moves (place : Int → Int) (lines : Array String) (inner : Evaluator) : Prop where
  access : inner.access = .recorded
  expr : ∀ e g, Run.Moves place lines (inner.expr e g) (inner.expr (e.respell (moving place)) g)
  stmt : ∀ s g, Run.Moves place lines (inner.stmt s g) (inner.stmt (s.respell (moving place)) g)
  called : ∀ s g, Run.Moves place lines (inner.called s g) (inner.called (s.respell (moving place)) g)

namespace Run.Moves

variable {inner : Evaluator} (h : inner.Moves place lines)

theorem execBody {exec : Stmt → FrameId → Run Flow}
    (hexec : ∀ s g, Moves place lines (exec s g) (exec (s.respell (moving place)) g)) (g : FrameId) :
    ∀ body : List Stmt, Moves place lines (execBody exec body g)
      (execBody exec (bodyRespell (moving place) body) g) := by
  intro body
  induction body with
  | nil => exact pure _
  | cons s body ih =>
    refine bind (hexec s g) fun flow => ?_
    cases flow with
    | next => exact ih
    | returning v => exact pure _

theorem bindParams (g : FrameId) : ∀ (params : List Mark) (args : List Value),
    Moves place lines (bindParams g params args) (bindParams g (params.map (Mark.respell (moving place))) args)
  | [], _ => pure ()
  | _ :: _, [] => pure ()
  | m :: params, v :: args => bind (define g m.text v) fun _ => bindParams g params args

theorem makeMethods (g : FrameId) : ∀ (ms : List Fun) (made : Bindings FunctionId),
    Moves place lines (makeMethods g ms made)
      (makeMethods g (methodsRespell (moving place) ms) made)
  | [], made => pure made
  | ⟨name, params, body⟩ :: ms, _ =>
    bind (newFunction ⟨⟨name, params, body⟩, g, name.text = Store.initName⟩) fun _ =>
      makeMethods g ms _

theorem methodFrame (superclass : Option ClassId) (g : FrameId) :
    Moves place lines (methodFrame superclass g) (methodFrame superclass g) := by
  cases superclass with
  | none => exact pure g
  | some c =>
    exact bind (newFrame _) fun inside => bind (define inside "super" _) fun _ => pure inside

include h

theorem invoke (id : FunctionId) (outer : FrameId) (args : List Value) :
    Moves place lines (invoke inner id outer args) (invoke inner id outer args) := by
  refine bind_read fun s => ?_
  rw [Store.carry_function]
  obtain ⟨⟨name, params, body⟩, frame, isInitializer⟩ := s.function id
  refine bind (newFrame _) fun g => bind (bindParams g params args) fun _ => ?_
  refine bind (execBody h.called g body) fun flow => ite (getAt _ _ _) ?_
  cases flow <;> exact pure _

theorem apply (v : Value) (args : List Value) :
    Moves place lines (apply inner v args) (apply inner v args) := by
  cases v with
  | const _ | instanceRef _ => exact pure _
  | native n =>
    cases n
    exact bind tick fun _ => pure _
  | function id =>
    refine bind_read fun s => ?_
    rw [Store.carry_function]
    exact invoke h id _ args
  | method id => exact bind (read fun _ => rfl) fun bound => invoke h _ _ args
  | classRef c =>
    refine bind (newInstance c) fun object => ?_
    refine bind (read fun s => s.carry_findMethod? c Store.initName) fun method => ?_
    cases method with
    | none => exact pure _
    | some m =>
      exact bind (receiverFrame m _) fun g => bind (invoke h m g args).discard fun _ => pure _

theorem callWith (v : Value) (args : List Value) (offset : Option Int) :
    Moves place lines (callWith inner v args offset)
      (callWith inner v args (offset.map place)) := by
  refine bind (read fun s => s.carry_arity? v) fun arity => ?_
  cases arity with
  | none => exact fail _ _
  | some expected => exact ite (apply h v args) (fail _ _)

theorem evalArgs (g : FrameId) : ∀ es : List Expr,
    Moves place lines (evalArgs inner es g) (evalArgs inner (argsRespell (moving place) es) g) := by
  intro es
  induction es with
  | nil => exact pure []
  | cons e es ih => exact bind (h.expr e g) fun v => bind ih fun vs => pure (v :: vs)

theorem evalExpr (e : Expr) (g : FrameId) :
    Moves place lines (evalExpr inner e g) (evalExpr inner (e.respell (moving place)) g) := by
  cases e with
  | literal value => exact pure _
  | grouping e => exact h.expr e g
  | «variable» use | receiver use =>
    show Moves place lines (inner.access.look use g) (inner.access.look (use.respell (moving place)) g)
    rw [h.access]
    exact look use g
  | assign use value =>
    refine bind (h.expr value g) fun v => ?_
    rw [h.access]
    exact bind (store use v g) fun _ => pure v
  | unary op e => exact bind (h.expr e g) fun v => unaryResult op v
  | binary l op r =>
    exact bind (h.expr l g) fun u => bind (h.expr r g) fun v => binaryResult op u v
  | logical l op r => exact bind (h.expr l g) fun v => ite (pure v) (h.expr r g)
  | ternary cond yes no => exact bind (h.expr cond g) fun v => ite (h.expr yes g) (h.expr no g)
  | call callee paren args =>
    exact bind (h.expr callee g) fun v => bind (evalArgs h g args) fun vs => callWith h v vs _
  | get e name => exact bind (h.expr e g) fun v => getProperty v name
  | set object name value =>
    refine bind (h.expr object g) fun o => ?_
    cases o with
    | const _ | native _ | function _ | method _ | classRef _ => exact fail _ _
    | instanceRef id =>
      exact bind (h.expr value g) fun v => bind (setProperty id name v) fun _ => pure v
  | superMethod use method => exact superProperty use method g
  | stray node => exact halt

theorem evalOption (e : Option Expr) (g : FrameId) :
    Moves place lines (evalOption inner e g) (evalOption inner (e.map (Expr.respell (moving place))) g) := by
  cases e with
  | none => exact pure _
  | some e => exact h.expr e g

theorem execLoop (cond : Expr) (body : Stmt) (g : FrameId) : ∀ turns : Nat,
    Moves place lines (execLoop inner cond body g turns)
      (execLoop inner (cond.respell (moving place)) (body.respell (moving place)) g turns)
  | 0 => halt
  | turns + 1 => by
    refine bind (h.expr cond g) fun v => ite (bind (h.stmt body g) fun flow => ?_) (pure _)
    cases flow with
    | next => exact execLoop cond body g turns
    | returning v => exact pure _

theorem evalSuperclass (use : NameUse) (g : FrameId) :
    Moves place lines (evalSuperclass inner use g) (evalSuperclass inner (use.respell (moving place)) g) := by
  refine bind (h.expr (.variable use) g) fun v => ?_
  cases v with
  | classRef c => exact pure c
  | const _ | native _ | function _ | method _ | instanceRef _ => exact fail _ _

theorem execClass (name : Mark) (superclass : Option NameUse) (ms : List Fun) (g : FrameId) :
    Moves place lines (execClass inner name superclass ms g)
      (execClass inner (name.respell (moving place)) (superclass.map (NameUse.respell (moving place)))
        (methodsRespell (moving place) ms) g) := by
  have hfinish : ∀ c : Option ClassId, Moves place lines
      (do
        Run.define g name.text .nil
        let inside ← Lox.methodFrame c g
        let made ← Lox.makeMethods inside ms .empty
        let c ← Run.newClass ⟨name.text, c, made⟩
        Run.assign g name (.classRef c))
      (do
        Run.define g name.text .nil
        let inside ← Lox.methodFrame c g
        let made ← Lox.makeMethods inside (methodsRespell (moving place) ms) .empty
        let c ← Run.newClass ⟨name.text, c, made⟩
        Run.assign g (name.respell (moving place)) (.classRef c)) := fun c =>
    bind (define _ _ _) fun _ => bind (methodFrame c g) fun inside =>
      bind (makeMethods inside ms _) fun made => bind (newClass _) fun c => assign g name _
  cases superclass with
  | none => exact hfinish none
  | some use =>
    refine bind (?_ : Moves place lines (some <$> Lox.evalSuperclass inner use g)
      (some <$> Lox.evalSuperclass inner (use.respell (moving place)) g)) hfinish
    exact bind (evalSuperclass h use g) fun c => pure (some c)

theorem execStmt (s : Stmt) (g : FrameId) :
    Moves place lines (execStmt inner s g) (execStmt inner (s.respell (moving place)) g) := by
  cases s with
  | expr e => exact bind (h.expr e g).discard fun _ => pure _
  | print e => exact bind (h.expr e g) fun v => bind (print v) fun _ => pure _
  | var name initial =>
    exact bind (evalOption h initial g) fun v => bind (define g name.text v) fun _ => pure _
  | block body => exact bind (newFrame _) fun inside => execBody h.stmt inside body
  | branch cond yes no =>
    cases no with
    | none => exact bind (h.expr cond g) fun v => ite (h.stmt yes g) (pure _)
    | some no => exact bind (h.expr cond g) fun v => ite (h.stmt yes g) (h.stmt no g)
  | loop cond body => exact execLoop h cond body g _
  | function decl =>
    obtain ⟨name, params, body⟩ := decl
    exact bind (newFunction ⟨⟨name, params, body⟩, g, false⟩) fun id =>
      bind (define g name.text (.function id)) fun _ => pure _
  | giveBack keyword value => exact bind (evalOption h value g) fun v => pure _
  | classDecl name superclass ms =>
    exact bind (execClass h name superclass ms g) fun _ => pure _
  | stray node => exact halt

end Run.Moves

namespace Evaluator

/-- Evaluation with any number of steps left does elsewhere what it does. -/
theorem moves_within (turns : Nat) :
    ∀ steps spent, (within .recorded turns steps spent).Moves place lines
  | 0, _ => by
    unfold within
    exact ⟨rfl, fun _ _ => .halt, fun _ _ => .halt, fun _ _ => .halt⟩
  | steps + 1, spent + 1 => by
    unfold within
    exact moves_within turns steps spent
  | steps + 1, 0 => by
    unfold within
    refine ⟨rfl, fun e g => ?_, fun s g => ?_, fun s g => ?_⟩ <;> dsimp only
    · rw [e.stepsIn_respell]
      exact .placed (.evalExpr (moves_within turns steps _) e g) (e.offset?_respell rfl)
    · rw [s.stepsIn_respell]
      exact .placed (.execStmt (moves_within turns steps _) s g) (s.offset?_respell rfl)
    · rw [s.stepsIn_respell]
      exact .placed (.execStmt (moves_within turns steps _) s g) (s.offset?_respell rfl)

theorem moves_ofLimits (limits : Limits) : (ofLimits limits).Moves place lines :=
  moves_within limits.turns limits.steps 0

end Evaluator

/-! ### Programs -/

/-- What a report says, but not where. -/
def Diagnostic.saying (d : Diagnostic) : Phase × String := (d.phase, d.message)

/-- From the store elsewhere the second run says and does what the first one does. -/
def Run.Says (place : Int → Int) (lines : Array String) (p p' : Run (List Diagnostic)) : Prop :=
  ∀ s : Store,
    (p' (s.carry place lines)).1.map (List.map Diagnostic.saying) =
        (p s).1.map (List.map Diagnostic.saying) ∧
      (p' (s.carry place lines)).2 = (p s).2.carry place lines

theorem Run.Moves.reported {p p' : Run Unit} (h : Moves place lines p p')
    (start start' : Unit → Option Int) : Says place lines (reported start p) (reported start' p') := by
  intro s
  unfold Lox.reported
  rw [h s]
  obtain ⟨r, s'⟩ := p s
  match r with
  | .ok _ | .error (.error _) | .error .overflow | .error (.diverged _) | .error (.misplaced _)
  | .error .exhausted => exact ⟨rfl, rfl⟩

theorem Run.Says.bind {p p' : Run (List Diagnostic)} {q q' : Run (List Diagnostic)}
    (hp : Says place lines p p') (hq : Says place lines q q') :
    Says place lines
      (do
        match ← p with
        | [] => q
        | ds => return ds)
      (do
        match ← p' with
        | [] => q'
        | ds => return ds) := by
  intro s
  obtain ⟨hsaid, hstore⟩ := hp s
  cases hrun : p s with
  | mk r s₁ =>
    cases hrun' : p' (s.carry place lines) with
    | mk r' s₁' =>
      rw [hrun, hrun'] at hsaid hstore
      obtain rfl : s₁' = s₁.carry place lines := hstore
      match r, r' with
      | .error fault, .error fault' =>
        rw [bind_error hrun, bind_error hrun']
        exact ⟨hsaid, rfl⟩
      | .ok [], .ok [] =>
        rw [bind_ok hrun, bind_ok hrun']
        exact hq s₁
      | .ok (_ :: _), .ok (_ :: _) =>
        rw [bind_ok hrun, bind_ok hrun']
        exact ⟨hsaid, rfl⟩

/-- A program elsewhere says and does what the program does. -/
theorem says_interpretWith {evaluator : Evaluator} (h : evaluator.Moves place lines) :
    ∀ stmts : List Stmt, Run.Says place lines (interpretWith evaluator stmts)
      (interpretWith evaluator (bodyRespell (moving place) stmts)) := by
  intro stmts
  induction stmts with
  | nil => exact fun _ => ⟨rfl, rfl⟩
  | cons s stmts ih => exact .bind (Run.Moves.reported (h.stmt s Store.globals).discard _ _) ih

theorem says_interpretExprWith {evaluator : Evaluator} (h : evaluator.Moves place lines) (e : Expr) :
    Run.Says place lines (interpretExprWith evaluator e)
      (interpretExprWith evaluator (e.respell (moving place))) :=
  Run.Moves.reported (.bind (h.expr e Store.globals) fun v => .print v) _ _

end Lox
