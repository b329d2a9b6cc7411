/-
# Two ways of running in lockstep

A run gives up if it ends in a fault of a certain sort, such as running out of
steps. Of two ways of evaluation one follows the other if it does the same
wherever that does not give up (`Lox.Run.Lockstep`). They may differ in the
steps that are left, and in the way names are reached, as long as both ways
come to the same where a name is used. Meanwhile no frame binds a new name but
new ones and the one that a statement runs in (`Lox.Store.Keeps`), which says
what a name reaches behind the value that is assigned to it.

Key definitions: `Lox.Store.Keeps`, `Lox.Run.Lockstep`, `Lox.Access.Agree`,
`Lox.Evaluator.Lockstep`.
Key theorems: `Lox.Run.Lockstep.bind`, `Lox.Run.Lockstep.evalExpr`, `Lox.Run.Lockstep.execStmt`,
`Lox.Evaluator.lockstep_within`.
-/
import Lox.Proofs.Running.Names

namespace Lox

open Procedure

/-! ### What stores keep -/

/-- The frames keep the frames around them, and but for the free one, if any, they bind the same
names. -/
structure Store.Keeps (free : Option FrameId) (s t : Store) : Prop where
  size : s.frames.size ≤ t.frames.size
  parent : ∀ f < s.frames.size, (t.frame f).parent = (s.frame f).parent
  binds : ∀ f < s.frames.size, some f ≠ free → ∀ name, t.Binds f name ↔ s.Binds f name

namespace Store.Keeps

variable {free : Option FrameId} {s t u : Store}

theorem refl (free : Option FrameId) (s : Store) : s.Keeps free s :=
  ⟨Nat.le_refl _, fun _ _ => rfl, fun _ _ _ _ => Iff.rfl⟩

theorem trans (h : s.Keeps free t) (g : t.Keeps free u) : s.Keeps free u where
  size := Nat.le_trans h.size g.size
  parent f hf := (g.parent f (Nat.lt_of_lt_of_le hf h.size)).trans (h.parent f hf)
  binds f hf hn name :=
    (g.binds f (Nat.lt_of_lt_of_le hf h.size) hn name).trans (h.binds f hf hn name)

theorem loosen (h : s.Keeps none t) : s.Keeps free t :=
  { h with binds := fun f hf _ => h.binds f hf (by simp) }

theorem of_frames (h : t.frames = s.frames) : s.Keeps free t := by
  have hframe : ∀ f, t.frame f = s.frame f := fun f => by rw [frame, h]; rfl
  refine ⟨Nat.le_of_eq (by rw [h]), fun f _ => by rw [hframe], fun f _ _ name => ?_⟩
  rw [Binds, Binds, hframe]

theorem withFrame (parent : Option FrameId) : s.Keeps none (s.withFrame parent) := by
  have hold : ∀ f < s.frames.size, f ≠ s.frames.size := fun _ hf => Nat.ne_of_lt hf
  refine ⟨by simp [Store.withFrame], fun f hf => ?_, fun f hf _ name => ?_⟩
  · rw [frame_withFrame, if_neg (hold f hf)]
  · rw [binds_withFrame]
    exact and_iff_right (hold f hf)

/-- A frame that was not there before may be the free one. -/
theorem close (h : s.Keeps none t) {f : FrameId} (hf : s.frames.size ≤ f)
    (g : t.Keeps (some f) u) : s.Keeps none u := by
  have h' : s.Keeps (some f) u := h.loosen.trans g
  refine { h' with binds := fun e he _ => h'.binds e he fun heq => ?_ }
  cases heq
  exact Nat.not_lt.mpr hf he

theorem define (f : FrameId) (name : String) (v : Value) :
    s.Keeps (some f) (s.define f name v) := by
  refine ⟨by simp [Store.define], fun g _ => ?_, fun g _ hg other => ?_⟩
  · rw [frame_define]
    split <;> rfl
  · rw [Binds, Binds, frame_define, if_neg fun h => hg (congrArg some h.1)]

/-- A bound name may be bound anew. -/
theorem redefine {f : FrameId} {name : String} (hb : s.Binds f name) (v : Value) :
    s.Keeps none (s.define f name v) := by
  have h : s.Keeps (some f) (s.define f name v) := define f name v
  refine { h with binds := fun g hg _ other => ?_ }
  rw [binds_define hb.lt]
  constructor
  · rintro (⟨rfl, rfl⟩ | ho)
    · exact hb
    · exact ho
  · exact .inr

end Store.Keeps

namespace Run

variable {α β γ : Type} {bad : Fault → Prop} {free : Option FrameId} {s : Store}

/-- From the store the first run gives up, or both do the same, and stores keep what they bind. -/
def Lockstep (bad : Fault → Prop) (free : Option FrameId) (p p' : Run α) (s : Store) : Prop :=
  (∃ fault s', p s = (.error fault, s') ∧ bad fault) ∨ (p' s = p s ∧ s.Keeps free (p s).2)

namespace Lockstep

variable {p p' : Run α}

theorem same (h : s.Keeps free (p s).2) : Lockstep bad free p p s := .inr ⟨rfl, h⟩

/-- What never gives up keeps what stores bind. -/
theorem keeps (h : Lockstep (fun _ => False) free p p' s) : s.Keeps free (p s).2 := by
  rcases h with ⟨_, _, _, hfalse⟩ | ⟨_, hkeeps⟩
  · exact hfalse.elim
  · exact hkeeps

theorem bad_halt {fault : Fault} (h : bad fault) :
    Lockstep bad free (Procedure.halt fault : Run α) p' s := .inl ⟨fault, s, rfl, h⟩

theorem pure (a : α) : Lockstep bad free (Pure.pure a : Run α) (Pure.pure a) s := same (.refl ..)

theorem halt (fault : Fault) :
    Lockstep bad free (Procedure.halt fault : Run α) (Procedure.halt fault) s := same (.refl ..)

theorem fail (cause : Cause) (offset : Option Int) :
    Lockstep bad free (Run.fail cause offset : Run α) (Run.fail cause offset) s := halt _

theorem read (f : Store → γ) :
    Lockstep bad free (Procedure.read f : Run γ) (Procedure.read f) s := same (.refl ..)

theorem loosen (h : Lockstep bad none p p' s) : Lockstep bad free p p' s :=
  h.imp_right fun ⟨heq, hkeeps⟩ => ⟨heq, hkeeps.loosen⟩

/-- One run after the other; the others begin with a store that keeps what this one binds. -/
theorem bind {q q' : α → Run β} (h : Lockstep bad free p p' s)
    (hq : ∀ a s', s.Keeps free s' → Lockstep bad free (q a) (q' a) s') :
    Lockstep bad free (p >>= q) (p' >>= q') s := by
  rcases h with ⟨fault, s', hp, hb⟩ | ⟨heq, hkeeps⟩
  · exact .inl ⟨fault, s', bind_error hp, hb⟩
  · cases hp : p s with
    | mk r s' =>
      rw [hp] at heq hkeeps
      cases r with
      | error fault =>
        refine .inr ⟨(bind_error heq).trans (bind_error hp).symm, ?_⟩
        rw [bind_error hp]
        exact hkeeps
      | ok a =>
        rcases hq a s' hkeeps with ⟨fault, s'', hp', hb⟩ | ⟨heq', hkeeps'⟩
        · exact .inl ⟨fault, s'', (bind_ok hp).trans hp', hb⟩
        · refine .inr ⟨(bind_ok heq).trans (heq'.trans (bind_ok hp).symm), ?_⟩
          rw [bind_ok hp]
          exact hkeeps.trans hkeeps'

theorem bind_read {f : Store → γ} {q q' : γ → Run α}
    (h : Lockstep bad free (q (f s)) (q' (f s)) s) :
    Lockstep bad free (Procedure.read f >>= q) (Procedure.read f >>= q') s := h

theorem discard (h : Lockstep bad free p p' s) :
    Lockstep bad free (discard p) (discard p') s :=
  have hbind : Lockstep bad free (p >>= fun _ => Pure.pure ()) (p' >>= fun _ => Pure.pure ()) s :=
    h.bind fun _ _ _ => pure ()
  hbind

theorem map (h : Lockstep bad free p p' s) (g : α → β) :
    Lockstep bad free (g <$> p) (g <$> p') s :=
  have hbind : Lockstep bad free (p >>= fun a => Pure.pure (g a))
      (p' >>= fun a => Pure.pure (g a)) s := h.bind fun _ _ _ => pure _
  hbind

theorem ite {c : Prop} [Decidable c] {q q' : Run α} (hp : Lockstep bad free p p' s)
    (hq : Lockstep bad free q q' s) :
    Lockstep bad free (if c then p else q) (if c then p' else q') s := by
  split
  · exact hp
  · exact hq

/-- What goes on in a new frame binds nothing elsewhere. -/
theorem inFrame {parent : Option FrameId} {q q' : FrameId → Run α}
    (h : Lockstep bad (some s.frames.size) (q s.frames.size) (q' s.frames.size)
      (s.withFrame parent)) :
    Lockstep bad none (newFrame parent >>= q) (newFrame parent >>= q') s :=
  h.imp_right fun ⟨heq, hkeeps⟩ => ⟨heq, (Store.Keeps.withFrame parent).close (Nat.le_refl _) hkeeps⟩

/-- A fault that a run gives up with takes no place. -/
theorem placed (hbad : ∀ fault, bad fault → fault.isUnplaced = false)
    (h : Lockstep bad free p p' s) (offset : Unit → Option Int) :
    Lockstep bad free (Run.placed offset p) (Run.placed offset p') s := by
  rcases h with ⟨fault, s', hp, hb⟩ | ⟨heq, hkeeps⟩
  · exact .inl ⟨fault, s', placed_error (hbad fault hb) hp, hb⟩
  · refine .inr ⟨?_, ?_⟩
    · show mapHalt _ p' s = mapHalt _ p s
      rw [mapHalt, mapHalt, heq]
    · have hstore : (Run.placed offset p s).2 = (p s).2 := by
        show (mapHalt _ p s).2 = _
        unfold mapHalt
        rcases p s with ⟨_ | _, _⟩ <;> rfl
      rwa [hstore]

/-! ### Steps that both take -/

theorem change {m : Store → Store} (h : s.Keeps free (m s)) :
    Lockstep bad free (Procedure.change m : Run Unit) (Procedure.change m) s := same h

theorem define (f : FrameId) (name : String) (v : Value) :
    Lockstep bad (some f) (Run.define f name v) (Run.define f name v) s := change (.define f name v)

theorem print (v : Value) : Lockstep bad free (Run.print v) (Run.print v) s :=
  (read _).bind fun _ _ _ => change (.of_frames rfl)

theorem get (f : FrameId) (name : Mark) :
    Lockstep bad free (Run.get f name) (Run.get f name) s := by
  refine (read _).bind fun o _ _ => ?_
  cases o with
  | none => exact fail _ _
  | some v => exact pure v

theorem ancestor (f : FrameId) (d : Int) :
    Lockstep bad free (Run.ancestor f d) (Run.ancestor f d) s := by
  refine (read _).bind fun o _ _ => ?_
  cases o with
  | none => exact halt _
  | some a => exact pure a

theorem getAt (f : FrameId) (d : Int) (name : String) :
    Lockstep bad free (Run.getAt f d name) (Run.getAt f d name) s := by
  refine (ancestor f d).bind fun a _ _ => (read _).bind fun o _ _ => ?_
  cases o with
  | none => exact halt _
  | some v => exact pure v

theorem assign (f : FrameId) (name : Mark) (v : Value) :
    Lockstep bad free (Run.assign f name v) (Run.assign f name v) s := by
  refine bind_read ?_
  cases hh : s.holder? name.text f with
  | none => exact fail _ _
  | some h => exact change (Store.Keeps.redefine (Store.binds_of_holder? hh) v).loosen

theorem assignAt (f : FrameId) (d : Int) (name : String) (v : Value) :
    Lockstep bad free (Run.assignAt f d name v) (Run.assignAt f d name v) s := by
  refine (ancestor f d).bind fun a s' _ => bind_read ?_
  cases hb : (s'.frame a).vars.contains name with
  | false => exact halt _
  | true => exact change (Store.Keeps.redefine hb v).loosen

theorem look (use : NameUse) (f : FrameId) :
    Lockstep bad free (Access.recorded.look use f) (Access.recorded.look use f) s := by
  unfold Access.recorded
  dsimp only
  cases use.hops with
  | none => exact get _ _
  | some d => exact getAt _ _ _

theorem store (use : NameUse) (v : Value) (f : FrameId) :
    Lockstep bad free (Access.recorded.store use v f) (Access.recorded.store use v f) s := by
  unfold Access.recorded
  dsimp only
  cases use.hops with
  | none => exact assign _ _ _
  | some d => exact assignAt _ _ _ _

theorem newFunction (closure : Closure) :
    Lockstep bad free (Run.newFunction closure) (Run.newFunction closure) s :=
  same (.of_frames rfl)

theorem receiverFrame (id : FunctionId) (receiver : Value) :
    Lockstep bad none (receiverFrame id receiver) (receiverFrame id receiver) s :=
  bind_read (inFrame ((define _ "this" receiver).bind fun _ _ _ => pure _))

theorem bindMethod (id : FunctionId) (receiver : Value) :
    Lockstep bad none (bindMethod id receiver) (bindMethod id receiver) s := by
  refine (receiverFrame id receiver).bind fun f s' _ => ?_
  exact bind (same (.of_frames rfl)) fun _ _ _ => pure _

theorem getProperty (v : Value) (name : Mark) :
    Lockstep bad none (getProperty v name) (getProperty v name) s := by
  cases v with
  | const _ | native _ | function _ | method _ | classRef _ => exact fail _ _
  | instanceRef id =>
    refine (read _).bind fun field _ _ => ?_
    cases field with
    | some v => exact pure v
    | none =>
      refine (read _).bind fun method _ _ => ?_
      cases method with
      | some m => exact bindMethod m _
      | none => exact fail _ _

theorem setProperty (id : InstanceId) (name : Mark) (v : Value) :
    Lockstep bad free (setProperty id name v) (setProperty id name v) s := change (.of_frames rfl)

theorem superProperty (use : NameUse) (name : Mark) (f : FrameId) :
    Lockstep bad none (superProperty use name f) (superProperty use name f) s := by
  unfold Lox.superProperty
  cases use.hops with
  | none => exact halt _
  | some d =>
    refine (getAt _ _ _).bind fun superclass _ _ => (getAt _ _ _).bind fun receiver _ _ => ?_
    refine (read _).bind fun method _ _ => ?_
    cases method with
    | some m => exact bindMethod m receiver
    | none => exact fail _ _

theorem unaryResult (op : Mark) (v : Value) :
    Lockstep bad free (unaryResult op v) (unaryResult op v) s := by
  unfold Lox.unaryResult
  split
  · split
    · exact pure _
    · exact fail _ _
  · exact pure _
  · exact fail _ _

theorem joinOrAdd (op : Mark) (u v : Value) :
    Lockstep bad free (joinOrAdd op u v) (joinOrAdd op u v) s := by
  unfold Lox.joinOrAdd
  split
  · exact pure _
  · exact (read _).bind fun _ _ _ => pure _
  · exact (read _).bind fun _ _ _ => pure _
  · exact fail _ _

theorem binaryResult (op : Mark) (u v : Value) :
    Lockstep bad free (binaryResult op u v) (binaryResult op u v) s := by
  unfold Lox.binaryResult
  split
  · exact joinOrAdd op u v
  · exact pure _
  · exact pure _
  · split
    · exact fail _ _
    · split
      · exact pure _
      · exact fail _ _

theorem bindParams (f : FrameId) : ∀ (params : List Mark) (args : List Value) {s : Store},
    Lockstep bad (some f) (bindParams f params args) (bindParams f params args) s
  | [], _, _ => pure ()
  | _ :: _, [], _ => pure ()
  | m :: params, v :: args, _ => (define f m.text v).bind fun _ _ _ => bindParams f params args

theorem makeMethods (f : FrameId) : ∀ (ms : List Fun) (made : Bindings FunctionId) {s : Store},
    Lockstep bad free (makeMethods f ms made) (makeMethods f ms made) s
  | [], made, _ => pure made
  | m :: ms, _, _ => (newFunction ⟨m, f, m.name.text = Store.initName⟩).bind fun _ _ _ =>
      makeMethods f ms _

theorem methodFrame (superclass : Option ClassId) (f : FrameId) :
    Lockstep bad none (methodFrame superclass f) (methodFrame superclass f) s := by
  cases superclass with
  | none => exact pure f
  | some c => exact inFrame ((define _ "super" (.classRef c)).bind fun _ _ _ => pure _)

end Lockstep

end Run

/-! ### Evaluations -/

/-- Both ways of reaching names come to the same where the site uses one: what is read now, and what
is assigned once the value is there. -/
def Access.Agree (a b : Access) (site : Site) (f : FrameId) (s : Store) : Prop :=
  match site with
  | .expr (.variable use) | .expr (.receiver use) => b.look use f s = a.look use f s
  | .expr (.assign use _) => ∀ v s', s.Keeps none s' → b.store use v f s' = a.store use v f s'
  | _ => True

theorem Access.Agree.refl (a : Access) (site : Site) (f : FrameId) (s : Store) :
    a.Agree a site f s := by
  unfold Access.Agree
  split
  · rfl
  · rfl
  · exact fun _ _ _ => rfl
  · trivial

/-- The evaluations further in are in lockstep. -/
structure Evaluator.Lockstep (bad : Fault → Prop) (inner inner' : Evaluator) : Prop where
  recorded : inner.access = .recorded
  turns : inner'.turns = inner.turns
  expr : ∀ e f s, Run.Lockstep bad none (inner.expr e f) (inner'.expr e f) s
  stmt : ∀ st f s, Run.Lockstep bad (some f) (inner.stmt st f) (inner'.stmt st f) s
  called : ∀ st f s, Run.Lockstep bad (some f) (inner.called st f) (inner'.called st f) s

namespace Run.Lockstep

variable {bad : Fault → Prop} {inner inner' : Evaluator} {s : Store}

theorem execBody {exec exec' : Stmt → FrameId → Run Flow} {f : FrameId}
    (h : ∀ st s, Lockstep bad (some f) (exec st f) (exec' st f) s) :
    ∀ (body : List Stmt) {s : Store},
      Lockstep bad (some f) (execBody exec body f) (execBody exec' body f) s
  | [], _ => pure _
  | st :: body, s => by
    refine (h st s).bind fun flow _ _ => ?_
    cases flow with
    | next => exact execBody h body
    | returning v => exact pure _

variable (h : inner.Lockstep bad inner')
include h

theorem invoke (id : FunctionId) (outer : FrameId) (args : List Value) :
    Lockstep bad none (invoke inner id outer args) (invoke inner' id outer args) s := by
  refine bind_read (inFrame ((bindParams _ _ args).bind fun _ _ _ => ?_))
  refine (execBody (fun st s => h.called st _ s) _).bind fun flow _ _ => ite (getAt _ _ _) ?_
  cases flow <;> exact pure _

theorem apply (v : Value) (args : List Value) :
    Lockstep bad none (apply inner v args) (apply inner' v args) s := by
  cases v with
  | const _ | instanceRef _ => exact pure _
  | native n =>
    cases n
    exact same (.of_frames rfl)
  | function id => exact (read _).bind fun _ _ _ => invoke h id _ args
  | method id => exact (read _).bind fun _ _ _ => invoke h _ _ args
  | classRef c =>
    refine bind (same (.of_frames rfl)) fun object _ _ => (read _).bind fun method _ _ => ?_
    cases method with
    | none => exact pure _
    | some m =>
      exact (receiverFrame m _).bind fun f _ _ => (invoke h m f args).discard.bind fun _ _ _ => pure _

theorem callWith (v : Value) (args : List Value) (place : Option Int) :
    Lockstep bad none (callWith inner v args place) (callWith inner' v args place) s := by
  refine (read _).bind fun arity _ _ => ?_
  cases arity with
  | none => exact fail _ _
  | some expected => exact ite (apply h v args) (fail _ _)

theorem evalArgs (f : FrameId) : ∀ (es : List Expr) {s : Store},
    Lockstep bad none (evalArgs inner es f) (evalArgs inner' es f) s
  | [], _ => pure []
  | e :: es, s => (h.expr e f s).bind fun v _ _ => (evalArgs f es).bind fun vs _ _ => pure (v :: vs)

/-- An expression, if both ways of reaching names agree where it uses one itself. -/
theorem evalExpr {e : Expr} {f : FrameId}
    (hsite : inner.access.Agree inner'.access (.expr e) f s) :
    Lockstep bad none (evalExpr inner e f) (evalExpr inner' e f) s := by
  cases e with
  | literal value => exact pure _
  | grouping e => exact h.expr e f s
  | «variable» use | receiver use =>
    refine .inr ⟨hsite, ?_⟩
    show s.Keeps none (inner.access.look use f s).2
    rw [h.recorded]
    exact (look use f).keeps
  | assign use value =>
    refine (h.expr value f s).bind fun v s' hkeeps => bind (.inr ⟨hsite v s' hkeeps, ?_⟩) fun _ _ _ =>
      pure v
    rw [h.recorded]
    exact (store use v f).keeps
  | unary op e => exact (h.expr e f s).bind fun v _ _ => unaryResult op v
  | binary l op r =>
    exact (h.expr l f s).bind fun u s' _ => (h.expr r f s').bind fun v _ _ => binaryResult op u v
  | logical l op r => exact (h.expr l f s).bind fun v s' _ => ite (pure v) (h.expr r f s')
  | ternary cond yes no =>
    exact (h.expr cond f s).bind fun v s' _ => ite (h.expr yes f s') (h.expr no f s')
  | call callee paren args =>
    exact (h.expr callee f s).bind fun v _ _ => (evalArgs h f args).bind fun vs _ _ => callWith h v vs _
  | get e name => exact (h.expr e f s).bind fun v _ _ => getProperty v name
  | set object name value =>
    refine (h.expr object f s).bind fun o s' _ => ?_
    cases o with
    | const _ | native _ | function _ | method _ | classRef _ => exact fail _ _
    | instanceRef id =>
      exact (h.expr value f s').bind fun v _ _ => (setProperty id name v).bind fun _ _ _ => pure v
  | superMethod use method => exact superProperty use method f
  | stray node => exact halt _

theorem evalOption (e : Option Expr) (f : FrameId) :
    Lockstep bad none (evalOption inner e f) (evalOption inner' e f) s := by
  cases e with
  | none => exact pure _
  | some e => exact h.expr e f s

theorem execLoop (cond : Expr) (body : Stmt) (f : FrameId) : ∀ (turns : Nat) {s : Store},
    Lockstep bad (some f) (execLoop inner cond body f turns) (execLoop inner' cond body f turns) s
  | 0, _ => halt _
  | turns + 1, s => by
    refine (h.expr cond f s).loosen.bind fun v s' _ => ite ((h.stmt body f s').bind fun flow _ _ => ?_)
      (pure _)
    cases flow with
    | next => exact execLoop cond body f turns
    | returning v => exact pure _

theorem evalSuperclass (use : NameUse) (f : FrameId) :
    Lockstep bad none (evalSuperclass inner use f) (evalSuperclass inner' use f) s := by
  refine (h.expr (.variable use) f s).bind fun v _ _ => ?_
  cases v with
  | classRef c => exact pure c
  | const _ | native _ | function _ | method _ | instanceRef _ => exact fail _ _

theorem execClass (name : Mark) (superclass : Option NameUse) (ms : List Fun) (f : FrameId) :
    Lockstep bad (some f) (execClass inner name superclass ms f)
      (execClass inner' name superclass ms f) s := by
  have hfinish : ∀ (c : Option ClassId) s, Lockstep bad (some f)
      (do
        Run.define f name.text .nil
        let inside ← Lox.methodFrame c f
        let made ← Lox.makeMethods inside ms .empty
        let c ← Run.newClass ⟨name.text, c, made⟩
        Run.assign f name (.classRef c))
      (do
        Run.define f name.text .nil
        let inside ← Lox.methodFrame c f
        let made ← Lox.makeMethods inside ms .empty
        let c ← Run.newClass ⟨name.text, c, made⟩
        Run.assign f name (.classRef c)) s := fun c _ =>
    (define f name.text .nil).bind fun _ _ _ => (methodFrame c f).loosen.bind fun inside _ _ =>
      (makeMethods inside ms _).bind fun made _ _ => bind (same (.of_frames rfl)) fun c _ _ =>
        assign f name _
  cases superclass with
  | none => exact hfinish none s
  | some use =>
    have huse : Lockstep bad (some f) (some <$> Lox.evalSuperclass inner use f)
        (some <$> Lox.evalSuperclass inner' use f) s := ((evalSuperclass h use f).map some).loosen
    exact huse.bind fun c s' _ => hfinish c s'

theorem execStmt (st : Stmt) (f : FrameId) :
    Lockstep bad (some f) (execStmt inner st f) (execStmt inner' st f) s := by
  cases st with
  | expr e => exact (h.expr e f s).loosen.discard.bind fun _ _ _ => pure _
  | print e => exact (h.expr e f s).loosen.bind fun v _ _ => (print v).bind fun _ _ _ => pure _
  | var name initial =>
    exact (evalOption h initial f).loosen.bind fun v _ _ =>
      (define f name.text v).bind fun _ _ _ => pure _
  | block body => exact (inFrame (execBody (fun st s => h.stmt st _ s) body)).loosen
  | branch cond yes no =>
    refine (h.expr cond f s).loosen.bind fun v s' _ => ite (h.stmt yes f s') ?_
    cases no with
    | none => exact pure _
    | some no => exact h.stmt no f s'
  | loop cond body =>
    show Lockstep bad (some f) (Lox.execLoop inner cond body f inner.turns)
      (Lox.execLoop inner' cond body f inner'.turns) s
    rw [h.turns]
    exact execLoop h cond body f _
  | function decl =>
    exact (newFunction ⟨decl, f, false⟩).bind fun id _ _ =>
      (define f decl.name.text (.function id)).bind fun _ _ _ => pure _
  | giveBack keyword value => exact (evalOption h value f).loosen.bind fun v _ _ => pure _
  | classDecl name superclass ms =>
    exact (execClass h name superclass ms f).bind fun _ _ _ => pure _
  | stray node => exact halt _

end Run.Lockstep

/-! ### Fewer steps -/

namespace Evaluator

/-- Evaluation with more steps left does the same, unless that with fewer steps runs out of them. -/
theorem lockstep_within (turns : Nat) {steps more : Nat} (h : steps ≤ more) :
    (within .recorded turns steps 0).Lockstep (· = .overflow) (within .recorded turns more 0) := by
  induction steps using Nat.strongRecOn generalizing more with
  | ind steps ih =>
    have hplaced : ∀ fault, fault = Fault.overflow → fault.isUnplaced = false := by
      rintro _ rfl
      rfl
    cases steps with
    | zero =>
      have hover : ∀ {α : Type} {free : Option FrameId} {p : Run α} {s : Store},
          Run.Lockstep (· = .overflow) free (halt .overflow) p s := .bad_halt rfl
      cases more <;> exact ⟨rfl, rfl, fun _ _ _ => hover, fun _ _ _ => hover, fun _ _ _ => hover⟩
    | succ steps =>
      obtain ⟨more, rfl⟩ : ∃ n, more = n + 1 := ⟨more - 1, by omega⟩
      have hinner (spent : Nat) : (within .recorded turns steps spent).Lockstep (· = .overflow)
          (within .recorded turns more spent) := by
        rw [within_drop _ _ steps, within_drop _ _ more]
        exact ih _ (by omega) (by omega)
      unfold within
      refine ⟨rfl, rfl, fun e f s => ?_, fun st f s => ?_, fun st f s => ?_⟩ <;> dsimp only
      · refine .placed hplaced (.evalExpr (hinner _) ?_) _
        rw [within_access, within_access]
        exact .refl ..
      · exact .placed hplaced (.execStmt (hinner _) st f) _
      · exact .placed hplaced (.execStmt (hinner _) st f) _

end Evaluator

end Lox
