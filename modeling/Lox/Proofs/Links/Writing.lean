/-
# Runs write

Whatever a run does to its store is a path of single writes, from a store in
which links lead to what was there before to another such (`Lox.Writing`). All
moments that it comes to lie on this path, and the frame that is evaluated in
is there. As with `Lox.Traced` the statement is about watched runs: a watch
makes no difference but for where it ends the run, and that is on the path.

Nothing is asked of the trees that are evaluated. What has to be known is that
frames which code runs in are there, and that the class of a class statement's
superclass is: its value came from the store, or was made.

Key definitions: `Lox.Moment.Passes`, `Lox.Writing`, `Lox.Evaluator.Writes`.
Key theorems: `Lox.Writing.bind`, `Lox.Writing.watch`, `Lox.Writing.execClass`,
`Lox.Evaluator.writes_watched`.
-/
import Lox.Proofs.Failing.Checks
import Lox.Proofs.Links.Writes

namespace Lox

open Procedure

/-! ### Watched runs -/

/-- The moment has one of the stores, and its frame is there. -/
structure Moment.Passes (t : Moment) (stores : List Store) : Prop where
  frame : t.frame < t.store.frames.size
  store : t.store ∈ stores

section

variable {α β γ : Type}

/-- The run leads along a path of writes; a watch lets it end so, or ends it at a moment of the path. -/
def Writing (run : Watch → Run α) (s : Store) (Q : Store → α → Prop) : Prop :=
  ∃ r s' ps, s.Path ps s' ∧ s'.Grounded ∧ (∀ a, r = .ok a → Q s' a) ∧
    ∀ W : Watch, W.Lawful → run W s = (r, s') ∨ ∃ t m, Moment.Passes t (s :: ps) ∧
      W t.site t.frame t.store = (.error (.misplaced m), t.store) ∧
      run W s = (.error (.misplaced m), t.store)

variable {run : Watch → Run α} {s t : Store} {Q : Store → α → Prop} {f : FrameId}

namespace Writing

/-- A run that no watch is asked in. -/
theorem done {r : Except Fault α} {ps : List Store} (hrun : ∀ W, run W s = (r, t))
    (hpath : s.Path ps t) (hs : s.Grounded) (hr : ∀ a, r = .ok a → Q t a) : Writing run s Q :=
  ⟨r, t, ps, hpath, hpath.grounded hs t hpath.last_mem, hr, fun W _ => .inl (hrun W)⟩

theorem pure (hs : s.Grounded) {a : α} (ha : Q s a) : Writing (fun _ => Pure.pure a) s Q :=
  done (fun _ => rfl) (.here s) hs fun _ h => by cases h; exact ha

theorem halt (hs : s.Grounded) (fault : Fault) :
    Writing (fun _ => (Procedure.halt fault : Run α)) s Q :=
  done (fun _ => rfl) (.here s) hs fun _ h => nomatch h

theorem fail (hs : s.Grounded) (cause : Cause) (offset : Option Int) :
    Writing (fun _ => (Run.fail cause offset : Run α)) s Q := halt hs _

/-- A single write, which gives something. -/
theorem write {p : Run α} {a : α} (hp : p s = (.ok a, t)) (hw : s.Write t) (hs : s.Grounded)
    (ha : Q t a) : Writing (fun _ => p) s Q :=
  done (fun _ => hp) (.write hw (.here t)) hs fun _ h => by cases h; exact ha

theorem read {g : Store → γ} {next : Watch → γ → Run α} (h : Writing (fun W => next W (g s)) s Q) :
    Writing (fun W => Procedure.read g >>= next W) s Q := h

/-- One run after the other. -/
theorem bind {next : Watch → α → Run β} {R : Store → β → Prop} (h : Writing run s Q)
    (hnext : ∀ s' a, s.Extends s' → s'.Grounded → Q s' a → Writing (fun W => next W a) s' R) :
    Writing (fun W => run W >>= next W) s R := by
  obtain ⟨r, s', ps, hpath, hs, hr, hrun⟩ := h
  cases r with
  | error fault =>
    refine ⟨.error fault, s', ps, hpath, hs, fun _ h => (nomatch h), fun W hW => ?_⟩
    obtain heq | ⟨t, m, ht, hstop, heq⟩ := hrun W hW
    · exact .inl (bind_error heq)
    · exact .inr ⟨t, m, ht, hstop, bind_error heq⟩
  | ok a =>
    have hext := (hpath.extended s' hpath.last_mem).1
    obtain ⟨r', s'', ps', hpath', hs', hr', hrun'⟩ := hnext s' a hext hs (hr a rfl)
    refine ⟨r', s'', ps ++ ps', hpath.append hpath', hs', hr', fun W hW => ?_⟩
    obtain heq | ⟨t, m, ht, hstop, heq⟩ := hrun W hW
    · obtain heq' | ⟨t, m, ht, hstop, heq'⟩ := hrun' W hW
      · exact .inl ((bind_ok heq).trans heq')
      · -- the moment is on the second part of the way, which begins where the first one ends
        have hmem : t.store ∈ s :: (ps ++ ps') := by
          rw [← List.cons_append]
          obtain hlast | hlater := List.mem_cons.mp ht.store
          · exact List.mem_append_left _ (hlast ▸ hpath.last_mem)
          · exact List.mem_append_right _ hlater
        exact .inr ⟨t, m, ⟨ht.frame, hmem⟩, hstop, (bind_ok heq).trans heq'⟩
    · have hmem : t.store ∈ s :: (ps ++ ps') := List.mem_append_left ps' ht.store
      exact .inr ⟨t, m, ⟨ht.frame, hmem⟩, hstop, bind_error heq⟩

/-- A single write comes first. -/
theorem after {p : Run α} {a : α} {next : Watch → α → Run β} {R : Store → β → Prop}
    (hp : p s = (.ok a, t)) (hw : s.Write t) (hs : s.Grounded)
    (hnext : Writing (fun W => next W a) t R) : Writing (fun W => p >>= next W) s R := by
  have hstep : Writing (fun _ => p) s fun s' b => s' = t ∧ b = a := write hp hw hs ⟨rfl, rfl⟩
  refine hstep.bind fun s' b _ _ ⟨hs', hb⟩ => ?_
  subst hs' hb
  exact hnext

theorem discard (h : Writing run s Q) : Writing (fun W => discard (run W)) s fun _ _ => True :=
  have hbind : Writing (fun W => run W >>= fun _ => Pure.pure ()) s fun _ _ => True :=
    h.bind fun _ _ _ hs _ => pure hs trivial
  hbind

theorem map (h : Writing run s Q) (g : α → β) :
    Writing (fun W => g <$> run W) s fun s' b => ∃ a, b = g a ∧ Q s' a :=
  have hbind : Writing (fun W => run W >>= fun a => Pure.pure (g a)) s
      fun s' b => ∃ a, b = g a ∧ Q s' a := h.bind fun _ a _ hs hq => pure hs ⟨a, rfl, hq⟩
  hbind

theorem ite {c : Prop} [Decidable c] {p q : Watch → Run α} (hp : c → Writing p s Q)
    (hq : ¬ c → Writing q s Q) : Writing (fun W => if c then p W else q W) s Q := by
  by_cases hc : c
  · simp only [if_pos hc]
    exact hp hc
  · simp only [if_neg hc]
    exact hq hc

/-- What a run ends with is seen otherwise, but not the halts that watches make. -/
theorem seen {see : Run α → Run β} {g : Except Fault α → Except Fault β} {R : Store → β → Prop}
    (h : Writing run s Q) (hsee : ∀ (p : Run α) t r, p s = (r, t) → see p s = (g r, t))
    (hstop : ∀ m, g (.error (.misplaced m)) = .error (.misplaced m))
    (hr : ∀ t r b, (∀ a, r = .ok a → Q t a) → g r = .ok b → R t b) :
    Writing (fun W => see (run W)) s R := by
  obtain ⟨r, s', ps, hpath, hs, hq, hrun⟩ := h
  refine ⟨g r, s', ps, hpath, hs, fun b hb => hr s' r b hq hb, fun W hW => ?_⟩
  obtain heq | ⟨t, m, ht, hobjects, heq⟩ := hrun W hW
  · exact .inl (hsee _ _ _ heq)
  · exact .inr ⟨t, m, ht, hobjects, (hsee _ _ _ heq).trans (congrArg (·, t.store) (hstop m))⟩

/-- A place is given to an error without one. -/
theorem placed (h : Writing run s Q) (offset : Unit → Option Int) :
    Writing (fun W => Run.placed offset (run W)) s Q := by
  refine h.seen
    (g := Except.mapError fun fault => if fault.isUnplaced then fault.attach (offset ()) else fault)
    (fun p t r hp => ?_) (fun _ => rfl) fun t r b hq hb => ?_
  · show mapHalt _ _ _ = _
    rw [mapHalt, hp]
    cases r <;> rfl
  · cases r with
    | error _ => cases hb
    | ok a =>
      cases hb
      exact hq _ rfl

/-- An evaluation that is watched: its moment is the beginning of the way. -/
theorem watch {site : Site} (hf : f < s.frames.size) (h : Writing run s Q) :
    Writing (fun W => do W site f; run W) s Q := by
  obtain ⟨r, s', ps, hpath, hs, hr, hrun⟩ := h
  refine ⟨r, s', ps, hpath, hs, hr, fun W hW => ?_⟩
  obtain hpass | ⟨m, hstop⟩ := hW site f s
  · obtain heq | ⟨t, m, ht, hstop, heq⟩ := hrun W hW
    · exact .inl ((bind_ok hpass).trans heq)
    · exact .inr ⟨t, m, ht, hstop, (bind_ok hpass).trans heq⟩
  · exact .inr ⟨⟨site, f, s⟩, m, ⟨hf, List.mem_cons_self⟩, hstop, bind_error hstop⟩

end Writing

end

namespace Writing

variable {s : Store} {f : FrameId} {v : Value}

/-! ### Reaching names -/

theorem getAt (hs : s.Grounded) (f : FrameId) (d : Int) (name : String) :
    Writing (fun _ => Run.getAt f d name) s fun s' v => v.ExistsIn s' := by
  obtain ⟨a, v, hv, h⟩ | ⟨fault, h⟩ := getAt_cases (s := s) (f := f) d name
  · refine done (fun _ => h) (.here s) hs fun u hu => ?_
    cases hu
    exact hs.var a name v hv
  · exact done (fun _ => h) (.here s) hs fun _ h => nomatch h

theorem get (hs : s.Grounded) (f : FrameId) (name : Mark) :
    Writing (fun _ => Run.get f name) s fun s' v => v.ExistsIn s' := by
  refine read ?_
  cases hv : s.get? f name.text with
  | none => exact fail hs _ _
  | some v =>
    obtain ⟨a, -, hv⟩ := Option.bind_eq_some_iff.mp hv
    exact pure hs (hs.var a _ v hv)

theorem look (hs : s.Grounded) (use : NameUse) (f : FrameId) :
    Writing (fun _ => Access.recorded.look use f) s fun s' v => v.ExistsIn s' := by
  unfold Access.recorded
  dsimp only
  cases use.hops with
  | none => exact get hs _ _
  | some d => exact getAt hs f d _

theorem define (hs : s.Grounded) (f : FrameId) (name : String) (hv : v.ExistsIn s) :
    Writing (fun _ => Run.define f name v) s fun _ _ => True :=
  write rfl (.binding f name hv) hs trivial

theorem assign (hs : s.Grounded) (f : FrameId) (name : Mark) (hv : v.ExistsIn s) :
    Writing (fun _ => Run.assign f name v) s fun _ _ => True := by
  refine read ?_
  cases s.holder? name.text f with
  | none => exact fail hs _ _
  | some h => exact define hs h _ hv

theorem store (hs : s.Grounded) (use : NameUse) (f : FrameId) (hv : v.ExistsIn s) :
    Writing (fun _ => Access.recorded.store use v f) s fun _ _ => True := by
  unfold Access.recorded
  dsimp only
  cases use.hops with
  | none => exact assign hs _ _ hv
  | some d =>
    obtain ⟨a, ha⟩ | ⟨fault, ha⟩ := ancestor_cases (s := s) (f := f) d
    · have hreach : Writing (fun _ => Run.ancestor f d) s fun s' b => s' = s ∧ b = a :=
        done (fun _ => ha) (.here s) hs fun b hb => by cases hb; exact ⟨rfl, rfl⟩
      refine hreach.bind fun s' b _ _ ⟨hs', hb⟩ => read (ite (fun _ => ?_) fun _ => ?_)
      · subst hs' hb
        exact define hs b _ hv
      · subst hs' hb
        exact halt hs _
    · exact done (fun _ => bind_error ha) (.here s) hs fun _ h => nomatch h

/-! ### Operators, properties and methods -/

theorem print (hs : s.Grounded) (v : Value) : Writing (fun _ => Run.print v) s fun _ _ => True :=
  read (write rfl (.output _) hs trivial)

theorem unaryResult (hs : s.Grounded) (op : Mark) (v : Value) :
    Writing (fun _ => unaryResult op v) s fun s' v => v.ExistsIn s' := by
  unfold Lox.unaryResult
  split
  · split
    · exact pure hs trivial
    · exact fail hs _ _
  · exact pure hs trivial
  · exact fail hs _ _

theorem binaryResult (hs : s.Grounded) (op : Mark) (u v : Value) :
    Writing (fun _ => binaryResult op u v) s fun s' v => v.ExistsIn s' := by
  unfold Lox.binaryResult
  split
  · unfold joinOrAdd
    split
    · exact pure hs trivial
    · exact read (pure hs trivial)
    · exact read (pure hs trivial)
    · exact fail hs _ _
  · exact pure hs trivial
  · exact pure hs trivial
  · split
    · exact fail hs _ _
    · rename_i g hg
      split
      · rename_i x y
        obtain ⟨c, hc⟩ := arithmetic?_const hg x y
        rw [hc]
        exact pure hs trivial
      · exact fail hs _ _

/-- A receiver's frame is made in that of the function. -/
theorem receiverFrame (hs : s.Grounded) (id : FunctionId) (hv : v.ExistsIn s) :
    Writing (fun _ => receiverFrame id v) s fun s' frame => frame < s'.frames.size := by
  have hframe : s.Write (s.withFrame (some (s.function id).frame)) := .frame (hs.function id)
  refine read (after rfl hframe hs ?_)
  have hlt : s.frames.size < (s.withFrame (some (s.function id).frame)).frames.size := by
    simp [Store.withFrame]
  refine (define (hframe.grounded hs) _ _ (hframe.extended.existsIn hv)).bind fun s' _ hext hs' _ => ?_
  exact pure hs' (Nat.lt_of_lt_of_le hlt hext.frames)

theorem bindMethod (hs : s.Grounded) (id : FunctionId) (hv : v.ExistsIn s) :
    Writing (fun _ => bindMethod id v) s fun s' v => v.ExistsIn s' := by
  refine (receiverFrame hs id hv).bind fun s' frame _ hs' hframe => ?_
  have hmade : s'.Write (s'.withMethod ⟨id, frame⟩) := .method hframe
  exact after rfl hmade hs' (pure (hmade.grounded hs') trivial)

theorem getProperty (hs : s.Grounded) (v : Value) (name : Mark) :
    Writing (fun _ => getProperty v name) s fun s' v => v.ExistsIn s' := by
  cases v with
  | const _ | native _ | function _ | method _ | classRef _ => exact fail hs _ _
  | instanceRef i =>
    show Writing (fun _ => instanceProperty i name) s _
    unfold instanceProperty
    refine read ?_
    cases hv : (s.instanceObject i).fields.get? name.text with
    | some u => exact pure hs (hs.field i _ u hv)
    | none =>
      refine read ?_
      cases s.findMethod? (s.instanceObject i).cls name.text with
      | some m => exact bindMethod hs m trivial
      | none => exact fail hs _ _

theorem superProperty (hs : s.Grounded) (use : NameUse) (name : Mark) (f : FrameId) :
    Writing (fun _ => superProperty use name f) s fun s' v => v.ExistsIn s' := by
  unfold Lox.superProperty
  cases use.hops with
  | none => exact halt hs _
  | some d =>
    refine (getAt hs f d "super").bind fun s1 superclass _ hs1 _ => ?_
    refine (getAt hs1 f _ "this").bind fun s2 receiver _ hs2 hreceiver => read ?_
    cases s2.methodOf? superclass name.text with
    | none => exact fail hs2 _ _
    | some m => exact bindMethod hs2 m hreceiver

end Writing

/-! ### Evaluations -/

/-- What a statement ends with refers to a class that is there. -/
def Flow.ExistsIn (s : Store) : Flow → Prop
  | .next => True
  | .returning v => v.ExistsIn s

/-- The evaluations further in write, and come to values that are there. -/
structure Evaluator.Writes (inner : Watch → Evaluator) : Prop where
  access : ∀ W, (inner W).access = .recorded
  turns : ∃ n, ∀ W, (inner W).turns = n
  expr : ∀ (e : Expr) {f : FrameId} {s : Store}, s.Grounded → f < s.frames.size →
    Writing (fun W => (inner W).expr e f) s fun s' v => v.ExistsIn s'
  stmt : ∀ (st : Stmt) {f : FrameId} {s : Store}, s.Grounded → f < s.frames.size →
    Writing (fun W => (inner W).stmt st f) s fun s' flow => flow.ExistsIn s'
  called : ∀ (st : Stmt) {f : FrameId} {s : Store}, s.Grounded → f < s.frames.size →
    Writing (fun W => (inner W).called st f) s fun s' flow => flow.ExistsIn s'

namespace Writing

variable {inner : Watch → Evaluator} {s : Store} {f : FrameId}

/-- A new frame is made inside one, and what follows runs in it. -/
theorem newFrame {α : Type} {p : FrameId} {next : Watch → FrameId → Run α} {Q : Store → α → Prop}
    (hs : s.Grounded) (hp : p < s.frames.size)
    (h : ∀ t, s.Extends t → t.Grounded → s.frames.size < t.frames.size →
      Writing (fun W => next W s.frames.size) t Q) :
    Writing (fun W => Run.newFrame (some p) >>= next W) s Q := by
  have hw : s.Write (s.withFrame (some p)) := .frame hp
  exact after rfl hw hs (h _ hw.extended (hw.grounded hs) (by simp))

theorem execBody {exec : Watch → Stmt → FrameId → Run Flow}
    (hexec : ∀ (st : Stmt) {s : Store}, s.Grounded → f < s.frames.size →
      Writing (fun W => exec W st f) s fun s' flow => flow.ExistsIn s') :
    ∀ (body : List Stmt) {s : Store}, s.Grounded → f < s.frames.size →
      Writing (fun W => execBody (exec W) body f) s fun s' flow => flow.ExistsIn s'
  | [], _, hs, _ => pure hs trivial
  | st :: body, s, hs, hf => by
    refine (hexec st hs hf).bind fun s' flow hext hs' hflow => ?_
    cases flow with
    | next => exact execBody hexec body hs' (Nat.lt_of_lt_of_le hf hext.frames)
    | returning v => exact pure hs' hflow

theorem bindParams (f : FrameId) : ∀ (params : List Mark) {args : List Value} {s : Store}, s.Grounded →
    (∀ v ∈ args, v.ExistsIn s) → Writing (fun _ => bindParams f params args) s fun _ _ => True
  | [], _, _, hs, _ | _ :: _, [], _, hs, _ => pure hs trivial
  | m :: params, v :: args, _, hs, hargs => by
    refine (define hs f m.text (hargs v List.mem_cons_self)).bind fun s' _ hext hs' _ => ?_
    exact bindParams f params hs' fun u hu => hext.existsIn (hargs u (List.mem_cons_of_mem _ hu))

variable (h : Evaluator.Writes inner)

include h

/-- A function runs in a new frame inside one that is there. -/
theorem invoke (hs : s.Grounded) (id : FunctionId) {outer : FrameId} (houter : outer < s.frames.size)
    {args : List Value} (hargs : ∀ v ∈ args, v.ExistsIn s) :
    Writing (fun W => invoke (inner W) id outer args) s fun s' v => v.ExistsIn s' := by
  refine read (newFrame hs houter fun t hext ht hlt => ?_)
  refine (bindParams s.frames.size _ ht fun v hv => hext.existsIn (hargs v hv)).bind
    fun s2 _ hext2 hs2 _ => ?_
  refine (execBody (fun st _ => h.called st) _ hs2 (Nat.lt_of_lt_of_le hlt hext2.frames)).bind
    fun s3 flow _ hs3 hflow => ?_
  refine ite (fun _ => getAt hs3 outer 0 "this") fun _ => ?_
  cases flow with
  | next => exact pure hs3 trivial
  | returning v => exact pure hs3 hflow

theorem apply (hs : s.Grounded) (v : Value) {args : List Value} (hargs : ∀ v ∈ args, v.ExistsIn s) :
    Writing (fun W => apply (inner W) v args) s fun s' v => v.ExistsIn s' := by
  cases v with
  | const _ | instanceRef _ => exact pure hs trivial
  | native n =>
    cases n
    have hw : s.Write s.ticked := .clock
    exact after (t := s.ticked) rfl hw hs (pure (hw.grounded hs) trivial)
  | function id => exact read (invoke h hs id (hs.function id) hargs)
  | method id => exact read (invoke h hs _ (hs.method id) hargs)
  | classRef c =>
    have hw : s.Write (s.withInstance c) := .object c
    have hs' := hw.grounded hs
    refine after (t := s.withInstance c) rfl hw hs (read ?_)
    cases (s.withInstance c).findMethod? c Store.initName with
    | none => exact pure hs' trivial
    | some m =>
      refine (receiverFrame (v := .instanceRef s.instances.size) hs' m trivial).bind
        fun s2 frame hext2 hs2 hframe => ?_
      have hargs2 : ∀ v ∈ args, v.ExistsIn s2 := fun v hv =>
        hext2.existsIn (hw.extended.existsIn (hargs v hv))
      exact (invoke h hs2 m hframe hargs2).discard.bind fun _ _ _ hs3 _ => pure hs3 trivial

theorem callWith (hs : s.Grounded) (v : Value) {args : List Value} (hargs : ∀ v ∈ args, v.ExistsIn s)
    (place : Option Int) :
    Writing (fun W => callWith (inner W) v args place) s fun s' v => v.ExistsIn s' := by
  refine read ?_
  cases s.arity? v with
  | none => exact fail hs _ _
  | some expected => exact ite (fun _ => apply h hs v hargs) fun _ => fail hs _ _

theorem evalArgs : ∀ (es : List Expr) {s : Store}, s.Grounded → f < s.frames.size →
    Writing (fun W => evalArgs (inner W) es f) s fun s' vs => ∀ v ∈ vs, v.ExistsIn s'
  | [], _, hs, _ => pure hs fun _ h => nomatch h
  | e :: es, s, hs, hf => by
    refine (h.expr e hs hf).bind fun s' v hext hs' hv => ?_
    refine (evalArgs es hs' (Nat.lt_of_lt_of_le hf hext.frames)).bind fun s2 vs hext2 hs2 hvs => ?_
    exact pure hs2 (List.forall_mem_cons.mpr ⟨hext2.existsIn hv, hvs⟩)

theorem evalExpr (e : Expr) (hs : s.Grounded) (hf : f < s.frames.size) :
    Writing (fun W => evalExpr (inner W) e f) s fun s' v => v.ExistsIn s' := by
  have later : ∀ {t : Store}, s.Extends t → f < t.frames.size := fun hext =>
    Nat.lt_of_lt_of_le hf hext.frames
  cases e with
  | literal value => exact pure hs trivial
  | grouping e => exact h.expr e hs hf
  | «variable» use | receiver use =>
    show Writing (fun W => (inner W).access.look use f) s _
    simp only [h.access]
    exact look hs use f
  | assign use value =>
    show Writing (fun W => (inner W).expr value f >>= fun v =>
      (inner W).access.store use v f >>= fun _ => Pure.pure v) s _
    simp only [h.access]
    refine (h.expr value hs hf).bind fun s' v _ hs' hv => ?_
    exact (store hs' use f hv).bind fun s2 _ hext hs2 _ => pure hs2 (hext.existsIn hv)
  | unary op e => exact (h.expr e hs hf).bind fun _ v _ hs' _ => unaryResult hs' op v
  | binary l op r =>
    refine (h.expr l hs hf).bind fun s' u hext hs' _ => ?_
    exact (h.expr r hs' (later hext)).bind fun _ v _ hs2 _ => binaryResult hs2 op u v
  | logical l op r =>
    refine (h.expr l hs hf).bind fun s' v hext hs' hv => ?_
    exact ite (fun _ => pure hs' hv) fun _ => h.expr r hs' (later hext)
  | ternary cond yes no =>
    refine (h.expr cond hs hf).bind fun s' v hext hs' _ => ?_
    exact ite (fun _ => h.expr yes hs' (later hext)) fun _ => h.expr no hs' (later hext)
  | call callee paren args =>
    refine (h.expr callee hs hf).bind fun s' v hext hs' _ => ?_
    exact (evalArgs h args hs' (later hext)).bind fun _ vs _ hs2 hvs => callWith h hs2 v hvs _
  | get e name => exact (h.expr e hs hf).bind fun _ v _ hs' _ => getProperty hs' v name
  | set object name value =>
    refine (h.expr object hs hf).bind fun s' o hext hs' _ => ?_
    cases o with
    | const _ | native _ | function _ | method _ | classRef _ => exact fail hs' _ _
    | instanceRef i =>
      refine (h.expr value hs' (later hext)).bind fun s2 v _ hs2 hv => ?_
      have hw : s2.Write (s2.setField i name.text v) := .field i name.text hv
      exact after rfl hw hs2 (pure (hw.grounded hs2) (hw.extended.existsIn hv))
  | superMethod use method => exact superProperty hs use method f
  | stray node => exact halt hs _

theorem evalOption (e : Option Expr) (hs : s.Grounded) (hf : f < s.frames.size) :
    Writing (fun W => evalOption (inner W) e f) s fun s' v => v.ExistsIn s' := by
  cases e with
  | none => exact pure hs trivial
  | some e => exact h.expr e hs hf

theorem execLoop (cond : Expr) (body : Stmt) : ∀ (turns : Nat) {s : Store}, s.Grounded →
    f < s.frames.size →
      Writing (fun W => execLoop (inner W) cond body f turns) s fun s' flow => flow.ExistsIn s'
  | 0, _, hs, _ => halt hs _
  | turns + 1, s, hs, hf => by
    refine (h.expr cond hs hf).bind fun s' v hext hs' _ => ite (fun _ => ?_) fun _ => pure hs' trivial
    have hf' := Nat.lt_of_lt_of_le hf hext.frames
    refine (h.stmt body hs' hf').bind fun s2 flow hext2 hs2 hflow => ?_
    cases flow with
    | next => exact execLoop cond body turns hs2 (Nat.lt_of_lt_of_le hf' hext2.frames)
    | returning v => exact pure hs2 hflow

/-! ### Classes -/

omit h in
/-- The functions of methods lie where they are made. -/
theorem makeMethods : ∀ (ms : List Fun) (made : Bindings FunctionId) {s : Store}, s.Grounded →
    f < s.frames.size → Writing (fun _ => makeMethods f ms made) s fun _ _ => True
  | [], _, _, hs, _ => pure hs trivial
  | m :: ms, made, s, hs, hf => by
    have hw : s.Write (s.withFunction ⟨m, f, m.name.text = Store.initName⟩) := .function hf
    exact after rfl hw hs (makeMethods ms _ (hw.grounded hs) (Nat.lt_of_lt_of_le hf hw.extended.frames))

omit h in
/-- The frame for the methods of a class is there, or is made inside the one that is. -/
theorem methodFrame {superclass : Option ClassId} (hs : s.Grounded) (hf : f < s.frames.size)
    (hc : ∀ c, superclass = some c → c < s.classes.size) :
    Writing (fun _ => methodFrame superclass f) s fun s' g => g < s'.frames.size := by
  cases superclass with
  | none => exact pure hs hf
  | some c =>
    refine newFrame hs hf fun t hext ht hlt => ?_
    have hsuper : (Value.classRef c).ExistsIn t := Nat.lt_of_lt_of_le (hc c rfl) hext.classes
    exact (define ht _ "super" hsuper).bind fun s' _ hext' hs' _ =>
      pure hs' (Nat.lt_of_lt_of_le hlt hext'.frames)

/-- The class that a superclass names is there. -/
theorem evalSuperclass (use : NameUse) (hs : s.Grounded) (hf : f < s.frames.size) :
    Writing (fun W => evalSuperclass (inner W) use f) s fun s' c => c < s'.classes.size := by
  refine (h.expr (.variable use) hs hf).bind fun s' v _ hs' hv => ?_
  cases v with
  | classRef c => exact pure hs' hv
  | const _ | native _ | function _ | method _ | instanceRef _ => exact fail hs' _ _

omit h in
/-- A class is made above one that is there. -/
theorem bindClass (name : Mark) {superclass : Option ClassId} (ms : List Fun) (hs : s.Grounded)
    (hf : f < s.frames.size) (hc : ∀ c, superclass = some c → c < s.classes.size) :
    Writing (fun _ => Lox.bindClass name superclass ms f) s fun _ _ => True := by
  refine (define (v := .nil) hs f name.text trivial).bind fun s1 _ hext1 hs1 _ => ?_
  have hc1 : ∀ c, superclass = some c → c < s1.classes.size := fun c hsuper =>
    Nat.lt_of_lt_of_le (hc c hsuper) hext1.classes
  refine (methodFrame hs1 (Nat.lt_of_lt_of_le hf hext1.frames) hc1).bind fun s2 g hext2 hs2 hg => ?_
  refine (makeMethods ms .empty hs2 hg).bind fun s3 made hext3 hs3 _ => ?_
  have hw : s3.Write (s3.withClass ⟨name.text, superclass, made⟩) := .cls fun c hsuper =>
    Nat.lt_of_lt_of_le (hc1 c hsuper) (hext2.trans hext3).classes
  have hthere : (Value.classRef s3.classes.size).ExistsIn
      (s3.withClass ⟨name.text, superclass, made⟩) := by
    simp [Value.ExistsIn, Store.withClass]
  exact after rfl hw hs3 (assign (hw.grounded hs3) f name hthere)

theorem execClass (name : Mark) (superclass : Option NameUse) (ms : List Fun) (hs : s.Grounded)
    (hf : f < s.frames.size) :
    Writing (fun W => execClass (inner W) name superclass ms f) s fun _ _ => True := by
  cases superclass with
  | none =>
    have hnone : Writing (fun _ => (Pure.pure none : Run (Option ClassId))) s fun _ found =>
        found = none := pure hs rfl
    refine hnone.bind fun s' found hext hs' hfound => ?_
    refine bindClass name ms hs' (Nat.lt_of_lt_of_le hf hext.frames) fun c hc => ?_
    cases hfound.symm.trans hc
  | some use =>
    refine ((evalSuperclass h use hs hf).map some).bind fun s' found hext hs' ⟨c, hfound, hc⟩ => ?_
    refine bindClass name ms hs' (Nat.lt_of_lt_of_le hf hext.frames) fun d hd => ?_
    cases hfound.symm.trans hd
    exact hc

/-! ### Statements -/

theorem execStmt (st : Stmt) (hs : s.Grounded) (hf : f < s.frames.size) :
    Writing (fun W => execStmt (inner W) st f) s fun s' flow => flow.ExistsIn s' := by
  cases st with
  | expr e => exact (h.expr e hs hf).discard.bind fun _ _ _ hs' _ => pure hs' trivial
  | print e =>
    exact (h.expr e hs hf).bind fun _ v _ hs' _ => (print hs' v).bind fun _ _ _ hs2 _ => pure hs2 trivial
  | var name initial =>
    exact (evalOption h initial hs hf).bind fun _ v _ hs' hv =>
      (define hs' f name.text hv).bind fun _ _ _ hs2 _ => pure hs2 trivial
  | block body => exact newFrame hs hf fun t _ ht hlt => execBody (fun st _ => h.stmt st) body ht hlt
  | branch cond yes no =>
    refine (h.expr cond hs hf).bind fun s' v hext hs' _ => ?_
    have hf' := Nat.lt_of_lt_of_le hf hext.frames
    refine ite (fun _ => h.stmt yes hs' hf') fun _ => ?_
    cases no with
    | none => exact pure hs' trivial
    | some no => exact h.stmt no hs' hf'
  | loop cond body =>
    obtain ⟨turns, hturns⟩ := h.turns
    show Writing (fun W => Lox.execLoop (inner W) cond body f (inner W).turns) s _
    simp only [hturns]
    exact execLoop h cond body turns hs hf
  | function decl =>
    have hw : s.Write (s.withFunction ⟨decl, f, false⟩) := .function hf
    refine after rfl hw hs ?_
    exact (define (v := .function _) (hw.grounded hs) f decl.name.text trivial).bind
      fun _ _ _ hs' _ => pure hs' trivial
  | giveBack keyword value =>
    exact (evalOption h value hs hf).bind fun _ v _ hs' hv => pure hs' hv
  | classDecl name superclass ms =>
    exact (execClass h name superclass ms hs hf).bind fun _ _ _ hs' _ => pure hs' trivial
  | stray node => exact halt hs _

end Writing

/-- Evaluation writes, however many steps are left. -/
theorem Evaluator.writes_watched (turns : Nat) : ∀ steps spent,
    Evaluator.Writes fun W => watched W .recorded turns steps spent
  | 0, _ => by
    unfold watched
    exact ⟨fun _ => rfl, ⟨turns, fun _ => rfl⟩, fun _ _ _ hs _ => .halt hs _,
      fun _ _ _ hs _ => .halt hs _, fun _ _ _ hs _ => .halt hs _⟩
  | steps + 1, spent + 1 => by
    unfold watched
    exact writes_watched turns steps spent
  | steps + 1, 0 => by
    have hinner := writes_watched turns steps
    unfold watched
    refine ⟨fun _ => rfl, ⟨turns, fun _ => rfl⟩, fun e f s hs hf => ?_, fun st f s hs hf => ?_,
      fun st f s hs hf => ?_⟩ <;> dsimp only
    · exact .watch hf (.placed (.evalExpr (hinner _) e hs hf) _)
    · exact .watch hf (.placed (.execStmt (hinner _) st hs hf) _)
    · exact .watch hf (.placed (.execStmt (hinner _) st hs hf) _)

end Lox
