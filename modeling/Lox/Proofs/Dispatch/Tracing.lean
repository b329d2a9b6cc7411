/-
# Runs that keep their store founded

A run from a founded store leads to a founded one, and so it is at each moment
that it comes to, if the history has all these moments in it
(`Lox.Traced`): the tree that is evaluated then lies in the frame. A watch
makes no difference but for where it ends the run, and it ends the run at the
first moment that it objects to. So the same statement says of which moments a
run comes to, and of what holds there.

The cases follow the evaluation. Only one of them has anything in it: a class
statement makes the frame for its methods, as the moment at which it began
says.

Key definitions: `Lox.Watch.Lawful`, `Lox.Moment.Lies`, `Lox.Traced`, `Lox.Evaluator.Traces`.
Key theorems: `Lox.Traced.bind`, `Lox.Traced.watch`, `Lox.Traced.execClass`,
`Lox.Evaluator.traces_watched`.
-/
import Lox.Proofs.Dispatch.Founding
import Lox.Proofs.Running.Watch

namespace Lox

open Procedure

/-! ### Watched runs -/

/-- The watch lets a moment pass, or ends the run there. -/
def Watch.Lawful (W : Watch) : Prop :=
  ∀ site f s, W site f s = (.ok (), s) ∨ ∃ m, W site f s = (.error (.misplaced m), s)

theorem Watch.lawful_stopAt (t : Moment) (m : Misplaced) : (Watch.stopAt t m).Lawful := by
  intro site f s
  unfold stopAt
  split
  · exact .inr ⟨m, rfl⟩
  · exact .inl rfl

theorem Watch.lawful_quiet : Watch.quiet.Lawful := fun _ _ _ => .inl rfl

/-- Of a moment at which a watch that stops at one objects. -/
theorem Watch.stopAt_eq {t u : Moment} {m m' : Misplaced}
    (h : Watch.stopAt t m u.site u.frame u.store = (.error (.misplaced m'), u.store)) :
    u = t ∧ m' = m := by
  unfold stopAt at h
  split at h
  · rename_i heq
    cases h
    exact ⟨heq.symm, rfl⟩
  · cases h

/-- A run ends in one way only, so not at each of two nodes out of place. -/
theorem of_ends_misplaced {α : Type} {r : Except Fault α} {p : Prop}
    (h : ∀ m ∈ [Misplaced.expression "", .statement ""], r = .error (.misplaced m) ∨ p) : p := by
  obtain hfirst | hp := h (.expression "") (List.mem_cons_self ..)
  · obtain hsecond | hp := h (.statement "") (List.mem_cons_of_mem _ (List.mem_singleton_self _))
    · cases hfirst.symm.trans hsecond
    · exact hp
  · exact hp

/-- The uses of `super` that a site leaves open. -/
def Site.supers : Site → List SuperUse
  | .expr e => e.supers
  | .stmt s => s.supers

/-- The store is founded, and the site lies in the frame. -/
structure Moment.Lies (H : Moment → Prop) (t : Moment) : Prop where
  founded : t.store.Founded H
  site : Lox.Lies H t.store t.frame t.site.supers

section

variable {α β γ : Type}

/-- If the history has all moments in it that the run comes to, then the run leads to a founded
store; and a watch lets it end so, or ends it at a moment that it comes to, from where the store would
have grown. -/
def Traced (H : Moment → Prop) (run : Watch → Run α) (s : Store) (Q : Store → α → Prop) : Prop :=
  (∀ t, Comes run s t → H t) → ∃ r s', s.Grows s' ∧ s'.Founded H ∧ (∀ a, r = .ok a → Q s' a) ∧
    ∀ W : Watch, W.Lawful → run W s = (r, s') ∨ ∃ t m, Comes run s t ∧ t.Lies H ∧
      t.store.Grows s' ∧ W t.site t.frame t.store = (.error (.misplaced m), t.store) ∧
      run W s = (.error (.misplaced m), t.store)

variable {H : Moment → Prop} {run : Watch → Run α} {s t : Store} {Q R : Store → α → Prop}
  {uses : List SuperUse} {f : FrameId}

theorem Comes.bind {next : Watch → α → Run β} {u : Moment} (h : Comes run s u) :
    Comes (fun W => run W >>= next W) s u := fun m => bind_error (h m)

namespace Traced

/-- A run that no watch is asked in. -/
theorem done {r : Except Fault α} (hrun : ∀ W, run W s = (r, t)) (h : s.Grows t ∧ t.Founded H)
    (hr : ∀ a, r = .ok a → Q t a) : Traced H run s Q :=
  fun _ => ⟨r, t, h.1, h.2, hr, fun W _ => .inl (hrun W)⟩

theorem pure (hs : s.Founded H) {a : α} (ha : Q s a) : Traced H (fun _ => Pure.pure a) s Q :=
  done (fun _ => rfl) ⟨.refl s, hs⟩ fun _ h => by cases h; exact ha

theorem halt (hs : s.Founded H) (fault : Fault) :
    Traced H (fun _ => (Procedure.halt fault : Run α)) s Q :=
  done (fun _ => rfl) ⟨.refl s, hs⟩ fun _ h => nomatch h

theorem fail (hs : s.Founded H) (cause : Cause) (offset : Option Int) :
    Traced H (fun _ => (Run.fail cause offset : Run α)) s Q := halt hs _

theorem change {m : Store → Store} {P : Store → Unit → Prop}
    (h : s.Grows (m s) ∧ (m s).Founded H) (hp : P (m s) ()) :
    Traced H (fun _ => Procedure.change m) s P :=
  done (fun _ => rfl) h fun _ _ => hp

theorem read {g : Store → γ} {next : Watch → γ → Run α} (h : Traced H (fun W => next W (g s)) s Q) :
    Traced H (fun W => Procedure.read g >>= next W) s Q := h

theorem mono (h : Traced H run s Q) (hq : ∀ s' a, Q s' a → R s' a) : Traced H run s R := by
  intro hH
  obtain ⟨r, s', hle, hs, hr, hrun⟩ := h hH
  exact ⟨r, s', hle, hs, fun a ha => hq s' a (hr a ha), hrun⟩

/-- One run after the other. -/
theorem bind {next : Watch → α → Run β} {R : Store → β → Prop} (h : Traced H run s Q)
    (hnext : ∀ s' a, s.Grows s' → s'.Founded H → Q s' a →
      Traced H (fun W => next W a) s' R) :
    Traced H (fun W => run W >>= next W) s R := by
  intro hH
  obtain ⟨r, s', hle, hs, hr, hrun⟩ := h fun t ht => hH t ht.bind
  cases r with
  | error fault =>
    refine ⟨.error fault, s', hle, hs, fun _ h => (nomatch h), fun W hW => ?_⟩
    obtain heq | ⟨t, m, hcomes, hlies, hgrows, hstop, heq⟩ := hrun W hW
    · exact .inl (bind_error heq)
    · exact .inr ⟨t, m, hcomes.bind, hlies, hgrows, hstop, bind_error heq⟩
  | ok a =>
    have hlater : ∀ t, Comes (fun W => next W a) s' t → Comes (fun W => run W >>= next W) s t := by
      intro t ht m
      obtain heq | ⟨u, m', _, _, _, hstop, heq⟩ := hrun _ (Watch.lawful_stopAt t m)
      · exact (bind_ok heq).trans (ht m)
      · obtain ⟨rfl, rfl⟩ := Watch.stopAt_eq hstop
        exact bind_error heq
    obtain ⟨r', s'', hle', hs', hr', hrun'⟩ :=
      hnext s' a hle hs (hr a rfl) fun t ht => hH t (hlater t ht)
    refine ⟨r', s'', hle.trans hle', hs', hr', fun W hW => ?_⟩
    obtain heq | ⟨t, m, hcomes, hlies, hgrows, hstop, heq⟩ := hrun W hW
    · obtain heq' | ⟨t, m, hcomes, hlies, hgrows, hstop, heq'⟩ := hrun' W hW
      · exact .inl ((bind_ok heq).trans heq')
      · exact .inr ⟨t, m, hlater t hcomes, hlies, hgrows, hstop, (bind_ok heq).trans heq'⟩
    · exact .inr ⟨t, m, hcomes.bind, hlies, hgrows.trans hle', hstop, bind_error heq⟩

/-- A step that no watch is asked in comes first. -/
theorem after {p : Run α} {a : α} {next : Watch → α → Run β} {R : Store → β → Prop}
    (hp : p s = (.ok a, t)) (h : s.Grows t ∧ t.Founded H) (hnext : Traced H (fun W => next W a) t R) :
    Traced H (fun W => p >>= next W) s R := by
  have hstep : Traced H (fun _ => p) s fun s' b => s' = t ∧ b = a :=
    done (fun _ => hp) h fun b hb => by
      cases hb
      exact ⟨rfl, rfl⟩
  refine hstep.bind fun s' b _ _ ⟨hs', hb⟩ => ?_
  subst hs' hb
  exact hnext

theorem discard (h : Traced H run s Q) :
    Traced H (fun W => discard (run W)) s fun _ _ => True :=
  have hbind : Traced H (fun W => run W >>= fun _ => Pure.pure ()) s fun _ _ => True :=
    h.bind fun _ _ _ hs _ => pure hs trivial
  hbind

theorem map (h : Traced H run s Q) (g : α → β) :
    Traced H (fun W => g <$> run W) s fun s' b => ∃ a, b = g a ∧ Q s' a :=
  have hbind : Traced H (fun W => run W >>= fun a => Pure.pure (g a)) s
      fun s' b => ∃ a, b = g a ∧ Q s' a := h.bind fun _ a _ hs hq => pure hs ⟨a, rfl, hq⟩
  hbind

theorem ite {c : Prop} [Decidable c] {p q : Watch → Run α} (hp : c → Traced H p s Q)
    (hq : ¬ c → Traced H q s Q) : Traced H (fun W => if c then p W else q W) s Q := by
  by_cases hc : c
  · simp only [if_pos hc]
    exact hp hc
  · simp only [if_neg hc]
    exact hq hc

/-- A place is given to an error without one. -/
theorem placed (h : Traced H run s Q) (offset : Unit → Option Int) :
    Traced H (fun W => Run.placed offset (run W)) s Q := by
  intro hH
  obtain ⟨r, s', hle, hs, hr, hrun⟩ := h fun t ht => hH t ht.placed
  have hstop : ∀ W : Watch, W.Lawful → ∀ r', (∀ W, run W s = (r, s') →
      Run.placed offset (run W) s = (r', s')) → Run.placed offset (run W) s = (r', s') ∨
        ∃ t m, Comes (fun W => Run.placed offset (run W)) s t ∧ t.Lies H ∧ t.store.Grows s' ∧
          W t.site t.frame t.store = (.error (.misplaced m), t.store) ∧
          Run.placed offset (run W) s = (.error (.misplaced m), t.store) := by
    intro W hW r' hplaced
    obtain heq | ⟨t, m, hcomes, hlies, hgrows, hstop, heq⟩ := hrun W hW
    · exact .inl (hplaced W heq)
    · exact .inr ⟨t, m, hcomes.placed, hlies, hgrows, hstop, placed_misplaced heq⟩
  cases r with
  | ok a =>
    refine ⟨.ok a, s', hle, hs, hr, fun W hW => hstop W hW _ fun W heq => ?_⟩
    show mapHalt _ _ _ = _
    rw [mapHalt, heq]
  | error fault =>
    refine ⟨.error (if fault.isUnplaced then fault.attach (offset ()) else fault), s', hle, hs,
      fun _ h => (by cases h), fun W hW => hstop W hW _ fun W heq => ?_⟩
    show mapHalt _ _ _ = _
    rw [mapHalt, heq]

/-- An evaluation that is watched: the history has its beginning in it. -/
theorem watch {site : Site} (hs : s.Founded H) (hl : Lies H s f site.supers)
    (h : H ⟨site, f, s⟩ → Traced H run s Q) :
    Traced H (fun W => do W site f; run W) s Q := by
  intro hH
  obtain ⟨r, s', hle, hs', hr, hrun⟩ := h (hH _ comes_watch) fun t ht => hH t ht.watch
  refine ⟨r, s', hle, hs', hr, fun W hW => ?_⟩
  obtain hpass | ⟨m, hstop⟩ := hW site f s
  · obtain heq | ⟨t, m, hcomes, hlies, hgrows, hstop, heq⟩ := hrun W hW
    · exact .inl ((bind_ok hpass).trans heq)
    · exact .inr ⟨t, m, hcomes.watch, hlies, hgrows, hstop, (bind_ok hpass).trans heq⟩
  · exact .inr ⟨⟨site, f, s⟩, m, comes_watch, ⟨hs, hl⟩, hle, hstop, bind_error hstop⟩

end Traced

end

/-! ### Reaching names -/

section

variable {s : Store} {f : FrameId}

theorem ancestor_cases (d : Int) : (∃ a, Run.ancestor f d s = (.ok a, s)) ∨
    ∃ fault, Run.ancestor f d s = (.error fault, s) := by
  have hread : Procedure.read (ε := Fault) (fun s : Store => s.ancestor? d.toNat f) s =
      (.ok (s.ancestor? d.toNat f), s) := rfl
  rw [Run.ancestor, bind_ok hread]
  cases s.ancestor? d.toNat f with
  | none => exact .inr ⟨_, rfl⟩
  | some a => exact .inl ⟨a, rfl⟩

/-- What is read so many frames out is bound there, and nothing changes. -/
theorem getAt_cases (d : Int) (name : String) :
    (∃ a v, (s.frame a).vars.get? name = some v ∧ Run.getAt f d name s = (.ok v, s)) ∨
      ∃ fault, Run.getAt f d name s = (.error fault, s) := by
  unfold Run.getAt
  obtain ⟨a, ha⟩ | ⟨fault, ha⟩ := ancestor_cases (s := s) (f := f) d
  · have hread : Procedure.read (ε := Fault) (fun s : Store => (s.frame a).vars.get? name) s =
        (.ok ((s.frame a).vars.get? name), s) := rfl
    rw [bind_ok ha, bind_ok hread]
    cases hv : (s.frame a).vars.get? name with
    | none => exact .inr ⟨_, rfl⟩
    | some v => exact .inl ⟨a, v, hv, rfl⟩
  · exact .inr ⟨fault, bind_error ha⟩

theorem look_cases (use : NameUse) : (∃ v, Access.recorded.look use f s = (.ok v, s)) ∨
    ∃ fault, Access.recorded.look use f s = (.error fault, s) := by
  unfold Access.recorded
  dsimp only
  cases use.hops with
  | some d =>
    obtain ⟨_, v, _, h⟩ | h := getAt_cases (s := s) (f := f) d use.name.text
    · exact .inl ⟨v, h⟩
    · exact .inr h
  | none =>
    have hread : Procedure.read (ε := Fault) (fun s : Store => s.get? Store.globals use.name.text) s =
        (.ok (s.get? Store.globals use.name.text), s) := rfl
    have hget : (∃ v, Run.get Store.globals use.name s = (.ok v, s)) ∨
        ∃ fault, Run.get Store.globals use.name s = (.error fault, s) := by
      rw [Run.get, bind_ok hread]
      cases s.get? Store.globals use.name.text with
      | none => exact .inr ⟨_, rfl⟩
      | some v => exact .inl ⟨v, rfl⟩
    exact hget

end

namespace Traced

variable {H : Moment → Prop} {s : Store} {f : FrameId} {uses : List SuperUse}

theorem getAt (hs : s.Founded H) (f : FrameId) (d : Int) (name : String) :
    Traced H (fun _ => Run.getAt f d name) s
      fun s' v => s' = s ∧ ∃ a, (s.frame a).vars.get? name = some v := by
  obtain ⟨a, v, hv, h⟩ | ⟨fault, h⟩ := getAt_cases (s := s) (f := f) d name
  · refine done (fun _ => h) ⟨.refl s, hs⟩ fun u hu => ?_
    cases hu
    exact ⟨rfl, a, hv⟩
  · exact done (fun _ => h) ⟨.refl s, hs⟩ fun _ h => nomatch h

/-- Reading a name changes nothing. -/
theorem look (hs : s.Founded H) (use : NameUse) (f : FrameId) :
    Traced H (fun _ => Access.recorded.look use f) s
      fun s' v => s' = s ∧ Access.recorded.look use f s = (.ok v, s) := by
  obtain ⟨v, h⟩ | ⟨fault, h⟩ := look_cases (s := s) (f := f) use
  · refine done (fun _ => h) ⟨.refl s, hs⟩ fun u hu => ?_
    cases hu
    exact ⟨rfl, h⟩
  · exact done (fun _ => h) ⟨.refl s, hs⟩ fun _ h => nomatch h

theorem define (hs : s.Founded H) (f : FrameId) {name : String} (hname : isPlain name) (v : Value) :
    Traced H (fun _ => Run.define f name v) s fun s' _ => s' = s.define f name v :=
  change (hs.define f hname v) rfl

theorem assign (hs : s.Founded H) (f : FrameId) {name : Mark} (hname : isPlain name.text) (v : Value) :
    Traced H (fun _ => Run.assign f name v) s fun _ _ => True := by
  refine read ?_
  cases s.holder? name.text f with
  | none => exact fail hs _ _
  | some h => exact (define hs h hname v).mono fun _ _ _ => trivial

theorem store (hs : s.Founded H) {use : NameUse} (hname : isPlain use.name.text) (v : Value)
    (f : FrameId) : Traced H (fun _ => Access.recorded.store use v f) s fun _ _ => True := by
  unfold Access.recorded
  dsimp only
  cases use.hops with
  | none => exact assign hs _ hname v
  | some d =>
    show Traced H (fun _ => Run.ancestor f d >>= fun a =>
      Procedure.read (fun s => (s.frame a).vars.contains use.name.text) >>= fun b =>
        if b = true then Run.define a use.name.text v else _) s _
    obtain ⟨a, ha⟩ | ⟨fault, ha⟩ := ancestor_cases (s := s) (f := f) d
    · refine after ha ⟨.refl s, hs⟩ (read (ite (fun _ => ?_) fun _ => halt hs _))
      exact (define hs a hname v).mono fun _ _ _ => trivial
    · exact done (fun _ => bind_error ha) ⟨.refl s, hs⟩ fun _ h => nomatch h

/-! ### Operators, properties and methods -/

theorem print (hs : s.Founded H) (v : Value) :
    Traced H (fun _ => Run.print v) s fun _ _ => True :=
  read (change (hs.of_same rfl rfl rfl rfl (.of_eq rfl rfl)) trivial)

theorem unaryResult (hs : s.Founded H) (op : Mark) (v : Value) :
    Traced H (fun _ => unaryResult op v) s fun _ _ => True := by
  unfold Lox.unaryResult
  split
  · split
    · exact pure hs trivial
    · exact fail hs _ _
  · exact pure hs trivial
  · exact fail hs _ _

theorem binaryResult (hs : s.Founded H) (op : Mark) (u v : Value) :
    Traced H (fun _ => binaryResult op u v) s fun _ _ => True := by
  unfold Lox.binaryResult
  split
  · unfold joinOrAdd
    split
    · exact pure hs trivial
    · exact read (pure hs trivial)
    · exact read (pure hs trivial)
    · exact fail hs _ _
  · exact pure hs trivial
  · exact pure hs trivial
  · split
    · exact fail hs _ _
    · split
      · exact pure hs trivial
      · exact fail hs _ _

/-- A receiver's frame lies where the function does. -/
theorem receiverFrame (hs : s.Founded H) {id : FunctionId} (hid : id < s.functions.size)
    (i : InstanceId) : Traced H (fun _ => receiverFrame id (.instanceRef i)) s fun s' frame =>
      id < s'.functions.size ∧ Lies H s' frame (functionSupers (s'.function id).decl) := by
  have hl := (hs.function id).2
  have hle : s.Grows (s.binding (s.function id).frame "this" (.instanceRef i)) := Store.grows_binding
  refine done (t := s.binding (s.function id).frame "this" (.instanceRef i)) (fun _ => rfl)
    ⟨hle, hs.receiverFrame hl.lt i⟩ fun frame hframe => ?_
  cases hframe
  refine ⟨Nat.lt_of_lt_of_le hid hle.functions, ?_⟩
  rw [hle.function id hid]
  exact hs.lies_receiverFrame hl

theorem bindMethod (hs : s.Founded H) {id : FunctionId} (hid : id < s.functions.size)
    (i : InstanceId) : Traced H (fun _ => bindMethod id (.instanceRef i)) s fun _ _ => True := by
  refine (receiverFrame hs hid i).bind fun s' frame _ hs' ⟨hid', hl⟩ => ?_
  have hmade := hs'.withMethod ⟨id, frame⟩ hid' hl
  exact after rfl hmade (pure hmade.2 trivial)

theorem getProperty (hs : s.Founded H) (v : Value) (name : Mark) :
    Traced H (fun _ => getProperty v name) s fun _ _ => True := by
  cases v with
  | const _ | native _ | function _ | method _ | classRef _ => exact fail hs _ _
  | instanceRef i =>
    show Traced H (fun _ => instanceProperty i name) s _
    unfold instanceProperty
    refine read ?_
    cases (s.instanceObject i).fields.get? name.text with
    | some u => exact pure hs trivial
    | none =>
      refine read ?_
      cases hm : s.findMethod? (s.instanceObject i).cls name.text with
      | some m => exact bindMethod hs (hs.findMethod? hm) i
      | none => exact fail hs _ _

theorem superProperty (hs : s.Founded H) (use : NameUse) (name : Mark) (f : FrameId) :
    Traced H (fun _ => superProperty use name f) s fun _ _ => True := by
  unfold Lox.superProperty
  cases use.hops with
  | none => exact halt hs _
  | some d =>
    refine (getAt hs f d "super").bind fun s1 superclass _ hs1 ⟨hsame1, _⟩ => ?_
    subst hsame1
    refine (getAt hs1 f _ "this").bind fun s2 receiver _ hs2 ⟨hsame2, a, ha⟩ => read ?_
    subst hsame2
    obtain ⟨i, rfl⟩ := hs2.receiver ha
    cases hm : s2.methodOf? superclass name.text with
    | none => exact fail hs2 _ _
    | some m =>
      cases superclass with
      | classRef c => exact bindMethod hs2 (hs2.findMethod? hm) i
      | const _ | native _ | function _ | method _ | instanceRef _ => cases hm

end Traced

/-! ### Evaluations -/

/-- The evaluations further in keep the store founded. A name that is read changes nothing. -/
structure Evaluator.Traces (H : Moment → Prop) (inner : Watch → Evaluator) : Prop where
  access : ∀ W, (inner W).access = .recorded
  turns : ∃ n, ∀ W, (inner W).turns = n
  expr : ∀ {e : Expr} {f s}, e.Regular → s.Founded H → Lies H s f e.supers →
    Traced H (fun W => (inner W).expr e f) s fun _ _ => True
  name : ∀ {use : NameUse} {f s}, s.Founded H → f < s.frames.size →
    Traced H (fun W => (inner W).expr (.variable use) f) s
      fun s' v => s' = s ∧ Access.recorded.look use f s = (.ok v, s)
  stmt : ∀ {st : Stmt} {f s}, st.Regular → s.Founded H → Lies H s f st.supers →
    Traced H (fun W => (inner W).stmt st f) s fun _ _ => True
  called : ∀ {st : Stmt} {f s}, st.Regular → s.Founded H → Lies H s f st.supers →
    Traced H (fun W => (inner W).called st f) s fun _ _ => True

namespace Traced

variable {H : Moment → Prop} {inner : Watch → Evaluator} {s : Store} {f : FrameId}

theorem execBody {exec : Watch → Stmt → FrameId → Run Flow}
    (hexec : ∀ {st : Stmt} {s}, st.Regular → s.Founded H → Lies H s f st.supers →
      Traced H (fun W => exec W st f) s fun _ _ => True) :
    ∀ {body : List Stmt} {s : Store}, bodyRegular body → s.Founded H → Lies H s f (bodySupers body) →
      Traced H (fun W => execBody (exec W) body f) s fun _ _ => True
  | [], _, _, hs, _ => pure hs trivial
  | st :: body, s, hr, hs, hl => by
    refine (hexec hr.1 hs hl.left).bind fun s' flow hle hs' _ => ?_
    cases flow with
    | next => exact execBody hexec hr.2 hs' (hl.right.mono hs hle)
    | returning v => exact pure hs' trivial

theorem bindParams : ∀ {params : List Mark} {args : List Value} {s : Store}, s.Founded H →
    (∀ m ∈ params, isPlain m.text) → Traced H (fun _ => bindParams f params args) s fun _ _ => True
  | [], _, _, hs, _ | _ :: _, [], _, hs, _ => pure hs trivial
  | m :: _, v :: _, _, hs, hn =>
    (define hs f (hn m (List.mem_cons_self ..)) v).bind fun _ _ _ hs' _ =>
      bindParams hs' fun m hm => hn m (List.mem_cons_of_mem _ hm)

variable (h : Evaluator.Traces H inner)

include h

/-- A function runs in a new frame inside one that it lies in. -/
theorem invoke (hs : s.Founded H) {id : FunctionId} {outer : FrameId}
    (hl : Lies H s outer (functionSupers (s.function id).decl)) (args : List Value) :
    Traced H (fun W => invoke (inner W) id outer args) s fun _ _ => True := by
  refine read ?_
  have hr := (hs.function id).1
  have hlies := hs.lies_withFrame hl
  cases hdecl : (s.function id).decl with
  | mk name params body =>
    rw [hdecl] at hr hlies
    refine after rfl ⟨Store.Founded.grows_withFrame _, hs.withFrame hl.lt⟩ ?_
    refine (bindParams (hs.withFrame hl.lt) hr.2.1).bind fun s2 _ hle2 hs2 _ => ?_
    refine (execBody h.called hr.2.2 hs2 (hlies.mono (hs.withFrame hl.lt) hle2)).bind
      fun s3 flow _ hs3 _ => ?_
    refine ite (fun _ => (getAt hs3 _ _ _).mono fun _ _ _ => trivial) fun _ => ?_
    cases flow <;> exact pure hs3 trivial

theorem apply (hs : s.Founded H) (v : Value) (args : List Value) :
    Traced H (fun W => apply (inner W) v args) s fun _ _ => True := by
  cases v with
  | const _ | instanceRef _ => exact pure hs trivial
  | native n =>
    cases n
    have hticked : s.Grows s.ticked ∧ s.ticked.Founded H := hs.of_same rfl rfl rfl rfl (.of_eq rfl rfl)
    exact after (t := s.ticked) rfl hticked (pure hticked.2 trivial)
  | function id => exact read (invoke h hs (hs.function id).2 args)
  | method id => exact read (invoke h hs (hs.method id) args)
  | classRef c =>
    have hmade : s.Grows (s.withInstance c) ∧ (s.withInstance c).Founded H :=
      hs.of_same rfl rfl rfl rfl (.withInstance c)
    refine after (t := s.withInstance c) rfl hmade (read ?_)
    cases hm : (s.withInstance c).findMethod? c Store.initName with
    | none => exact pure hmade.2 trivial
    | some m =>
      refine (receiverFrame hmade.2 (hmade.2.findMethod? hm) _).bind fun s' frame _ hs' ⟨_, hl⟩ => ?_
      exact (invoke h hs' hl args).discard.bind fun _ _ _ hs'' _ => pure hs'' trivial

theorem callWith (hs : s.Founded H) (v : Value) (args : List Value) (place : Option Int) :
    Traced H (fun W => callWith (inner W) v args place) s fun _ _ => True := by
  refine read ?_
  cases s.arity? v with
  | none => exact fail hs _ _
  | some expected => exact ite (fun _ => apply h hs v args) fun _ => fail hs _ _

theorem evalArgs : ∀ {es : List Expr} {s : Store}, argsRegular es → s.Founded H →
    Lies H s f (argSupers es) → Traced H (fun W => evalArgs (inner W) es f) s fun _ _ => True
  | [], _, _, hs, _ => pure hs trivial
  | _ :: _, _, hr, hs, hl =>
    (h.expr hr.1 hs hl.left).bind fun _ _ hle hs' _ =>
      (evalArgs hr.2 hs' (hl.right.mono hs hle)).bind fun _ _ _ hs'' _ => pure hs'' trivial

theorem evalExpr {e : Expr} (hr : e.Regular) (hs : s.Founded H) (hl : Lies H s f e.supers) :
    Traced H (fun W => evalExpr (inner W) e f) s fun _ _ => True := by
  cases e with
  | literal value => exact pure hs trivial
  | grouping e => exact h.expr hr hs hl
  | «variable» use | receiver use =>
    show Traced H (fun W => (inner W).access.look use f) s _
    simp only [h.access]
    exact (look hs use f).mono fun _ _ _ => trivial
  | assign use value =>
    show Traced H (fun W => (inner W).expr value f >>= fun v =>
      (inner W).access.store use v f >>= fun _ => Pure.pure v) s _
    simp only [h.access]
    exact (h.expr hr.2 hs hl).bind fun _ v _ hs' _ =>
      (store hs' hr.1 v f).bind fun _ _ _ hs'' _ => pure hs'' trivial
  | unary op e => exact (h.expr (e := e) hr hs hl).bind fun _ v _ hs' _ => unaryResult hs' op v
  | binary l op r =>
    exact (h.expr hr.1 hs hl.left).bind fun _ u hle hs' _ =>
      (h.expr hr.2 hs' (hl.right.mono hs hle)).bind fun _ v _ hs'' _ => binaryResult hs'' op u v
  | logical l op r =>
    exact (h.expr hr.1 hs hl.left).bind fun _ v hle hs' _ => ite (fun _ => pure hs' trivial)
      fun _ => h.expr hr.2 hs' (hl.right.mono hs hle)
  | ternary cond yes no =>
    have hparts : Lies H s f (cond.supers ++ yes.supers) := hl.left
    exact (h.expr hr.1 hs hparts.left).bind fun _ v hle hs' _ =>
      ite (fun _ => h.expr hr.2.1 hs' (hparts.right.mono hs hle))
        fun _ => h.expr hr.2.2 hs' (hl.right.mono hs hle)
  | call callee paren args =>
    exact (h.expr hr.1 hs hl.left).bind fun _ v hle hs' _ =>
      (evalArgs h hr.2 hs' (hl.right.mono hs hle)).bind fun _ vs _ hs'' _ => callWith h hs'' v vs _
  | get e name => exact (h.expr (e := e) hr hs hl).bind fun _ v _ hs' _ => getProperty hs' v name
  | set object name value =>
    refine (h.expr hr.1 hs hl.left).bind fun s' o hle hs' _ => ?_
    cases o with
    | const _ | native _ | function _ | method _ | classRef _ => exact fail hs' _ _
    | instanceRef i =>
      refine (h.expr hr.2 hs' (hl.right.mono hs hle)).bind fun s'' v _ hs'' _ => ?_
      have hset := hs''.of_same (t := s''.setField i name.text v) rfl rfl rfl rfl (.setField ..)
      exact after rfl hset (pure hset.2 trivial)
  | superMethod use method => exact superProperty hs use method f
  | stray node => exact hr.elim

/-- To read a name is to look it up. -/
theorem readName (hs : s.Founded H) (use : NameUse) (f : FrameId) :
    Traced H (fun W => Lox.evalExpr (inner W) (.variable use) f) s
      fun s' v => s' = s ∧ Access.recorded.look use f s = (.ok v, s) := by
  show Traced H (fun W => (inner W).access.look use f) s _
  simp only [h.access]
  exact look hs use f

theorem evalOption {e : Option Expr} (hr : optionRegular e) (hs : s.Founded H)
    (hl : Lies H s f (optionSupers e)) :
    Traced H (fun W => evalOption (inner W) e f) s fun _ _ => True := by
  cases e with
  | none => exact pure hs trivial
  | some e => exact h.expr hr hs hl

theorem execLoop {cond : Expr} {body : Stmt} (hc : cond.Regular) (hb : body.Regular) :
    ∀ (turns : Nat) {s : Store}, s.Founded H → Lies H s f (cond.supers ++ body.supers) →
      Traced H (fun W => execLoop (inner W) cond body f turns) s fun _ _ => True
  | 0, _, hs, _ => halt hs _
  | turns + 1, s, hs, hl => by
    refine (h.expr hc hs hl.left).bind fun s' v hle hs' _ => ite (fun _ => ?_) fun _ => pure hs' trivial
    have hl' := hl.mono hs hle
    refine (h.stmt hb hs' hl'.right).bind fun s'' flow hle' hs'' _ => ?_
    cases flow with
    | next => exact execLoop hc hb turns hs'' (hl'.mono hs' hle')
    | returning v => exact pure hs'' trivial

/-! ### Classes -/

omit h in
/-- The functions of methods lie where they are made. -/
theorem makeMethods : ∀ {ms : List Fun} {made : Bindings FunctionId} {s : Store}, methodsRegular ms →
    s.Founded H → Lies H s f (methodSupers ms) →
      (∀ name m, made.get? name = some m → m < s.functions.size) →
        Traced H (fun _ => makeMethods f ms made) s fun s' made =>
          ∀ name m, made.get? name = some m → m < s'.functions.size
  | [], _, _, _, hs, _, hm => pure hs hm
  | m :: ms, made, s, hr, hs, hl, hm => by
    have hmade := hs.withFunction ⟨m, f, m.name.text = Store.initName⟩ hr.1 hl.left
    refine after (t := s.withFunction ⟨m, f, m.name.text = Store.initName⟩) rfl hmade
      (makeMethods hr.2 hmade.2 (hl.right.mono hs hmade.1) fun name id hid => ?_)
    have hsize : (s.withFunction ⟨m, f, m.name.text = Store.initName⟩).functions.size =
        s.functions.size + 1 := by simp [Store.withFunction]
    rw [hsize]
    rw [Bindings.get?_bind] at hid
    split at hid
    · cases hid
      exact Nat.lt_succ_self _
    · exact Nat.lt_succ_of_lt (hm name id hid)

omit h in
/-- The name of the class is bound, its methods are made in the frame for them, and then the class. -/
theorem makeClass {name : Mark} {c : Option ClassId} {ms : List Fun} (hs : s.Founded H)
    (hr : methodsRegular ms) (hl : Lies H s f (methodSupers ms)) (hname : isPlain name.text)
    {g : FrameId} : Traced H (fun _ => do
      let made ← Lox.makeMethods f ms .empty
      let c ← Run.newClass ⟨name.text, c, made⟩
      Run.assign g name (.classRef c)) s fun _ _ => True := by
  have hempty : ∀ name m, (Bindings.empty : Bindings FunctionId).get? name = some m →
      m < s.functions.size := fun name m hm => by cases hm
  refine (makeMethods hr hs hl hempty).bind fun s' made _ hs' hm => ?_
  have hmade := hs'.withClass ⟨name.text, c, made⟩ hm
  exact after rfl hmade (assign hmade.2 g hname _)

/-- A class statement makes the frame for its methods, as the moment at which it began says. -/
theorem execClass {name : Mark} {superclass : Option NameUse} {ms : List Fun}
    (hr : (Stmt.classDecl name superclass ms).Regular) (hs : s.Founded H)
    (hl : Lies H s f (Stmt.classDecl name superclass ms).supers)
    (hnow : H ⟨.stmt (.classDecl name superclass ms), f, s⟩) :
    Traced H (fun W => execClass (inner W) name superclass ms f) s fun _ _ => True := by
  cases superclass with
  | none =>
    refine after rfl ⟨.refl s, hs⟩ ?_
    refine (define hs f hr.1 _).bind fun s' _ hle hs' _ => ?_
    exact after rfl ⟨.refl s', hs'⟩ (makeClass hs' hr.2 (hl.mono hs hle) hr.1)
  | some use =>
    have huse : Traced H (fun W => some <$> evalSuperclass (inner W) use f) s fun s' found =>
        ∃ c, found = some c ∧ s' = s ∧ Access.recorded.look use f s = (.ok (.classRef c), s) := by
      have hclass : Traced H (fun W => evalSuperclass (inner W) use f) s fun s' c =>
          s' = s ∧ Access.recorded.look use f s = (.ok (.classRef c), s) := by
        refine (h.name hs hl.lt).bind fun s' v _ hs' ⟨hsame, hlook⟩ => ?_
        cases v with
        | classRef c => exact pure hs' ⟨hsame, hlook⟩
        | const _ | native _ | function _ | method _ | instanceRef _ => exact fail hs' _ _
      exact hclass.map some
    refine huse.bind fun s1 found _ _ ⟨c, hfound, hsame, hlook⟩ => ?_
    subst hfound hsame
    refine (define hs f hr.1 _).bind fun s2 _ hle2 hs2 hdefined => ?_
    -- the name of the class is bound in a frame that was there
    have hnext : s1.frames.size = s2.frames.size := by rw [hdefined]; simp [Store.define]
    obtain ⟨hframe, hlies⟩ := hs2.methodFrame (t := ⟨.stmt (.classDecl name (some use) ms), f, s1⟩)
      hnow (Nat.lt_of_lt_of_le hl.lt hle2.frames) hnext ⟨name, use, rfl, hlook⟩
    exact after rfl ⟨Store.grows_binding, hframe⟩ (makeClass hframe hr.2.2 hlies hr.1)

/-! ### Statements -/

theorem execStmt {st : Stmt} (hr : st.Regular) (hs : s.Founded H) (hl : Lies H s f st.supers)
    (hnow : H ⟨.stmt st, f, s⟩) : Traced H (fun W => execStmt (inner W) st f) s fun _ _ => True := by
  cases st with
  | expr e => exact (h.expr hr hs hl).discard.bind fun _ _ _ hs' _ => pure hs' trivial
  | print e =>
    exact (h.expr hr hs hl).bind fun _ v _ hs' _ => (print hs' v).bind fun _ _ _ hs'' _ => pure hs'' trivial
  | var name initial =>
    exact (evalOption h hr.2 hs hl).bind fun _ v _ hs' _ =>
      (define hs' f hr.1 v).bind fun _ _ _ hs'' _ => pure hs'' trivial
  | block body =>
    refine after rfl ⟨Store.Founded.grows_withFrame _, hs.withFrame hl.lt⟩ ?_
    exact execBody h.stmt hr (hs.withFrame hl.lt) (hs.lies_withFrame hl)
  | branch cond yes no =>
    cases no with
    | none =>
      exact (h.expr hr.1 hs hl.left).bind fun _ v hle hs' _ =>
        ite (fun _ => h.stmt hr.2.1 hs' (hl.right.mono hs hle)) fun _ => pure hs' trivial
    | some no =>
      have hparts : Lies H s f (cond.supers ++ yes.supers) := hl.left
      exact (h.expr hr.1 hs hparts.left).bind fun _ v hle hs' _ =>
        ite (fun _ => h.stmt hr.2.1.1 hs' (hparts.right.mono hs hle))
          fun _ => h.stmt hr.2.2.1 hs' (hl.right.mono hs hle)
  | loop cond body =>
    obtain ⟨turns, hturns⟩ := h.turns
    show Traced H (fun W => Lox.execLoop (inner W) cond body f (inner W).turns) s _
    simp only [hturns]
    exact execLoop h hr.1 hr.2.1 turns hs hl
  | function decl =>
    obtain ⟨name, params, body⟩ := decl
    have hmade := hs.withFunction ⟨⟨name, params, body⟩, f, false⟩ hr hl
    refine after rfl hmade ?_
    exact (define hmade.2 f hr.1 _).bind fun _ _ _ hs' _ => pure hs' trivial
  | giveBack keyword value =>
    exact (evalOption h hr hs hl).bind fun _ v _ hs' _ => pure hs' trivial
  | classDecl name superclass ms =>
    exact (execClass h hr hs hl hnow).bind fun _ _ _ hs' _ => pure hs' trivial
  | stray node => exact hr.elim

end Traced

/-- Evaluation keeps the store founded, however many steps are left. -/
theorem Evaluator.traces_watched {H : Moment → Prop} (turns : Nat) : ∀ steps spent,
    Evaluator.Traces H fun W => watched W .recorded turns steps spent
  | 0, _ => by
    unfold watched
    exact ⟨fun _ => rfl, ⟨turns, fun _ => rfl⟩, fun _ hs _ => .halt hs _, fun hs _ => .halt hs _,
      fun _ hs _ => .halt hs _, fun _ hs _ => .halt hs _⟩
  | steps + 1, spent + 1 => by
    unfold watched
    exact traces_watched turns steps spent
  | steps + 1, 0 => by
    have hinner := traces_watched (H := H) turns steps
    unfold watched
    refine ⟨fun _ => rfl, ⟨turns, fun _ => rfl⟩, fun hr hs hl => ?_, fun hs hf => ?_,
      fun hr hs hl => ?_, fun hr hs hl => ?_⟩ <;> dsimp only
    · exact .watch hs hl fun _ => .placed (.evalExpr (hinner _) hr hs hl) _
    · exact .watch hs (hs.lies_nil hf) fun _ => .placed (.readName (hinner _) hs _ _) _
    · exact .watch hs hl fun hnow => .placed (.execStmt (hinner _) hr hs hl hnow) _
    · exact .watch hs hl fun hnow => .placed (.execStmt (hinner _) hr hs hl hnow) _

end Lox
