/-
# Watching a run

A watch is asked before each evaluation of an expression or statement, with
the frame, and may end the run there. Evaluation with a watch follows the same
steps as without one; a watch that lets everything pass makes no difference. A
run comes to a moment if a watch that stops at this moment, and nowhere else,
ends the run there (`Lox.Comes`).

What is proved of a run from a sound world (`Lox.Holds`) is what it leaves
behind, a sound world that has grown, and that every moment it comes to is
explained in that world: the frame is the one that a visited place runs in.

Key definitions: `Lox.Watch`, `Lox.Evaluator.watched`, `Lox.Comes`, `Lox.Explained`,
`Lox.Fair`, `Lox.Holds`.
Key theorems: `Lox.Evaluator.watched_quiet`, `Lox.Holds.bind`, `Lox.Holds.watch`.
-/
import Lox.Evaluation
import Lox.Proofs.Running.Growth

namespace Lox

open Procedure

/-- What is asked before each evaluation. -/
abbrev Watch : Type := Site → FrameId → Run Unit

/-- The beginning of an evaluation. -/
structure Moment where
  site : Site
  frame : FrameId
  store : Store

/-- Everything may pass. -/
def Watch.quiet : Watch := fun _ _ => pure ()

open Classical in
/-- The run ends at one moment, in its own way. -/
noncomputable def Watch.stopAt (t : Moment) (m : Misplaced) : Watch := fun site f s =>
  if t = ⟨site, f, s⟩ then (.error (.misplaced m), s) else (.ok (), s)

/-- The run comes to the moment: whatever a watch says that stops there, it is how the run ends. -/
def Comes {α : Type} (run : Watch → Run α) (s : Store) (t : Moment) : Prop :=
  ∀ m, run (.stopAt t m) s = (.error (.misplaced m), t.store)

/-- Evaluation with a watch, with so many steps left, of which some are spent on the way in. -/
def Evaluator.watched (watch : Watch) (access : Access) (turns : Nat) : Nat → Nat → Evaluator
  | 0, _ =>
    { access, turns
      expr := fun _ _ => halt .overflow
      stmt := fun _ _ => halt .overflow
      called := fun _ _ => halt .overflow }
  | steps + 1, spent + 1 => watched watch access turns steps spent
  | steps + 1, 0 =>
    { access, turns
      expr := fun e f => do
        watch (.expr e) f
        Run.placed (fun _ => e.offset?) (evalExpr (watched watch access turns steps e.stepsIn) e f)
      stmt := fun s f => do
        watch (.stmt s) f
        Run.placed (fun _ => s.offset?) (execStmt (watched watch access turns steps s.stepsIn) s f)
      called := fun s f => do
        watch (.stmt s) f
        Run.placed (fun _ => s.offset?)
          (execStmt (watched watch access turns steps (callSteps + s.stepsIn)) s f) }

/-- To watch a run is not to change it. -/
theorem Evaluator.watched_quiet (access : Access) (turns : Nat) : ∀ steps spent,
    watched .quiet access turns steps spent = within access turns steps spent
  | 0, _ => by
    unfold watched within
    rfl
  | steps + 1, spent + 1 => by
    unfold watched within
    exact watched_quiet access turns steps spent
  | steps + 1, 0 => by
    unfold watched within
    simp only [watched_quiet access turns steps]
    rfl

theorem placed_ok {α : Type} {p : Run α} {offset : Unit → Option Int} {s s' : Store} {a : α}
    (h : p s = (.ok a, s')) : Run.placed offset p s = (.ok a, s') := by
  show mapHalt _ _ _ = _
  rw [mapHalt, h]

/-- What ends well ends so without the place that its faults get. -/
theorem of_placed_ok {α : Type} {p : Run α} {offset : Unit → Option Int} {a : α} {s s' : Store}
    (h : Run.placed offset p s = (.ok a, s')) : p s = (.ok a, s') := by
  unfold Run.placed mapHalt at h
  rcases hp : p s with ⟨e | b, s₁⟩ <;> rw [hp] at h <;> cases h
  rfl

/-- A fault that takes no place stays as it is. -/
theorem placed_error {α : Type} {p : Run α} {offset : Unit → Option Int} {s s' : Store}
    {fault : Fault} (hf : fault.isUnplaced = false) (h : p s = (.error fault, s')) :
    Run.placed offset p s = (.error fault, s') := by
  show mapHalt _ _ _ = _
  rw [mapHalt, h]
  dsimp only
  rw [hf]
  rfl

theorem placed_misplaced {α : Type} {p : Run α} {offset : Unit → Option Int} {s s' : Store}
    {m : Misplaced} (h : p s = (.error (.misplaced m), s')) :
    Run.placed offset p s = (.error (.misplaced m), s') :=
  placed_error rfl h

/-! ### Steps -/

namespace Evaluator

/-- Steps that are spent on the way in are not left. -/
theorem within_drop (access : Access) (turns : Nat) : ∀ steps spent,
    within access turns steps spent = within access turns (steps - spent) 0
  | 0, spent => by
    rw [Nat.zero_sub]
    unfold within
    rfl
  | steps + 1, 0 => rfl
  | steps + 1, spent + 1 => by
    rw [Nat.succ_sub_succ, within]
    exact within_drop access turns steps spent

theorem within_access (access : Access) (turns : Nat) : ∀ steps spent,
    (within access turns steps spent).access = access
  | 0, _ => by
    unfold within
    rfl
  | steps + 1, 0 => rfl
  | steps + 1, spent + 1 => by
    rw [within]
    exact within_access access turns steps spent

theorem turns_within (access : Access) (turns : Nat) : ∀ steps spent,
    (within access turns steps spent).turns = turns
  | 0, _ | _ + 1, 0 => by
    unfold within
    rfl
  | steps + 1, spent + 1 => by
    unfold within
    exact turns_within access turns steps spent

/-- An evaluation that comes to a value had steps left for its parts. -/
theorem exists_of_expr {access : Access} {turns : Nat} {e : Expr} {f : FrameId} {v : Value}
    {s s' : Store} : ∀ steps spent, (within access turns steps spent).expr e f s = (.ok v, s') →
      ∃ n, evalExpr (within access turns n e.stepsIn) e f s = (.ok v, s')
  | 0, _, h => by
    unfold within at h
    cases h
  | steps + 1, spent + 1, h => by
    unfold within at h
    exact exists_of_expr steps spent h
  | steps + 1, 0, h => by
    unfold within at h
    dsimp only at h
    exact ⟨steps, of_placed_ok h⟩

end Evaluator

/-! ### What is proved of a run -/

variable {P : Visit → Prop} {free : Option FrameId} {w w' : World} {α β : Type}

/-- The store of the moment is sound, and the frame is the one that a visited place runs in, with this
site for what is made of it. -/
def Explained (P : Visit → Prop) (w : World) (t : Moment) : Prop :=
  (t.store.frames.size ≤ w.store.frames.size ∧ Sound P ⟨w.labels, t.store⟩) ∧
    ∃ v, P v ∧ v.resolved? = some t.site ∧ Runs ⟨w.labels, t.store⟩ v t.frame

/-- The variable is assigned and is not bound in the frame out to which it is recorded. -/
def Moment.Premature (t : Moment) (name : String) : Prop :=
  ∃ use value d a, t.site = .expr (.assign use value) ∧ use.name.text = name ∧ use.hops = some d ∧
    t.store.ancestor? d t.frame = some a ∧ ¬ t.store.Binds a name

/-- A local variable is assigned in its own initializer. -/
def AssignsItself (P : Visit → Prop) (name : String) : Prop :=
  ∃ σ os m e, P ⟨.stmt (.var m (some e)), σ, os⟩ ∧ os ≠ [] ∧ m.text = name ∧
    ∃ u ∈ e.occurrences, u.kind = .assign ∧ u.use.name.text = name

/-- The fault is one that a checked program may end with: of those that no report is made of, only
that a loop takes too many turns, or that a variable which is assigned in its own initializer is not
bound there. -/
def Fair (P : Visit → Prop) : Fault → Prop
  | .error _ | .overflow | .exhausted => True
  | .diverged d => ∃ name, d = .unbound name 0 ∧ AssignsItself P name
  | .misplaced _ => False

/-- How a run may end. -/
def Ends (P : Visit → Prop) (Q : World → α → Prop) (w : World) : Except Fault α → Prop
  | .ok a => Q w a
  | .error fault => Fair P fault

/-- The watch lets explained moments pass; if the run ends well, only those must pass at which
nothing is assigned too early. -/
def Heeds (P : Visit → Prop) (w : World) (well : Bool) (watch : Watch) : Prop :=
  ∀ t, Explained P w t → (well = true → ∀ name, ¬ t.Premature name) →
    watch t.site t.frame t.store = (.ok (), t.store)

/-- If the run ends since a variable is not bound, then it came to a moment at which that is assigned
too early. -/
def Foretold (run : Watch → Run α) (s : Store) (r : Except Fault α) : Prop :=
  ∀ name d, r = .error (.diverged (.unbound name d)) → ∃ t, t.Premature name ∧ Comes run s t

/-- From the world the run leads to a sound one that has grown; it ends there with the result in
question, or in a fair fault, which is foretold; and watches that let explained moments pass make no
difference. -/
def Holds (P : Visit → Prop) (free : Option FrameId) (w : World) (run : Watch → Run α)
    (Q : World → α → Prop) : Prop :=
  ∃ w' r, w.Le free w' ∧ Sound P w' ∧ Ends P Q w' r ∧ Foretold run w.store r ∧
    ∀ watch, Heeds P w' r.isOk watch → run watch w.store = (r, w'.store)

theorem Explained.mono {t : Moment} (h : Explained P w t) (hle : w.Le free w') :
    Explained P w' t := by
  obtain ⟨⟨hsize, hsound⟩, v, hP, hv, hm⟩ := h
  have hlabels : ∀ f < (World.mk w.labels t.store).store.frames.size, w'.labels f = w.labels f :=
    fun f hf => hle.labels f (Nat.lt_of_lt_of_le hf hsize)
  exact ⟨⟨Nat.le_trans hsize hle.frames, hsound.relabel hlabels⟩, v, hP, hv, hm.relabel hlabels⟩

theorem Heeds.earlier {well : Bool} {watch : Watch} (h : Heeds P w' well watch)
    (hle : w.Le free w') : Heeds P w true watch :=
  fun t ht hearly => h t (ht.mono hle) fun _ => hearly rfl

theorem Heeds.quiet {well : Bool} : Heeds P w well .quiet := fun _ _ _ => rfl

/-- A watch that stops at one moment only lets all explained ones pass, if that is not explained. -/
theorem Heeds.stopAt {well : Bool} {t : Moment} (h : ¬ (Explained P w t ∧
    (well = true → ∀ name, ¬ t.Premature name))) (m : Misplaced) :
    Heeds P w well (.stopAt t m) := by
  intro t' hexplained hearly
  refine if_neg fun heq => h ?_
  subst heq
  exact ⟨hexplained, hearly⟩

theorem Heeds.stopAt_premature {t : Moment} {name : String} (h : t.Premature name) (m : Misplaced) :
    Heeds P w true (.stopAt t m) :=
  .stopAt (fun hn => hn.2 rfl name h) m

namespace Foretold

theorem ok {run : Watch → Run α} {s : Store} (a : α) : Foretold run s (.ok a) := fun _ _ h => nomatch h

theorem error {run : Watch → Run α} {s : Store} {fault : Fault} (h : ∀ d, fault ≠ .diverged d) :
    Foretold run s (.error fault) := by
  intro name d heq
  cases heq
  exact absurd rfl (h _)

/-- What comes to the same moments. -/
theorem mono {run : Watch → Run α} {run' : Watch → Run β} {s s' : Store} {r : Except Fault α}
    {r' : Except Fault β} (h : Foretold run s r)
    (hr : ∀ d, r' = .error (.diverged d) → r = .error (.diverged d))
    (hcomes : ∀ t, Comes run s t → Comes run' s' t) : Foretold run' s' r' := by
  intro name d heq
  obtain ⟨t, ht, hc⟩ := h name d (hr _ heq)
  exact ⟨t, ht, hcomes t hc⟩

end Foretold

/-- The run comes at once to the moment at which it is watched. -/
theorem comes_watch {run : Watch → Run α} {site : Site} {f : FrameId} {s : Store} :
    Comes (fun watch => do watch site f; run watch) s ⟨site, f, s⟩ :=
  fun _ => bind_error (if_pos rfl)

theorem Comes.watch {run : Watch → Run α} {site : Site} {f : FrameId} {s : Store} {t : Moment}
    (h : Comes run s t) : Comes (fun watch => do watch site f; run watch) s t := by
  by_cases heq : t = ⟨site, f, s⟩
  · subst heq
    exact comes_watch
  · intro m
    have hpass : Watch.stopAt t m site f s = (.ok (), s) := if_neg heq
    exact (bind_ok hpass).trans (h m)

theorem Comes.placed {run : Watch → Run α} {offset : Unit → Option Int} {s : Store} {t : Moment}
    (h : Comes run s t) : Comes (fun watch => Run.placed offset (run watch)) s t :=
  fun m => placed_misplaced (h m)

namespace Holds

variable {run : Watch → Run α} {Q R : World → α → Prop}

theorem mono (h : Holds P free w run Q)
    (hq : ∀ w' a, w.Le free w' → Sound P w' → Q w' a → R w' a) : Holds P free w run R := by
  obtain ⟨w', r, hle, hs, hr, hrun⟩ := h
  refine ⟨w', r, hle, hs, ?_, hrun⟩
  cases r with
  | ok a => exact hq w' a hle hs hr
  | error fault => exact hr

theorem loosen (h : Holds P none w run Q) : Holds P free w run Q := by
  obtain ⟨w', r, hle, hs⟩ := h
  exact ⟨w', r, hle.loosen, hs⟩

/-- A step that is not watched. -/
theorem step {p : Run α} {a : α} (hp : p w.store = (.ok a, w'.store)) (hle : w.Le free w')
    (hs : Sound P w') (hq : Q w' a) : Holds P free w (fun _ => p) Q :=
  ⟨w', .ok a, hle, hs, hq, .ok a, fun _ _ => hp⟩

theorem pure (hs : Sound P w) {a : α} (hq : Q w a) :
    Holds P free w (fun _ => (Pure.pure a : Run α)) Q :=
  step rfl (.refl free w) hs hq

theorem halt (hs : Sound P w) {fault : Fault} (hf : Fair P fault) (hd : ∀ d, fault ≠ .diverged d) :
    Holds P free w (fun _ => (Procedure.halt fault : Run α)) Q :=
  ⟨w, .error fault, .refl free w, hs, hf, .error hd, fun _ _ => rfl⟩

/-- One run after the other. -/
theorem bind {next : Watch → α → Run β} {S : World → β → Prop} (h : Holds P free w run Q)
    (hnext : ∀ w' a, w.Le free w' → Sound P w' → Q w' a →
      Holds P free w' (fun watch => next watch a) S) :
    Holds P free w (fun watch => run watch >>= next watch) S := by
  obtain ⟨w', r, hle, hs, hr, hf, hrun⟩ := h
  cases r with
  | error fault =>
    refine ⟨w', .error fault, hle, hs, hr, ?_, fun watch hw => bind_error (hrun watch hw)⟩
    refine hf.mono (fun d heq => ?_) fun t ht m => bind_error (ht m)
    cases heq
    rfl
  | ok a =>
    obtain ⟨w'', r', hle', hs', hr', hf', hrun'⟩ := hnext w' a hle hs hr
    refine ⟨w'', r', hle.trans hle', hs', hr', fun name d heq => ?_, fun watch hw => ?_⟩
    · -- a run that ends well comes to no moment at which a variable is assigned too early
      obtain ⟨t, ht, hcomes⟩ := hf' name d heq
      exact ⟨t, ht, fun m => (bind_ok (hrun _ (.stopAt_premature ht m))).trans (hcomes m)⟩
    · exact (bind_ok (hrun watch (hw.earlier hle'))).trans (hrun' watch hw)

theorem discard (h : Holds P free w run Q) :
    Holds P free w (fun watch => discard (run watch)) fun w' _ => ∃ a, Q w' a :=
  have hbind : Holds P free w (fun watch => run watch >>= fun _ => Pure.pure ())
      fun w' _ => ∃ a, Q w' a := bind h fun _ a _ hs hq => pure hs ⟨a, hq⟩
  hbind

theorem map (h : Holds P free w run Q) (g : α → β) :
    Holds P free w (fun watch => g <$> run watch) fun w' b => ∃ a, b = g a ∧ Q w' a :=
  have hbind : Holds P free w (fun watch => run watch >>= fun a => Pure.pure (g a))
      fun w' b => ∃ a, b = g a ∧ Q w' a := bind h fun _ a _ hs hq => pure hs ⟨a, rfl, hq⟩
  hbind

/-- What the store tells. -/
theorem read {γ : Type} {f : Store → γ} {next : Watch → γ → Run α}
    (h : Holds P free w (fun watch => next watch (f w.store)) Q) :
    Holds P free w (fun watch => Procedure.read f >>= next watch) Q := h

/-- A run in a frame that was not there before. -/
theorem close {f : FrameId} (hle : w.Le none w') (hf : w.store.frames.size ≤ f)
    {run' : Watch → Run α} (heq : ∀ watch, run watch w.store = run' watch w'.store)
    (h : Holds P (some f) w' run' Q) : Holds P none w run Q := by
  obtain ⟨w'', r, hle', hs, hr, hforetold, hrun⟩ := h
  exact ⟨w'', r, hle.close hf hle', hs, hr,
    hforetold.mono (fun _ h => h) fun t ht m => (heq _).trans (ht m),
    fun watch hw => (heq watch).trans (hrun watch hw)⟩

/-- What follows a new frame runs in it. -/
theorem newFrame {parent : FrameId} (o : Opener) {next : Watch → FrameId → Run α}
    (h : Holds P (some w.store.frames.size) (w.withFrame parent o)
      (fun watch => next watch w.store.frames.size) Q) :
    Holds P none w (fun watch => Run.newFrame (some parent) >>= next watch) Q :=
  close (World.le_withFrame parent o) (Nat.le_refl _) (fun _ => rfl) h

/-- A place is given to an error without one. -/
theorem placed {offset : Unit → Option Int} (h : Holds P free w run Q) :
    Holds P free w (fun watch => Run.placed offset (run watch)) Q := by
  obtain ⟨w', r, hle, hs, hr, hf, hrun⟩ := h
  cases r with
  | ok a =>
    refine ⟨w', .ok a, hle, hs, hr, .ok a, fun watch hw => ?_⟩
    show mapHalt _ _ _ = _
    rw [mapHalt, hrun watch hw]
  | error fault =>
    refine ⟨w', .error (if fault.isUnplaced then fault.attach (offset ()) else fault), hle, hs, ?_,
      hf.mono (fun d heq => ?_) fun _ ht => ht.placed, fun watch hw => ?_⟩
    · show Fair P _
      split
      · cases fault with
        | error _ | overflow | exhausted => trivial
        | diverged _ | misplaced _ => exact hr
      · exact hr
    · cases fault with
      | error e =>
        split at heq <;> cases heq
      | overflow | exhausted | misplaced _ => cases heq
      | diverged d' => exact heq
    · show mapHalt _ _ _ = _
      rw [mapHalt, hrun watch hw]

/-- An evaluation that is watched at an explained moment. -/
theorem watch {site : Site} {f : FrameId} (ht : Explained P w ⟨site, f, w.store⟩)
    (h : Holds P free w run fun w' a =>
      Q w' a ∧ ∀ name, ¬ (Moment.mk site f w.store).Premature name) :
    Holds P free w (fun watch => do watch site f; run watch) Q := by
  obtain ⟨w', r, hle, hs, hr, hf, hrun⟩ := h
  refine ⟨w', r, hle, hs, ?_, hf.mono (fun _ h => h) fun _ ht => ht.watch, fun watch hw => ?_⟩
  · cases r with
    | ok a => exact hr.1
    | error fault => exact hr
  · have hpass : watch site f w.store = (.ok (), w.store) := by
      refine hw _ (ht.mono hle) fun hwell => ?_
      cases r with
      | ok a => exact hr.2
      | error fault => cases hwell
    exact (bind_ok hpass).trans (hrun watch hw)

end Holds

end Lox
