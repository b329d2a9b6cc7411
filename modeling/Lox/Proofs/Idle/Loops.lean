/-
# The tree of a for-loop means the loop

The tree that stands for a for-loop opens a scope of its own only for an
initializer, and puts the increment behind the body in a block. The loop as it
is meant opens one scope always, and no other. Both are the same run without
some of its idle frames: that of the tree with a block around it
(`Lox.ForLoop.tracks_stmt`, `Lox.ForLoop.tracks_inFrame`). What the two leave
differs in idle frames only (`Lox.Store.Alike`), and they end alike, since a
checked program never fails to find a name further out than in the frame
itself.

This holds in every sound store (`Lox.ForLoop.agrees`), and so at every moment
of a session at which the tree is executed.

Key definitions: `Lox.Store.Alike`, `Lox.Evaluator.executing`, `Lox.ForLoop.Agrees`.
Key theorems: `Lox.ForLoop.agrees`, `Lox.for_loop_runs_as_meant`.
-/
import Lox.Proofs.Dispatch.Dispatching
import Lox.Proofs.Idle.Rounds

namespace Lox

open Procedure

/-! ### Stores that are closed -/

namespace Store

variable {s : Store}

theorem Closed.withFrame (hc : s.Closed) {p : FrameId} (hp : p < s.frames.size) :
    (s.withFrame (some p)).Closed := by
  have hsize : (s.withFrame (some p)).frames.size = s.frames.size + 1 := Array.size_push ..
  intro f hf q hq
  rw [hsize] at hf ⊢
  rw [frame_withFrame] at hq
  split at hq
  · cases hq
    exact Nat.lt_succ_of_lt hp
  · rename_i hne
    exact Nat.lt_succ_of_lt (hc f (Nat.lt_of_le_of_ne (Nat.le_of_lt_succ hf) hne) q hq)

theorem Founded.closed {H : Moment → Prop} (hs : s.Founded H) : s.Closed :=
  fun f hf => (hs.frames f hf).parent

end Store

namespace Paring

variable {s : Store} {w : Paring} {f : FrameId}

theorem whole_withFrame (s : Store) (p : FrameId) :
    (whole s).withFrame p = whole (s.withFrame (some p)) := by
  have himage : (fun f => if f = s.frames.size then s.frames.size else f) = id := by
    funext f
    split
    · rename_i heq
      exact heq.symm
    · rfl
  unfold withFrame whole
  dsimp only
  simp only [ite_self, himage, id]

/-- A frame that was there from the start stays the same in both stores. -/
theorem frame_of_whole (hle : (whole s).Le w) (hw : Pared w) (hc : s.Closed)
    (hf : f < s.frames.size) : w.right.frame f = w.left.frame f := by
  have hfixed : ∀ g < s.frames.size, w.image g = g := hle.image
  have hkept := hw.kept f (Nat.lt_of_lt_of_le hf hle.frames) (hle.idle f hf)
  have hparent : (w.left.frame f).parent = (s.frame f).parent := hle.parent f hf
  rw [hfixed f hf] at hkept
  rw [hkept, hparent]
  cases hp : (s.frame f).parent with
  | none =>
    rw [hp] at hparent
    exact congrArg (Frame.mk · _) hparent.symm
  | some p =>
    rw [hp] at hparent
    rw [Option.map_some, hfixed p (hc f hf p hp)]
    exact congrArg (Frame.mk · _) hparent.symm

end Paring

/-! ### Stores that are alike -/

/-- Both stores have grown from the first one, and but for idle frames they are the same: they are one
store without some of its idle frames. The frames that were there are the same ones in both, and so is
what is neither frame, function nor bound method. -/
structure Store.Alike (first s s' : Store) : Prop where
  folded : ∃ w w' : Paring, ((Paring.whole first).Le w ∧ Pared w ∧ w.right = s) ∧
    ((Paring.whole first).Le w' ∧ Pared w' ∧ w'.right = s') ∧ w'.left = w.left
  rest : s' = { s with frames := s'.frames, functions := s'.functions, methods := s'.methods }
  frame : ∀ f < first.frames.size, s'.frame f = s.frame f

namespace Store.Alike

variable {first s s' : Store}

theorem of_pared {w w' : Paring} (hc : first.Closed) (hle : (Paring.whole first).Le w)
    (hle' : (Paring.whole first).Le w') (hw : Pared w) (hw' : Pared w') (heq : w'.left = w.left) :
    first.Alike w.right w'.right where
  folded := ⟨w, w', ⟨hle, hw, rfl⟩, ⟨hle', hw', rfl⟩, heq⟩
  rest := by
    have hrest := hw'.rest
    rw [heq] at hrest
    rw [hrest, hw.rest]
  frame f hf := by
    rw [Paring.frame_of_whole hle hw hc hf, Paring.frame_of_whole hle' hw' hc hf, heq]

theorem output (h : first.Alike s s') : s'.output = s.output := by
  rw [h.rest]

end Store.Alike

/-! ### Faults of checked programs -/

/-- A checked program does not find a name only in the frame itself, and so the fault is the same. -/
theorem Fault.Sheds.eq_of_fair {P : Visit → Prop} {fault fault' : Fault} (h : fault.Sheds fault')
    (hf : Fair P fault) : fault' = fault := by
  cases h with
  | same _ => rfl
  | noFrame d d' =>
    obtain ⟨_, heq, _⟩ := hf
    cases heq
  | unbound name hzero =>
    obtain ⟨_, heq, _⟩ := hf
    cases heq
    rw [hzero rfl]

/-- Two faults that are one but for a distance are the same or both tell of one. -/
theorem Fault.Sheds.both {fault fault₁ fault₂ : Fault} (h : fault.Sheds fault₁)
    (h' : fault.Sheds fault₂) :
    fault₂ = fault₁ ∨ ∃ d d', fault₁ = .diverged d ∧ fault₂ = .diverged d' := by
  cases h with
  | same _ =>
    cases h' with
    | same _ => exact .inl rfl
    | noFrame _ _ | unbound _ _ => exact .inr ⟨_, _, rfl, rfl⟩
  | noFrame _ _ | unbound _ _ =>
    cases h' <;> exact .inr ⟨_, _, rfl, rfl⟩

theorem Paring.Outcomes.eq_of_fair {P : Visit → Prop} {Q : World → Flow → Prop} {u : World}
    {w : Paring} {r r' : Except Fault Flow} (h : w.Outcomes Paring.Ends r r')
    (hr : Lox.Ends P Q u r) :
    r' = r := by
  cases h with
  | ok hends => cases hends <;> rfl
  | error hsheds => rw [hsheds.eq_of_fair hr]

/-! ### The tree of a loop -/

/-- The execution of a statement with so many steps left, when some are spent on the way to it. -/
def Evaluator.executing (turns steps spent : Nat) (s : Stmt) (f : FrameId) : Run Flow :=
  Run.placed (fun _ => s.offset?) (execStmt (within .recorded turns steps (spent + s.stepsIn)) s f)

/-- So a statement of a program or of a block is executed. -/
theorem Evaluator.stmt_within (turns steps : Nat) (s : Stmt) (f : FrameId) :
    (within .recorded turns (steps + 1) 0).stmt s f = executing turns steps 0 s f := by
  rw [executing, Nat.zero_add]
  rfl

/-- Programs do not tell stores that are alike from each other. A statement that stands where the
frame does ends alike in both, but for the distance at which a name is not found; and it leaves them
alike. -/
theorem Store.Alike.executing {first s s' : Store} (h : first.Alike s s') (hc : first.Closed)
    {labels : FrameId → Opener} (hs : Framed ⟨labels, first⟩) {σ : Scoping} {os : List Opener}
    {f : FrameId} (hm : Mirrors ⟨labels, first⟩ σ.scopes os f) {st : Stmt}
    (hv : Visit.Tidy ⟨.stmt st, σ, os⟩) (turns steps spent : Nat) :
    let after := Evaluator.executing turns steps spent (σ.boundStmt st) f s
    let after' := Evaluator.executing turns steps spent (σ.boundStmt st) f s'
    first.Alike after.2 after'.2 ∧ (after'.1 = after.1 ∨
      ∃ d d', after.1 = .error (.diverged d) ∧ after'.1 = .error (.diverged d')) := by
  intro after after'
  have hf : (Paring.whole first).Fits (List.replicate σ.scopes.length false) f :=
    Paring.fits_whole hs hm
  have hsheds := Stmt.sheds_bound hv (.inl (busy_replicate _ 0)) (.refl σ)
  have tracks : ∀ {w : Paring}, (Paring.whole first).Le w → Pared w →
      Run.Tracks w (Evaluator.executing turns steps spent (σ.boundStmt st) f)
        (Evaluator.executing turns steps spent (σ.boundStmt st) f) Paring.Ends := fun {w} hle hw => by
    have htracks := (Run.Tracks.execStmt (Evaluator.tracks_within turns steps
      (spent + (σ.boundStmt st).stepsIn)) hw hsheds (hf.mono hle)).placed
        (fun _ => (σ.boundStmt st).offset?) (fun _ => (σ.boundStmt st).offset?)
    rwa [hle.image f hf.lt] at htracks
  obtain ⟨w, w', ⟨hle, hw, rfl⟩, ⟨hle', hw', rfl⟩, heq⟩ := h.folded
  obtain ⟨w₁, r, r₁, hrun, hafter, hle₁, hw₁, hout⟩ := tracks hle hw
  obtain ⟨w₁', r', r₁', hrun', hafter', hle₁', hw₁', hout'⟩ := tracks hle' hw'
  rw [heq] at hrun'
  obtain ⟨rfl, hleft⟩ := Prod.mk.inj (hrun.symm.trans hrun')
  have hafter : after = (r₁, w₁.right) := hafter
  have hafter' : after' = (r₁', w₁'.right) := hafter'
  rw [hafter, hafter']
  refine ⟨.of_pared hc (hle.trans hle₁) (hle'.trans hle₁') hw₁ hw₁' hleft.symm, ?_⟩
  cases hout with
  | ok hflow =>
    cases hout' with
    | ok hflow' => cases hflow <;> cases hflow' <;> exact .inl rfl
  | error hsheds =>
    cases hout' with
    | error hsheds' => exact (hsheds.both hsheds').imp (congrArg Except.error) fun
      | ⟨d, d', hd, hd'⟩ => ⟨d, d', congrArg Except.error hd, congrArg Except.error hd'⟩

namespace ForLoop

variable {l : ForLoop} {P : Visit → Prop} {σ : Scoping} {os : List Opener} {f : FrameId}

/-- The steps that are left for the initializer. Without one the tree is a step nearer to the
condition. -/
def stepsLeft (l : ForLoop) (steps spent : Nat) : Nat :=
  if l.initializer.isSome then steps - (spent + 2) else steps - spent + 1

theorem whole_of_some {s : Stmt} (hi : l.initializer = some s) : l.whole = l.stmt := by
  rw [whole, inScope, hi, l.stmt_of_some hi]
  rfl

theorem whole_of_none (hi : l.initializer = none) : l.whole = .block [l.stmt] := by
  rw [whole, inScope, hi, l.stmt_of_none hi]
  rfl

/-- A block around the tree is as tidy as the tree. -/
theorem tidy_whole (hv : Visit.Tidy ⟨.stmt l.stmt, σ, os⟩) (hs : σ.Settled os) :
    Visit.Tidy ⟨.stmt l.whole, σ, os⟩ := by
  cases hi : l.initializer with
  | some s => rwa [whole_of_some hi]
  | none =>
    rw [whole_of_none hi]
    have hsheds := (Scoping.Sheds.idle hs).behindStmt l.stmt hv.regular (.inr l.declared?_stmt)
    refine ⟨⟨⟨hv.regular, trivial⟩, hsheds.silent_iff.mp hv.silent⟩, fun m hm => ?_⟩
    exact hv.placed m (by simpa [Construct.marks] using hm)

theorem standing_whole (hv : Visit.Standing P ⟨.stmt l.stmt, σ, os⟩) :
    Visit.Standing P ⟨.stmt l.whole, σ, os⟩ := Visit.standing_stmt hv rfl rfl

/-- The tree runs as it does with a block for the scope of the loop. -/
theorem tracks_stmt {w : Paring} (hv : Visit.Tidy ⟨.stmt l.stmt, σ, os⟩)
    (hs : σ.Settled os) (hw : Pared w) (hf : w.Fits (List.replicate σ.scopes.length false) f)
    (turns steps spent : Nat) :
    Run.Tracks w
      (execStmt (Evaluator.within .recorded turns (l.stepsLeft steps spent) 0) (σ.boundStmt l.whole)
        f)
      (Evaluator.executing turns steps spent (σ.boundStmt l.stmt) (w.image f)) Paring.Ends := by
  cases hi : l.initializer with
  | some s =>
    have hleft : Evaluator.within .recorded turns steps (spent + 2) =
        Evaluator.within .recorded turns (l.stepsLeft steps spent) 0 := by
      rw [stepsLeft, hi]
      exact Evaluator.within_drop ..
    have hsteps : (σ.boundStmt l.stmt).stepsIn = 2 := by
      rw [l.stmt_of_some hi]
      rfl
    rw [whole_of_some hi, Evaluator.executing, hsteps, hleft]
    exact .placedRight _ (.execStmt (Evaluator.tracks_within ..) hw
      (Stmt.sheds_bound hv (.inr l.declared?_stmt) (.refl σ)) hf)
  | none =>
    have hleft : l.stepsLeft steps spent = steps - spent + 1 := by
      rw [stepsLeft, hi]
      rfl
    have hspent : Evaluator.within .recorded turns steps (spent + 1) =
        Evaluator.within .recorded turns (steps - spent) 1 := by
      rw [Evaluator.within_drop, Evaluator.within_drop _ _ (steps - spent), Nat.sub_sub]
    have hsteps : ∀ τ : Scoping, (τ.boundStmt l.stmt).stepsIn = 1 := fun τ => by
      rw [l.stmt_of_none hi]
      rfl
    have hwhole := tidy_whole hv hs
    rw [whole_of_none hi] at hwhole ⊢
    have hplace := (hwhole.part (List.mem_singleton_self _)).part (List.mem_cons_self ..)
    have hsheds := Stmt.sheds_bound hplace (.inr l.declared?_stmt) (Scoping.Sheds.idle hs)
    rw [hleft, Evaluator.executing, hsteps, hspent]
    refine .placedRight _ (.idleFrame hw hf fun w₁ g _ hw₁ hg himage => ?_)
    show Run.Tracks w₁ (execBody _ [(σ.enter []).boundStmt l.stmt] g) _ _
    rw [execBody_singleton, ← himage, Evaluator.stmt_within, Evaluator.executing, hsteps,
      Nat.zero_add]
    exact .placedLeft _ (.execStmt (Evaluator.tracks_within ..) hw₁ hsheds hg)

/-- In the frame of the loop, the run that the other two are without idle frames ends fairly; and it
binds no new name in a frame that was there. -/
theorem runs_inScope {w : World} (hst : Stock P) (hP : P ⟨.stmt l.whole, σ, os⟩) (hs : Sound P w)
    (hm : Mirrors w σ.scopes os f) (turns n : Nat) :
    ∃ w' r, Lox.execBody (Evaluator.within .recorded turns n 0).stmt
        ((σ.enter []).boundBody l.inScope) w.store.frames.size (w.store.withFrame (some f)) =
          (r, w'.store) ∧
      (w.withFrame f l.opener).Le (some w.store.frames.size) w' ∧ Sound P w' ∧
      Ends P (fun w' flow => ∀ v, flow = .returning v → Known P w' v) w' r := by
  have hk := keeps_watched hst turns n 0
  have hPbody : P ⟨.body l.inScope, σ.enter [], l.opener :: os⟩ :=
    hst.part hP (List.mem_singleton_self _)
  obtain ⟨w', r, hle, hs', hr, -, hrun⟩ := Holds.execBody hst (fun hP hs hm => hk.stmt hP hs hm)
    hPbody (hs.withFrame f l.opener) (Matches.enter hs.toFramed hm l.opener)
  have hquiet := hrun .quiet .quiet
  dsimp only at hquiet
  rw [Evaluator.watched_quiet] at hquiet
  exact ⟨w', r, hquiet, hle, hs', hr⟩

theorem names_opener (l : ForLoop) : l.opener.names = declaredNames l.initializer.toList := by
  show List.filterMap _ (l.initializer.toList ++ [_]) = _
  rw [List.filterMap_append]
  exact List.append_nil _

/-- In the end the frame of the loop binds no names but those of the initializer. -/
theorem bound_by_initializer {w w' : World} (hs : Framed w)
    (hle : (w.withFrame f l.opener).Le (some w.store.frames.size) w') (hs' : Framed w')
    {name : String} (h : w'.store.Binds w.store.frames.size name) : name ∈ declaredNames l.initializer.toList := by
  have hsize : w.store.frames.size < (w.withFrame f l.opener).store.frames.size := by
    simp [World.withFrame, Store.withFrame]
  have hlabel : w'.labels w.store.frames.size = l.opener := (hle.labels _ hsize).trans (if_pos rfl)
  have hname := hs'.confined _ (Nat.lt_of_lt_of_le hsize hle.frames) (Nat.ne_of_gt hs.root) name h
  rwa [hlabel, names_opener] at hname

/-- From the store the tree of the loop and the loop itself run alike: they end alike, and leave
stores that are alike. Frames that were there bind no new names, and the frame of the loop binds none
but those of the initializer. -/
structure Agrees (l : ForLoop) (s : Store) (tree loop : Except Fault Flow × Store) : Prop where
  outcome : loop.1 = tree.1
  stores : s.Alike tree.2 loop.2
  outside : ∀ g < s.frames.size, ∀ name, tree.2.Binds g name → s.Binds g name
  inside : ∀ name, loop.2.Binds s.frames.size name → name ∈ declaredNames l.initializer.toList

/-- Where the tree with a block around it is a place of programs, the tree and the loop run alike. -/
theorem agrees_of_whole {w : World} (hst : Stock P) (htidy : ∀ {v}, P v → v.Tidy)
    (hP : P ⟨.stmt l.whole, σ, os⟩) (hv : Visit.Tidy ⟨.stmt l.stmt, σ, os⟩)
    (hb : l.body.declared? = none) (hs : Sound P w) (hc : w.store.Closed)
    (hm : Mirrors w σ.scopes os f) (turns steps spent : Nat) :
    l.Agrees w.store (Evaluator.executing turns steps spent (σ.boundStmt l.stmt) f w.store)
      ((l.bound σ).run (.within .recorded turns (l.stepsLeft steps spent)) turns f w.store) := by
  let s₀ := w.store.withFrame (some f)
  have hleft : l.initializer = none → 0 < l.stepsLeft steps spent := fun hi => by
    rw [stepsLeft, hi]
    exact Nat.succ_pos _
  obtain ⟨w', r, hrun, hle, hs', hr⟩ := runs_inScope hst hP hs hm turns (l.stepsLeft steps spent)
  -- the tree, from the store itself
  obtain ⟨w₁, r', r₁, hrun₁, htree, hle₁, hw₁, hout₁⟩ := tracks_stmt hv (hst.standing hP).1
    (hs.pared hst htidy hc) (Paring.fits_whole hs.toFramed hm) turns steps spent
  obtain ⟨rfl, hleft₁⟩ := Prod.mk.inj (hrun.symm.trans hrun₁)
  -- the loop, from the store with its frame
  have hc₀ : s₀.Closed := hc.withFrame (hm.lt hs.toFramed)
  have hs₀ := hs.withFrame f l.opener
  obtain ⟨w₂, r', r₂, hrun₂, hloop, hle₂, hw₂, hout₂⟩ := tracks_inFrame hst hP hb htidy
    (hs₀.pared hst htidy hc₀)
    (Paring.fits_whole hs₀.toFramed (Matches.enter hs.toFramed hm l.opener).mirrors) hleft
  obtain ⟨rfl, hleft₂⟩ := Prod.mk.inj (hrun.symm.trans hrun₂)
  have htree : Evaluator.executing turns steps spent (σ.boundStmt l.stmt) f w.store =
      (r₁, w₁.right) := htree
  have hloop : (l.bound σ).run (.within .recorded turns (l.stepsLeft steps spent)) turns f w.store =
      (r₂, w₂.right) := hloop
  have hgrown : (Paring.whole w.store).Le (.whole s₀) := by
    rw [← Paring.whole_withFrame]
    exact Paring.le_withFrame f
  rw [htree, hloop]
  refine ⟨(hout₂.eq_of_fair hr).trans (hout₁.eq_of_fair hr).symm,
    .of_pared hc hle₁ (hgrown.trans hle₂) hw₁ hw₂ (hleft₂.symm.trans hleft₁),
    fun g hg name hbinds => ?_, fun name hbinds => ?_⟩
  · rw [Store.Binds, Paring.frame_of_whole hle₁ hw₁ hc hg, ← hleft₁] at hbinds
    have hclose : w.Le none w' := (World.le_withFrame f l.opener).close (Nat.le_refl _) hle
    exact hclose.still g hg (by simp) name hbinds
  · have hlt : w.store.frames.size < s₀.frames.size :=
      Nat.lt_of_lt_of_eq (Nat.lt_succ_self _) (Array.size_push ..).symm
    rw [Store.Binds, Paring.frame_of_whole hle₂ hw₂ hc₀ hlt, ← hleft₂] at hbinds
    exact bound_by_initializer hs.toFramed hle hs'.toFramed hbinds

/-- In a sound store, where the tree of a loop is a place of accepted programs, the tree and the loop
run alike; and to the pass of names the scopes are behind the tree what they were. -/
theorem agrees {limits : Limits} {inputs : List Input} {w : World}
    (hP : VisitedIn (writtenPrograms limits inputs) ⟨.stmt l.stmt, σ, os⟩)
    (hb : l.body.declared? = none) (hs : Sound (VisitedIn (writtenPrograms limits inputs)) w)
    (hc : w.store.Closed) (hm : Mirrors w σ.scopes os f) :
    (∀ turns steps spent, l.Agrees w.store
        (Evaluator.executing turns steps spent (σ.boundStmt l.stmt) f w.store)
        ((l.bound σ).run (.within .recorded turns (l.stepsLeft steps spent)) turns f w.store)) ∧
      σ.behindStmt l.stmt = σ ∧ l.Settles σ := by
  have hst := stock_written limits inputs
  have hwhole := tidy_whole (tidy_written hP) (hst.standing hP).1
  -- the tree with a block around it is no part of the program, but may be taken for one
  let P' := fun u => VisitedIn (writtenPrograms limits inputs) u ∨
    Visit.Below ⟨.stmt l.whole, σ, os⟩ u
  have hst' : Stock P' := hst.extend hwhole.toClean (standing_whole (hst.standing hP))
  have hP' : P' ⟨.stmt l.whole, σ, os⟩ := .inr .here
  have htidy' : ∀ {v}, P' v → v.Tidy := fun hv => hv.elim tidy_written (·.tidy hwhole)
  exact ⟨agrees_of_whole hst' htidy' hP' (tidy_written hP) hb (hs.widen .inl) hc hm,
    (hst.behindStmt_eq hP).trans (Scoping.behind_of_declared l.declared?_stmt), settles hst' hP' hb⟩

end ForLoop

/-! ### Trees of loops that are bound -/

section

variable {s : Stmt} {σ : Scoping}

theorem Stmt.loop_of_bound {cond : Expr} {body : Stmt} (h : σ.boundStmt s = .loop cond body) :
    ∃ c b, s = .loop c b ∧ (σ.behindExpr c).boundStmt b = body := by
  have hsort := (s.sort_bound σ).1.symm.trans (congrArg Stmt.ctorIdx h)
  cases s with
  | loop c b => exact ⟨c, b, rfl, (Stmt.loop.inj h).2⟩
  | _ => cases hsort

theorem Stmt.pair_of_bound {first second : Stmt} (h : σ.boundStmt s = .block [first, second]) :
    ∃ a b, s = .block [a, b] ∧ (σ.enter []).boundStmt a = first ∧
      ((σ.enter []).behindStmt a).boundStmt b = second := by
  have hsort := (s.sort_bound σ).1.symm.trans (congrArg Stmt.ctorIdx h)
  cases s with
  | block body =>
    have hbody : (σ.enter []).boundBody body = [first, second] := Stmt.block.inj h
    match body with
    | [] | [_] | _ :: _ :: _ :: _ => cases hbody
    | [a, b] =>
      cases hbody
      exact ⟨a, b, rfl, rfl, rfl⟩
  | _ => cases hsort

theorem Stmt.expr_of_bound {e : Expr} (h : σ.boundStmt s = .expr e) : ∃ e', s = .expr e' := by
  have hsort := (s.sort_bound σ).1.symm.trans (congrArg Stmt.ctorIdx h)
  cases s with
  | expr e' => exact ⟨e', rfl⟩
  | _ => cases hsort

namespace ForLoop

/-- What is bound to the rounds of a loop are the rounds of one. -/
theorem rounds_of_bound {l : ForLoop} (hb : l.body.declared? = none)
    (h : σ.boundStmt s = .loop l.test l.repeated) : ∃ l' : ForLoop,
      s = .loop l'.test l'.repeated ∧ l'.initializer = none ∧ l'.body.declared? = none := by
  obtain ⟨c, b, rfl, hbody⟩ := Stmt.loop_of_bound h
  unfold repeated at hbody
  split at hbody
  · refine ⟨⟨none, some c, none, b⟩, rfl, rfl, ?_⟩
    rw [← hbody, Stmt.declared?_bound] at hb
    exact hb
  · obtain ⟨body, second, rfl, hfirst, hsecond⟩ := Stmt.pair_of_bound hbody
    obtain ⟨e, rfl⟩ := Stmt.expr_of_bound hsecond
    refine ⟨⟨none, some c, some e, body⟩, rfl, rfl, ?_⟩
    rw [← hfirst, Stmt.declared?_bound] at hb
    exact hb

/-- What is bound to the tree of a loop is the tree of one. -/
theorem of_bound {l : ForLoop} (hb : l.body.declared? = none) (h : σ.boundStmt s = l.stmt) :
    ∃ l' : ForLoop, s = l'.stmt ∧ l'.body.declared? = none := by
  cases hi : l.initializer with
  | none =>
    rw [l.stmt_of_none hi] at h
    obtain ⟨l', rfl, hi', hb'⟩ := rounds_of_bound hb h
    exact ⟨l', (l'.stmt_of_none hi').symm, hb'⟩
  | some first =>
    rw [l.stmt_of_some hi] at h
    obtain ⟨a, b, rfl, _, hrounds⟩ := Stmt.pair_of_bound h
    obtain ⟨l', rfl, _, hb'⟩ := rounds_of_bound hb hrounds
    exact ⟨{ l' with initializer := some a }, rfl, hb'⟩

end ForLoop

end

/-- **The tree of a for-loop means the loop.** Let an input of a session come to the tree of a
for-loop, whose body declares nothing. The tree was made of a for-loop that is written in a program so
far, and with any numbers of turns and steps it ends there as that loop does: normally, with the same
value to give back, or with the same fault. The stores that they leave are alike, with the same output.
Frames that were there bind no new names behind it, and to the pass of names the scopes are what they
were; so the variable of the loop is not to be seen there. All rounds share the one frame of the loop,
which binds nothing but what the initializer declares; and to the pass no part of the loop leaves
anything in its scope for the others. So condition and increment see nothing that the body declares. -/
theorem for_loop_runs_as_meant (limits : Limits) (clock : Clock) (earlier : List Input) (input : Input)
    {t : Moment} {l : ForLoop} (ht : ((Session.start limits clock).after earlier).Reaches input t)
    (hsite : t.site = .stmt l.stmt) (hb : l.body.declared? = none) :
    ∃ (written : ForLoop) (σ : Scoping) (os : List Opener),
      VisitedIn (writtenPrograms limits (earlier ++ [input])) ⟨.stmt written.stmt, σ, os⟩ ∧
      σ.boundStmt written.stmt = l.stmt ∧
      (∀ turns steps spent, written.Agrees t.store
        (Evaluator.executing turns steps spent l.stmt t.frame t.store)
        ((written.bound σ).run (.within .recorded turns (written.stepsLeft steps spent)) turns t.frame
          t.store)) ∧
      σ.behindStmt written.stmt = σ ∧ written.Settles σ := by
  have hfounded := ((Session.founded_feed
    (Session.founded_after limits clock earlier [input]) fun t ht => ⟨earlier, input, [], rfl, ht⟩).2 t
      ht).founded
  obtain ⟨w, ⟨_, hs⟩, ⟨c, σ, os⟩, hP, hv, hruns⟩ := Session.explained_of_reaches ht
  rw [hsite] at hv
  cases c with
  | expr _ | args _ | body _ | function _ _ | methods _ => cases hv
  | stmt s =>
    have hbound : σ.boundStmt s = l.stmt := Site.stmt.inj (Option.some.inj hv)
    obtain ⟨written, rfl, hb'⟩ := ForLoop.of_bound hb hbound
    obtain ⟨hm⟩ := hruns
    have hagrees := ForLoop.agrees hP hb' hs hfounded.closed hm.mirrors
    rw [hbound] at hagrees
    exact ⟨written, σ, os, hP, hbound, hagrees⟩

/-- A loop that takes one turn. -/
theorem for_loop_runs_as_meant_once :
    let input : Input := .program "for (var i; !i; i = true) print i;"
    ∃ (t : Moment) (l written : ForLoop) (σ : Scoping),
      (Session.start ⟨60, 5⟩ (.still ⟨0⟩)).Reaches input t ∧ t.site = .stmt l.stmt ∧
      σ.boundStmt written.stmt = l.stmt ∧
      let loop := (written.bound σ).run (.within .recorded 5 (written.stepsLeft 60 0)) 5 t.frame t.store
      loop.1 = .ok .next ∧ loop.2.output = #["nil"] := by
  intro input
  let name (offset : Int) : Mark := ⟨.identifier, "i", some offset⟩
  let written : ForLoop := {
    initializer := some (.var (name 9) none)
    cond := some (.unary ⟨.bang, "!", some 12⟩ (.variable (.free (name 13))))
    increment := some (.assign (.free (name 16)) (.literal (.bool true)))
    body := .print (.variable (.free (name 32))) }
  let l : ForLoop := {
    initializer := some (.var (name 9) none)
    cond := some (.unary ⟨.bang, "!", some 12⟩ (.variable ⟨name 13, some 0⟩))
    increment := some (.assign ⟨name 16, some 1⟩ (.literal (.bool true)))
    body := .print (.variable ⟨name 32, some 1⟩) }
  let t : Moment := ⟨.stmt l.stmt, 0, Store.initial (.still ⟨0⟩)⟩
  have hreaches : (Session.start ⟨60, 5⟩ (.still ⟨0⟩)).Reaches input t := by
    refine ⟨⟨[written.stmt], .program [l.stmt]⟩, rfl, fun m => ?_⟩
    have hstop : Watch.stopAt t m (.stmt l.stmt) 0 (Store.initial (.still ⟨0⟩)) =
        (.error (.misplaced m), Store.initial (.still ⟨0⟩)) := if_pos rfl
    have hstmt : (Evaluator.watched (.stopAt t m) .recorded 5 60 0).stmt l.stmt 0
        (Store.initial (.still ⟨0⟩)) = (.error (.misplaced m), Store.initial (.still ⟨0⟩)) := bind_error hstop
    exact bind_error (reported_error (bind_error hstmt))
  obtain ⟨written', σ, os, _, hbound, hagrees, _⟩ :=
    for_loop_runs_as_meant ⟨60, 5⟩ (.still ⟨0⟩) [] input hreaches rfl rfl
  have htree : (Evaluator.executing 5 60 0 l.stmt 0 (Store.initial (.still ⟨0⟩))).1 = .ok .next ∧
      (Evaluator.executing 5 60 0 l.stmt 0 (Store.initial (.still ⟨0⟩))).2.output = #["nil"] := by
    decide +kernel
  refine ⟨t, l, written', σ, hreaches, rfl, hbound, (hagrees 5 60 0).outcome.trans htree.1, ?_⟩
  exact (hagrees 5 60 0).stores.output.trans htree.2

end Lox
