/-
# Running without idle frames

From a store and one without its idle frames, an evaluation and that of a tree
which sheds the idle scopes lead to such stores again, with the same values
and the same errors (`Lox.Run.Tracks`). What they print is the same. Only of a
name that is not where its record says it may be told in another distance, and
then not in the frame itself (`Lox.Fault.Sheds`).

An idle frame may be added to the first store at any time
(`Lox.Run.Tracks.idleFrame`): what follows in it runs as in the frame around.

Key definitions: `Lox.Fault.Sheds`, `Lox.Run.Tracks`, `Lox.Evaluator.Tracks`.
Key theorems: `Lox.Run.Tracks.bind`, `Lox.Run.Tracks.idleFrame`, `Lox.Run.Tracks.evalExpr`,
`Lox.Run.Tracks.execStmt`, `Lox.Evaluator.tracks_within`.
-/
import Lox.Proofs.Idle.Growth

namespace Lox

open Procedure

/-- Both faults are one that has its place, but for the distance at which something was not found. -/
inductive Fault.Sheds : Fault → Fault → Prop
  | same {fault : Fault} : fault.isUnplaced = false → Fault.Sheds fault fault
  | noFrame (d d' : Int) : Fault.Sheds (.diverged (.noFrame d)) (.diverged (.noFrame d'))
  | unbound (name : String) {d d' : Int} : (d = 0 → d' = 0) →
    Fault.Sheds (.diverged (.unbound name d)) (.diverged (.unbound name d'))

theorem Fault.Sheds.placed {fault fault' : Fault} (h : fault.Sheds fault') :
    fault.isUnplaced = false ∧ fault'.isUnplaced = false := by
  cases h with
  | same hplaced => exact ⟨hplaced, hplaced⟩
  | noFrame | unbound => exact ⟨rfl, rfl⟩

namespace Paring

variable {α β : Type}

/-- Both runs end with results of which something holds, or with faults that differ in a distance
only. -/
inductive Outcomes (w : Paring) (Q : Paring → α → β → Prop) : Except Fault α → Except Fault β → Prop
  | ok {a : α} {b : β} : Q w a b → w.Outcomes Q (.ok a) (.ok b)
  | error {fault fault' : Fault} : fault.Sheds fault' → w.Outcomes Q (.error fault) (.error fault')

/-- The same value, which is known. -/
def Gives (w : Paring) (v v' : Value) : Prop := v' = v ∧ w.Known v

/-- Both statements end alike, and what they give back, if anything, is known. -/
inductive Ends (w : Paring) : Flow → Flow → Prop
  | next : w.Ends .next .next
  | returning {v : Value} : w.Known v → w.Ends (.returning v) (.returning v)

/-- Frames that stand for each other, under these flags. -/
def Leads (ls : List Bool) (w : Paring) (f f' : FrameId) : Prop := f' = w.image f ∧ w.Fits ls f

/-- Methods that classes offer. -/
def Collects (w : Paring) (made made' : Bindings FunctionId) : Prop :=
  made' = made ∧ ∀ name m, made.get? name = some m → w.Offers m

/-- Nothing is said of the results but that they are the same. -/
abbrev Equal (_ : Paring) (a b : α) : Prop := b = a

end Paring

namespace Run

variable {α β γ δ : Type} {w : Paring} {ls : List Bool} {f : FrameId}

/-- From both stores the runs lead to such stores again, and end alike. -/
def Tracks (w : Paring) (p : Run α) (p' : Run β) (Q : Paring → α → β → Prop) : Prop :=
  ∃ w' r r', p w.left = (r, w'.left) ∧ p' w.right = (r', w'.right) ∧ w.Le w' ∧ Pared w' ∧
    w'.Outcomes Q r r'

namespace Tracks

variable {p : Run α} {p' : Run β} {Q R : Paring → α → β → Prop}

theorem step (w' : Paring) {a : α} {b : β} (hp : p w.left = (.ok a, w'.left))
    (hp' : p' w.right = (.ok b, w'.right)) (hle : w.Le w') (hw' : Pared w') (hq : Q w' a b) :
    Tracks w p p' Q := ⟨w', _, _, hp, hp', hle, hw', .ok hq⟩

theorem pure (hw : Pared w) {a : α} {b : β} (hq : Q w a b) :
    Tracks w (Pure.pure a : Run α) (Pure.pure b) Q := step w rfl rfl (.refl w) hw hq

/-- Both runs end at once. -/
theorem ended (hw : Pared w) {fault fault' : Fault} (hp : p w.left = (.error fault, w.left))
    (hp' : p' w.right = (.error fault', w.right)) (hf : fault.Sheds fault') : Tracks w p p' Q :=
  ⟨w, _, _, hp, hp', .refl w, hw, .error hf⟩

theorem halt (hw : Pared w) {fault fault' : Fault} (hf : fault.Sheds fault') :
    Tracks w (Procedure.halt fault : Run α) (Procedure.halt fault' : Run β) Q :=
  ended hw rfl rfl hf

theorem fail (hw : Pared w) (cause : Cause) {offset : Option Int} (ho : offset.isSome = true) :
    Tracks w (Run.fail cause offset : Run α) (Run.fail cause offset : Run β) Q := by
  obtain ⟨n, rfl⟩ := Option.isSome_iff_exists.mp ho
  exact halt hw (.same rfl)

theorem mono (h : Tracks w p p' Q) (hq : ∀ w' a b, Q w' a b → R w' a b) : Tracks w p p' R := by
  obtain ⟨w', r, r', hp, hp', hle, hw', hout⟩ := h
  refine ⟨w', r, r', hp, hp', hle, hw', ?_⟩
  cases hout with
  | ok hqa => exact .ok (hq _ _ _ hqa)
  | error hf => exact .error hf

theorem bind {q : α → Run γ} {q' : β → Run δ} {S : Paring → γ → δ → Prop} (h : Tracks w p p' Q)
    (hq : ∀ a b w', w.Le w' → Pared w' → Q w' a b → Tracks w' (q a) (q' b) S) :
    Tracks w (p >>= q) (p' >>= q') S := by
  obtain ⟨w', r, r', hp, hp', hle, hw', hout⟩ := h
  cases hout with
  | ok hqa =>
    obtain ⟨w'', r, r', hrun, hrun', hle', hrest⟩ := hq _ _ w' hle hw' hqa
    exact ⟨w'', r, r', (bind_ok hp).trans hrun, (bind_ok hp').trans hrun', hle.trans hle', hrest⟩
  | error hf => exact ⟨w', _, _, bind_error hp, bind_error hp', hle, hw', .error hf⟩

theorem discard (h : Tracks w p p' Q) : Tracks w (discard p) (discard p') Paring.Equal :=
  have hbind : Tracks w (p >>= fun _ => Pure.pure ()) (p' >>= fun _ => Pure.pure ())
      Paring.Equal := h.bind fun _ _ _ _ hw' _ => pure hw' rfl
  hbind

/-- What the stores tell may be told apart. -/
theorem bind_read {g : Store → γ} {g' : Store → δ} {q : γ → Run α} {q' : δ → Run β}
    (h : Tracks w (q (g w.left)) (q' (g' w.right)) Q) :
    Tracks w (Procedure.read g >>= q) (Procedure.read g' >>= q') Q := h

/-- Both stores tell the same. -/
theorem read {g g' : Store → γ} {q : γ → Run α} {q' : γ → Run β} (hg : g' w.right = g w.left)
    (h : Tracks w (q (g w.left)) (q' (g w.left)) Q) :
    Tracks w (Procedure.read g >>= q) (Procedure.read g' >>= q') Q := by
  refine bind_read ?_
  rwa [hg]

theorem ite {P : Prop} [Decidable P] {q : Run α} {q' : Run β} (hp : Tracks w p p' Q)
    (hq : Tracks w q q' Q) : Tracks w (if P then p else q) (if P then p' else q') Q := by
  split
  · exact hp
  · exact hq

/-! No error waits for a place. -/

theorem placedLeft (offset : Unit → Option Int) (h : Tracks w p p' Q) :
    Tracks w (Run.placed offset p) p' Q := by
  obtain ⟨w', r, r', hp, hp', hle, hw', hout⟩ := h
  refine ⟨w', r, r', ?_, hp', hle, hw', hout⟩
  cases hout with
  | ok _ => exact placed_ok hp
  | error hf => exact placed_error hf.placed.1 hp

theorem placedRight (offset : Unit → Option Int) (h : Tracks w p p' Q) :
    Tracks w p (Run.placed offset p') Q := by
  obtain ⟨w', r, r', hp, hp', hle, hw', hout⟩ := h
  refine ⟨w', r, r', hp, ?_, hle, hw', hout⟩
  cases hout with
  | ok _ => exact placed_ok hp'
  | error hf => exact placed_error hf.placed.2 hp'

theorem placed (offset offset' : Unit → Option Int) (h : Tracks w p p' Q) :
    Tracks w (Run.placed offset p) (Run.placed offset' p') Q :=
  (h.placedLeft offset).placedRight offset'

/-! ### Frames, functions and classes -/

variable (hw : Pared w)
include hw

theorem newFrame (hf : w.Fits ls f) :
    Tracks w (Run.newFrame (some f)) (Run.newFrame (some (w.image f)))
      (Paring.Leads (false :: ls)) := by
  have hle := Paring.le_withFrame (w := w) f
  have hsize : w.left.frames.size < (w.withFrame f).left.frames.size :=
    Nat.lt_of_lt_of_eq (Nat.lt_succ_self _) (Paring.size_withFrame ..).symm
  refine step (w.withFrame f) rfl rfl hle (hw.withFrame hf.lt) ⟨(if_pos rfl).symm, ?_⟩
  refine .inside hsize (if_pos rfl) ?_ (hf.mono hle)
  show ((w.left.withFrame (some f)).frame _).parent = some f
  rw [Store.frame_withFrame, if_pos rfl]

/-- A new idle frame of the first store stands for the one around it. -/
theorem idleFrame (hf : w.Fits ls f) {q : FrameId → Run α}
    (h : ∀ w' g, w.Le w' → Pared w' → w'.Fits (true :: ls) g → w'.image g = w.image f →
      Tracks w' (q g) p' Q) : Tracks w (Run.newFrame (some f) >>= q) p' Q := by
  have hle := Paring.le_withIdle (w := w) f
  have hsize : w.left.frames.size < (w.withIdle f).left.frames.size :=
    Nat.lt_of_lt_of_eq (Nat.lt_succ_self _) (Paring.size_withFrame ..).symm
  have hfits : (w.withIdle f).Fits (true :: ls) w.left.frames.size := by
    refine .inside hsize (if_pos rfl) ?_ (hf.mono hle)
    show ((w.left.withFrame (some f)).frame _).parent = some f
    rw [Store.frame_withFrame, if_pos rfl]
  obtain ⟨w', r, r', hp, hp', hle', hrest⟩ :=
    h (w.withIdle f) w.left.frames.size hle (hw.withIdle hf.lt) hfits (if_pos rfl)
  exact ⟨w', r, r', hp, hp', hle.trans hle', hrest⟩

theorem define (hf : w.Fits ls f) (hb : Busy ls 0) (name : String) {v : Value} (hv : w.Known v) :
    Tracks w (Run.define f name v) (Run.define (w.image f) name v)
      fun w' _ _ => w'.left.Binds f name :=
  step (w.define f name v) rfl rfl (Paring.le_define name v hf.lt)
    (hw.define hf.lt (hf.idle_eq hw.toFolds hb) name hv)
    ((Store.binds_define hf.lt).mpr (.inl ⟨rfl, rfl⟩))

theorem newFunction (f : FrameId) {isInitializer : Bool} {flags : List Bool} {decl decl' : Fun}
    (hd : FunctionSheds flags decl decl') (hb : isInitializer = true → Busy flags 0) :
    Tracks w (Run.newFunction ⟨decl, f, isInitializer⟩)
      (Run.newFunction ⟨decl', w.image f, isInitializer⟩) fun w' id id' =>
        id' = id ∧ w'.Spells flags id ∧ w'.Lies id ∧ (w'.left.function id).frame = f := by
  have hleft : ∀ closure closure', (w.withFunction closure closure').left.function
      w.left.functions.size = closure := fun _ _ =>
    (Store.function_withFunction ..).trans (if_pos rfl)
  have hright : ∀ closure closure', (w.withFunction closure closure').right.function
      w.left.functions.size = closure' := fun _ _ => by
    rw [← hw.functions]
    exact (Store.function_withFunction ..).trans (if_pos rfl)
  refine step (a := w.left.functions.size) (b := w.left.functions.size)
    (w.withFunction ⟨decl, f, isInitializer⟩ ⟨decl', w.image f, isInitializer⟩) rfl ?_
    (Paring.le_withFunction hw _ _) (hw.withFunction _ _) ⟨rfl, ⟨?_, ?_, ?_, ?_⟩, ?_, ?_⟩
  · rw [← hw.functions]
    rfl
  · simp [Paring.withFunction, Store.withFunction]
  · rw [hleft, hright]
  · rw [hleft]
    exact hb
  · rw [hleft, hright]
    exact hd
  · rw [Paring.Lies, hleft, hright]
    rfl
  · rw [hleft]

theorem newMethod {id : FunctionId} {g : FrameId} (hc : w.Calls id g) :
    Tracks w (Run.newMethod ⟨id, g⟩) (Run.newMethod ⟨id, w.image g⟩)
      fun w' m m' => m' = m ∧ w'.Known (.method m) := by
  have hle := Paring.le_withMethod hw ⟨id, g⟩
  have hleft : (w.withMethod ⟨id, g⟩).left.method w.left.methods.size = ⟨id, g⟩ :=
    (Store.method_withMethod ..).trans (if_pos rfl)
  have hright : (w.withMethod ⟨id, g⟩).right.method w.left.methods.size = ⟨id, w.image g⟩ := by
    rw [← hw.methods]
    exact (Store.method_withMethod ..).trans (if_pos rfl)
  refine step (a := w.left.methods.size) (b := w.left.methods.size) (w.withMethod ⟨id, g⟩) rfl ?_ hle
    (hw.withMethod ⟨id, g⟩) ⟨rfl, ?_, ?_, ?_⟩
  · rw [← hw.methods]
    rfl
  · simp [Paring.withMethod, Store.withMethod]
  · rw [hright, hleft]
    rfl
  · rw [hleft]
    exact hc.mono hle

/-- A step that both take beside frames, functions and bound methods. -/
theorem aside {p : Run α} {g : Store → α} {m : Store → Store} (hp : ∀ s, p s = (.ok (g s), m s))
    (hg : g w.right = g w.left) (hm : Paring.Aside m)
    (hfields : ∀ i name v, ((m w.left).instanceObject i).fields.get? name = some v → w.Known v)
    (hoffers : ∀ cls name k, ((m w.left).classObject cls).methods.get? name = some k → w.Offers k) :
    Tracks w p p Paring.Equal :=
  step (w.both m) (hp _) (hp _) (Paring.le_both hm) (hw.both hm hfields hoffers) hg

theorem tick : Tracks w Run.tick Run.tick Paring.Equal :=
  aside hw (m := Store.ticked) (fun _ => rfl) (congrArg Clock.next hw.clock) (fun _ _ _ _ => rfl)
    hw.knownFields hw.offers

theorem emit (line : String) : Tracks w (Run.emit line) (Run.emit line) Paring.Equal :=
  aside hw (fun _ => rfl) rfl (fun _ _ _ _ => rfl) hw.knownFields hw.offers

theorem print {v : Value} (hv : w.Known v) : Tracks w (Run.print v) (Run.print v) Paring.Equal :=
  read (hw.display hv) (emit hw _)

theorem newClass {cls : ClassObject}
    (hm : ∀ name k, cls.methods.get? name = some k → w.Offers k) :
    Tracks w (Run.newClass cls) (Run.newClass cls) Paring.Equal := by
  refine aside hw (m := (·.withClass cls)) (g := (·.classes.size)) (fun _ => rfl) ?_
    (fun _ _ _ _ => rfl) hw.knownFields fun id name k hk => ?_
  · rw [hw.rest]
  · rw [Store.classObject_withClass] at hk
    split at hk
    · exact hm name k hk
    · exact hw.offers id name k hk

theorem newInstance (cls : ClassId) :
    Tracks w (Run.newInstance cls) (Run.newInstance cls) Paring.Equal := by
  refine aside hw (m := (·.withInstance cls)) (g := (·.instances.size)) (fun _ => rfl) ?_
    (fun _ _ _ _ => rfl) (fun id name v hv => ?_) hw.offers
  · rw [hw.rest]
  · rw [Store.instanceObject_withInstance] at hv
    split at hv
    · cases hv
    · exact hw.knownFields id name v hv

theorem setProperty (id : InstanceId) (name : Mark) {v : Value} (hv : w.Known v) :
    Tracks w (setProperty id name v) (setProperty id name v) Paring.Equal := by
  refine aside hw (m := (·.setField id name.text v)) (fun _ => rfl) rfl (fun _ _ _ _ => rfl)
    (fun i other u hu => ?_) hw.offers
  rw [Store.instanceObject_setField] at hu
  split at hu
  · rw [Bindings.get?_bind] at hu
    split at hu
    · cases hu
      exact hv
    · exact hw.knownFields i other u hu
  · exact hw.knownFields i other u hu

/-! ### Names -/

theorem get {m : Mark} (hm : m.Placed) :
    Tracks w (Run.get Store.globals m) (Run.get Store.globals m) Paring.Gives := by
  refine read (hw.get?_globals m.text) ?_
  cases hv : w.left.get? Store.globals m.text with
  | none => exact fail hw _ hm
  | some v =>
    obtain ⟨h, -, hv⟩ := Option.bind_eq_some_iff.mp hv
    exact pure hw ⟨rfl, hw.knownVars h m.text v hv⟩

theorem assignGlobal {m : Mark} (hm : m.Placed) {v : Value} (hv : w.Known v) :
    Tracks w (Run.assign Store.globals m v) (Run.assign Store.globals m v) Paring.Equal := by
  refine read (hw.holder?_globals m.text).2 ?_
  rw [(hw.holder?_globals m.text).1]
  cases (w.left.frame Store.globals).vars.contains m.text with
  | true =>
    have hdefine := define hw (.globals hw.root) rfl m.text hv
    rw [hw.fixed] at hdefine
    exact hdefine.mono fun _ _ _ _ => rfl
  | false => exact fail hw _ hm

/-- The name is bound in the frame itself. -/
theorem assignBound (hf : w.Fits ls f) (hb : Busy ls 0) {m : Mark} (hm : w.left.Binds f m.text)
    {v : Value} (hv : w.Known v) :
    Tracks w (Run.assign f m v) (Run.assign (w.image f) m v) Paring.Equal := by
  refine bind_read ?_
  rw [Store.holder?_of_binds hm, Store.holder?_of_binds (hw.binds_image hm)]
  exact (define hw hf hb m.text hv).mono fun _ _ _ _ => rfl

/-- Frames that are not idle are as far out as the idle ones between allow. -/
theorem ancestor (hf : w.Fits ls f) {d d' : Int} (hb : Busy ls d.toNat)
    (hd : d'.toNat = shed ls d.toNat) :
    Tracks w (Run.ancestor f d) (Run.ancestor (w.image f) d') fun w' a a' =>
      a' = w'.image a ∧ a < w'.left.frames.size ∧ w'.idle a = false := by
  refine bind_read ?_
  rw [hd, hf.ancestor?_eq hw.toFolds]
  cases ha : w.left.ancestor? d.toNat f with
  | none => exact halt hw (.noFrame d d')
  | some a =>
    obtain ⟨hlt, hidle⟩ := hf.idle_ancestor hw.toFolds ha
    exact pure hw ⟨rfl, hlt, hidle.trans hb⟩

theorem getAt (hf : w.Fits ls f) {d d' : Int} (hb : Busy ls d.toNat)
    (hd : d'.toNat = shed ls d.toNat) (hzero : d = 0 → d' = 0) (name : String) :
    Tracks w (Run.getAt f d name) (Run.getAt (w.image f) d' name) Paring.Gives := by
  refine (ancestor hw hf hb hd).bind fun a a' w' _ hw' ⟨heq, ha, hidle⟩ => ?_
  subst heq
  refine read (by rw [hw'.kept a ha hidle]) ?_
  cases hv : (w'.left.frame a).vars.get? name with
  | none => exact halt hw' (.unbound name hzero)
  | some v => exact pure hw' ⟨rfl, hw'.knownVars a name v hv⟩

theorem assignAt (hf : w.Fits ls f) {d : Nat} (hb : Busy ls d) (name : String) {v : Value}
    (hv : w.Known v) : Tracks w (Run.assignAt f d name v)
      (Run.assignAt (w.image f) (shed ls d : Nat) name v) Paring.Equal := by
  refine (ancestor hw hf (d := d) hb rfl).bind fun a a' w' hle hw' ⟨heq, ha, hidle⟩ => ?_
  subst heq
  refine read (by rw [hw'.kept a ha hidle]) (ite ?_ (halt hw' (.unbound name fun hd => ?_)))
  · exact step (w'.define a name v) rfl rfl (Paring.le_define name v ha)
      (hw'.define ha hidle name (hv.mono hle)) rfl
  · rw [Int.natCast_eq_zero.mp hd, shed_zero]
    rfl

theorem look (hf : w.Fits ls f) {use use' : NameUse} (hu : use.Sheds ls use') :
    Tracks w (Access.recorded.look use f) (Access.recorded.look use' (w.image f))
      Paring.Gives := by
  obtain ⟨m, hops⟩ := use
  obtain ⟨m', hops'⟩ := use'
  obtain ⟨rfl, hm, hhops⟩ := hu
  cases hhops with
  | globals => exact get hw hm
  | @out d hb =>
    refine getAt hw hf (d := d) hb rfl (fun hd => ?_) _
    rw [Int.natCast_eq_zero.mp hd, shed_zero]
    rfl

theorem store (hf : w.Fits ls f) {use use' : NameUse} (hu : use.Sheds ls use') {v : Value}
    (hv : w.Known v) : Tracks w (Access.recorded.store use v f)
      (Access.recorded.store use' v (w.image f)) Paring.Equal := by
  obtain ⟨m, hops⟩ := use
  obtain ⟨m', hops'⟩ := use'
  obtain ⟨rfl, hm, hhops⟩ := hu
  cases hhops with
  | globals => exact assignGlobal hw hm hv
  | out hb => exact assignAt hw hf hb _ hv

/-! ### Instances and operators -/

/-- The method can be called inside the frame that binds its receiver. -/
theorem receiverFrame {id : FunctionId} (ho : w.Offers id) {v : Value} (hv : w.Known v) :
    Tracks w (receiverFrame id v) (receiverFrame id v)
      fun w' g g' => g' = w'.image g ∧ w'.Calls id g := by
  obtain ⟨hlies, ls, hspells, hfits⟩ := ho
  refine bind_read ?_
  rw [hlies]
  refine (newFrame hw hfits).bind fun g g' w' hle hw' ⟨heq, hg⟩ => ?_
  subst heq
  refine (define hw' hg busy_inside "this" (hv.mono hle)).bind fun _ _ w'' hle' hw'' _ => ?_
  exact pure hw'' ⟨(hle'.image g hg.lt).symm, false :: ls, hspells.mono (hle.trans hle'),
    hg.mono hle'⟩

theorem bindMethod {id : FunctionId} (ho : w.Offers id) {v : Value} (hv : w.Known v) :
    Tracks w (bindMethod id v) (bindMethod id v) Paring.Gives := by
  refine (receiverFrame hw ho hv).bind fun g g' w' _ hw' ⟨heq, hc⟩ => ?_
  subst heq
  refine (newMethod hw' hc).bind fun m m' w'' _ hw'' ⟨heq, hm⟩ => ?_
  subst heq
  exact pure hw'' ⟨rfl, hm⟩

theorem getProperty (v : Value) {name : Mark} (hn : name.Placed) :
    Tracks w (getProperty v name) (getProperty v name) Paring.Gives := by
  cases v with
  | const _ | native _ | function _ | method _ | classRef _ => exact fail hw _ hn
  | instanceRef id =>
    refine read (by rw [hw.instanceObject]) ?_
    cases hv : (w.left.instanceObject id).fields.get? name.text with
    | some v => exact pure hw ⟨rfl, hw.knownFields id name.text v hv⟩
    | none =>
      refine read (by rw [hw.findMethod?, hw.instanceObject]) ?_
      cases hm : w.left.findMethod? (w.left.instanceObject id).cls name.text with
      | some m => exact bindMethod hw (hw.offers_of_findMethod? hm) trivial
      | none => exact fail hw _ hn

/-- The receiver is one frame nearer than the superclass in both stores. -/
theorem superProperty (hf : w.Fits ls f) {use use' : NameUse} (hu : use.Sheds ls use')
    (hthis : ∀ d, use.hops = some d → Busy ls (d - 1)) {name : Mark} (hn : name.Placed) :
    Tracks w (superProperty use name f) (superProperty use' name (w.image f)) Paring.Gives := by
  obtain ⟨m, hops⟩ := use
  obtain ⟨m', hops'⟩ := use'
  obtain ⟨rfl, -, hhops⟩ := hu
  cases hhops with
  | globals => exact halt hw (.same rfl)
  | @out d hb =>
    have hzero : (d : Int) = 0 → ((shed ls d : Nat) : Int) = 0 := fun hd => by
      rw [Int.natCast_eq_zero.mp hd, shed_zero]
      rfl
    have hbusy : Busy ls (d - 1) := hthis d rfl
    have hnear : ((shed ls d : Nat) - 1 : Int).toNat = shed ls ((d : Int) - 1).toNat := by
      cases d with
      | zero => simp
      | succ d =>
        rw [shed_succ (d := d) hbusy]
        simp
    refine (getAt hw hf (d := d) hb rfl hzero "super").bind
      fun _ superclass w' hle hw' ⟨heq, _⟩ => ?_
    subst heq
    rw [← hle.image f hf.lt]
    refine (getAt hw' (hf.mono hle) (d := (d : Int) - 1) ?_ hnear (fun hd => ?_) "this").bind
      fun _ receiver w'' _ hw'' ⟨heq, hv⟩ => ?_
    · rwa [show ((d : Int) - 1).toNat = d - 1 by omega]
    · obtain rfl : d = 1 := by omega
      rw [shed_succ (d := 0) hbusy, shed_zero]
      rfl
    · subst heq
      refine read (hw''.methodOf? superclass name.text) ?_
      cases hm : w''.left.methodOf? superclass name.text with
      | some m => exact bindMethod hw'' (hw''.offers_of_methodOf? hm) hv
      | none => exact fail hw'' _ hn

theorem unaryResult {op : Mark} (ho : op.Placed) (v : Value) :
    Tracks w (unaryResult op v) (unaryResult op v) Paring.Gives := by
  unfold Lox.unaryResult
  split
  · split
    · exact pure hw ⟨rfl, trivial⟩
    · exact fail hw _ ho
  · exact pure hw ⟨rfl, trivial⟩
  · exact fail hw _ ho

theorem joinOrAdd {op : Mark} (ho : op.Placed) {u v : Value} (hu : w.Known u) (hv : w.Known v) :
    Tracks w (joinOrAdd op u v) (joinOrAdd op u v) Paring.Gives := by
  unfold Lox.joinOrAdd
  split
  · exact pure hw ⟨rfl, trivial⟩
  · exact read (hw.display hv) (pure hw ⟨rfl, trivial⟩)
  · exact read (hw.display hu) (pure hw ⟨rfl, trivial⟩)
  · exact fail hw _ ho

theorem binaryResult {op : Mark} (ho : op.Placed) {u v : Value} (hu : w.Known u)
    (hv : w.Known v) : Tracks w (binaryResult op u v) (binaryResult op u v) Paring.Gives := by
  unfold Lox.binaryResult
  split
  · exact joinOrAdd hw ho hu hv
  · exact pure hw ⟨rfl, trivial⟩
  · exact pure hw ⟨rfl, trivial⟩
  · split
    · exact fail hw _ ho
    · rename_i hg
      split
      · obtain ⟨_, hconst⟩ := arithmetic?_const hg _ _
        rw [hconst]
        exact pure hw ⟨rfl, trivial⟩
      · exact fail hw _ ho

end Tracks

end Run

/-! ### Evaluations -/

/-- The evaluations further in lead from such stores to such stores, in frames that fit. -/
structure Evaluator.Tracks (inner : Evaluator) : Prop where
  recorded : inner.access = .recorded
  expr : ∀ {w ls e e' f}, Pared w → e.Sheds ls e' → w.Fits ls f →
    Run.Tracks w (inner.expr e f) (inner.expr e' (w.image f)) Paring.Gives
  stmt : ∀ {w ls s s' f}, Pared w → s.Sheds ls s' → w.Fits ls f →
    Run.Tracks w (inner.stmt s f) (inner.stmt s' (w.image f)) Paring.Ends
  called : ∀ {w ls s s' f}, Pared w → s.Sheds ls s' → w.Fits ls f →
    Run.Tracks w (inner.called s f) (inner.called s' (w.image f)) Paring.Ends

namespace Run.Tracks

variable {w : Paring} {ls : List Bool} {f : FrameId} {inner : Evaluator}

/-- What is evaluated only for what it does. -/
theorem effect {α : Type} {p p' : Run α} {Q : Paring → α → α → Prop} (h : Tracks w p p' Q) :
    Tracks w (Functor.discard p >>= fun _ => Pure.pure Flow.next)
      (Functor.discard p' >>= fun _ => Pure.pure Flow.next) Paring.Ends :=
  h.discard.bind fun _ _ _ _ hw' _ => pure hw' .next

/-- Statements in order. -/
theorem execBody {exec : Stmt → FrameId → Run Flow}
    (hexec : ∀ {w s s'}, Pared w → s.Sheds ls s' → w.Fits ls f →
      Tracks w (exec s f) (exec s' (w.image f)) Paring.Ends) :
    ∀ {body body' : List Stmt} {w : Paring}, Pared w → BodySheds ls body body' → w.Fits ls f →
      Tracks w (execBody exec body f) (execBody exec body' (w.image f)) Paring.Ends
  | [], _, _, hw, .nil, _ => pure hw .next
  | s :: body, _, w, hw, .cons hs hb, hf => by
    refine (hexec hw hs hf).bind fun flow flow' w' hle hw' hflow => ?_
    cases hflow with
    | next =>
      rw [← hle.image f hf.lt]
      exact execBody hexec hw' hb (hf.mono hle)
    | returning hv => exact pure hw' (.returning hv)

theorem bindParams (hb : Busy ls 0) : ∀ {params : List Mark} {args : List Value} {w : Paring},
    Pared w → w.Fits ls f → (∀ v ∈ args, w.Known v) →
      Tracks w (bindParams f params args) (bindParams (w.image f) params args) Paring.Equal
  | [], _, _, hw, _, _ => pure hw rfl
  | _ :: _, [], _, hw, _, _ => pure hw rfl
  | m :: params, v :: args, w, hw, hf, hv => by
    refine (define hw hf hb m.text (hv v List.mem_cons_self)).bind fun _ _ w' hle hw' _ => ?_
    rw [← hle.image f hf.lt]
    exact bindParams hb hw' (hf.mono hle) fun v' hv' => (hv v' (List.mem_cons_of_mem _ hv')).mono hle

/-- The methods of a class are made in a frame that a frame for their receivers will lie in. -/
theorem makeMethods : ∀ {ms ms' : List Fun} {made : Bindings FunctionId} {w : Paring},
    Pared w → MethodsShed (false :: ls) ms ms' → w.Fits ls f →
      (∀ name m, made.get? name = some m → w.Offers m) →
        Tracks w (makeMethods f ms made) (makeMethods (w.image f) ms' made) Paring.Collects
  | [], _, _, _, hw, .nil, _, hmade => pure hw ⟨rfl, hmade⟩
  | m :: ms, m' :: _, made, w, hw, .cons hm hms, hf, hmade => by
    unfold Lox.makeMethods
    rw [hm.name_eq]
    refine (newFunction hw f hm fun _ => busy_inside).bind
      fun _ id w' hle hw' ⟨heq, hspells, hlies, hframe⟩ => ?_
    subst heq
    rw [← hle.image f hf.lt]
    refine makeMethods hw' hms (hf.mono hle) fun other k hk => ?_
    rw [Bindings.get?_bind] at hk
    split at hk
    · cases hk
      refine ⟨hlies, ls, hspells, ?_⟩
      rw [hframe]
      exact hf.mono hle
    · exact (hmade other k hk).mono hle

theorem methodFrame (hw : Pared w) (hf : w.Fits ls f) (superclass : Option ClassId) :
    Tracks w (methodFrame superclass f) (methodFrame superclass (w.image f))
      (Paring.Leads (if superclass.isSome then false :: ls else ls)) := by
  cases superclass with
  | none => exact pure hw ⟨rfl, hf⟩
  | some cls =>
    refine (newFrame hw hf).bind fun g g' w' _ hw' ⟨heq, hg⟩ => ?_
    subst heq
    refine (define hw' hg busy_inside "super" (v := .classRef cls) trivial).bind
      fun _ _ w'' hle hw'' _ => ?_
    exact pure hw'' ⟨(hle.image g hg.lt).symm, hg.mono hle⟩

variable (h : inner.Tracks)
include h

theorem invoke (hw : Pared w) {id : FunctionId} {outer : FrameId} (hc : w.Calls id outer)
    {args : List Value} (hargs : ∀ v ∈ args, w.Known v) :
    Tracks w (invoke inner id outer args) (invoke inner id (w.image outer) args) Paring.Gives := by
  obtain ⟨ls, ⟨_, hinit, hbusy, hdecl⟩, hfits⟩ := hc
  refine bind_read ?_
  rw [hinit]
  generalize (w.left.function id).isInitializer = isInitializer at hbusy
  generalize (w.left.function id).decl = decl, (w.right.function id).decl = decl' at hdecl
  obtain @⟨_, _, params, body, body', hbody⟩ := hdecl
  refine (newFrame hw hfits).bind fun f f' w₁ hle₁ hw₁ ⟨heq, hf⟩ => ?_
  subst heq
  refine (bindParams busy_inside hw₁ hf fun v hv => (hargs v hv).mono hle₁).bind
    fun _ _ w₂ hle₂ hw₂ _ => ?_
  rw [← hle₂.image f hf.lt]
  have hcalled : ∀ {w s s'}, Pared w → s.Sheds (false :: ls) s' → w.Fits (false :: ls) f →
      Tracks w (inner.called s f) (inner.called s' (w.image f)) Paring.Ends :=
    fun hw hs hf => h.called hw hs hf
  refine (execBody hcalled hw₂ hbody (hf.mono hle₂)).bind fun flow flow' w₃ hle₃ hw₃ hflow => ?_
  have hle := hle₁.trans (hle₂.trans hle₃)
  cases isInitializer with
  | true =>
    rw [← hle.image outer hfits.lt]
    exact getAt hw₃ (hfits.mono hle) (d := 0) (hbusy rfl) (by simp) (fun _ => rfl) "this"
  | false =>
    cases hflow with
    | next => exact pure hw₃ ⟨rfl, trivial⟩
    | returning hv => exact pure hw₃ ⟨rfl, hv⟩

theorem apply (hw : Pared w) {v : Value} (hv : w.Known v) {args : List Value}
    (hargs : ∀ v ∈ args, w.Known v) :
    Tracks w (apply inner v args) (apply inner v args) Paring.Gives := by
  cases v with
  | const _ | instanceRef _ => exact pure hw ⟨rfl, trivial⟩
  | native n =>
    cases n
    refine (tick hw).bind fun t t' _ _ hw₁ heq => ?_
    subst heq
    exact pure hw₁ ⟨rfl, trivial⟩
  | function id =>
    obtain ⟨hlies, hcalls⟩ := hv
    refine bind_read ?_
    rw [hlies]
    exact invoke h hw hcalls hargs
  | method id =>
    obtain ⟨-, hmethod, hcalls⟩ := hv
    refine bind_read ?_
    rw [hmethod]
    exact invoke h hw hcalls hargs
  | classRef cls =>
    refine (newInstance hw cls).bind fun _ object w₁ hle₁ hw₁ heq => ?_
    subst heq
    refine read (hw₁.findMethod? cls Store.initName) ?_
    cases hm : w₁.left.findMethod? cls Store.initName with
    | none => exact pure hw₁ ⟨rfl, trivial⟩
    | some m =>
      refine (receiverFrame hw₁ (hw₁.offers_of_findMethod? hm) (v := .instanceRef object)
        trivial).bind fun g g' w₂ hle₂ hw₂ ⟨heq, hc⟩ => ?_
      subst heq
      refine (invoke h hw₂ hc fun v hv => (hargs v hv).mono (hle₁.trans hle₂)).discard.bind
        fun _ _ w₃ _ hw₃ _ => pure hw₃ ⟨rfl, trivial⟩

theorem callWith (hw : Pared w) {v : Value} (hv : w.Known v) {args : List Value}
    (hargs : ∀ v ∈ args, w.Known v) {offset : Option Int} (ho : offset.isSome = true) :
    Tracks w (callWith inner v args offset) (callWith inner v args offset) Paring.Gives := by
  refine read (hw.arity? hv) ?_
  cases w.left.arity? v with
  | none => exact fail hw _ ho
  | some expected => exact ite (apply h hw hv hargs) (fail hw _ ho)

theorem evalArgs : ∀ {es es' : List Expr} {w : Paring}, Pared w →
    List.Forall₂ (Expr.Sheds ls) es es' → w.Fits ls f →
      Tracks w (evalArgs inner es f) (evalArgs inner es' (w.image f))
        fun w' vs vs' => vs' = vs ∧ ∀ v ∈ vs, w'.Known v
  | [], _, _, hw, .nil, _ => pure hw ⟨rfl, fun _ hv => nomatch hv⟩
  | e :: es, _, w, hw, .cons he hes, hf => by
    refine (h.expr hw he hf).bind fun _ v w₁ hle₁ hw₁ ⟨heq, hv⟩ => ?_
    subst heq
    rw [← hle₁.image f hf.lt]
    refine (evalArgs hw₁ hes (hf.mono hle₁)).bind fun _ vs w₂ hle₂ hw₂ ⟨heq, hvs⟩ => ?_
    subst heq
    exact pure hw₂ ⟨rfl, List.forall_mem_cons.mpr ⟨hv.mono hle₂, hvs⟩⟩

theorem evalExpr (hw : Pared w) {e e' : Expr} (he : e.Sheds ls e') (hf : w.Fits ls f) :
    Tracks w (evalExpr inner e f) (evalExpr inner e' (w.image f)) Paring.Gives := by
  cases he with
  | literal value => exact pure hw ⟨rfl, trivial⟩
  | grouping he => exact h.expr hw he hf
  | «variable» hu | receiver hu =>
    show Tracks w (inner.access.look _ f) (inner.access.look _ (w.image f)) _
    rw [h.recorded]
    exact look hw hf hu
  | assign hu he =>
    refine (h.expr hw he hf).bind fun _ v w' hle hw' ⟨heq, hv⟩ => ?_
    subst heq
    rw [h.recorded, ← hle.image f hf.lt]
    refine (store hw' (hf.mono hle) hu hv).bind fun _ _ _ hle' hw'' _ => ?_
    exact pure hw'' ⟨rfl, hv.mono hle'⟩
  | unary ho he =>
    refine (h.expr hw he hf).bind fun _ v _ _ hw' ⟨heq, _⟩ => ?_
    subst heq
    exact unaryResult hw' ho v
  | binary hl ho hr =>
    refine (h.expr hw hl hf).bind fun _ u w₁ hle₁ hw₁ ⟨heq, hu⟩ => ?_
    subst heq
    rw [← hle₁.image f hf.lt]
    refine (h.expr hw₁ hr (hf.mono hle₁)).bind fun _ v w₂ hle₂ hw₂ ⟨heq, hv⟩ => ?_
    subst heq
    exact binaryResult hw₂ ho (hu.mono hle₂) hv
  | logical hl hr =>
    refine (h.expr hw hl hf).bind fun _ v w' hle hw' ⟨heq, hv⟩ => ?_
    subst heq
    rw [← hle.image f hf.lt]
    exact ite (pure hw' ⟨rfl, hv⟩) (h.expr hw' hr (hf.mono hle))
  | ternary hc hy hn =>
    refine (h.expr hw hc hf).bind fun _ v w' hle hw' ⟨heq, _⟩ => ?_
    subst heq
    rw [← hle.image f hf.lt]
    exact ite (h.expr hw' hy (hf.mono hle)) (h.expr hw' hn (hf.mono hle))
  | call hc hp hargs =>
    refine (h.expr hw hc hf).bind fun _ v w₁ hle₁ hw₁ ⟨heq, hv⟩ => ?_
    subst heq
    rw [← hle₁.image f hf.lt]
    refine (evalArgs h hw₁ hargs (hf.mono hle₁)).bind fun _ vs w₂ hle₂ hw₂ ⟨heq, hvs⟩ => ?_
    subst heq
    exact callWith h hw₂ (hv.mono hle₂) hvs hp
  | get he hn =>
    refine (h.expr hw he hf).bind fun _ v _ _ hw' ⟨heq, _⟩ => ?_
    subst heq
    exact getProperty hw' v hn
  | set ho hn hv =>
    refine (h.expr hw ho hf).bind fun _ o w₁ hle₁ hw₁ ⟨heq, _⟩ => ?_
    subst heq
    cases o with
    | const _ | native _ | function _ | method _ | classRef _ => exact fail hw₁ _ hn
    | instanceRef id =>
      dsimp only
      rw [← hle₁.image f hf.lt]
      refine (h.expr hw₁ hv (hf.mono hle₁)).bind fun _ v w₂ _ hw₂ ⟨heq, hv⟩ => ?_
      subst heq
      exact (setProperty hw₂ id _ hv).bind fun _ _ _ hle₃ hw₃ _ => pure hw₃ ⟨rfl, hv.mono hle₃⟩
  | superMethod hu hthis hm => exact superProperty hw hf hu hthis hm

theorem evalOption (hw : Pared w) {e e' : Option Expr} (he : Option.Rel (Expr.Sheds ls) e e')
    (hf : w.Fits ls f) :
    Tracks w (evalOption inner e f) (evalOption inner e' (w.image f)) Paring.Gives := by
  cases he with
  | none => exact pure hw ⟨rfl, trivial⟩
  | some he => exact h.expr hw he hf

theorem execLoop {cond cond' : Expr} {body body' : Stmt} (hcond : cond.Sheds ls cond')
    (hbody : body.Sheds ls body') : ∀ {turns : Nat} {w : Paring}, Pared w → w.Fits ls f →
      Tracks w (execLoop inner cond body f turns) (execLoop inner cond' body' (w.image f) turns)
        Paring.Ends
  | 0, _, hw, _ => halt hw (.same rfl)
  | turns + 1, w, hw, hf => by
    refine (h.expr hw hcond hf).bind fun _ v w₁ hle₁ hw₁ ⟨heq, _⟩ => ?_
    subst heq
    rw [← hle₁.image f hf.lt]
    have hf₁ := hf.mono hle₁
    refine ite ?_ (pure hw₁ .next)
    refine (h.stmt hw₁ hbody hf₁).bind fun flow flow' w₂ hle₂ hw₂ hflow => ?_
    cases hflow with
    | next =>
      rw [← hle₂.image f hf₁.lt]
      exact execLoop hcond hbody hw₂ (hf₁.mono hle₂)
    | returning hv => exact pure hw₂ (.returning hv)

theorem evalSuperclass (hw : Pared w) {use use' : NameUse} (hu : use.Sheds ls use')
    (hf : w.Fits ls f) :
    Tracks w (evalSuperclass inner use f) (evalSuperclass inner use' (w.image f))
      Paring.Equal := by
  refine (h.expr hw (.variable hu) hf).bind fun _ v w' _ hw' ⟨heq, _⟩ => ?_
  subst heq
  cases v with
  | classRef cls => exact pure hw' rfl
  | const _ | native _ | function _ | method _ | instanceRef _ =>
    rw [hu.name]
    exact fail hw' _ hu.placed

omit h in
/-- A class once its superclass is known. -/
theorem finishClass (hw : Pared w) (name : Mark) (superclass : Option ClassId) {ms ms' : List Fun}
    (hms : MethodsShed (false :: if superclass.isSome then false :: ls else ls) ms ms')
    (hf : w.Fits ls f) (hb : Busy ls 0) :
    Tracks w
      (do
        Run.define f name.text .nil
        let inside ← Lox.methodFrame superclass f
        let made ← Lox.makeMethods inside ms .empty
        let cls ← Run.newClass ⟨name.text, superclass, made⟩
        Run.assign f name (.classRef cls))
      (do
        Run.define (w.image f) name.text .nil
        let inside ← Lox.methodFrame superclass (w.image f)
        let made ← Lox.makeMethods inside ms' .empty
        let cls ← Run.newClass ⟨name.text, superclass, made⟩
        Run.assign (w.image f) name (.classRef cls)) Paring.Equal := by
  refine (define hw hf hb name.text (v := .nil) trivial).bind fun _ _ w₁ hle₁ hw₁ hbinds => ?_
  rw [← hle₁.image f hf.lt]
  have hf₁ := hf.mono hle₁
  refine (methodFrame hw₁ hf₁ superclass).bind fun inside _ w₂ hle₂ hw₂ ⟨heq, hinside⟩ => ?_
  subst heq
  have hempty : ∀ {w : Paring} name m, Bindings.empty.get? name = some m → w.Offers m :=
    fun _ _ hk => nomatch hk
  refine (makeMethods hw₂ hms hinside hempty).bind
    fun _ made w₃ hle₃ hw₃ ⟨heq, hmade⟩ => ?_
  subst heq
  refine (newClass hw₃ hmade).bind fun _ cls w₄ hle₄ hw₄ heq => ?_
  subst heq
  have hle := hle₂.trans (hle₃.trans hle₄)
  rw [← hle.image f hf₁.lt]
  exact assignBound hw₄ (hf₁.mono hle) hb (hle.bound f _ hbinds) trivial

theorem execStmt (hw : Pared w) {s s' : Stmt} (hs : s.Sheds ls s') (hf : w.Fits ls f) :
    Tracks w (execStmt inner s f) (execStmt inner s' (w.image f)) Paring.Ends := by
  cases hs with
  | expr he => exact (h.expr hw he hf).effect
  | print he =>
    refine (h.expr hw he hf).bind fun _ v _ _ hw' ⟨heq, hv⟩ => ?_
    subst heq
    exact (print hw' hv).bind fun _ _ _ _ hw'' _ => pure hw'' .next
  | @var _ name _ _ hb he =>
    refine (evalOption h hw he hf).bind fun _ v w' hle hw' ⟨heq, hv⟩ => ?_
    subst heq
    rw [← hle.image f hf.lt]
    exact (define hw' (hf.mono hle) hb name.text hv).bind fun _ _ _ _ hw'' _ => pure hw'' .next
  | block hbody =>
    refine (newFrame hw hf).bind fun g g' w' _ hw' ⟨heq, hg⟩ => ?_
    subst heq
    have hstmt : ∀ {w s s'}, Pared w → s.Sheds (false :: ls) s' → w.Fits (false :: ls) g →
        Tracks w (inner.stmt s g) (inner.stmt s' (w.image g)) Paring.Ends :=
      fun hw hs hf => h.stmt hw hs hf
    exact execBody hstmt hw' hbody hg
  | branch hc hy =>
    refine (h.expr hw hc hf).bind fun _ v w' hle hw' ⟨heq, _⟩ => ?_
    subst heq
    rw [← hle.image f hf.lt]
    exact ite (h.stmt hw' hy (hf.mono hle)) (pure hw' .next)
  | branchElse hc hy hn =>
    refine (h.expr hw hc hf).bind fun _ v w' hle hw' ⟨heq, _⟩ => ?_
    subst heq
    rw [← hle.image f hf.lt]
    exact ite (h.stmt hw' hy (hf.mono hle)) (h.stmt hw' hn (hf.mono hle))
  | loop hc hbody => exact execLoop h hc hbody hw hf
  | function hb hd =>
    have hnone : false = true → Busy ls 0 := fun hi => nomatch hi
    refine (newFunction hw f hd hnone).bind
      fun _ id w' hle hw' ⟨heq, hspells, hlies, hframe⟩ => ?_
    subst heq
    have hf' := hf.mono hle
    have hknown : w'.Known (.function id) := by
      refine ⟨hlies, ls, hspells, ?_⟩
      rw [hframe]
      exact hf'
    rw [← hle.image f hf.lt, hd.name_eq]
    exact (define hw' hf' hb _ hknown).bind fun _ _ _ _ hw'' _ => pure hw'' .next
  | giveBack he =>
    refine (evalOption h hw he hf).bind fun _ v _ _ hw' ⟨heq, hv⟩ => ?_
    subst heq
    exact pure hw' (.returning hv)
  | @classDecl _ name _ _ hb hms =>
    exact (finishClass hw name none hms hf hb).bind fun _ _ _ _ hw' _ => pure hw' .next
  | @subclass _ name use use' ms ms' hb hu hms =>
    have hsuper : Tracks w (some <$> Lox.evalSuperclass inner use f)
        (some <$> Lox.evalSuperclass inner use' (w.image f))
        fun _ cls cls' => cls' = cls ∧ cls.isSome = true :=
      (evalSuperclass h hw hu hf).bind fun _ _ _ _ hw' heq => pure hw' ⟨congrArg some heq, rfl⟩
    have hclass : Tracks w (execClass inner name (some use) ms f)
        (execClass inner name (some use') ms' (w.image f)) Paring.Equal := by
      refine hsuper.bind fun _ cls w' hle hw' ⟨heq, hcls⟩ => ?_
      subst heq
      rw [← hle.image f hf.lt]
      exact finishClass hw' name cls (by rwa [if_pos hcls]) (hf.mono hle) hb
    exact hclass.bind fun _ _ _ _ hw' _ => pure hw' .next

end Run.Tracks

namespace Evaluator

/-- Evaluation with any number of steps left leads from such stores to such stores. -/
theorem tracks_within (turns : Nat) : ∀ steps spent, (within .recorded turns steps spent).Tracks
  | 0, _ => by
    unfold within
    exact ⟨rfl, fun hw _ _ => .halt hw (.same rfl), fun hw _ _ => .halt hw (.same rfl),
      fun hw _ _ => .halt hw (.same rfl)⟩
  | steps + 1, spent + 1 => by
    unfold within
    exact tracks_within turns steps spent
  | steps + 1, 0 => by
    unfold within
    refine ⟨rfl, fun hw he hf => ?_, fun hw hs hf => ?_, fun hw hs hf => ?_⟩ <;> dsimp only
    · rw [he.stepsIn_eq]
      exact .placed _ _ (.evalExpr (tracks_within turns steps _) hw he hf)
    · rw [hs.stepsIn_eq]
      exact .placed _ _ (.execStmt (tracks_within turns steps _) hw hs hf)
    · rw [hs.stepsIn_eq]
      exact .placed _ _ (.execStmt (tracks_within turns steps _) hw hs hf)

end Evaluator

end Lox
