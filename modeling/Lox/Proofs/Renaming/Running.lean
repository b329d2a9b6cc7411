/-
# Running with names exchanged

From twins an evaluation and the one of a tree that follows the exchange lead
to twins, with the same values and the same errors (`Lox.Run.Mimics`). What
they print is the same, since names are not shown; only a divergence of the
records from the frames tells the name that was not found. A new frame of a
block or a call has the names exchanged as the tree says; one that binds the
receiver or the superclass has not.

Key definitions: `Lox.Fault.nameless`, `Lox.Run.Mimics`, `Lox.Evaluator.Mimics`.
Key theorems: `Lox.Run.Mimics.bind`, `Lox.Run.Mimics.evalExpr`, `Lox.Run.Mimics.execStmt`,
`Lox.Evaluator.mimics_within`, `Lox.Run.Mimics.interpretWith`.
-/
import Lox.Proofs.Renaming.Twins

namespace Lox

open Procedure

/-- The fault without the name that a divergence tells. -/
def Fault.nameless : Fault → Fault
  | .diverged _ => .diverged .unresolvedSuper
  | fault => fault

theorem Fault.eq_or_diverged {fault fault' : Fault} (h : fault'.nameless = fault.nameless) :
    fault' = fault ∨ ∃ d d', fault = .diverged d ∧ fault' = .diverged d' := by
  cases fault <;> cases fault' <;> simp_all [nameless]

theorem Mark.Keeps.eq {r : Respelling} {m : Mark} (h : m.Keeps r) (hr : r.Still) :
    m.respell r = m := by
  obtain ⟨kind, text, offset⟩ := m
  have htext : r.text offset text = text := h
  simp [respell, htext, hr.offset_eq]

namespace Run

variable {α β γ : Type} {c : Exchange} {w : Pair} {r : Respelling} {ls : List Bool} {f : FrameId}

/-- Both runs end with one result, of which something holds, or with one fault. -/
def Outcomes (Q : Pair → α → Prop) (w : Pair) : Except Fault α → Except Fault α → Prop
  | .ok a, .ok a' => a' = a ∧ Q w a
  | .error fault, .error fault' => fault'.nameless = fault.nameless
  | _, _ => False

/-- From these stores both runs lead to twins, and end alike. -/
def Mimics (c : Exchange) (w : Pair) (p p' : Run α) (Q : Pair → α → Prop) : Prop :=
  ∃ w', w.Le w' ∧ Twins c w' ∧ (p w.left).2 = w'.left ∧ (p' w.right).2 = w'.right ∧
    Outcomes Q w' (p w.left).1 (p' w.right).1

/-- Nothing is said of a result. -/
abbrev Whatever {α : Type} : Pair → α → Prop := fun _ _ => True

namespace Mimics

variable {p p' : Run α} {Q R : Pair → α → Prop}

theorem step (w' : Pair) {a : α} (hp : p w.left = (.ok a, w'.left))
    (hp' : p' w.right = (.ok a, w'.right)) (hle : w.Le w') (hw' : Twins c w') (hq : Q w' a) :
    Mimics c w p p' Q := by
  refine ⟨w', hle, hw', by rw [hp], by rw [hp'], ?_⟩
  rw [hp, hp']
  exact ⟨rfl, hq⟩

theorem pure (hw : Twins c w) {a : α} (hq : Q w a) :
    Mimics c w (Pure.pure a : Run α) (Pure.pure a) Q :=
  step w rfl rfl (.refl w) hw hq

theorem halt (hw : Twins c w) {fault fault' : Fault} (hf : fault'.nameless = fault.nameless) :
    Mimics c w (Procedure.halt fault : Run α) (Procedure.halt fault') Q :=
  ⟨w, .refl w, hw, rfl, rfl, hf⟩

theorem fail (hw : Twins c w) (cause : Cause) (offset : Option Int) :
    Mimics c w (Run.fail cause offset : Run α) (Run.fail cause offset) Q := halt hw rfl

theorem mono (h : Mimics c w p p' Q) (hq : ∀ w' a, Q w' a → R w' a) : Mimics c w p p' R := by
  obtain ⟨w', hle, hw', hleft, hright, hout⟩ := h
  refine ⟨w', hle, hw', hleft, hright, ?_⟩
  revert hout
  match (p w.left).1, (p' w.right).1 with
  | .ok a, .ok a' => exact fun ⟨heq, hqa⟩ => ⟨heq, hq w' a hqa⟩
  | .error _, .error _ => exact id
  | .ok _, .error _ | .error _, .ok _ => exact id

theorem bind {q q' : α → Run β} {S : Pair → β → Prop} (h : Mimics c w p p' Q)
    (hq : ∀ a w', w.Le w' → Twins c w' → Q w' a → Mimics c w' (q a) (q' a) S) :
    Mimics c w (p >>= q) (p' >>= q') S := by
  obtain ⟨w', hle, hw', hleft, hright, hout⟩ := h
  cases hp : p w.left with
  | mk result s =>
    cases hp' : p' w.right with
    | mk result' s' =>
      rw [hp] at hleft hout
      rw [hp'] at hright hout
      subst hleft hright
      match result, result' with
      | .ok a, .ok _ =>
        obtain ⟨rfl, hqa⟩ := hout
        unfold Mimics
        rw [bind_ok hp, bind_ok hp']
        obtain ⟨w'', hle', hrest⟩ := hq _ w' hle hw' hqa
        exact ⟨w'', hle.trans hle', hrest⟩
      | .error fault, .error fault' =>
        unfold Mimics
        rw [bind_error hp, bind_error hp']
        exact ⟨w', hle, hw', rfl, rfl, hout⟩

theorem discard (h : Mimics c w p p' Q) :
    Mimics c w (discard p) (discard p') Whatever :=
  have hbind : Mimics c w (p >>= fun _ => Pure.pure ()) (p' >>= fun _ => Pure.pure ()) Whatever :=
    h.bind fun _ _ _ hw' _ => pure hw' trivial
  hbind

/-- What the stores tell may be told apart. -/
theorem bind_read {g g' : Store → γ} {q q' : γ → Run α}
    (h : Mimics c w (q (g w.left)) (q' (g' w.right)) Q) :
    Mimics c w (Procedure.read g >>= q) (Procedure.read g' >>= q') Q := h

/-- Both stores tell the same. -/
theorem read {g g' : Store → γ} {q q' : γ → Run α} (hg : g' w.right = g w.left)
    (h : Mimics c w (q (g w.left)) (q' (g w.left)) Q) :
    Mimics c w (Procedure.read g >>= q) (Procedure.read g' >>= q') Q := by
  refine bind_read ?_
  rwa [hg]

theorem ite {P : Prop} [Decidable P] {q q' : Run α} (hp : Mimics c w p p' Q)
    (hq : Mimics c w q q' Q) : Mimics c w (if P then p else q) (if P then p' else q') Q := by
  split
  · exact hp
  · exact hq

theorem attach_nameless {fault fault' : Fault} (h : fault'.nameless = fault.nameless)
    (offset : Option Int) :
    (if fault'.isUnplaced then fault'.attach offset else fault').nameless =
      (if fault.isUnplaced then fault.attach offset else fault).nameless := by
  obtain rfl | ⟨_, _, rfl, rfl⟩ := Fault.eq_or_diverged h
  · rfl
  · rfl

theorem placed {offset offset' : Unit → Option Int} (h : Mimics c w p p' Q)
    (ho : offset' () = offset ()) : Mimics c w (Run.placed offset p) (Run.placed offset' p') Q := by
  obtain ⟨w', hle, hw', hleft, hright, hout⟩ := h
  cases hp : p w.left with
  | mk result s =>
    cases hp' : p' w.right with
    | mk result' s' =>
      rw [hp] at hleft hout
      rw [hp'] at hright hout
      refine ⟨w', hle, hw', ?_⟩
      unfold Run.placed mapHalt
      rw [hp, hp', ho]
      match result, result' with
      | .ok _, .ok _ => exact ⟨hleft, hright, hout⟩
      | .error _, .error _ => exact ⟨hleft, hright, attach_nameless hout _⟩

/-! ### Frames, functions and classes -/

variable (hw : Twins c w)
include hw

theorem newFrame (hf : w.Fits ls f) (b : Bool) :
    Mimics c w (Run.newFrame (some f)) (Run.newFrame (some f)) fun w' n => w'.Fits (b :: ls) n := by
  have hle := Pair.le_withFrame (w := w) (some f) b
  have hsize : w.left.frames.size < (w.withFrame (some f) b).left.frames.size := by
    simp [Pair.withFrame, Store.withFrame]
  refine step (w.withFrame (some f) b) rfl ?_ hle (hw.withFrame (some f) b) ?_
  · rw [← hw.frames]
    rfl
  · refine (hf.mono hle).inside hsize ?_ (if_pos rfl)
    show ((w.left.withFrame (some f)).frame _).parent = some f
    rw [Store.frame_withFrame, if_pos rfl]

theorem define (hf : f < w.left.frames.size) {name name' : String} {v : Value}
    (hn : name' = c.name (w.layer f) name) (hv : w.Known c v) :
    Mimics c w (Run.define f name v) (Run.define f name' v) fun w' _ => w'.left.Binds f name := by
  subst hn
  exact step (w.define c f name v) rfl rfl (Pair.le_define c name v hf) (hw.define hf hv)
    ((Store.binds_define hf).mpr (.inl ⟨rfl, rfl⟩))

theorem newFunction (hr : r.Still) (closure : Closure) (hc : functionFollows c r ls closure.decl) :
    Mimics c w (Run.newFunction closure) (Run.newFunction (closure.respell r)) fun w' id =>
      w'.Spells c ls id ∧ (w'.left.function id).frame = closure.frame := by
  have hleft : (w.withFunction r closure).left.function w.left.functions.size = closure :=
    (Store.function_withFunction ..).trans (if_pos rfl)
  have hright : (w.withFunction r closure).right.function w.left.functions.size = closure.respell r := by
    rw [← hw.functions]
    exact (Store.function_withFunction ..).trans (if_pos rfl)
  refine step (w.withFunction r closure) (a := w.left.functions.size) rfl ?_
    (Pair.le_withFunction hw r closure) (hw.withFunction r closure) ⟨⟨?_, r, hr, ?_, ?_⟩, ?_⟩
  · rw [← hw.functions]
    rfl
  · simp [Pair.withFunction, Store.withFunction]
  · rw [hleft, hright]
  · rw [hleft]
    exact hc
  · rw [hleft]

omit hw in
/-- A step that both take beside frames and functions. -/
theorem aside (hw : Twins c w) {p : Run α} {g : Store → α} {m : Store → Store}
    (hp : ∀ s, p s = (.ok (g s), m s)) (hg : g w.right = g w.left) (hm : Pair.Aside m)
    (hle : w.Le (w.both m))
    (hfields : ∀ i name v, ((m w.left).instanceObject i).fields.get? name = some v → w.Known c v)
    (hoffers : ∀ cls name k, ((m w.left).classObject cls).methods.get? name = some k →
      w.Offers c k) (hq : Q (w.both m) (g w.left)) : Mimics c w p p Q :=
  step (w.both m) (hp _) ((hp _).trans (by rw [hg]; rfl)) hle (hw.both hm hle hfields hoffers) hq

theorem tick : Mimics c w Run.tick Run.tick Whatever :=
  aside hw (m := Store.ticked) (fun _ => rfl) (congrArg Clock.next hw.clock) (fun _ _ _ => rfl)
    (Pair.le_both (fun _ _ _ => rfl) (Nat.le_refl _) fun _ _ => rfl) hw.knownFields hw.offers trivial

theorem emit (line : String) : Mimics c w (Run.emit line) (Run.emit line) Whatever :=
  aside hw (fun _ => rfl) rfl (fun _ _ _ => rfl)
    (Pair.le_both (fun _ _ _ => rfl) (Nat.le_refl _) fun _ _ => rfl) hw.knownFields hw.offers trivial

theorem print {v : Value} (hv : w.Known c v) :
    Mimics c w (Run.print v) (Run.print v) Whatever := read (hw.display hv) (emit hw _)

theorem newMethod {bound : BoundMethod} (hb : w.Calls c bound.function bound.frame) :
    Mimics c w (Run.newMethod bound) (Run.newMethod bound) fun w' id => w'.Known c (.method id) := by
  have hle : w.Le (w.both (·.withMethod bound)) := by
    refine Pair.le_both (fun _ _ _ => rfl) (by simp [Store.withMethod]) fun id hid => ?_
    exact (Store.method_withMethod ..).trans (if_neg (Nat.ne_of_lt hid))
  have hnew : (w.both (·.withMethod bound)).left.method w.left.methods.size = bound :=
    (Store.method_withMethod ..).trans (if_pos rfl)
  refine aside hw (m := (·.withMethod bound)) (g := (·.methods.size)) (fun _ => rfl) ?_
    (fun _ _ _ => rfl) hle hw.knownFields hw.offers ⟨?_, ?_⟩
  · rw [hw.rest]
  · simp [Pair.both, Store.withMethod]
  · rw [hnew]
    exact hb.mono hle

theorem newClass {cls : ClassObject}
    (hm : ∀ name k, cls.methods.get? name = some k → w.Offers c k) :
    Mimics c w (Run.newClass cls) (Run.newClass cls) Whatever := by
  refine aside hw (m := (·.withClass cls)) (g := (·.classes.size)) (fun _ => rfl) ?_
    (fun _ _ _ => rfl) (Pair.le_both (fun _ _ _ => rfl) (Nat.le_refl _) fun _ _ => rfl)
    hw.knownFields (fun id name k hk => ?_) trivial
  · rw [hw.rest]
  · rw [Store.classObject_withClass] at hk
    split at hk
    · exact hm name k hk
    · exact hw.offers id name k hk

theorem newInstance (cls : ClassId) :
    Mimics c w (Run.newInstance cls) (Run.newInstance cls) Whatever := by
  refine aside hw (m := (·.withInstance cls)) (g := (·.instances.size)) (fun _ => rfl) ?_
    (fun _ _ _ => rfl) (Pair.le_both (fun _ _ _ => rfl) (Nat.le_refl _) fun _ _ => rfl)
    (fun id name v hv => ?_) hw.offers trivial
  · rw [hw.rest]
  · rw [Store.instanceObject_withInstance] at hv
    split at hv
    · cases hv
    · exact hw.knownFields id name v hv

theorem setProperty (id : InstanceId) (name : Mark) {v : Value} (hv : w.Known c v) :
    Mimics c w (setProperty id name v) (setProperty id name v) Whatever := by
  refine aside hw (m := (·.setField id name.text v)) (fun _ => rfl) rfl (fun _ _ _ => rfl)
    (Pair.le_both (fun _ _ _ => rfl) (Nat.le_refl _) fun _ _ => rfl) (fun i other u hu => ?_)
    hw.offers trivial
  rw [Store.instanceObject_setField] at hu
  split at hu
  · rw [Bindings.get?_bind] at hu
    split at hu
    · cases hu
      exact hv
    · exact hw.knownFields i other u hu
  · exact hw.knownFields i other u hu

/-! ### Names -/

theorem get {m : Mark} (hm : m.Keeps r) (hr : r.Still) :
    Mimics c w (Run.get Store.globals m) (Run.get Store.globals (m.respell r))
      fun w' v => w'.Known c v := by
  rw [hm.eq hr]
  refine read (hw.get?_globals m.text) ?_
  cases hv : w.left.get? Store.globals m.text with
  | none => exact fail hw _ _
  | some v =>
    obtain ⟨h, -, hv⟩ := Option.bind_eq_some_iff.mp hv
    exact pure hw (hw.knownVars h m.text v hv)

theorem assignGlobal {m : Mark} (hm : m.Keeps r) (hr : r.Still) {v : Value} (hv : w.Known c v) :
    Mimics c w (Run.assign Store.globals m v) (Run.assign Store.globals (m.respell r) v)
      Whatever := by
  rw [hm.eq hr]
  refine read (hw.holder?_globals m.text).2 ?_
  rw [(hw.holder?_globals m.text).1]
  have hname : m.text = c.name (w.layer Store.globals) m.text := by
    rw [hw.layer]
    rfl
  cases (w.left.frame Store.globals).vars.contains m.text with
  | true => exact (define hw hw.root hname hv).mono fun _ _ _ => trivial
  | false => exact fail hw _ _

/-- The name is bound in the frame itself. -/
theorem assignBound {m : Mark} (hm : m.Keeps r) (hr : r.Still)
    (hn : c.name (w.layer f) m.text = m.text) (hb : w.left.Binds f m.text) {v : Value}
    (hv : w.Known c v) : Mimics c w (Run.assign f m v) (Run.assign f (m.respell r) v) Whatever := by
  have hright : w.right.Binds f m.text := by
    have hbinds := (hw.binds f m.text).mpr hb
    rwa [hn] at hbinds
  rw [hm.eq hr]
  refine bind_read ?_
  rw [Store.holder?_of_binds hb, Store.holder?_of_binds hright]
  exact (define hw hb.lt hn.symm hv).mono fun _ _ _ => trivial

theorem ancestor (hf : w.Fits ls f) (d : Int) :
    Mimics c w (Run.ancestor f d) (Run.ancestor f d) fun w' a =>
      a < w'.left.frames.size ∧ w'.layer a = ls.getD d.toNat false := by
  refine read (hw.ancestor? _ f) ?_
  cases ha : w.left.ancestor? d.toNat f with
  | none => exact halt hw rfl
  | some a => exact pure hw (hf d.toNat a ha)

theorem getAt (hf : w.Fits ls f) {d : Int} {name name' : String}
    (hn : name' = c.name (ls.getD d.toNat false) name) :
    Mimics c w (Run.getAt f d name) (Run.getAt f d name') fun w' v => w'.Known c v := by
  refine (ancestor hw hf d).bind fun a w' _ hw' ⟨_, hlayer⟩ => ?_
  have hvars := hw'.vars a name
  rw [hlayer, ← hn] at hvars
  refine read hvars ?_
  cases hv : (w'.left.frame a).vars.get? name with
  | none => exact halt hw' rfl
  | some v => exact pure hw' (hw'.knownVars a name v hv)

theorem assignAt (hf : w.Fits ls f) {d : Int} {name name' : String} {v : Value}
    (hn : name' = c.name (ls.getD d.toNat false) name) (hv : w.Known c v) :
    Mimics c w (Run.assignAt f d name v) (Run.assignAt f d name' v) Whatever := by
  refine (ancestor hw hf d).bind fun a w' hle hw' ⟨ha, hlayer⟩ => ?_
  have hvars := hw'.vars a name
  rw [hlayer, ← hn] at hvars
  refine read (congrArg Option.isSome hvars) (ite ?_ (halt hw' rfl))
  exact (define hw' ha (by rw [hn, hlayer]) (hv.mono hle)).mono fun _ _ _ => trivial

theorem look (hf : w.Fits ls f) (hr : r.Still) {use : NameUse} (hu : use.Follows c r ls) :
    Mimics c w (Access.recorded.look use f) (Access.recorded.look (use.respell r) f)
      fun w' v => w'.Known c v := by
  obtain ⟨m, hops⟩ := use
  cases hops with
  | none => exact get hw hu hr
  | some d => exact getAt hw hf hu

theorem store (hf : w.Fits ls f) (hr : r.Still) {use : NameUse} (hu : use.Follows c r ls)
    {v : Value} (hv : w.Known c v) :
    Mimics c w (Access.recorded.store use v f) (Access.recorded.store (use.respell r) v f)
      Whatever := by
  obtain ⟨m, hops⟩ := use
  cases hops with
  | none => exact assignGlobal hw hu hr hv
  | some d => exact assignAt hw hf hu hv

/-! ### Instances and operators -/

/-- The method can be called inside the frame that binds its receiver. -/
theorem receiverFrame {id : FunctionId} (ho : w.Offers c id) {v : Value} (hv : w.Known c v) :
    Mimics c w (receiverFrame id v) (receiverFrame id v)
      fun w' g => w'.Calls c id g := by
  obtain ⟨ls, hspells, hfits⟩ := ho
  refine read (Twins.function_alike hspells).2.2 ?_
  refine (newFrame hw hfits false).bind fun g w' hle hw' hg => ?_
  refine (define hw' hg.lt (c.name_this _).symm (hv.mono hle)).bind fun _ w'' hle' hw'' _ => ?_
  exact pure hw'' ⟨false :: ls, hspells.mono (hle.trans hle'), hg.mono hle'⟩

theorem bindMethod {id : FunctionId} (ho : w.Offers c id) {v : Value} (hv : w.Known c v) :
    Mimics c w (bindMethod id v) (bindMethod id v) fun w' v => w'.Known c v :=
  (receiverFrame hw ho hv).bind fun _ _ _ hw' hc => (newMethod hw' hc).bind fun _ _ _ hw'' hk =>
    pure hw'' hk

theorem getProperty (v : Value) (name : Mark) :
    Mimics c w (getProperty v name) (getProperty v name) fun w' v => w'.Known c v := by
  cases v with
  | const _ | native _ | function _ | method _ | classRef _ => exact fail hw _ _
  | instanceRef id =>
    refine read (by rw [hw.instanceObject]) ?_
    cases hv : (w.left.instanceObject id).fields.get? name.text with
    | some v => exact pure hw (hw.knownFields id name.text v hv)
    | none =>
      refine read (by rw [hw.findMethod?, hw.instanceObject]) ?_
      cases hm : w.left.findMethod? (w.left.instanceObject id).cls name.text with
      | some m => exact bindMethod hw (hw.offers_of_findMethod? hm) trivial
      | none => exact fail hw _ _

theorem superProperty (hf : w.Fits ls f) (hr : r.Still) (use : NameUse) {name : Mark}
    (hn : name.Keeps r) : Mimics c w (superProperty use name f)
      (superProperty (use.respell r) (name.respell r) f) fun w' v => w'.Known c v := by
  rw [hn.eq hr]
  unfold Lox.superProperty
  rw [NameUse.respell_hops]
  cases use.hops with
  | none => exact halt hw rfl
  | some d =>
    refine (getAt hw hf (c.name_super _).symm).bind fun superclass w' hle hw' _ => ?_
    refine (getAt hw' (hf.mono hle) (c.name_this _).symm).bind fun receiver w'' _ hw'' hv => ?_
    refine read (hw''.methodOf? superclass name.text) ?_
    cases hm : w''.left.methodOf? superclass name.text with
    | some m => exact bindMethod hw'' (hw''.offers_of_methodOf? hm) hv
    | none => exact fail hw'' _ _

theorem unaryResult (op : Mark) (v : Value) :
    Mimics c w (unaryResult op v) (unaryResult op v) fun w' v => w'.Known c v := by
  unfold Lox.unaryResult
  split
  · split
    · exact pure hw trivial
    · exact fail hw _ _
  · exact pure hw trivial
  · exact fail hw _ _

theorem joinOrAdd (op : Mark) {u v : Value} (hu : w.Known c u) (hv : w.Known c v) :
    Mimics c w (joinOrAdd op u v) (joinOrAdd op u v) fun w' v => w'.Known c v := by
  unfold Lox.joinOrAdd
  split
  · exact pure hw trivial
  · exact read (hw.display hv) (pure hw trivial)
  · exact read (hw.display hu) (pure hw trivial)
  · exact fail hw _ _

theorem binaryResult (op : Mark) {u v : Value} (hu : w.Known c u) (hv : w.Known c v) :
    Mimics c w (binaryResult op u v) (binaryResult op u v) fun w' v => w'.Known c v := by
  unfold Lox.binaryResult
  split
  · exact joinOrAdd hw op hu hv
  · exact pure hw trivial
  · exact pure hw trivial
  · split
    · exact fail hw _ _
    · split
      · obtain ⟨_, hconst⟩ := arithmetic?_const ‹_› _ _
        rw [hconst]
        exact pure hw trivial
      · exact fail hw _ _

end Mimics

end Run

/-! ### Evaluations -/

/-- What a statement gives back, if anything, is known. -/
def Pair.Ends (c : Exchange) (w : Pair) : Flow → Prop
  | .next => True
  | .returning v => w.Known c v

/-- The evaluations further in lead from twins to twins, in frames that fit. -/
structure Evaluator.Mimics (c : Exchange) (inner : Evaluator) : Prop where
  recorded : inner.access = .recorded
  expr : ∀ {w r ls e f}, Twins c w → r.Still → e.Follows c r ls → w.Fits ls f →
    Run.Mimics c w (inner.expr e f) (inner.expr (e.respell r) f) fun w' v => w'.Known c v
  stmt : ∀ {w r ls s f}, Twins c w → r.Still → s.Follows c r ls → w.Fits ls f →
    Run.Mimics c w (inner.stmt s f) (inner.stmt (s.respell r) f) (Pair.Ends c)
  called : ∀ {w r ls s f}, Twins c w → r.Still → s.Follows c r ls → w.Fits ls f →
    Run.Mimics c w (inner.called s f) (inner.called (s.respell r) f) (Pair.Ends c)

namespace Run.Mimics

variable {c : Exchange} {w : Pair} {r : Respelling} {ls : List Bool} {f : FrameId}
  {inner : Evaluator}

/-- Statements in order: each binds its names in the frame, which goes on to fit. -/
theorem execBody {exec : Stmt → FrameId → Run Flow}
    (hexec : ∀ {w s}, Twins c w → s.Follows c r ls → w.Fits ls f →
      Mimics c w (exec s f) (exec (s.respell r) f) (Pair.Ends c)) :
    ∀ {body : List Stmt} {w : Pair}, Twins c w → bodyFollows c r ls body → w.Fits ls f →
      Mimics c w (execBody exec body f) (execBody exec (bodyRespell r body) f) (Pair.Ends c)
  | [], _, hw, _, _ => pure hw trivial
  | s :: body, _, hw, hb, hf => by
    refine (hexec hw hb.1 hf).bind fun flow w' hle hw' hflow => ?_
    cases flow with
    | next => exact execBody hexec hw' hb.2 (hf.mono hle)
    | returning v => exact pure hw' hflow

theorem bindParams : ∀ {params : List Mark} {args : List Value} {w : Pair}, Twins c w →
    w.Fits ls f → (∀ m ∈ params, m.Declares c r ls) → (∀ v ∈ args, w.Known c v) →
      Mimics c w (bindParams f params args) (bindParams f (params.map (Mark.respell r)) args) Whatever
  | [], _, _, hw, _, _, _ => pure hw trivial
  | _ :: _, [], _, hw, _, _, _ => pure hw trivial
  | m :: params, v :: args, _, hw, hf, hm, hv => by
    have hname : (m.respell r).text = c.name _ m.text := hm m List.mem_cons_self
    rw [← hf.layer_eq] at hname
    refine (define hw hf.lt hname (hv v List.mem_cons_self)).bind fun _ w' hle hw' _ => ?_
    exact bindParams hw' (hf.mono hle) (fun m' hm' => hm m' (List.mem_cons_of_mem _ hm'))
      fun v' hv' => (hv v' (List.mem_cons_of_mem _ hv')).mono hle

/-- The methods of a class are made in a frame that a frame for their receivers will lie in. -/
theorem makeMethods (hr : r.Still) : ∀ {ms : List Fun} {made : Bindings FunctionId} {w : Pair},
    Twins c w → methodsFollow c r (false :: ls) ms → w.Fits ls f →
      (∀ name k, made.get? name = some k → w.Offers c k) →
        Mimics c w (makeMethods f ms made) (makeMethods f (methodsRespell r ms) made)
          fun w' made => ∀ name k, made.get? name = some k → w'.Offers c k
  | [], _, _, hw, _, _, hmade => pure hw hmade
  | ⟨name, params, body⟩ :: ms, made, w, hw, hms, hf, hmade => by
    have hname : name.respell r = name := Mark.Keeps.eq hms.1.1 hr
    have hmake := newFunction hw hr ⟨⟨name, params, body⟩, f, name.text = Store.initName⟩
      hms.1
    have hboth : Mimics c w
        (Run.newFunction ⟨⟨name, params, body⟩, f, name.text = Store.initName⟩ >>= fun id =>
          Lox.makeMethods f ms (made.bind name.text id))
        (Run.newFunction ⟨functionRespell r ⟨name, params, body⟩, f, name.text = Store.initName⟩ >>=
          fun id => Lox.makeMethods f (methodsRespell r ms) (made.bind name.text id))
        fun w' made => ∀ name k, made.get? name = some k → w'.Offers c k := by
      refine hmake.bind fun id w' hle hw' ⟨hspells, hframe⟩ => ?_
      refine makeMethods hr hw' hms.2 (hf.mono hle) fun other k hk => ?_
      rw [Bindings.get?_bind] at hk
      split at hk
      · cases hk
        refine ⟨ls, hspells, ?_⟩
        rw [hframe]
        exact hf.mono hle
      · exact (hmade other k hk).mono hle
    simpa only [Lox.makeMethods, methodsRespell, functionRespell, hname] using hboth

theorem methodFrame (hw : Twins c w) (hf : w.Fits ls f) (superclass : Option ClassId) :
    Mimics c w (methodFrame superclass f) (methodFrame superclass f)
      fun w' g => w'.Fits (if superclass.isSome then false :: ls else ls) g := by
  cases superclass with
  | none => exact pure hw hf
  | some cls =>
    refine (newFrame hw hf false).bind fun g w' _ hw' hg => ?_
    refine (define hw' hg.lt (c.name_super _).symm (v := .classRef cls) trivial).bind
      fun _ w'' hle hw'' _ => ?_
    exact pure hw'' (hg.mono hle)

variable (h : inner.Mimics c)
include h

theorem invoke (hw : Twins c w) {id : FunctionId} {outer : FrameId} (hc : w.Calls c id outer)
    {args : List Value} (hargs : ∀ v ∈ args, w.Known c v) :
    Mimics c w (invoke inner id outer args) (invoke inner id outer args)
      fun w' v => w'.Known c v := by
  obtain ⟨ls, ⟨_, r, hr, hspelled, hfollows⟩, hfits⟩ := hc
  refine bind_read ?_
  rw [hspelled]
  generalize w.left.function id = closure at hfollows
  obtain ⟨⟨name, params, body⟩, frame, isInitializer⟩ := closure
  obtain ⟨-, b, hparams, hbody⟩ := hfollows
  refine (newFrame hw hfits b).bind fun f w₁ hle₁ hw₁ hf => ?_
  refine (bindParams hw₁ hf hparams fun v hv => (hargs v hv).mono hle₁).bind fun _ w₂ hle₂ hw₂ _ => ?_
  have hcalled : ∀ {w s}, Twins c w → s.Follows c r (b :: ls) → w.Fits (b :: ls) f →
      Mimics c w (inner.called s f) (inner.called (s.respell r) f) (Pair.Ends c) :=
    fun hw hs hf => h.called hw hr hs hf
  refine (execBody hcalled hw₂ hbody (hf.mono hle₂)).bind fun flow w₃ hle₃ hw₃ hflow => ite ?_ ?_
  · exact getAt hw₃ (hfits.mono (hle₁.trans (hle₂.trans hle₃))) (c.name_this _).symm
  · cases flow with
    | next => exact pure hw₃ trivial
    | returning v => exact pure hw₃ hflow

theorem apply (hw : Twins c w) {v : Value} (hv : w.Known c v) {args : List Value}
    (hargs : ∀ v ∈ args, w.Known c v) :
    Mimics c w (apply inner v args) (apply inner v args) fun w' v => w'.Known c v := by
  cases v with
  | const _ | instanceRef _ => exact pure hw trivial
  | native n =>
    cases n
    exact (tick hw).bind fun _ _ _ hw₁ _ => pure hw₁ trivial
  | function id =>
    have hframe : (w.right.function id).frame = (w.left.function id).frame := by
      obtain ⟨_, hspells, _⟩ := hv
      exact (Twins.function_alike hspells).2.2
    exact read hframe (invoke h hw hv hargs)
  | method id => exact read (hw.method id) (invoke h hw hv.2 hargs)
  | classRef cls =>
    refine (newInstance hw cls).bind fun object w₁ hle₁ hw₁ _ => ?_
    refine read (hw₁.findMethod? cls Store.initName) ?_
    cases hm : w₁.left.findMethod? cls Store.initName with
    | none => exact pure hw₁ trivial
    | some m =>
      refine (receiverFrame hw₁ (hw₁.offers_of_findMethod? hm)
        (v := .instanceRef object) trivial).bind fun g w₂ hle₂ hw₂ hc => ?_
      refine (invoke h hw₂ hc fun v hv => (hargs v hv).mono (hle₁.trans hle₂)).discard.bind
        fun _ w₃ _ hw₃ _ => pure hw₃ trivial

theorem callWith (hw : Twins c w) {v : Value} (hv : w.Known c v) {args : List Value}
    (hargs : ∀ v ∈ args, w.Known c v) (offset : Option Int) :
    Mimics c w (callWith inner v args offset) (callWith inner v args offset)
      fun w' v => w'.Known c v := by
  refine read (hw.arity? hv) ?_
  cases w.left.arity? v with
  | none => exact fail hw _ _
  | some expected => exact ite (apply h hw hv hargs) (fail hw _ _)

theorem evalArgs (hr : r.Still) : ∀ {es : List Expr} {w : Pair}, Twins c w →
    argsFollow c r ls es → w.Fits ls f →
      Mimics c w (evalArgs inner es f) (evalArgs inner (argsRespell r es) f)
        fun w' vs => ∀ v ∈ vs, w'.Known c v
  | [], _, hw, _, _ => pure hw fun _ hv => nomatch hv
  | e :: es, _, hw, he, hf => by
    refine (h.expr hw hr he.1 hf).bind fun v w₁ hle₁ hw₁ hv => ?_
    refine (evalArgs hr hw₁ he.2 (hf.mono hle₁)).bind fun vs w₂ hle₂ hw₂ hvs => ?_
    exact pure hw₂ (List.forall_mem_cons.mpr ⟨hv.mono hle₂, hvs⟩)

theorem evalExpr (hw : Twins c w) (hr : r.Still) {e : Expr} (he : e.Follows c r ls)
    (hf : w.Fits ls f) :
    Mimics c w (evalExpr inner e f) (evalExpr inner (e.respell r) f) fun w' v => w'.Known c v := by
  cases e with
  | literal value => exact pure hw trivial
  | grouping e => exact h.expr hw hr he hf
  | «variable» use | receiver use =>
    show Mimics c w (inner.access.look use f) (inner.access.look (use.respell r) f) _
    rw [h.recorded]
    exact look hw hf hr he
  | assign use value =>
    refine (h.expr hw hr he.2 hf).bind fun v w' hle hw' hv => ?_
    rw [h.recorded]
    exact (store hw' (hf.mono hle) hr he.1 hv).bind fun _ _ hle' hw'' _ => pure hw'' (hv.mono hle')
  | unary op e =>
    rw [Expr.respell, Mark.Keeps.eq he.1 hr]
    exact (h.expr hw hr he.2 hf).bind fun v _ _ hw' _ => unaryResult hw' op v
  | binary l op r' =>
    rw [Expr.respell, Mark.Keeps.eq he.2.1 hr]
    refine (h.expr hw hr he.1 hf).bind fun u w₁ hle₁ hw₁ hu => ?_
    refine (h.expr hw₁ hr he.2.2 (hf.mono hle₁)).bind fun v w₂ hle₂ hw₂ hv => ?_
    exact binaryResult hw₂ op (hu.mono hle₂) hv
  | logical l op r' =>
    refine (h.expr hw hr he.1 hf).bind fun v w' hle hw' hv => ite (pure hw' hv) ?_
    exact h.expr hw' hr he.2.2 (hf.mono hle)
  | ternary cond yes no =>
    refine (h.expr hw hr he.1 hf).bind fun v w' hle hw' _ => ite ?_ ?_
    · exact h.expr hw' hr he.2.1 (hf.mono hle)
    · exact h.expr hw' hr he.2.2 (hf.mono hle)
  | call callee paren args =>
    refine (h.expr hw hr he.1 hf).bind fun v w₁ hle₁ hw₁ hv => ?_
    refine (evalArgs h hr hw₁ he.2 (hf.mono hle₁)).bind fun vs w₂ hle₂ hw₂ hvs => ?_
    rw [Mark.respell_offset, hr.offset_eq]
    exact callWith h hw₂ (hv.mono hle₂) hvs _
  | get e name =>
    rw [Expr.respell, Mark.Keeps.eq he.2 hr]
    exact (h.expr hw hr he.1 hf).bind fun v _ _ hw' _ => getProperty hw' v name
  | set object name value =>
    rw [Expr.respell, Mark.Keeps.eq he.2.1 hr]
    refine (h.expr hw hr he.1 hf).bind fun o w₁ hle₁ hw₁ _ => ?_
    cases o with
    | const _ | native _ | function _ | method _ | classRef _ => exact fail hw₁ _ _
    | instanceRef id =>
      refine (h.expr hw₁ hr he.2.2 (hf.mono hle₁)).bind fun v w₂ _ hw₂ hv => ?_
      exact (setProperty hw₂ id name hv).bind fun _ _ hle₃ hw₃ _ => pure hw₃ (hv.mono hle₃)
  | superMethod use method => exact superProperty hw hf hr use he.2
  | stray node => exact halt hw rfl

theorem evalOption (hw : Twins c w) (hr : r.Still) {e : Option Expr} (he : optionFollows c r ls e)
    (hf : w.Fits ls f) :
    Mimics c w (evalOption inner e f) (evalOption inner (e.map (Expr.respell r)) f)
      fun w' v => w'.Known c v := by
  cases e with
  | none => exact pure hw trivial
  | some e => exact h.expr hw hr he hf

theorem execLoop (hr : r.Still) {cond : Expr} {body : Stmt} (hcond : cond.Follows c r ls)
    (hbody : body.Follows c r ls) : ∀ {turns : Nat} {w : Pair}, Twins c w → w.Fits ls f →
      Mimics c w (execLoop inner cond body f turns)
        (execLoop inner (cond.respell r) (body.respell r) f turns) (Pair.Ends c)
  | 0, _, hw, _ => halt hw rfl
  | turns + 1, _, hw, hf => by
    refine (h.expr hw hr hcond hf).bind fun v w₁ hle₁ hw₁ _ => ite ?_ (pure hw₁ trivial)
    have hf₁ := hf.mono hle₁
    refine (h.stmt hw₁ hr hbody hf₁).bind fun flow w₂ hle₂ hw₂ hflow => ?_
    cases flow with
    | next => exact execLoop hr hcond hbody hw₂ (hf₁.mono hle₂)
    | returning v => exact pure hw₂ hflow

theorem evalSuperclass (hw : Twins c w) (hr : r.Still) {use : NameUse} (hu : use.Follows c r ls)
    (hf : w.Fits ls f) :
    Mimics c w (evalSuperclass inner use f) (evalSuperclass inner (use.respell r) f) Whatever := by
  refine (h.expr (e := .variable use) hw hr hu hf).bind fun v w' _ hw' _ => ?_
  cases v with
  | classRef cls => exact pure hw' trivial
  | const _ | native _ | function _ | method _ | instanceRef _ =>
    rw [NameUse.respell_name, Mark.respell_offset, hr.offset_eq]
    exact fail hw' _ _

omit h in
/-- A class once its superclass is known. -/
theorem finishClass (hw : Twins c w) (hr : r.Still) {name : Mark} (hkeeps : name.Keeps r)
    (hname : name.Declares c r ls) (superclass : Option ClassId) {ms : List Fun}
    (hms : methodsFollow c r (false :: if superclass.isSome then false :: ls else ls) ms)
    (hf : w.Fits ls f) :
    Mimics c w
      (do
        Run.define f name.text .nil
        let inside ← Lox.methodFrame superclass f
        let made ← Lox.makeMethods inside ms .empty
        let cls ← Run.newClass ⟨name.text, superclass, made⟩
        Run.assign f name (.classRef cls))
      (do
        Run.define f (name.respell r).text .nil
        let inside ← Lox.methodFrame superclass f
        let made ← Lox.makeMethods inside (methodsRespell r ms) .empty
        let cls ← Run.newClass ⟨(name.respell r).text, superclass, made⟩
        Run.assign f (name.respell r) (.classRef cls)) Whatever := by
  have hdeclared : (name.respell r).text = c.name (w.layer f) name.text := by
    rw [hf.layer_eq]
    exact hname
  have hempty : ∀ {w : Pair} name k, Bindings.empty.get? name = some k → w.Offers c k :=
    fun _ _ hk => nomatch hk
  refine (define hw hf.lt hdeclared (v := .nil) trivial).bind fun _ w₁ hle₁ hw₁ hbinds => ?_
  refine (methodFrame hw₁ (hf.mono hle₁) superclass).bind fun inside w₂ hle₂ hw₂ hinside => ?_
  refine (makeMethods hr hw₂ hms hinside hempty).bind
    fun made w₃ hle₃ hw₃ hmade => ?_
  rw [hkeeps]
  refine (newClass hw₃ hmade).bind fun cls w₄ hle₄ hw₄ _ => ?_
  have hle : w.Le w₄ := hle₁.trans (hle₂.trans (hle₃.trans hle₄))
  refine assignBound hw₄ hkeeps hr ?_ ((hle₂.trans (hle₃.trans hle₄)).bound f _ hbinds) trivial
  rw [hle.layer f hf.lt, ← hdeclared]
  exact hkeeps

theorem execClass (hw : Twins c w) (hr : r.Still) {name : Mark} {superclass : Option NameUse}
    {ms : List Fun} (hs : (Stmt.classDecl name superclass ms).Follows c r ls) (hf : w.Fits ls f) :
    Mimics c w (execClass inner name superclass ms f)
      (execClass inner (name.respell r) (superclass.map (NameUse.respell r)) (methodsRespell r ms) f)
      Whatever := by
  cases superclass with
  | none =>
    obtain ⟨hkeeps, hname, hms⟩ := hs
    exact finishClass hw hr hkeeps hname none hms hf
  | some use =>
    obtain ⟨hkeeps, hname, huse, hms⟩ := hs
    have hsuper : Mimics c w (some <$> Lox.evalSuperclass inner use f)
        (some <$> Lox.evalSuperclass inner (use.respell r) f) fun _ cls => cls.isSome = true :=
      (evalSuperclass h hw hr huse hf).bind fun _ _ _ hw' _ => pure hw' rfl
    refine hsuper.bind fun cls w' hle hw' hcls => ?_
    exact finishClass hw' hr hkeeps hname cls (by rwa [if_pos hcls]) (hf.mono hle)

theorem execStmt (hw : Twins c w) (hr : r.Still) {s : Stmt} (hs : s.Follows c r ls)
    (hf : w.Fits ls f) :
    Mimics c w (execStmt inner s f) (execStmt inner (s.respell r) f) (Pair.Ends c) := by
  cases s with
  | expr e => exact (h.expr hw hr hs hf).discard.bind fun _ _ _ hw' _ => pure hw' trivial
  | print e =>
    refine (h.expr hw hr hs hf).bind fun v _ _ hw' hv => ?_
    exact (print hw' hv).bind fun _ _ _ hw'' _ => pure hw'' trivial
  | var name initial =>
    refine (evalOption h hw hr hs.2 hf).bind fun v w' hle hw' hv => ?_
    have hf' := hf.mono hle
    have hname : (name.respell r).text = c.name (w'.layer f) name.text := by
      rw [hf'.layer_eq]
      exact hs.1
    exact (define hw' hf'.lt hname hv).bind fun _ _ _ hw'' _ => pure hw'' trivial
  | block body =>
    obtain ⟨b, hb⟩ := hs
    refine (newFrame hw hf b).bind fun g w' _ hw' hg => ?_
    have hstmt : ∀ {w s}, Twins c w → s.Follows c r (b :: ls) → w.Fits (b :: ls) g →
        Mimics c w (inner.stmt s g) (inner.stmt (s.respell r) g) (Pair.Ends c) :=
      fun hw hs hf => h.stmt hw hr hs hf
    exact execBody hstmt hw' hb hg
  | branch cond yes no =>
    cases no with
    | none =>
      refine (h.expr hw hr hs.1 hf).bind fun v w' hle hw' _ => ite ?_ (pure hw' trivial)
      exact h.stmt hw' hr hs.2 (hf.mono hle)
    | some no =>
      refine (h.expr hw hr hs.1 hf).bind fun v w' hle hw' _ => ite ?_ ?_
      · exact h.stmt hw' hr hs.2.1 (hf.mono hle)
      · exact h.stmt hw' hr hs.2.2 (hf.mono hle)
  | loop cond body => exact execLoop h hr hs.1 hs.2 hw hf
  | function decl =>
    obtain ⟨name, params, body⟩ := decl
    obtain ⟨hname, hfollows⟩ := hs
    refine (newFunction hw hr ⟨⟨name, params, body⟩, f, false⟩ hfollows).bind
      fun id w' hle hw' ⟨hspells, hframe⟩ => ?_
    have hf' := hf.mono hle
    have hname : (name.respell r).text = c.name (w'.layer f) name.text := by
      rw [hf'.layer_eq]
      exact hname
    have hknown : w'.Known c (.function id) := by
      refine ⟨ls, hspells, ?_⟩
      rw [hframe]
      exact hf'
    exact (define hw' hf'.lt hname hknown).bind fun _ _ _ hw'' _ => pure hw'' trivial
  | giveBack keyword value =>
    exact (evalOption h hw hr hs hf).bind fun v _ _ hw' hv => pure hw' hv
  | classDecl name superclass ms =>
    exact (execClass h hw hr hs hf).bind fun _ _ _ hw' _ => pure hw' trivial
  | stray node => exact halt hw rfl

end Run.Mimics

namespace Evaluator

/-- Evaluation with any number of steps left leads from twins to twins. -/
theorem mimics_within (c : Exchange) (turns : Nat) :
    ∀ steps spent, (within .recorded turns steps spent).Mimics c
  | 0, _ => by
    unfold within
    exact ⟨rfl, fun hw _ _ _ => .halt hw rfl, fun hw _ _ _ => .halt hw rfl,
      fun hw _ _ _ => .halt hw rfl⟩
  | steps + 1, spent + 1 => by
    unfold within
    exact mimics_within c turns steps spent
  | steps + 1, 0 => by
    unfold within
    refine ⟨rfl, fun hw hr he hf => ?_, fun hw hr hs hf => ?_, fun hw hr hs hf => ?_⟩ <;> dsimp only
    · rw [Expr.stepsIn_respell]
      refine .placed (.evalExpr (mimics_within c turns steps _) hw hr he hf) ?_
      rw [Expr.offset?_respell (hr none), hr.map_eq]
    · rw [Stmt.stepsIn_respell]
      refine .placed (.execStmt (mimics_within c turns steps _) hw hr hs hf) ?_
      rw [Stmt.offset?_respell (hr none), hr.map_eq]
    · rw [Stmt.stepsIn_respell]
      refine .placed (.execStmt (mimics_within c turns steps _) hw hr hs hf) ?_
      rw [Stmt.offset?_respell (hr none), hr.map_eq]

end Evaluator

/-! ### Programs -/

namespace Run.Mimics

variable {c : Exchange} {w : Pair} {r : Respelling}

/-- Both runs report the same, and a fault that is not reported stays one in both. -/
theorem reported {p p' : Run Unit} (h : Mimics c w p p' Whatever) {start start' : Unit → Option Int}
    (hstart : start' () = start ()) :
    Mimics c w (Lox.reported start p) (Lox.reported start' p') Whatever := by
  obtain ⟨w', hle, hw', hleft, hright, hout⟩ := h
  refine ⟨w', hle, hw', ?_⟩
  unfold Lox.reported
  rw [hstart]
  cases hp : p w.left with
  | mk result s =>
    cases hp' : p' w.right with
    | mk result' s' =>
      rw [hp] at hleft hout
      rw [hp'] at hright hout
      match result, result' with
      | .ok _, .ok _ => exact ⟨hleft, hright, rfl, trivial⟩
      | .error fault, .error fault' =>
        obtain rfl | ⟨_, _, rfl, rfl⟩ := Fault.eq_or_diverged hout
        · dsimp only
          cases fault'.diagnostic? (start ()) with
          | none => exact ⟨hleft, hright, rfl⟩
          | some d => exact ⟨hleft, hright, rfl, trivial⟩
        · exact ⟨hleft, hright, rfl⟩

theorem interpretWith {evaluator : Evaluator} (h : evaluator.Mimics c) (hr : r.Still) :
    ∀ {stmts : List Stmt} {w : Pair}, Twins c w → bodyFollows c r [] stmts →
      Mimics c w (interpretWith evaluator stmts) (interpretWith evaluator (bodyRespell r stmts))
        Whatever
  | [], _, hw, _ => pure hw trivial
  | s :: stmts, _, hw, hs => by
    have hstmt := (h.stmt hw hr hs.1 hw.fits_globals).discard
    refine (reported hstmt ?_).bind fun ds _ _ hw' _ => ?_
    · rw [Stmt.offset?_respell (hr none), hr.map_eq]
    · cases ds with
      | nil => exact interpretWith h hr hw' hs.2
      | cons d ds => exact pure hw' trivial

end Run.Mimics

end Lox
