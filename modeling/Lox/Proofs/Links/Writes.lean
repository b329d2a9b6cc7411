/-
# What is written into a store

A run changes its store by single writes (`Lox.Store.Write`): a frame is made
inside one that is there, a class above one that is there, a function or bound
method in a frame that is there; a name or field is bound to a value, lines are
printed, and the clock goes on. No write changes a link of what is there already. So in every
store that writes lead to, links lead to what was there before
(`Lox.Store.Grounded`), however names are bound anew: what a name stands for
may change, what a frame lies in and what a class inherits from may not.

Key definitions: `Lox.Value.ExistsIn`, `Lox.Store.Write`, `Lox.Store.Path`, `Lox.Store.Extends`,
`Lox.Store.Grounded`.
Key theorems: `Lox.Store.Write.extended`, `Lox.Store.Write.grounded`, `Lox.Store.Path.extended`,
`Lox.Store.Path.grounded`.
-/
import Lox.Proofs.Links.Chains

namespace Lox

/-- A class that the value refers to is in the store. -/
def Value.ExistsIn (s : Store) : Value → Prop
  | .classRef c => c < s.classes.size
  | _ => True

namespace Store

/-- One thing is written. -/
inductive Write (s : Store) : Store → Prop
  | frame {p : FrameId} : p < s.frames.size → Write s (s.withFrame (some p))
  | binding (f : FrameId) (name : String) {v : Value} : v.ExistsIn s → Write s (s.define f name v)
  | function {closure : Closure} : closure.frame < s.frames.size → Write s (s.withFunction closure)
  | method {bound : BoundMethod} : bound.frame < s.frames.size → Write s (s.withMethod bound)
  | cls {cls : ClassObject} : (∀ p, cls.superclass = some p → p < s.classes.size) →
      Write s (s.withClass cls)
  | object (c : ClassId) : Write s (s.withInstance c)
  | field (i : InstanceId) (name : String) {v : Value} : v.ExistsIn s → Write s (s.setField i name v)
  | output (lines : Array String) : Write s { s with output := lines }
  | clock : Write s s.ticked

/-- Writes lead from the first store to the last, through these stores behind the first. -/
inductive Path : Store → List Store → Store → Prop
  | here (s : Store) : Path s [] s
  | write {s t u : Store} {later : List Store} : s.Write t → Path t later u → Path s (t :: later) u

/-- Everything of the first store is there in the second: frames lie in the same frames, classes have
the same superclasses, functions and bound methods are as they were. -/
structure Extends (s t : Store) : Prop where
  frames : s.frames.size ≤ t.frames.size
  parent : ∀ f < s.frames.size, t.parent? f = s.parent? f
  classes : s.classes.size ≤ t.classes.size
  superclass : ∀ c < s.classes.size, t.superclass? c = s.superclass? c
  functions : s.functions.size ≤ t.functions.size
  function : ∀ id < s.functions.size, t.function id = s.function id
  methods : s.methods.size ≤ t.methods.size
  method : ∀ id < s.methods.size, t.method id = s.method id

/-- Links lead to what was there before: a frame that is not the globals lies in an earlier one, a
class is above an earlier one; functions and bound methods lie in frames, and what is bound refers to
classes, that are there. -/
structure Grounded (s : Store) : Prop where
  root : globals < s.frames.size
  outermost : s.parent? globals = none
  parent : ∀ f < s.frames.size, f ≠ globals → ∃ p < f, s.parent? f = some p
  superclass : ∀ c p, s.superclass? c = some p → p < c
  function : ∀ id, (s.function id).frame < s.frames.size
  method : ∀ id, (s.method id).frame < s.frames.size
  var : ∀ f name v, (s.frame f).vars.get? name = some v → v.ExistsIn s
  field : ∀ i name v, (s.instanceObject i).fields.get? name = some v → v.ExistsIn s

variable {s t u : Store}

/-! ### What is there stays -/

namespace Extends

theorem refl (s : Store) : s.Extends s :=
  ⟨Nat.le_refl _, fun _ _ => rfl, Nat.le_refl _, fun _ _ => rfl, Nat.le_refl _, fun _ _ => rfl,
    Nat.le_refl _, fun _ _ => rfl⟩

theorem trans (h : s.Extends t) (g : t.Extends u) : s.Extends u where
  frames := Nat.le_trans h.frames g.frames
  parent f hf := (g.parent f (Nat.lt_of_lt_of_le hf h.frames)).trans (h.parent f hf)
  classes := Nat.le_trans h.classes g.classes
  superclass c hc := (g.superclass c (Nat.lt_of_lt_of_le hc h.classes)).trans (h.superclass c hc)
  functions := Nat.le_trans h.functions g.functions
  function id hid := (g.function id (Nat.lt_of_lt_of_le hid h.functions)).trans (h.function id hid)
  methods := Nat.le_trans h.methods g.methods
  method id hid := (g.method id (Nat.lt_of_lt_of_le hid h.methods)).trans (h.method id hid)

theorem existsIn (h : s.Extends t) {v : Value} (hv : v.ExistsIn s) : v.ExistsIn t := by
  cases v with
  | classRef c => exact Nat.lt_of_lt_of_le hv h.classes
  | const _ | native _ | function _ | method _ | instanceRef _ => trivial

end Extends

/-- A write leaves everything in its place. -/
theorem Write.extended (h : s.Write t) : s.Extends t := by
  have hsame := Extends.refl s
  cases h with
  | frame hp =>
    exact { hsame with
      frames := by simp [withFrame]
      parent := fun f hf => by rw [parent?, frame_withFrame, if_neg (Nat.ne_of_lt hf)]; rfl }
  | binding f name hv =>
    exact { hsame with
      frames := by simp [define]
      parent := fun g _ => by
        rw [parent?, frame_define]
        split <;> rfl }
  | function hc =>
    exact { hsame with
      functions := by simp [withFunction]
      function := fun id hid => by rw [function_withFunction, if_neg (Nat.ne_of_lt hid)] }
  | method hb =>
    exact { hsame with
      methods := by simp [withMethod]
      method := fun id hid => by rw [method_withMethod, if_neg (Nat.ne_of_lt hid)] }
  | cls hc =>
    exact { hsame with
      classes := by simp [withClass]
      superclass := fun c hlt => by
        rw [superclass?, classObject_withClass, if_neg (Nat.ne_of_lt hlt)]
        rfl }
  | object c | field i name hv | output lines | clock => exact { hsame with }

/-! ### Links lead to what was there before -/

/-- A frame is made inside one that is there. -/
theorem Grounded.withFrame (hs : s.Grounded) {p : FrameId} (hp : p < s.frames.size) :
    (s.withFrame (some p)).Grounded := by
  have hsize : (s.withFrame (some p)).frames.size = s.frames.size + 1 := by simp [Store.withFrame]
  have hext := (Write.frame hp).extended
  refine { hs with
    root := Nat.lt_of_lt_of_le hs.root hext.frames
    outermost := (hext.parent _ hs.root).trans hs.outermost
    parent := fun f hf hne => ?_
    function := fun id => Nat.lt_of_lt_of_le (hs.function id) hext.frames
    method := fun id => Nat.lt_of_lt_of_le (hs.method id) hext.frames
    var := fun f name v hv => ?_ }
  · by_cases hold : f < s.frames.size
    · rw [hext.parent f hold]
      exact hs.parent f hold hne
    · obtain rfl : f = s.frames.size := by omega
      refine ⟨p, hp, ?_⟩
      rw [parent?, frame_withFrame, if_pos rfl]
  · rw [frame_withFrame] at hv
    split at hv
    · cases hv
    · exact hs.var f name v hv

/-- A name is bound to a value. -/
theorem Grounded.define (hs : s.Grounded) (f : FrameId) (name : String) {v : Value}
    (hv : v.ExistsIn s) : (s.define f name v).Grounded := by
  have hsize : (s.define f name v).frames.size = s.frames.size := by simp [Store.define]
  have hext := (Write.binding f name hv).extended
  refine { hs with
    root := Nat.lt_of_lt_of_le hs.root hext.frames
    outermost := (hext.parent _ hs.root).trans hs.outermost
    parent := fun g hg hne => ?_
    function := fun id => Nat.lt_of_lt_of_le (hs.function id) hext.frames
    method := fun id => Nat.lt_of_lt_of_le (hs.method id) hext.frames
    var := fun g other u hu => ?_ }
  · rw [hsize] at hg
    rw [hext.parent g hg]
    exact hs.parent g hg hne
  · rw [frame_define] at hu
    split at hu
    · rw [Bindings.get?_bind] at hu
      split at hu
      · cases hu
        exact hext.existsIn hv
      · exact hext.existsIn (hs.var g other u hu)
    · exact hext.existsIn (hs.var g other u hu)

/-- A write makes links only to what is there. -/
theorem Write.grounded (h : s.Write t) (hs : s.Grounded) : t.Grounded := by
  have hext := h.extended
  cases h with
  | frame hp => exact hs.withFrame hp
  | binding f name hv => exact hs.define f name hv
  | function hc =>
    refine { hs with function := fun id => ?_ }
    rw [function_withFunction]
    split
    · exact hc
    · exact hs.function id
  | method hb =>
    refine { hs with method := fun id => ?_ }
    rw [method_withMethod]
    split
    · exact hb
    · exact hs.method id
  | cls hc =>
    refine { hs with
      superclass := fun c p hp => ?_
      var := fun f name v hv => hext.existsIn (hs.var f name v hv)
      field := fun i name v hv => hext.existsIn (hs.field i name v hv) }
    rw [superclass?, classObject_withClass] at hp
    split at hp
    · rename_i hnew
      exact hnew ▸ hc p hp
    · exact hs.superclass c p hp
  | object c =>
    refine { hs with field := fun i name v hv => ?_ }
    rw [instanceObject_withInstance] at hv
    split at hv
    · cases hv
    · exact hs.field i name v hv
  | field i name hv =>
    refine { hs with field := fun j other u hu => ?_ }
    rw [instanceObject_setField] at hu
    split at hu
    · rw [Bindings.get?_bind] at hu
      split at hu
      · cases hu
        exact hext.existsIn hv
      · exact hext.existsIn (hs.field j other u hu)
    · exact hext.existsIn (hs.field j other u hu)
  | output lines | clock => exact { hs with }

theorem Grounded.initial (clock : Clock) : (initial clock).Grounded where
  root := Nat.zero_lt_one
  outermost := rfl
  parent f hf hne := absurd (Nat.lt_one_iff.mp hf) hne
  superclass _ _ hp := nomatch hp
  function _ := Nat.zero_lt_one
  method _ := Nat.zero_lt_one
  var f name v hv := by
    have hb : (Store.initial clock).Binds f name := Option.isSome_of_mem hv
    obtain rfl : f = globals := Nat.lt_one_iff.mp hb.lt
    have hvars : ((Store.initial clock).frame globals).vars =
        Bindings.empty.bind Native.clock.name (.native .clock) := rfl
    rw [hvars, Bindings.get?_bind] at hv
    split at hv
    · cases hv
      trivial
    · cases hv
  field _ _ _ hv := nomatch hv

/-! ### Along a path -/

namespace Path

variable {ps qs : List Store}

theorem append (h : Path s ps t) (h' : Path t qs u) : Path s (ps ++ qs) u := by
  induction h with
  | here _ => exact h'
  | write hw _ ih => exact .write hw (ih h')

theorem last_mem (h : Path s ps t) : t ∈ s :: ps := by
  induction h with
  | here _ => exact List.mem_cons_self
  | write _ _ ih => exact List.mem_cons_of_mem _ ih

/-- Each store on the way extends the first one, and is extended by the last. -/
theorem extended (h : Path s ps t) : ∀ u ∈ s :: ps, s.Extends u ∧ u.Extends t := by
  induction h with
  | here s =>
    intro u hu
    obtain rfl := List.mem_singleton.mp hu
    exact ⟨.refl _, .refl _⟩
  | @write s₁ s₂ _ _ hw _ ih =>
    intro u hu
    obtain rfl | hu := List.mem_cons.mp hu
    · exact ⟨.refl _, hw.extended.trans (ih s₂ List.mem_cons_self).2⟩
    · exact ⟨hw.extended.trans (ih u hu).1, (ih u hu).2⟩

/-- On the way links lead to what was there before. -/
theorem grounded (h : Path s ps t) (hs : s.Grounded) : ∀ u ∈ s :: ps, u.Grounded := by
  induction h with
  | here s =>
    intro u hu
    obtain rfl := List.mem_singleton.mp hu
    exact hs
  | write hw _ ih => exact List.forall_mem_cons.mpr ⟨hs, ih (hw.grounded hs)⟩

end Path

end Store

end Lox
