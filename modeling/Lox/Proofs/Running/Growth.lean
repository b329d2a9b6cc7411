/-
# What the steps of a run add to a world

Each way in which a run changes its store is a step on worlds: a new frame for
an opener, a name bound in a frame, a new function, bound method, class or
instance, a field, a line printed, a look at the clock. The world grows by each of them, and stays
sound if what is stored was known.

Key definitions: `Lox.World.withFrame`, `Lox.World.set`.
Key theorems: `Lox.World.le_withFrame`, `Lox.World.le_define`, `Lox.Sound.withFrame`,
`Lox.Sound.define`.
-/
import Lox.Proofs.Running.World

namespace Lox

namespace Store

variable (s : Store)

def withFrame (parent : Option FrameId) : Store :=
  { s with frames := s.frames.push ⟨parent, .empty⟩ }

def withFunction (closure : Closure) : Store :=
  { s with functions := s.functions.push closure }

def withMethod (bound : BoundMethod) : Store := { s with methods := s.methods.push bound }

def withClass (cls : ClassObject) : Store := { s with classes := s.classes.push cls }

def withInstance (cls : ClassId) : Store :=
  { s with instances := s.instances.push ⟨cls, .empty⟩ }

/-- Once the clock was looked at. -/
def ticked : Store := { s with clock := s.clock.later }

theorem getD_push {α : Type} (xs : Array α) (x d : α) (i : Nat) :
    (xs.push x).getD i d = if i = xs.size then x else xs.getD i d := by
  simp only [Array.getD_eq_getD_getElem?, Array.getElem?_push]
  split <;> rfl

theorem getD_modify {α : Type} (xs : Array α) (g : α → α) (d : α) (i j : Nat) :
    (xs.modify i g).getD j d = if j = i ∧ i < xs.size then g (xs.getD j d) else xs.getD j d := by
  simp only [Array.getD_eq_getD_getElem?, Array.getElem?_modify]
  by_cases hij : i = j
  · subst hij
    by_cases hi : i < xs.size <;> simp [hi]
  · simp [hij, Ne.symm hij]

theorem frame_withFrame (parent : Option FrameId) (f : FrameId) :
    (s.withFrame parent).frame f = if f = s.frames.size then ⟨parent, .empty⟩ else s.frame f :=
  getD_push ..

theorem function_withFunction (closure : Closure) (id : FunctionId) :
    (s.withFunction closure).function id =
      if id = s.functions.size then closure else s.function id :=
  getD_push ..

theorem method_withMethod (bound : BoundMethod) (id : MethodId) :
    (s.withMethod bound).method id = if id = s.methods.size then bound else s.method id :=
  getD_push ..

theorem classObject_withClass (cls : ClassObject) (id : ClassId) :
    (s.withClass cls).classObject id = if id = s.classes.size then cls else s.classObject id :=
  getD_push ..

theorem instanceObject_withInstance (cls : ClassId) (id : InstanceId) :
    (s.withInstance cls).instanceObject id =
      if id = s.instances.size then ⟨cls, .empty⟩ else s.instanceObject id :=
  getD_push ..

theorem frame_define (f : FrameId) (name : String) (v : Value) (g : FrameId) :
    (s.define f name v).frame g =
      if g = f ∧ f < s.frames.size then
        { s.frame g with vars := (s.frame g).vars.bind name v }
      else s.frame g :=
  getD_modify ..

theorem instanceObject_setField (i : InstanceId) (name : String) (v : Value) (j : InstanceId) :
    (s.setField i name v).instanceObject j =
      if j = i ∧ i < s.instances.size then
        { s.instanceObject j with fields := (s.instanceObject j).fields.bind name v }
      else s.instanceObject j :=
  getD_modify ..

variable {s}

theorem binds_withFrame {parent : Option FrameId} {f : FrameId} {name : String} :
    (s.withFrame parent).Binds f name ↔ f ≠ s.frames.size ∧ s.Binds f name := by
  unfold Binds
  rw [frame_withFrame]
  split
  · rename_i hf
    simp [hf, Bindings.contains]
  · rename_i hf
    simp [hf]

theorem contains_bind {α : Type} (b : Bindings α) (name other : String) (a : α) :
    (b.bind name a).contains other = true ↔ other = name ∨ b.contains other = true := by
  simp only [Bindings.contains, Bindings.get?_bind]
  split <;> simp_all

theorem binds_define {f : FrameId} {name : String} {v : Value} {g : FrameId} {other : String}
    (hf : f < s.frames.size) :
    (s.define f name v).Binds g other ↔ (g = f ∧ other = name) ∨ s.Binds g other := by
  unfold Binds
  rw [frame_define]
  by_cases hg : g = f
  · rw [if_pos ⟨hg, hf⟩, contains_bind]
    simp [hg]
  · rw [if_neg (fun h => hg h.1)]
    simp [hg]

end Store

namespace World

/-- The world with another store, in which the old frames are the instances that they were. -/
def set (w : World) (s : Store) : World := ⟨w.labels, s⟩

/-- The world with a new frame, for an opener. -/
def withFrame (w : World) (parent : FrameId) (o : Opener) : World :=
  ⟨fun f => if f = w.store.frames.size then o else w.labels f, w.store.withFrame (some parent)⟩

variable {w : World}

/-- A step that leaves the frames alone. -/
theorem le_of_frames {s : Store} (hframes : s.frames = w.store.frames)
    (hfunctions : w.store.functions.size ≤ s.functions.size)
    (hfunction : ∀ id < w.store.functions.size, s.function id = w.store.function id)
    (hmethods : w.store.methods.size ≤ s.methods.size)
    (hmethod : ∀ id < w.store.methods.size, s.method id = w.store.method id) :
    w.Le none (w.set s) := by
  have hframe : ∀ f, s.frame f = w.store.frame f := fun f => by rw [Store.frame, hframes]; rfl
  refine ⟨?_, fun _ _ => rfl, fun f _ => ?_, fun f _ name h => ?_, fun f _ _ name h => ?_,
    hfunctions, hfunction, hmethods, hmethod⟩
  · exact Nat.le_of_eq (congrArg Array.size hframes.symm)
  · exact congrArg Frame.parent (hframe f)
  · unfold Store.Binds at h ⊢
    rwa [show (w.set s).store.frame f = _ from hframe f]
  · unfold Store.Binds at h ⊢
    rwa [show (w.set s).store.frame f = _ from hframe f] at h

theorem le_withFrame (parent : FrameId) (o : Opener) : w.Le none (w.withFrame parent o) := by
  have hold : ∀ f < w.store.frames.size, f ≠ w.store.frames.size := fun _ hf => Nat.ne_of_lt hf
  refine ⟨?_, fun f hf => if_neg (hold f hf), fun f hf => ?_, fun f hf name h => ?_,
    fun f hf _ name h => ?_, Nat.le_refl _, fun _ _ => rfl, Nat.le_refl _, fun _ _ => rfl⟩
  · simp [withFrame, Store.withFrame]
  · show ((w.store.withFrame (some parent)).frame f).parent = _
    rw [Store.frame_withFrame, if_neg (hold f hf)]
  · exact Store.binds_withFrame.mpr ⟨hold f hf, h⟩
  · exact (Store.binds_withFrame.mp h).2

theorem le_define {f : FrameId} {name : String} {v : Value} (hf : f < w.store.frames.size) :
    w.Le (some f) (w.set (w.store.define f name v)) := by
  refine ⟨?_, fun _ _ => rfl, fun g _ => ?_, fun g _ other h => ?_, fun g _ hg other h => ?_,
    Nat.le_refl _, fun _ _ => rfl, Nat.le_refl _, fun _ _ => rfl⟩
  · simp [set, Store.define]
  · show ((w.store.define f name v).frame g).parent = _
    rw [Store.frame_define]
    split <;> rfl
  · exact (Store.binds_define hf).mpr (.inr h)
  · obtain ⟨rfl, _⟩ | h := (Store.binds_define hf).mp h
    · exact absurd rfl hg
    · exact h

/-- Binding a bound name anew. -/
theorem le_redefine {f : FrameId} {name : String} {v : Value} (hf : f < w.store.frames.size)
    (hb : w.store.Binds f name) : w.Le none (w.set (w.store.define f name v)) :=
  have h : w.Le (some f) (w.set (w.store.define f name v)) := le_define hf
  have still : ∀ g < w.store.frames.size, some g ≠ none → ∀ other,
      (w.set (w.store.define f name v)).store.Binds g other → w.store.Binds g other := by
    intro g _ _ other ho
    obtain ⟨rfl, rfl⟩ | ho := (Store.binds_define hf).mp ho
    · exact hb
    · exact ho
  { h with still }

/-- The world with a new frame that binds one name. -/
def binding (w : World) (parent : FrameId) (o : Opener) (name : String) (v : Value) : World :=
  (w.withFrame parent o).set ((w.withFrame parent o).store.define w.store.frames.size name v)

section

variable {parent : FrameId} {o : Opener} {name : String} {v : Value}

theorem size_lt_withFrame :
    w.store.frames.size < (w.withFrame parent o).store.frames.size := by
  simp [withFrame, Store.withFrame]

theorem le_binding (parent : FrameId) (o : Opener) (name : String) (v : Value) :
    w.Le none (w.binding parent o name v) :=
  (le_withFrame parent o).close (Nat.le_refl _) (le_define size_lt_withFrame)

theorem binds_binding {f : FrameId} {other : String} :
    (w.binding parent o name v).store.Binds f other ↔
      (f = w.store.frames.size ∧ other = name) ∨ (f ≠ w.store.frames.size ∧ w.store.Binds f other) :=
  (Store.binds_define size_lt_withFrame).trans (or_congr_right Store.binds_withFrame)

end

theorem le_withFunction (closure : Closure) :
    w.Le none (w.set (w.store.withFunction closure)) := by
  refine le_of_frames rfl ?_ (fun id hid => ?_) (Nat.le_refl _) fun _ _ => rfl
  · simp [Store.withFunction]
  · rw [Store.function_withFunction, if_neg (Nat.ne_of_lt hid)]

theorem le_withMethod (bound : BoundMethod) :
    w.Le none (w.set (w.store.withMethod bound)) := by
  refine le_of_frames rfl (Nat.le_refl _) (fun _ _ => rfl) ?_ fun id hid => ?_
  · simp [Store.withMethod]
  · rw [Store.method_withMethod, if_neg (Nat.ne_of_lt hid)]

end World

/-! ### Soundness is kept -/

variable {P : Visit → Prop} {w : World}

theorem Framed.of_frames (h : Framed w) {s : Store} (hs : s.frames = w.store.frames) :
    Framed (w.set s) := by
  have hframe : ∀ f, s.frame f = w.store.frame f := fun f => by rw [Store.frame, hs]; rfl
  refine ⟨?_, ?_, fun f hf hne name hb => ?_⟩
  · show 0 < s.frames.size
    rw [hs]
    exact h.root
  · show (s.frame 0).parent = none
    rw [hframe]
    exact h.outermost
  · refine h.confined f ?_ hne name ?_
    · rwa [show (w.set s).store.frames = _ from hs] at hf
    · unfold Store.Binds at hb ⊢
      rwa [show (w.set s).store.frame f = _ from hframe f] at hb

theorem Framed.withFrame (h : Framed w) (parent : FrameId) (o : Opener) :
    Framed (w.withFrame parent o) := by
  refine ⟨?_, ?_, fun f hf hne name hb => ?_⟩
  · exact Nat.lt_of_lt_of_le h.root (w.le_withFrame parent o).frames
  · show ((w.store.withFrame (some parent)).frame 0).parent = none
    rw [Store.frame_withFrame, if_neg (show 0 ≠ _ from Nat.ne_of_lt h.root)]
    exact h.outermost
  · obtain ⟨hold, hb⟩ := Store.binds_withFrame.mp hb
    have hle : f < w.store.frames.size + 1 := by
      simpa [World.withFrame, Store.withFrame] using hf
    have hlt : f < w.store.frames.size := Nat.lt_of_le_of_ne (Nat.le_of_lt_succ hle) hold
    show name ∈ Opener.names (if f = _ then o else w.labels f)
    rw [if_neg hold]
    exact h.confined f hlt hne name hb

theorem Framed.define (h : Framed w) {f : FrameId} {name : String} {v : Value}
    (hf : f < w.store.frames.size) (hn : f ≠ Store.globals → name ∈ (w.labels f).names) :
    Framed (w.set (w.store.define f name v)) := by
  refine ⟨?_, ?_, fun g hg hne other hb => ?_⟩
  · exact Nat.lt_of_lt_of_le h.root (World.le_define hf).frames
  · rw [(World.le_define hf).parent Store.globals h.root]
    exact h.outermost
  · obtain ⟨rfl, rfl⟩ | hb := (Store.binds_define hf).mp hb
    · exact hn hne
    · exact h.confined g (by simpa [World.set, Store.define] using hg) hne other hb

namespace Sound

variable (hs : Sound P w)

include hs

/-- A step that leaves frames, instances and classes alone. -/
theorem of_functions {s : Store} (hle : w.Le none (w.set s)) (hframes : s.frames = w.store.frames)
    (hinstances : s.instances = w.store.instances) (hclasses : s.classes = w.store.classes)
    (hfunctions : ∀ closure ∈ s.functions, WrittenAt P closure.decl) : Sound P (w.set s) := by
  refine hs.grow hle (hs.toFramed.of_frames hframes) hfunctions (fun f name v hv => ?_)
    (fun i name v hv => ?_) fun c name m hm => ?_
  · refine .inl (hs.vars f name v ?_)
    rwa [show (w.set s).store.frame f = w.store.frame f by
      show s.frames.getD f default = _; rw [hframes]; rfl] at hv
  · refine hs.fields i name v ?_
    rwa [show (w.set s).store.instanceObject i = w.store.instanceObject i by
      show s.instances.getD i default = _; rw [hinstances]; rfl] at hv
  · refine hs.methods c name m ?_
    rwa [show (w.set s).store.classObject c = w.store.classObject c by
      show s.classes.getD c default = _; rw [hclasses]; rfl] at hm

/-- A step that leaves functions alone too. -/
theorem of_same {s : Store} (hle : w.Le none (w.set s)) (hframes : s.frames = w.store.frames)
    (hinstances : s.instances = w.store.instances) (hclasses : s.classes = w.store.classes)
    (hfunctions : s.functions = w.store.functions) : Sound P (w.set s) :=
  hs.of_functions hle hframes hinstances hclasses (hfunctions ▸ hs.functions)

theorem withFunction {closure : Closure} (h : WrittenAt P closure.decl) :
    Sound P (w.set (w.store.withFunction closure)) := by
  refine hs.of_functions (World.le_withFunction closure) rfl rfl rfl fun other hother => ?_
  rcases Array.mem_push.mp hother with hold | rfl
  · exact hs.functions other hold
  · exact h

theorem withMethod (bound : BoundMethod) : Sound P (w.set (w.store.withMethod bound)) :=
  hs.of_same (World.le_withMethod bound) rfl rfl rfl rfl

theorem withFrame (parent : FrameId) (o : Opener) : Sound P (w.withFrame parent o) := by
  refine hs.grow (w.le_withFrame parent o) (hs.toFramed.withFrame parent o)
    hs.functions (fun f name v hv => ?_) hs.fields hs.methods
  rw [show (w.withFrame parent o).store.frame f = _ from Store.frame_withFrame ..] at hv
  split at hv
  · cases hv
  · exact .inl (hs.vars f name v hv)

/-- What is bound may be a function that finds itself bound. -/
theorem define_of {f : FrameId} {name : String} {v : Value} (hf : f < w.store.frames.size)
    (hn : f ≠ Store.globals → name ∈ (w.labels f).names)
    (hv : Known P w v ∨ Known P (w.set (w.store.define f name v)) v) :
    Sound P (w.set (w.store.define f name v)) := by
  refine hs.grow (World.le_define hf) (hs.toFramed.define hf hn) hs.functions (fun g other u hu => ?_)
    hs.fields hs.methods
  rw [show (w.set (w.store.define f name v)).store.frame g = _ from Store.frame_define ..] at hu
  split at hu
  · rw [Bindings.get?_bind] at hu
    split at hu
    · cases hu
      exact hv
    · exact .inl (hs.vars g other u hu)
  · exact .inl (hs.vars g other u hu)

theorem define {f : FrameId} {name : String} {v : Value} (hf : f < w.store.frames.size)
    (hn : f ≠ Store.globals → name ∈ (w.labels f).names) (hv : Known P w v) :
    Sound P (w.set (w.store.define f name v)) :=
  hs.define_of hf hn (.inl hv)

theorem redefine {f : FrameId} {name : String} {v : Value} (hf : f < w.store.frames.size)
    (hb : w.store.Binds f name) (hv : Known P w v) :
    Sound P (w.set (w.store.define f name v)) :=
  hs.define hf (fun hne => hs.confined f hf hne name hb) hv

theorem binding {parent : FrameId} {o : Opener} {name : String} {v : Value} (hv : Known P w v)
    (ho : o.names = [name]) : Sound P (w.binding parent o name v) := by
  have hframe := hs.withFrame parent o
  refine hframe.define World.size_lt_withFrame (fun _ => ?_)
    (hv.mono hs.toFramed hframe.toFramed (World.le_withFrame parent o))
  rw [show (w.withFrame parent o).labels w.store.frames.size = o from if_pos rfl, ho]
  exact List.mem_singleton_self name

theorem withClass {cls : ClassObject}
    (hm : ∀ name m, cls.methods.get? name = some m → Bindable P w name m) :
    Sound P (w.set (w.store.withClass cls)) := by
  refine hs.grow (World.le_of_frames rfl (Nat.le_refl _) (fun _ _ => rfl)
    (Nat.le_refl _) fun _ _ => rfl) (hs.toFramed.of_frames rfl) hs.functions
    (fun f name v hv => .inl (hs.vars f name v hv)) hs.fields
    fun c name m hc => ?_
  rw [show (w.set (w.store.withClass cls)).store.classObject c = _ from
    Store.classObject_withClass ..] at hc
  split at hc
  · exact hm name m hc
  · exact hs.methods c name m hc

theorem withInstance (cls : ClassId) : Sound P (w.set (w.store.withInstance cls)) := by
  refine hs.grow (World.le_of_frames rfl (Nat.le_refl _) (fun _ _ => rfl)
    (Nat.le_refl _) fun _ _ => rfl) (hs.toFramed.of_frames rfl) hs.functions
    (fun f name v hv => .inl (hs.vars f name v hv)) (fun i name v hv => ?_)
    hs.methods
  rw [show (w.set (w.store.withInstance cls)).store.instanceObject i = _ from
    Store.instanceObject_withInstance ..] at hv
  split at hv
  · cases hv
  · exact hs.fields i name v hv

theorem setField {i : InstanceId} {name : String} {v : Value} (hv : Known P w v) :
    Sound P (w.set (w.store.setField i name v)) := by
  refine hs.grow (World.le_of_frames rfl (Nat.le_refl _) (fun _ _ => rfl)
    (Nat.le_refl _) fun _ _ => rfl) (hs.toFramed.of_frames rfl) hs.functions
    (fun f name v hv => .inl (hs.vars f name v hv)) (fun j other u hu => ?_)
    hs.methods
  rw [show (w.set (w.store.setField i name v)).store.instanceObject j = _ from
    Store.instanceObject_setField ..] at hu
  split at hu
  · rw [Bindings.get?_bind] at hu
    split at hu
    · cases hu
      exact hv
    · exact hs.fields j other u hu
  · exact hs.fields j other u hu

theorem ticked : Sound P (w.set w.store.ticked) :=
  hs.of_same (World.le_of_frames rfl (Nat.le_refl _) (fun _ _ => rfl) (Nat.le_refl _) fun _ _ => rfl)
    rfl rfl rfl rfl

end Sound

/-- A new frame that binds the only name of its scope mirrors it. -/
theorem Mirrors.binding {scopes : List (Bindings Bool)} {os : List Opener} {parent : FrameId}
    {scope : Bindings Bool} {o : Opener} {name : String} {v : Value} (h : Mirrors w scopes os parent)
    (hs : Framed (w.binding parent o name v)) (ho : o.names = [name])
    (hr : ∀ other, scope.get? other = some true → other = name) :
    Mirrors (w.binding parent o name v) (scope :: scopes) (o :: os) w.store.frames.size := by
  have hlabel : (w.binding parent o name v).labels w.store.frames.size = o := if_pos rfl
  have hle := w.le_binding parent o name v
  have hlt : w.store.frames.size < (w.binding parent o name v).store.frames.size :=
    Nat.lt_of_lt_of_le World.size_lt_withFrame (World.le_define World.size_lt_withFrame).frames
  have hparent : ((w.binding parent o name v).store.frame w.store.frames.size).parent =
      some parent := by
    refine ((World.le_define World.size_lt_withFrame).parent _ World.size_lt_withFrame).trans ?_
    show ((w.store.withFrame (some parent)).frame _).parent = _
    rw [Store.frame_withFrame, if_pos rfl]
  have hinside := Mirrors.inside hlt
    (fun other ho => World.binds_binding.mpr (.inl ⟨rfl, hr other ho⟩)) (fun other hb => ?_) hparent
    (h.mono hs hle)
  · rwa [hlabel] at hinside
  · obtain ⟨_, rfl⟩ | ⟨hne, _⟩ := World.binds_binding.mp hb
    · rw [hlabel, ho]
      exact List.mem_singleton_self _
    · exact absurd rfl hne

end Lox
