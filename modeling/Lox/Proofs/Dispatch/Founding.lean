/-
# Which class statement made a frame

A frame that binds `super` was made by the execution of a class statement with
a superclass: it binds the class that the name of the superclass gave when the
execution began, and lies in the frame that the statement ran in
(`Lox.Moment.Founds`). A tree lies in such a frame if the first frame outward
that binds `super` was made by a class statement whose methods leave open the
uses of `super` that the tree leaves open (`Lox.Lies`).

A store is founded in a history of moments if all its frames that bind `super`
were made so, all its functions lie in the frames that they were made in, and
bound methods in those of their receivers (`Lox.Store.Founded`). Each way in
which a run changes its store keeps it founded.

Key definitions: `Lox.Store.Nearest`, `Lox.Moment.Founds`, `Lox.Lies`,
`Lox.Store.Founded`, `Lox.Store.Grows`.
Key theorems: `Lox.Lies.mono`, `Lox.Store.Founded.grow`, `Lox.Store.Founded.receiverFrame`,
`Lox.Store.Founded.methodFrame`.
-/
import Lox.Proofs.Dispatch.Superclasses
import Lox.Proofs.Dispatch.Supers
import Lox.Proofs.Running.Names

namespace Lox

/-! ### Walking outward -/

/-- Walking outward from the frame, the first one that binds the name. -/
inductive Store.Nearest (s : Store) (name : String) : FrameId → FrameId → Prop
  | here {f : FrameId} : s.Binds f name → Nearest s name f f
  | outward {f p a : FrameId} : ¬ s.Binds f name → (s.frame f).parent = some p →
      Nearest s name p a → Nearest s name f a

namespace Store.Nearest

variable {s : Store} {name : String} {f a : FrameId}

theorem binds (h : s.Nearest name f a) : s.Binds a name := by
  induction h with
  | here hb => exact hb
  | outward _ _ _ ih => exact ih

theorem of_ancestor : ∀ {n : Nat} {f : FrameId},
    (∀ i < n, ∀ b, s.ancestor? i f = some b → ¬ s.Binds b name) → s.ancestor? n f = some a →
      s.Binds a name → s.Nearest name f a
  | 0, _, _, ha, hb => by
    cases ha
    exact .here hb
  | n + 1, f, hn, ha, hb => by
    unfold ancestor? at ha
    split at ha
    · cases ha
    · rename_i p hp
      refine .outward (hn 0 (Nat.succ_pos n) f rfl) hp (of_ancestor (fun i hi b hb => ?_) ha hb)
      refine hn (i + 1) (Nat.succ_lt_succ hi) b ?_
      rw [ancestor?, hp]
      exact hb

end Store.Nearest

/-! ### Executions of class statements -/

/-- The frame was made by the class statement with these methods whose execution begins at the moment:
it is the next one to be made there, lies in the one that the statement runs in, and binds `super` to
the class that the name of the superclass gives. -/
structure Moment.Founds (t : Moment) (s : Store) (a : FrameId) (c : ClassId) (methods : List Fun) :
    Prop where
  executes : ∃ name use, t.site = .stmt (.classDecl name (some use) methods) ∧
    Access.recorded.look use t.frame t.store = (.ok (.classRef c), t.store)
  next : t.store.frames.size = a
  parent : (s.frame a).parent = some t.frame
  superclass : (s.frame a).vars.get? "super" = some (.classRef c)

/-- The frame is there; and the first frame outward that binds `super`, if any, was made by a class
statement whose methods leave open these uses of `super`. -/
structure Lies (H : Moment → Prop) (s : Store) (f : FrameId) (uses : List SuperUse) : Prop where
  lt : f < s.frames.size
  founded : ∀ a, s.Nearest "super" f a →
    ∃ t c methods, H t ∧ t.Founds s a c methods ∧ uses ⊆ methodSupers methods

namespace Store

/-- The frame lies in one that is there. If it binds `super`, a class statement made it; if it binds
`this`, then to an instance. -/
structure FrameFounded (H : Moment → Prop) (s : Store) (f : FrameId) : Prop where
  parent : ∀ p, (s.frame f).parent = some p → p < s.frames.size
  superclass : s.Binds f "super" → ∃ t c methods, H t ∧ t.Founds s f c methods
  receiver : ∀ v, (s.frame f).vars.get? "this" = some v → ∃ i, v = .instanceRef i

/-- The history tells which class statements made the frames that bind `super`, and functions and
bound methods lie in the frames that they keep. -/
structure Founded (H : Moment → Prop) (s : Store) : Prop where
  root : globals < s.frames.size
  outermost : (s.frame globals).parent = none
  frames : ∀ f < s.frames.size, s.FrameFounded H f
  functions : ∀ id < s.functions.size, functionRegular (s.function id).decl ∧
    Lies H s (s.function id).frame (functionSupers (s.function id).decl)
  methods : ∀ id < s.methods.size, (s.method id).function < s.functions.size ∧
    Lies H s (s.method id).frame (functionSupers (s.function (s.method id).function).decl)
  classes : ∀ c name m, (s.classObject c).methods.get? name = some m → m < s.functions.size

/-- Bound methods stay as they are, and instances in their classes. -/
structure Retains (s t : Store) : Prop where
  methods : s.methods.size ≤ t.methods.size
  method : ∀ id < s.methods.size, t.method id = s.method id
  instances : s.instances.size ≤ t.instances.size
  cls : ∀ i < s.instances.size, (t.instanceObject i).cls = (s.instanceObject i).cls

/-- The store grows. Its frames keep the frames around them and what they bind the words of classes
to. -/
structure Grows (s t : Store) : Prop extends Retains s t where
  frames : s.frames.size ≤ t.frames.size
  parent : ∀ f < s.frames.size, (t.frame f).parent = (s.frame f).parent
  words : ∀ f < s.frames.size, ∀ name, ¬ isPlain name →
    (t.frame f).vars.get? name = (s.frame f).vars.get? name
  functions : s.functions.size ≤ t.functions.size
  function : ∀ id < s.functions.size, t.function id = s.function id

namespace Retains

variable {s t u : Store}

theorem of_eq (hmethods : t.methods = s.methods) (hinstances : t.instances = s.instances) :
    s.Retains t where
  methods := Nat.le_of_eq (by rw [hmethods])
  method id _ := by rw [Store.method, Store.method, hmethods]
  instances := Nat.le_of_eq (by rw [hinstances])
  cls i _ := by rw [instanceObject, instanceObject, hinstances]

theorem trans (h : s.Retains t) (g : t.Retains u) : s.Retains u where
  methods := Nat.le_trans h.methods g.methods
  method id hid := (g.method id (Nat.lt_of_lt_of_le hid h.methods)).trans (h.method id hid)
  instances := Nat.le_trans h.instances g.instances
  cls i hi := (g.cls i (Nat.lt_of_lt_of_le hi h.instances)).trans (h.cls i hi)

theorem withMethod (bound : BoundMethod) : s.Retains (s.withMethod bound) where
  methods := by simp [Store.withMethod]
  method id hid := by rw [method_withMethod, if_neg (Nat.ne_of_lt hid)]
  instances := Nat.le_refl _
  cls _ _ := rfl

theorem withInstance (c : ClassId) : s.Retains (s.withInstance c) where
  methods := Nat.le_refl _
  method _ _ := rfl
  instances := by simp [Store.withInstance]
  cls i hi := by rw [instanceObject_withInstance, if_neg (Nat.ne_of_lt hi)]

theorem setField (i : InstanceId) (name : String) (v : Value) : s.Retains (s.setField i name v) where
  methods := Nat.le_refl _
  method _ _ := rfl
  instances := by simp [Store.setField]
  cls j _ := by
    rw [instanceObject_setField]
    split <;> rfl

end Retains

namespace Grows

variable {s t u : Store}

theorem refl (s : Store) : s.Grows s :=
  ⟨.of_eq rfl rfl, Nat.le_refl _, fun _ _ => rfl, fun _ _ _ _ => rfl, Nat.le_refl _, fun _ _ => rfl⟩

theorem trans (h : s.Grows t) (g : t.Grows u) : s.Grows u where
  toRetains := h.toRetains.trans g.toRetains
  frames := Nat.le_trans h.frames g.frames
  parent f hf := (g.parent f (Nat.lt_of_lt_of_le hf h.frames)).trans (h.parent f hf)
  words f hf name hn :=
    (g.words f (Nat.lt_of_lt_of_le hf h.frames) name hn).trans (h.words f hf name hn)
  functions := Nat.le_trans h.functions g.functions
  function id hid :=
    (g.function id (Nat.lt_of_lt_of_le hid h.functions)).trans (h.function id hid)

/-- Nothing but the frames changes. -/
theorem of_frames (hframes : s.frames.size ≤ t.frames.size)
    (hparent : ∀ f < s.frames.size, (t.frame f).parent = (s.frame f).parent)
    (hwords : ∀ f < s.frames.size, ∀ name, ¬ isPlain name →
      (t.frame f).vars.get? name = (s.frame f).vars.get? name)
    (hfunctions : t.functions = s.functions) (hrest : s.Retains t) : s.Grows t :=
  ⟨hrest, hframes, hparent, hwords, Nat.le_of_eq (by rw [hfunctions]),
    fun id _ => by rw [Store.function, hfunctions]; rfl⟩

/-- The frames stay, and functions are added at most. -/
theorem of_functions (hframes : t.frames = s.frames) (hsize : s.functions.size ≤ t.functions.size)
    (hfunction : ∀ id < s.functions.size, t.function id = s.function id) (hrest : s.Retains t) :
    s.Grows t := by
  have hframe : ∀ f, t.frame f = s.frame f := fun f => by rw [frame, hframes]; rfl
  exact ⟨hrest, Nat.le_of_eq (by rw [hframes]), fun f _ => by rw [hframe], fun f _ name _ => by rw [hframe],
    hsize, hfunction⟩

theorem binds (h : s.Grows t) {f : FrameId} (hf : f < s.frames.size) :
    t.Binds f "super" ↔ s.Binds f "super" := by
  rw [Binds, Binds, Bindings.contains, Bindings.contains, h.words f hf "super" not_isPlain_super]

end Grows

end Store

section

variable {H : Moment → Prop} {s t : Store} {f : FrameId} {uses : List SuperUse}

theorem Store.Nearest.of_grows (hs : s.Founded H) (hle : s.Grows t) {a : FrameId}
    (h : t.Nearest "super" f a) (hf : f < s.frames.size) : s.Nearest "super" f a := by
  induction h with
  | here hb => exact .here ((hle.binds hf).mp hb)
  | @outward f p a hn hp _ ih =>
    rw [hle.parent f hf] at hp
    exact .outward (fun hb => hn ((hle.binds hf).mpr hb)) hp (ih ((hs.frames f hf).parent p hp))

theorem Moment.Founds.mono {u : Moment} {c : ClassId} {methods : List Fun} (hle : s.Grows t)
    (hf : f < s.frames.size) (h : u.Founds s f c methods) : u.Founds t f c methods :=
  ⟨h.executes, h.next, (hle.parent f hf).trans h.parent,
    (hle.words f hf "super" not_isPlain_super).trans h.superclass⟩

namespace Lies

theorem mono (hs : s.Founded H) (hle : s.Grows t) (h : Lies H s f uses) : Lies H t f uses := by
  refine ⟨Nat.lt_of_lt_of_le h.lt hle.frames, fun a ha => ?_⟩
  have ha' := ha.of_grows hs hle h.lt
  obtain ⟨u, c, methods, hH, hfounds, huses⟩ := h.founded a ha'
  exact ⟨u, c, methods, hH, hfounds.mono hle ha'.binds.lt, huses⟩

theorem subset {more : List SuperUse} (h : Lies H s f more) (hsub : uses ⊆ more) :
    Lies H s f uses := by
  refine ⟨h.lt, fun a ha => ?_⟩
  obtain ⟨t, c, methods, hH, hfounds, hmore⟩ := h.founded a ha
  exact ⟨t, c, methods, hH, hfounds, List.Subset.trans hsub hmore⟩

theorem left {more : List SuperUse} (h : Lies H s f (uses ++ more)) : Lies H s f uses :=
  h.subset (List.subset_append_left ..)

theorem right {more : List SuperUse} (h : Lies H s f (more ++ uses)) : Lies H s f uses :=
  h.subset (List.subset_append_right ..)

/-- A frame that does not bind `super` lies where the frame around it does. -/
theorem enter {p : FrameId} (h : Lies H s p uses) (hf : f < s.frames.size)
    (hn : ¬ s.Binds f "super") (hp : (s.frame f).parent = some p) : Lies H s f uses := by
  refine ⟨hf, fun a ha => ?_⟩
  cases ha with
  | here hb => exact absurd hb hn
  | outward _ hp' ha =>
    cases hp.symm.trans hp'
    exact h.founded a ha

end Lies

namespace Store

theorem FrameFounded.mono (hle : s.Grows t) (hf : f < s.frames.size) (h : s.FrameFounded H f) :
    t.FrameFounded H f where
  parent p hp := by
    rw [hle.parent f hf] at hp
    exact Nat.lt_of_lt_of_le (h.parent p hp) hle.frames
  superclass hb := by
    obtain ⟨u, c, methods, hH, hfounds⟩ := h.superclass ((hle.binds hf).mp hb)
    exact ⟨u, c, methods, hH, hfounds.mono hle hf⟩
  receiver v hv := by
    rw [hle.words f hf "this" not_isPlain_this] at hv
    exact h.receiver v hv

namespace Founded

/-- What a store that grows has to show to stay founded: its new frames, functions, bound methods and
classes. -/
theorem grow (hs : s.Founded H) (hle : s.Grows t)
    (hframes : ∀ f < t.frames.size, s.frames.size ≤ f → t.FrameFounded H f)
    (hfunctions : ∀ id < t.functions.size, s.functions.size ≤ id →
      functionRegular (t.function id).decl ∧
        Lies H t (t.function id).frame (functionSupers (t.function id).decl))
    (hmethods : ∀ id < t.methods.size, (id < s.methods.size ∧ t.method id = s.method id) ∨
      ((t.method id).function < t.functions.size ∧
        Lies H t (t.method id).frame (functionSupers (t.function (t.method id).function).decl)))
    (hclasses : ∀ c name m, (t.classObject c).methods.get? name = some m → m < t.functions.size) :
    t.Founded H where
  root := Nat.lt_of_lt_of_le hs.root hle.frames
  outermost := (hle.parent _ hs.root).trans hs.outermost
  frames f hf := by
    by_cases hold : f < s.frames.size
    · exact (hs.frames f hold).mono hle hold
    · exact hframes f hf (Nat.le_of_not_lt hold)
  functions id hid := by
    by_cases hold : id < s.functions.size
    · rw [hle.function id hold]
      exact ⟨(hs.functions id hold).1, (hs.functions id hold).2.mono hs hle⟩
    · exact hfunctions id hid (Nat.le_of_not_lt hold)
  methods id hid := by
    obtain ⟨hold, heq⟩ | hnew := hmethods id hid
    · obtain ⟨hlt, hlies⟩ := hs.methods id hold
      rw [heq, hle.function _ hlt]
      exact ⟨Nat.lt_of_lt_of_le hlt hle.functions, hlies.mono hs hle⟩
    · exact hnew
  classes := hclasses

/-- A store whose functions, bound methods and classes stay is founded if its new frames are. -/
theorem of_frames (hs : s.Founded H) (hle : s.Grows t) (hfunctions : t.functions = s.functions)
    (hmethods : t.methods = s.methods) (hclasses : t.classes = s.classes)
    (hframes : ∀ f < t.frames.size, s.frames.size ≤ f → t.FrameFounded H f) : t.Founded H := by
  refine hs.grow hle hframes (fun id hid hnew => ?_) (fun id hid => .inl ⟨?_, ?_⟩)
    fun c name m hm => ?_
  · rw [hfunctions] at hid
    exact absurd hid (Nat.not_lt.mpr hnew)
  · rwa [hmethods] at hid
  · rw [method, hmethods]
    rfl
  · rw [classObject, hclasses] at hm
    rw [hfunctions]
    exact hs.classes c name m hm

/-- A store whose frames, functions, bound methods and classes stay. -/
theorem of_same (hs : s.Founded H) (hframes : t.frames = s.frames)
    (hfunctions : t.functions = s.functions) (hmethods : t.methods = s.methods)
    (hclasses : t.classes = s.classes) (hrest : s.Retains t) : s.Grows t ∧ t.Founded H := by
  have hfunction : ∀ id < s.functions.size, t.function id = s.function id := fun id _ => by
    rw [function, hfunctions]
    rfl
  have hle : s.Grows t := .of_functions hframes (Nat.le_of_eq (by rw [hfunctions])) hfunction hrest
  refine ⟨hle, hs.of_frames hle hfunctions hmethods hclasses fun f hf hnew => ?_⟩
  rw [hframes] at hf
  exact absurd hf (Nat.not_lt.mpr hnew)

/-- The globals do not bind `super`, so everything lies in them. -/
theorem lies_globals (hs : s.Founded H) : Lies H s globals uses := by
  refine ⟨hs.root, fun a ha => ?_⟩
  cases ha with
  | here hb =>
    obtain ⟨_, _, _, _, hfounds⟩ := (hs.frames globals hs.root).superclass hb
    cases hs.outermost.symm.trans hfounds.parent
  | outward _ hp _ => cases hs.outermost.symm.trans hp

/-- A tree that leaves nothing open lies everywhere. -/
theorem lies_nil (hs : s.Founded H) (hf : f < s.frames.size) : Lies H s f [] := by
  refine ⟨hf, fun a ha => ?_⟩
  obtain ⟨t, c, methods, hH, hfounds⟩ := (hs.frames a ha.binds.lt).superclass ha.binds
  exact ⟨t, c, methods, hH, hfounds, List.nil_subset _⟩

theorem frame_default {f : FrameId} (hf : ¬ f < s.frames.size) : s.frame f = default := by
  simp [frame, Array.getD_eq_getD_getElem?, Array.getElem?_eq_none (Nat.le_of_not_lt hf)]

theorem function_default {id : FunctionId} (hid : ¬ id < s.functions.size) :
    s.function id = default := by
  simp [function, Array.getD_eq_getD_getElem?, Array.getElem?_eq_none (Nat.le_of_not_lt hid)]

theorem method_default {id : MethodId} (hid : ¬ id < s.methods.size) : s.method id = default := by
  simp [method, Array.getD_eq_getD_getElem?, Array.getElem?_eq_none (Nat.le_of_not_lt hid)]

/-- A function is regular and lies in the frame that it was made in. -/
theorem function (hs : s.Founded H) (id : FunctionId) : functionRegular (s.function id).decl ∧
    Lies H s (s.function id).frame (functionSupers (s.function id).decl) := by
  by_cases hid : id < s.functions.size
  · exact hs.functions id hid
  · rw [function_default hid]
    exact ⟨⟨⟨by decide +kernel, by decide +kernel⟩, fun _ h => (nomatch h), trivial⟩, hs.lies_globals⟩

/-- A bound method lies in the frame of its receiver. -/
theorem method (hs : s.Founded H) (id : MethodId) :
    Lies H s (s.method id).frame (functionSupers (s.function (s.method id).function).decl) := by
  by_cases hid : id < s.methods.size
  · exact (hs.methods id hid).2
  · rw [method_default hid]
    exact hs.lies_globals

/-- Whatever binds `this` binds it to an instance. -/
theorem receiver (hs : s.Founded H) {b : FrameId} {v : Value}
    (hv : (s.frame b).vars.get? "this" = some v) : ∃ i, v = .instanceRef i := by
  by_cases hb : b < s.frames.size
  · exact (hs.frames b hb).receiver v hv
  · rw [frame_default hb] at hv
    cases hv

/-! ### Steps -/

/-- A plain name is bound. -/
theorem define (hs : s.Founded H) (f : FrameId) {name : String} (hname : isPlain name) (v : Value) :
    s.Grows (s.define f name v) ∧ (s.define f name v).Founded H := by
  have hsize : (s.define f name v).frames.size = s.frames.size := by simp [Store.define]
  have hle : s.Grows (s.define f name v) := by
    refine .of_frames (Nat.le_of_eq hsize.symm) (fun g _ => ?_) (fun g _ other hother => ?_) rfl
      (.of_eq rfl rfl)
    · rw [frame_define]
      split <;> rfl
    · rw [frame_define]
      split
      · rw [Bindings.get?_bind, if_neg]
        rintro rfl
        exact hother hname
      · rfl
  refine ⟨hle, hs.of_frames hle rfl rfl rfl fun g hg hnew => ?_⟩
  rw [hsize] at hg
  exact absurd hg (Nat.not_lt.mpr hnew)

theorem grows_withFrame (p : Option FrameId) : s.Grows (s.withFrame p) := by
  have hold : ∀ f < s.frames.size, (s.withFrame p).frame f = s.frame f := fun f hf => by
    rw [frame_withFrame, if_neg (Nat.ne_of_lt hf)]
  exact .of_frames (by simp [withFrame]) (fun f hf => by rw [hold f hf])
    (fun f hf _ _ => by rw [hold f hf]) rfl (.of_eq rfl rfl)

/-- A frame is made in another one. -/
theorem withFrame (hs : s.Founded H) {p : FrameId} (hp : p < s.frames.size) :
    (s.withFrame (some p)).Founded H := by
  have hsize : (s.withFrame (some p)).frames.size = s.frames.size + 1 := by simp [Store.withFrame]
  refine hs.of_frames (grows_withFrame _) rfl rfl rfl fun f hf hnew => ?_
  obtain rfl : f = s.frames.size := by omega
  have hnew : (s.withFrame (some p)).frame s.frames.size = ⟨some p, .empty⟩ := by
    rw [frame_withFrame, if_pos rfl]
  refine ⟨fun q hq => ?_, fun hb => ?_, fun v hv => ?_⟩
  · rw [hnew] at hq
    cases hq
    rw [hsize]
    exact Nat.lt_succ_of_lt hp
  · exact absurd rfl (binds_withFrame.mp hb).1
  · rw [hnew] at hv
    cases hv

/-- What lies in the frame around lies in a new frame. -/
theorem lies_withFrame (hs : s.Founded H) {p : FrameId} (h : Lies H s p uses) :
    Lies H (s.withFrame (some p)) s.frames.size uses := by
  refine (h.mono hs (grows_withFrame _)).enter (by simp [Store.withFrame]) (fun hb => ?_) ?_
  · exact (binds_withFrame.mp hb).1 rfl
  · rw [frame_withFrame, if_pos rfl]

end Founded

/-- A new frame that binds a name. -/
def binding (s : Store) (p : FrameId) (name : String) (v : Value) : Store :=
  (s.withFrame (some p)).define s.frames.size name v

section

variable {p : FrameId} {name : String} {v : Value}

theorem frame_binding (g : FrameId) : (s.binding p name v).frame g =
    if g = s.frames.size then ⟨some p, Bindings.empty.bind name v⟩ else s.frame g := by
  rw [binding, frame_define, frame_withFrame]
  by_cases hg : g = s.frames.size
  · rw [if_pos ⟨hg, by simp [withFrame]⟩, if_pos hg, if_pos hg]
  · rw [if_neg fun h => hg h.1, if_neg hg, if_neg hg]

theorem size_binding : (s.binding p name v).frames.size = s.frames.size + 1 := by
  simp [binding, define, withFrame]

theorem frame_binding_self :
    (s.binding p name v).frame s.frames.size = ⟨some p, Bindings.empty.bind name v⟩ := by
  rw [frame_binding, if_pos rfl]

theorem binds_binding_self {other : String} :
    (s.binding p name v).Binds s.frames.size other ↔ other = name := by
  rw [Binds, frame_binding_self, contains_bind]
  exact or_iff_left fun h => by cases h

theorem grows_binding : s.Grows (s.binding p name v) := by
  have hold : ∀ f < s.frames.size, (s.binding p name v).frame f = s.frame f := fun f hf => by
    rw [frame_binding, if_neg (Nat.ne_of_lt hf)]
  exact .of_frames (by rw [size_binding]; exact Nat.le_succ _) (fun f hf => by rw [hold f hf])
    (fun f hf _ _ => by rw [hold f hf]) rfl (.of_eq rfl rfl)

namespace Founded

/-- A frame is made that binds a word of a class. -/
theorem binding (hs : s.Founded H) (hp : p < s.frames.size)
    (hsuper : name = "super" → ∃ t c methods, H t ∧
      t.Founds (s.binding p name v) s.frames.size c methods)
    (hthis : name = "this" → ∃ i, v = .instanceRef i) : (s.binding p name v).Founded H := by
  refine hs.of_frames grows_binding rfl rfl rfl fun f hf hnew => ?_
  rw [size_binding] at hf
  obtain rfl : f = s.frames.size := by omega
  refine ⟨fun q hq => ?_, fun hb => hsuper (binds_binding_self.mp hb).symm, fun u hu => ?_⟩
  · rw [frame_binding_self] at hq
    cases hq
    rw [size_binding]
    exact Nat.lt_succ_of_lt hp
  · rw [frame_binding_self, Bindings.get?_bind] at hu
    split at hu <;> cases hu
    rename_i heq
    exact hthis heq.symm

/-- The frame for the receiver of a method. -/
theorem receiverFrame (hs : s.Founded H) (hp : p < s.frames.size) (i : InstanceId) :
    (s.binding p "this" (.instanceRef i)).Founded H :=
  hs.binding hp (fun h => absurd h (by decide +kernel)) fun _ => ⟨i, rfl⟩

/-- What lies in the frame around lies in a new frame that binds a receiver. -/
theorem lies_receiverFrame (hs : s.Founded H) (h : Lies H s p uses) :
    Lies H (s.binding p "this" v) s.frames.size uses := by
  refine (h.mono hs grows_binding).enter (by rw [size_binding]; exact Nat.lt_succ_self _)
    (fun hb => absurd (binds_binding_self.mp hb) (by decide +kernel)) ?_
  rw [frame_binding_self]

/-- The frame that a class statement makes for its methods. -/
theorem methodFrame (hs : s.Founded H) {t : Moment} {c : ClassId} {methods : List Fun} (hH : H t)
    (hp : t.frame < s.frames.size) (hnext : t.store.frames.size = s.frames.size)
    (hexecutes : ∃ name use, t.site = .stmt (.classDecl name (some use) methods) ∧
      Access.recorded.look use t.frame t.store = (.ok (.classRef c), t.store)) :
    (s.binding t.frame "super" (.classRef c)).Founded H ∧
      Lies H (s.binding t.frame "super" (.classRef c)) s.frames.size (methodSupers methods) := by
  have hfounds : t.Founds (s.binding t.frame "super" (.classRef c)) s.frames.size c methods :=
    ⟨hexecutes, hnext, by rw [frame_binding_self],
      by rw [frame_binding_self, Bindings.get?_bind, if_pos rfl]⟩
  refine ⟨hs.binding hp (fun _ => ⟨t, c, methods, hH, hfounds⟩)
    fun h => absurd h (by decide +kernel), by rw [size_binding]; exact Nat.lt_succ_self _,
    fun a ha => ?_⟩
  cases ha with
  | here _ => exact ⟨t, c, methods, hH, hfounds, List.Subset.refl _⟩
  | outward hn _ _ => exact absurd (binds_binding_self.mpr rfl) hn

end Founded

end

namespace Founded

theorem withFunction (hs : s.Founded H) (closure : Closure) (hr : functionRegular closure.decl)
    (hl : Lies H s closure.frame (functionSupers closure.decl)) :
    s.Grows (s.withFunction closure) ∧ (s.withFunction closure).Founded H := by
  have hsize : (s.withFunction closure).functions.size = s.functions.size + 1 := by
    simp [Store.withFunction]
  have hle : s.Grows (s.withFunction closure) := by
    refine .of_functions rfl (by omega) (fun id hid => ?_) (.of_eq rfl rfl)
    rw [function_withFunction, if_neg (Nat.ne_of_lt hid)]
  refine ⟨hle, hs.grow hle (fun f hf hnew => absurd hf (Nat.not_lt.mpr hnew)) (fun id hid hnew => ?_)
    (fun id hid => .inl ⟨hid, rfl⟩) fun c name m hm => ?_⟩
  · obtain rfl : id = s.functions.size := by omega
    rw [function_withFunction, if_pos rfl]
    exact ⟨hr, hl.mono hs hle⟩
  · exact Nat.lt_of_lt_of_le (hs.classes c name m hm) hle.functions

theorem withMethod (hs : s.Founded H) (bound : BoundMethod)
    (hid : bound.function < s.functions.size)
    (hl : Lies H s bound.frame (functionSupers (s.function bound.function).decl)) :
    s.Grows (s.withMethod bound) ∧ (s.withMethod bound).Founded H := by
  have hle : s.Grows (s.withMethod bound) :=
    .of_functions rfl (Nat.le_refl _) (fun _ _ => rfl) (.withMethod bound)
  refine ⟨hle, hs.grow hle (fun f hf hnew => absurd hf (Nat.not_lt.mpr hnew))
    (fun id hid hnew => absurd hid (Nat.not_lt.mpr hnew)) (fun id hid' => ?_) hs.classes⟩
  have hsize : (s.withMethod bound).methods.size = s.methods.size + 1 := by simp [Store.withMethod]
  rw [hsize] at hid'
  rw [method_withMethod]
  split
  · exact .inr ⟨hid, hl.mono hs hle⟩
  · rename_i hold
    exact .inl ⟨Nat.lt_of_le_of_ne (Nat.le_of_lt_succ hid') hold, rfl⟩

theorem withClass (hs : s.Founded H) (cls : ClassObject)
    (hm : ∀ name m, cls.methods.get? name = some m → m < s.functions.size) :
    s.Grows (s.withClass cls) ∧ (s.withClass cls).Founded H := by
  have hle : s.Grows (s.withClass cls) :=
    .of_functions rfl (Nat.le_refl _) (fun _ _ => rfl) (.of_eq rfl rfl)
  refine ⟨hle, hs.grow hle (fun f hf hnew => absurd hf (Nat.not_lt.mpr hnew))
    (fun id hid hnew => absurd hid (Nat.not_lt.mpr hnew)) (fun id hid => .inl ⟨hid, rfl⟩)
    fun c name m h => ?_⟩
  rw [classObject_withClass] at h
  split at h
  · exact hm name m h
  · exact hs.classes c name m h

/-- A method that is found is a function that is there. -/
theorem findMethod? (hs : s.Founded H) {c : ClassId} {name : String} {m : FunctionId}
    (h : s.findMethod? c name = some m) : m < s.functions.size := by
  obtain ⟨q, hq⟩ := defined_of_findMethod? h
  exact hs.classes q name m hq

/-- At the start there are the globals. -/
theorem initial (clock : Clock) : (Store.initial clock).Founded H := by
  have hvars : ((Store.initial clock).frame globals).vars =
      Bindings.empty.bind "clock" (.native .clock) := rfl
  have hword : ∀ name v, ¬ isPlain name →
      ((Store.initial clock).frame globals).vars.get? name ≠ some v := by
    intro name v hname hv
    rw [hvars, Bindings.get?_bind] at hv
    split at hv
    · rename_i heq
      rw [heq] at hname
      exact hname ⟨by decide +kernel, by decide +kernel⟩
    · cases hv
  refine ⟨Nat.one_pos, rfl, fun f hf => ?_, fun _ h => (nomatch h), fun _ h => (nomatch h),
    fun c name m hm => ?_⟩
  · obtain rfl : f = globals := Nat.lt_one_iff.mp hf
    refine ⟨fun p hp => (nomatch hp), fun hb => ?_, fun v hv => absurd hv (hword _ v not_isPlain_this)⟩
    obtain ⟨v, hv⟩ := hb.get?
    exact absurd hv (hword _ v not_isPlain_super)
  · cases hm

end Founded

end Store

end

end Lox
