/-
# What steps add to stores without idle frames

Each step of a run is one of both stores at once: a new frame in both, a name
bound in a frame and in the one that it stands for, a new function, a new
bound method, or a step beside all of these. Only a new idle frame is one of
the first store alone. By each step the stores grow, and the second one stays
the first one without its idle frames, if what is stored was known.

Key definitions: `Lox.Paring.withFrame`, `Lox.Paring.withIdle`, `Lox.Paring.define`,
`Lox.Paring.Aside`.
Key theorems: `Lox.Paring.Folds.withNew`, `Lox.Pared.grow`, `Lox.Pared.withFrame`,
`Lox.Pared.withIdle`, `Lox.Pared.define`.
-/
import Lox.Proofs.Idle.Stores

namespace Lox

namespace Paring

variable (w : Paring)

/-- A new frame in both stores, inside a frame and the one that it stands for. -/
def withFrame (parent : FrameId) : Paring where
  idle f := if f = w.left.frames.size then false else w.idle f
  image f := if f = w.left.frames.size then w.right.frames.size else w.image f
  left := w.left.withFrame (some parent)
  right := w.right.withFrame (some (w.image parent))

/-- A new idle frame. -/
def withIdle (parent : FrameId) : Paring where
  idle f := if f = w.left.frames.size then true else w.idle f
  image f := if f = w.left.frames.size then w.image parent else w.image f
  left := w.left.withFrame (some parent)
  right := w.right

/-- A name bound in a frame and the one that it stands for. -/
def define (f : FrameId) (name : String) (v : Value) : Paring :=
  { w with left := w.left.define f name v, right := w.right.define (w.image f) name v }

/-- A new function in both stores. -/
def withFunction (closure closure' : Closure) : Paring :=
  { w with left := w.left.withFunction closure, right := w.right.withFunction closure' }

/-- A new bound method in both stores. -/
def withMethod (bound : BoundMethod) : Paring :=
  { w with
    left := w.left.withMethod bound
    right := w.right.withMethod ⟨bound.function, w.image bound.frame⟩ }

/-- The same step in both stores. -/
def both (m : Store → Store) : Paring := { w with left := m w.left, right := m w.right }

variable {w}

theorem size_withFrame (s : Store) (parent : Option FrameId) :
    (s.withFrame parent).frames.size = s.frames.size + 1 := by
  simp [Store.withFrame]

/-- A new frame of the first store leaves the others alone. -/
theorem le_of_withFrame {w' : Paring} {parent : Option FrameId}
    (hleft : w'.left = w.left.withFrame parent)
    (hidle : ∀ f < w.left.frames.size, w'.idle f = w.idle f)
    (himage : ∀ f < w.left.frames.size, w'.image f = w.image f)
    (hfunction : ∀ id, w'.right.function id = w.right.function id)
    (hmethod : ∀ id, w'.right.method id = w.right.method id) : w.Le w' := by
  refine ⟨?_, hidle, himage, fun f hf => ?_, fun f name hb => ?_, ?_, fun id _ => ⟨?_, hfunction id⟩,
    ?_, fun id _ => ⟨?_, hmethod id⟩⟩
  · rw [hleft, size_withFrame]
    exact Nat.le_succ _
  · rw [hleft, Store.frame_withFrame, if_neg (Nat.ne_of_lt hf)]
  · rw [hleft]
    exact Store.binds_withFrame.mpr ⟨Nat.ne_of_lt hb.lt, hb⟩
  all_goals rw [hleft]
  · exact Nat.le_refl _
  · rfl
  · exact Nat.le_refl _
  · rfl

theorem le_withFrame (parent : FrameId) : w.Le (w.withFrame parent) :=
  le_of_withFrame rfl (fun _ hf => if_neg (Nat.ne_of_lt hf)) (fun _ hf => if_neg (Nat.ne_of_lt hf))
    (fun _ => rfl) fun _ => rfl

theorem le_withIdle (parent : FrameId) : w.Le (w.withIdle parent) :=
  le_of_withFrame rfl (fun _ hf => if_neg (Nat.ne_of_lt hf)) (fun _ hf => if_neg (Nat.ne_of_lt hf))
    (fun _ => rfl) fun _ => rfl

theorem le_define {f : FrameId} (name : String) (v : Value) (hf : f < w.left.frames.size) :
    w.Le (w.define f name v) := by
  refine ⟨by simp [define, Store.define], fun _ _ => rfl, fun _ _ => rfl, fun g _ => ?_,
    fun g other hb => (Store.binds_define hf).mpr (.inr hb), Nat.le_refl _, fun _ _ => ⟨rfl, rfl⟩,
    Nat.le_refl _, fun _ _ => ⟨rfl, rfl⟩⟩
  show ((w.left.define f name v).frame g).parent = _
  rw [Store.frame_define]
  split <;> rfl

theorem le_withFunction (h : Pared w) (closure closure' : Closure) :
    w.Le (w.withFunction closure closure') := by
  refine ⟨Nat.le_refl _, fun _ _ => rfl, fun _ _ => rfl, fun _ _ => rfl, fun _ _ hb => hb,
    by simp [withFunction, Store.withFunction], fun id hid => ⟨?_, ?_⟩, Nat.le_refl _,
    fun _ _ => ⟨rfl, rfl⟩⟩
  · exact (Store.function_withFunction ..).trans (if_neg (Nat.ne_of_lt hid))
  · refine (Store.function_withFunction ..).trans (if_neg ?_)
    rw [h.functions]
    exact Nat.ne_of_lt hid

theorem le_withMethod (h : Pared w) (bound : BoundMethod) : w.Le (w.withMethod bound) := by
  refine ⟨Nat.le_refl _, fun _ _ => rfl, fun _ _ => rfl, fun _ _ => rfl, fun _ _ hb => hb,
    Nat.le_refl _, fun _ _ => ⟨rfl, rfl⟩, by simp [withMethod, Store.withMethod],
    fun id hid => ⟨?_, ?_⟩⟩
  · exact (Store.method_withMethod ..).trans (if_neg (Nat.ne_of_lt hid))
  · refine (Store.method_withMethod ..).trans (if_neg ?_)
    rw [h.methods]
    exact Nat.ne_of_lt hid

/-- The step leaves frames, functions and bound methods alone, and does not ask for them. -/
def Aside (m : Store → Store) : Prop :=
  ∀ s frames functions methods,
    m { s with frames, functions, methods } = { m s with frames, functions, methods }

namespace Aside

variable {m : Store → Store} (hm : Aside m) (s : Store)
include hm

theorem eq : m s = { m s with
    frames := s.frames, functions := s.functions, methods := s.methods } :=
  hm s s.frames s.functions s.methods

theorem frames : (m s).frames = s.frames := by rw [hm.eq]

theorem functions : (m s).functions = s.functions := by rw [hm.eq]

theorem methods : (m s).methods = s.methods := by rw [hm.eq]

theorem frame (f : FrameId) : (m s).frame f = s.frame f := by
  rw [hm.eq]
  rfl

theorem function (id : FunctionId) : (m s).function id = s.function id := by
  rw [hm.eq]
  rfl

theorem method (id : MethodId) : (m s).method id = s.method id := by
  rw [hm.eq]
  rfl

end Aside

theorem le_both {m : Store → Store} (hm : Aside m) : w.Le (w.both m) := by
  refine ⟨?_, fun _ _ => rfl, fun _ _ => rfl, fun f _ => ?_, fun f name hb => ?_, ?_,
    fun id _ => ⟨hm.function _ id, hm.function _ id⟩, ?_,
    fun id _ => ⟨hm.method _ id, hm.method _ id⟩⟩
  · exact Nat.le_of_eq (congrArg Array.size (hm.frames _).symm)
  · exact congrArg Frame.parent (hm.frame _ f)
  · show ((m w.left).frame f).vars.contains name = true
    rwa [hm.frame]
  · exact Nat.le_of_eq (congrArg Array.size (hm.functions _).symm)
  · exact Nat.le_of_eq (congrArg Array.size (hm.methods _).symm)

/-! ### Frames after a step -/

namespace Folds

variable (h : w.Folds)
include h

/-- Where frames stay as they are. -/
theorem of_frames {left right : Store} (hleft : left.frames = w.left.frames)
    (hright : right.frames = w.right.frames) : Folds { w with left := left, right := right } := by
  have hl : ∀ f, left.frame f = w.left.frame f := fun f => by
    rw [Store.frame, Store.frame, hleft]
  have hr : ∀ f, right.frame f = w.right.frame f := fun f => by
    rw [Store.frame, Store.frame, hright]
  have hsize : left.frames.size = w.left.frames.size := congrArg Array.size hleft
  have hsize' : right.frames.size = w.right.frames.size := congrArg Array.size hright
  obtain ⟨hroot, houtermost, hbusy, hfixed, hbelow, hparents, hskipped, hkept, hinjective, honto⟩ := h
  constructor <;> simp only [hl, hr, hsize, hsize'] <;> assumption

/-- A new frame of the first store is idle, or stands for a new one of the second store. -/
theorem withNew {w' : Paring} {parent : FrameId} (hp : parent < w.left.frames.size)
    (hleft : w'.left = w.left.withFrame (some parent))
    (hidle : ∀ f < w.left.frames.size, w'.idle f = w.idle f)
    (himage : ∀ f < w.left.frames.size, w'.image f = w.image f)
    (hright : ∀ g < w.right.frames.size,
      g < w'.right.frames.size ∧ w'.right.frame g = w.right.frame g)
    (hbelow : w'.image w.left.frames.size < w'.right.frames.size)
    (hskipped : w'.idle w.left.frames.size = true → w'.image w.left.frames.size = w.image parent)
    (hkept : w'.idle w.left.frames.size = false → w.right.frames.size ≤ w'.image w.left.frames.size ∧
      w'.right.frame (w'.image w.left.frames.size) = ⟨some (w.image parent), .empty⟩)
    (honto : ∀ g < w'.right.frames.size, w.right.frames.size ≤ g →
      w'.idle w.left.frames.size = false ∧ w'.image w.left.frames.size = g) : w'.Folds := by
  have hsize : w'.left.frames.size = w.left.frames.size + 1 := by rw [hleft, size_withFrame]
  have hcases : ∀ f < w'.left.frames.size, f < w.left.frames.size ∨ f = w.left.frames.size :=
    fun f hf => Nat.lt_or_eq_of_le (Nat.le_of_lt_succ (Nat.lt_of_lt_of_eq hf hsize))
  have hlt : ∀ f < w.left.frames.size, f < w'.left.frames.size :=
    fun f hf => hsize ▸ Nat.lt_succ_of_lt hf
  have hold : ∀ f < w.left.frames.size, w'.left.frame f = w.left.frame f := fun f hf => by
    rw [hleft, Store.frame_withFrame, if_neg (Nat.ne_of_lt hf)]
  have hnew : w'.left.frame w.left.frames.size = ⟨some parent, .empty⟩ := by
    rw [hleft, Store.frame_withFrame, if_pos rfl]
  exact {
    root := hlt _ h.root
    outermost := by rw [hold _ h.root, h.outermost]
    busy := by rw [hidle _ h.root, h.busy]
    fixed := by rw [himage _ h.root, h.fixed]
    below := fun f hf => by
      obtain hf | rfl := hcases f hf
      · rw [himage f hf]
        exact (hright _ (h.below f hf)).1
      · exact hbelow
    parents := fun f hf p hparent => by
      obtain hf | rfl := hcases f hf
      · rw [hold f hf] at hparent
        exact hlt p (h.parents f hf p hparent)
      · rw [hnew] at hparent
        cases hparent
        exact hlt _ hp
    skipped := fun f hf hi => by
      obtain hf | rfl := hcases f hf
      · rw [hidle f hf] at hi
        obtain ⟨hvars, p, hparent, heq⟩ := h.skipped f hf hi
        refine ⟨by rw [hold f hf, hvars], p, by rw [hold f hf, hparent], ?_⟩
        rw [himage f hf, himage p (h.parents f hf p hparent), heq]
      · refine ⟨by rw [hnew], parent, by rw [hnew], ?_⟩
        rw [hskipped hi, himage parent hp]
    kept := fun f hf hi => by
      obtain hf | rfl := hcases f hf
      · rw [hidle f hf] at hi
        rw [himage f hf, (hright _ (h.below f hf)).2, h.kept f hf hi, hold f hf]
        cases hparent : (w.left.frame f).parent with
        | none => rfl
        | some p => simp only [Option.map_some, himage p (h.parents f hf p hparent)]
      · rw [(hkept hi).2, hnew]
        simp only [Option.map_some, himage parent hp]
    -- the new frame stands for one that no other stood for
    injective := fun f hf g hg hi hi' heq => by
      obtain hf | rfl := hcases f hf
      · rw [hidle f hf] at hi
        rw [himage f hf] at heq
        obtain hg | rfl := hcases g hg
        · rw [hidle g hg] at hi'
          rw [himage g hg] at heq
          exact h.injective f hf g hg hi hi' heq
        · exact absurd (heq ▸ h.below f hf) (Nat.not_lt.mpr (hkept hi').1)
      · obtain hg | rfl := hcases g hg
        · rw [himage g hg] at heq
          exact absurd (heq ▸ h.below g hg) (Nat.not_lt.mpr (hkept hi).1)
        · rfl
    onto := fun g hg => by
      by_cases hg' : g < w.right.frames.size
      · obtain ⟨f, hf, hi, rfl⟩ := h.onto g hg'
        exact ⟨f, hlt f hf, (hidle f hf).trans hi, himage f hf⟩
      · obtain ⟨hi, heq⟩ := honto g hg (Nat.le_of_not_lt hg')
        exact ⟨_, hsize ▸ Nat.lt_succ_self _, hi, heq⟩ }

theorem withIdle {parent : FrameId} (hp : parent < w.left.frames.size) :
    (w.withIdle parent).Folds := by
  have hi : (w.withIdle parent).idle w.left.frames.size = true := if_pos rfl
  have himage : (w.withIdle parent).image w.left.frames.size = w.image parent := if_pos rfl
  refine h.withNew hp rfl (fun _ hf => if_neg (Nat.ne_of_lt hf))
    (fun _ hf => if_neg (Nat.ne_of_lt hf))
    (fun g hg => ⟨hg, rfl⟩) ?_ (fun _ => himage) (fun hi' => nomatch hi.symm.trans hi')
    fun g hg hle => absurd hg (Nat.not_lt.mpr hle)
  rw [himage]
  exact h.below parent hp

theorem withFrame {parent : FrameId} (hp : parent < w.left.frames.size) :
    (w.withFrame parent).Folds := by
  have hi : (w.withFrame parent).idle w.left.frames.size = false := if_pos rfl
  have himage : (w.withFrame parent).image w.left.frames.size = w.right.frames.size := if_pos rfl
  have hsize : (w.withFrame parent).right.frames.size = w.right.frames.size + 1 := size_withFrame _ _
  refine h.withNew hp rfl (fun _ hf => if_neg (Nat.ne_of_lt hf))
    (fun _ hf => if_neg (Nat.ne_of_lt hf))
    (fun g hg => ⟨hsize ▸ Nat.lt_succ_of_lt hg, ?_⟩) ?_ (fun hi' => nomatch hi.symm.trans hi')
    (fun _ => ⟨Nat.le_of_eq himage.symm, ?_⟩) fun g hg hle => ⟨hi, himage.trans ?_⟩
  · exact (Store.frame_withFrame ..).trans (if_neg (Nat.ne_of_lt hg))
  · rw [himage, hsize]
    exact Nat.lt_succ_self _
  · rw [himage]
    exact (Store.frame_withFrame ..).trans (if_pos rfl)
  · exact Nat.le_antisymm hle (Nat.le_of_lt_succ (Nat.lt_of_lt_of_eq hg hsize))

theorem define {f : FrameId} (hf : f < w.left.frames.size) (hi : w.idle f = false) (name : String)
    (v : Value) : (w.define f name v).Folds := by
  have hleft : ∀ g, (w.define f name v).left.frame g = if g = f ∧ f < w.left.frames.size then
      { w.left.frame g with vars := (w.left.frame g).vars.bind name v } else w.left.frame g :=
    Store.frame_define w.left f name v
  have hright : ∀ g, (w.define f name v).right.frame g =
      if g = w.image f ∧ w.image f < w.right.frames.size then
        { w.right.frame g with vars := (w.right.frame g).vars.bind name v } else w.right.frame g :=
    Store.frame_define w.right (w.image f) name v
  have hother : ∀ g, g ≠ f → (w.define f name v).left.frame g = w.left.frame g := fun g hg => by
    rw [hleft, if_neg fun hg' => hg hg'.1]
  have hparent : ∀ g, ((w.define f name v).left.frame g).parent = (w.left.frame g).parent := by
    intro g
    rw [hleft]
    split <;> rfl
  have hsize : (w.define f name v).left.frames.size = w.left.frames.size := by
    simp [Paring.define, Store.define]
  have hsize' : (w.define f name v).right.frames.size = w.right.frames.size := by
    simp [Paring.define, Store.define]
  have hroot : Store.globals < (w.define f name v).left.frames.size := hsize ▸ h.root
  exact {
    root := hroot
    outermost := (hparent _).trans h.outermost
    busy := h.busy
    fixed := h.fixed
    below := fun g hg => by
      rw [hsize] at hg
      exact hsize' ▸ h.below g hg
    parents := fun g hg p hp => by
      rw [hsize] at hg ⊢
      exact h.parents g hg p ((hparent g).symm.trans hp)
    skipped := fun g hg hi' => by
      rw [hsize] at hg
      have hne : g ≠ f := by
        rintro rfl
        cases hi.symm.trans hi'
      rw [hother g hne]
      exact h.skipped g hg hi'
    -- no other frame stands for the one that binds the name now
    kept := fun g hg hi' => by
      rw [hsize] at hg
      rw [hparent]
      show (w.define f name v).right.frame (w.image g) = _
      have hkept := h.kept g hg hi'
      by_cases hne : g = f
      · subst hne
        rw [hleft, hright, if_pos ⟨rfl, h.below g hg⟩, if_pos ⟨rfl, hg⟩, hkept]
        rfl
      · have himage : w.image g ≠ w.image f := fun heq => hne (h.injective g hg f hf hi' hi heq)
        rw [hother g hne, hright, if_neg fun heq => himage heq.1, hkept]
        rfl
    injective := fun g hg g' hg' => by
      rw [hsize] at hg hg'
      exact h.injective g hg g' hg'
    onto := fun g hg => by
      rw [hsize'] at hg
      rw [hsize]
      exact h.onto g hg }

end Folds

end Paring

/-! ### Stores after a step -/

namespace Pared

variable {w w' : Paring}

/-- One store stays the other one without its idle frames while they grow, if what is new within
reach is known. -/
theorem grow (hle : w.Le w') (folds : w'.Folds)
    (functions : w'.right.functions.size = w'.left.functions.size)
    (methods : w'.right.methods.size = w'.left.methods.size)
    (rest : w'.right = { w'.left with
      frames := w'.right.frames, functions := w'.right.functions, methods := w'.right.methods })
    (knownVars : ∀ f name v, (w'.left.frame f).vars.get? name = some v → w.Known v)
    (knownFields : ∀ i name v, (w'.left.instanceObject i).fields.get? name = some v → w.Known v)
    (offers : ∀ cls name m, (w'.left.classObject cls).methods.get? name = some m → w.Offers m) :
    Pared w' where
  toFolds := folds
  functions := functions
  methods := methods
  rest := rest
  knownVars f name v hv := (knownVars f name v hv).mono hle
  knownFields i name v hv := (knownFields i name v hv).mono hle
  offers cls name m hm := (offers cls name m hm).mono hle

variable (h : Pared w)
include h

theorem knownVars_withFrame (parent : Option FrameId) (f : FrameId) (name : String) (v : Value)
    (hv : ((w.left.withFrame parent).frame f).vars.get? name = some v) : w.Known v := by
  rw [Store.frame_withFrame] at hv
  split at hv
  · cases hv
  · exact h.knownVars f name v hv

theorem withFrame {parent : FrameId} (hp : parent < w.left.frames.size) :
    Pared (w.withFrame parent) := by
  refine grow (Paring.le_withFrame parent) (h.toFolds.withFrame hp) h.functions h.methods ?_
    (h.knownVars_withFrame _) h.knownFields h.offers
  show w.right.withFrame _ = _
  conv_lhs => rw [h.rest]
  rfl

theorem withIdle {parent : FrameId} (hp : parent < w.left.frames.size) : Pared (w.withIdle parent) :=
  grow (Paring.le_withIdle parent) (h.toFolds.withIdle hp) h.functions h.methods h.rest
    (h.knownVars_withFrame _) h.knownFields h.offers

theorem define {f : FrameId} (hf : f < w.left.frames.size) (hi : w.idle f = false) (name : String)
    {v : Value} (hv : w.Known v) : Pared (w.define f name v) := by
  refine grow (Paring.le_define name v hf) (h.toFolds.define hf hi name v) h.functions h.methods ?_
    (fun g other u hu => ?_) h.knownFields h.offers
  · show w.right.define _ name v = _
    conv_lhs => rw [h.rest]
    rfl
  · have hu : ((w.left.define f name v).frame g).vars.get? other = some u := hu
    rw [Store.frame_define] at hu
    split at hu
    · rw [Bindings.get?_bind] at hu
      split at hu
      · cases hu
        exact hv
      · exact h.knownVars g other u hu
    · exact h.knownVars g other u hu

theorem withFunction (closure closure' : Closure) : Pared (w.withFunction closure closure') := by
  refine grow (Paring.le_withFunction h closure closure') (h.toFolds.of_frames rfl rfl) ?_ h.methods
    ?_ h.knownVars h.knownFields h.offers
  · simp [Paring.withFunction, Store.withFunction, h.functions]
  · show w.right.withFunction closure' = _
    conv_lhs => rw [h.rest]
    rfl

theorem withMethod (bound : BoundMethod) : Pared (w.withMethod bound) := by
  refine grow (Paring.le_withMethod h bound) (h.toFolds.of_frames rfl rfl) h.functions ?_ ?_
    h.knownVars h.knownFields h.offers
  · simp [Paring.withMethod, Store.withMethod, h.methods]
  · show w.right.withMethod _ = _
    conv_lhs => rw [h.rest]
    rfl

/-- A step beside frames, functions and bound methods, if it brings nothing unknown within reach. -/
theorem both {m : Store → Store} (hm : Paring.Aside m)
    (hfields : ∀ i name v, ((m w.left).instanceObject i).fields.get? name = some v → w.Known v)
    (hoffers : ∀ cls name k, ((m w.left).classObject cls).methods.get? name = some k → w.Offers k) :
    Pared (w.both m) := by
  refine grow (Paring.le_both hm) (h.toFolds.of_frames (hm.frames _) (hm.frames _)) ?_ ?_ ?_
    (fun f name v hv => ?_) hfields hoffers
  · show (m w.right).functions.size = (m w.left).functions.size
    rw [hm.functions, hm.functions, h.functions]
  · show (m w.right).methods.size = (m w.left).methods.size
    rw [hm.methods, hm.methods, h.methods]
  · show m w.right = { m w.left with
      frames := (m w.right).frames, functions := (m w.right).functions
      methods := (m w.right).methods }
    rw [← hm, hm.frames, hm.functions, hm.methods, ← h.rest]
  · have hv : ((m w.left).frame f).vars.get? name = some v := hv
    rw [hm.frame] at hv
    exact h.knownVars f name v hv

end Pared

end Lox
