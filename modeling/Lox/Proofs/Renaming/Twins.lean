/-
# Two stores with names exchanged

Beside a store stands another one that is the same but for names: in some
frames two names are exchanged, and functions are spelled otherwise
(`Lox.Twins`). A function follows the exchange in the frames that it is called
in: a function lies in the frame that it was made in, a method in one that
binds the receiver, inside that one. Of functions that are values or methods
of classes it is known in which frames they are called, so that names can be
followed; what is known stays known while the stores grow.

Key definitions: `Lox.Pair`, `Lox.Pair.Fits`, `Lox.Pair.Known`, `Lox.Twins`.
Key theorems: `Lox.Pair.Fits.mono`, `Lox.Pair.Known.mono`, `Lox.Twins.grow`.
-/
import Lox.Proofs.Dispatch.Superclasses
import Lox.Proofs.Renaming.Exchange
import Lox.Proofs.Running.Names
import Lox.Proofs.Spelling.Running

namespace Lox

/-- Two stores, and the frames in which the second one has the names exchanged. -/
structure Pair where
  layer : FrameId → Bool
  left : Store
  right : Store

namespace Pair

variable {c : Exchange} {w w' w'' : Pair} {ls : List Bool} {f : FrameId} {id : FunctionId}

/-! ### Growth -/

/-- Both stores grow, and what was there stays. -/
structure Le (w w' : Pair) : Prop where
  frames : w.left.frames.size ≤ w'.left.frames.size
  layer : ∀ f < w.left.frames.size, w'.layer f = w.layer f
  parent : ∀ f < w.left.frames.size, (w'.left.frame f).parent = (w.left.frame f).parent
  bound : ∀ f name, w.left.Binds f name → w'.left.Binds f name
  functions : w.left.functions.size ≤ w'.left.functions.size
  function : ∀ id < w.left.functions.size,
    w'.left.function id = w.left.function id ∧ w'.right.function id = w.right.function id
  methods : w.left.methods.size ≤ w'.left.methods.size
  method : ∀ id < w.left.methods.size, w'.left.method id = w.left.method id

namespace Le

theorem refl (w : Pair) : w.Le w :=
  ⟨Nat.le_refl _, fun _ _ => rfl, fun _ _ => rfl, fun _ _ h => h, Nat.le_refl _,
    fun _ _ => ⟨rfl, rfl⟩, Nat.le_refl _, fun _ _ => rfl⟩

theorem trans (h : w.Le w') (g : w'.Le w'') : w.Le w'' where
  frames := Nat.le_trans h.frames g.frames
  layer f hf := (g.layer f (Nat.lt_of_lt_of_le hf h.frames)).trans (h.layer f hf)
  parent f hf := (g.parent f (Nat.lt_of_lt_of_le hf h.frames)).trans (h.parent f hf)
  bound f name hb := g.bound f name (h.bound f name hb)
  functions := Nat.le_trans h.functions g.functions
  function id hid := by
    obtain ⟨hleft, hright⟩ := g.function id (Nat.lt_of_lt_of_le hid h.functions)
    exact ⟨hleft.trans (h.function id hid).1, hright.trans (h.function id hid).2⟩
  methods := Nat.le_trans h.methods g.methods
  method id hid := (g.method id (Nat.lt_of_lt_of_le hid h.methods)).trans (h.method id hid)

end Le

/-! ### Frames around a frame -/

/-- The frames outward from this one have the names exchanged as the flags say, and none of those
further out. -/
def Fits (w : Pair) (ls : List Bool) (f : FrameId) : Prop :=
  ∀ d a, w.left.ancestor? d f = some a →
    a < w.left.frames.size ∧ w.layer a = ls.getD d false

theorem Fits.lt (h : w.Fits ls f) : f < w.left.frames.size := (h 0 f rfl).1

theorem Fits.layer_eq (h : w.Fits ls f) : w.layer f = ls.headD false := by
  rw [(h 0 f rfl).2]
  cases ls <;> rfl

/-- The frames around are the same later on. -/
theorem Fits.ancestor?_eq (h : w.Fits ls f) (hle : w.Le w') (d : Nat) :
    w'.left.ancestor? d f = w.left.ancestor? d f := by
  induction d generalizing f ls with
  | zero => rfl
  | succ d ih =>
    rw [Store.ancestor?, Store.ancestor?, hle.parent f h.lt]
    cases hp : (w.left.frame f).parent with
    | none => rfl
    | some p =>
      have hfits : w.Fits ls.tail p := by
        intro e a ha
        have ha' : w.left.ancestor? (e + 1) f = some a := by
          rw [Store.ancestor?, hp]
          exact ha
        obtain ⟨hlt, hlayer⟩ := h (e + 1) a ha'
        refine ⟨hlt, hlayer.trans ?_⟩
        cases ls <;> rfl
      exact ih hfits

theorem Fits.mono (h : w.Fits ls f) (hle : w.Le w') : w'.Fits ls f := by
  intro d a ha
  rw [h.ancestor?_eq hle] at ha
  obtain ⟨hlt, hlayer⟩ := h d a ha
  exact ⟨Nat.lt_of_lt_of_le hlt hle.frames, (hle.layer a hlt).trans hlayer⟩

/-- A frame inside. -/
theorem Fits.inside {p : FrameId} {b : Bool} (h : w.Fits ls p) (hf : f < w.left.frames.size)
    (hp : (w.left.frame f).parent = some p) (hb : w.layer f = b) : w.Fits (b :: ls) f := by
  intro d a ha
  cases d with
  | zero =>
    cases ha
    exact ⟨hf, hb⟩
  | succ d =>
    rw [Store.ancestor?, hp] at ha
    exact h d a ha

/-! ### Functions -/

/-- Both stores have the function, and the second one spells it as is right under these flags. -/
def Spells (c : Exchange) (w : Pair) (ls : List Bool) (id : FunctionId) : Prop :=
  id < w.left.functions.size ∧ ∃ r : Respelling, r.Still ∧
    w.right.function id = (w.left.function id).respell r ∧
      functionFollows c r ls (w.left.function id).decl

/-- The function can be called inside the frame. -/
def Calls (c : Exchange) (w : Pair) (id : FunctionId) (outer : FrameId) : Prop :=
  ∃ ls, w.Spells c ls id ∧ w.Fits ls outer

/-- The function can be called as a method, inside a frame that binds the receiver. -/
def Offers (c : Exchange) (w : Pair) (id : FunctionId) : Prop :=
  ∃ ls, w.Spells c (false :: ls) id ∧ w.Fits ls (w.left.function id).frame

/-- A function or bound method can be called. -/
def Known (c : Exchange) (w : Pair) : Value → Prop
  | .function id => w.Calls c id (w.left.function id).frame
  | .method id =>
    id < w.left.methods.size ∧ w.Calls c (w.left.method id).function (w.left.method id).frame
  | .const _ | .native _ | .classRef _ | .instanceRef _ => True

theorem Spells.mono (h : w.Spells c ls id) (hle : w.Le w') : w'.Spells c ls id := by
  obtain ⟨hid, r, hstill, hspelled, hfollows⟩ := h
  obtain ⟨hleft, hright⟩ := hle.function id hid
  refine ⟨Nat.lt_of_lt_of_le hid hle.functions, r, hstill, ?_, ?_⟩
  · rw [hleft, hright]
    exact hspelled
  · rw [hleft]
    exact hfollows

theorem Calls.mono {outer : FrameId} (h : w.Calls c id outer) (hle : w.Le w') :
    w'.Calls c id outer := by
  obtain ⟨ls, hspells, hfits⟩ := h
  exact ⟨ls, hspells.mono hle, hfits.mono hle⟩

theorem Offers.mono (h : w.Offers c id) (hle : w.Le w') : w'.Offers c id := by
  obtain ⟨ls, hspells, hfits⟩ := h
  refine ⟨ls, hspells.mono hle, ?_⟩
  rw [(hle.function id hspells.1).1]
  exact hfits.mono hle

/-- Known values stay known. -/
theorem Known.mono {v : Value} (h : w.Known c v) (hle : w.Le w') : w'.Known c v := by
  cases v with
  | const _ | native _ | classRef _ | instanceRef _ => trivial
  | function id =>
    obtain ⟨ls, hspells, hfits⟩ := h
    refine ⟨ls, hspells.mono hle, ?_⟩
    rw [(hle.function id hspells.1).1]
    exact hfits.mono hle
  | method id =>
    refine ⟨Nat.lt_of_lt_of_le h.1 hle.methods, ?_⟩
    rw [hle.method id h.1]
    exact h.2.mono hle

end Pair

/-- The second store is the first one with the names exchanged, and what is within reach can be
called. -/
structure Twins (c : Exchange) (w : Pair) : Prop where
  frames : w.right.frames.size = w.left.frames.size
  parent : ∀ f, (w.right.frame f).parent = (w.left.frame f).parent
  vars : ∀ f name,
    (w.right.frame f).vars.get? (c.name (w.layer f) name) = (w.left.frame f).vars.get? name
  functions : w.right.functions.size = w.left.functions.size
  rest : w.right = { w.left with frames := w.right.frames, functions := w.right.functions }
  root : Store.globals < w.left.frames.size
  outermost : (w.left.frame Store.globals).parent = none
  layer : w.layer Store.globals = false
  knownVars : ∀ f name v, (w.left.frame f).vars.get? name = some v → w.Known c v
  knownFields : ∀ i name v, (w.left.instanceObject i).fields.get? name = some v → w.Known c v
  offers : ∀ cls name m, (w.left.classObject cls).methods.get? name = some m → w.Offers c m

namespace Twins

variable {c : Exchange} {w : Pair} (h : Twins c w)
include h

/-! ### What both stores tell -/

theorem method (id : MethodId) : w.right.method id = w.left.method id := by
  rw [h.rest]
  rfl

theorem classObject (cls : ClassId) : w.right.classObject cls = w.left.classObject cls := by
  rw [h.rest]
  rfl

theorem instanceObject (id : InstanceId) : w.right.instanceObject id = w.left.instanceObject id := by
  rw [h.rest]
  rfl

theorem clock : w.right.clock = w.left.clock := by
  rw [h.rest]

theorem ancestor? (d : Nat) (f : FrameId) : w.right.ancestor? d f = w.left.ancestor? d f := by
  induction d generalizing f with
  | zero => rfl
  | succ d ih =>
    rw [Store.ancestor?, Store.ancestor?, h.parent]
    cases (w.left.frame f).parent with
    | none => rfl
    | some p => exact ih p

theorem binds (f : FrameId) (name : String) :
    w.right.Binds f (c.name (w.layer f) name) ↔ w.left.Binds f name := by
  rw [Store.Binds, Store.Binds, Bindings.contains, Bindings.contains, h.vars]

theorem varsGlobals (name : String) : (w.right.frame Store.globals).vars.get? name =
    (w.left.frame Store.globals).vars.get? name := by
  have hvars := h.vars Store.globals name
  rwa [h.layer] at hvars

theorem findMethod? (cls : ClassId) (name : String) :
    w.right.findMethod? cls name = w.left.findMethod? cls name :=
  Store.findMethod?_congr (by rw [h.rest])

/-- A method that is found is one that a class offers. -/
theorem offers_of_findMethod? {cls : ClassId} {name : String} {m : FunctionId}
    (hm : w.left.findMethod? cls name = some m) : w.Offers c m := by
  obtain ⟨q, hq⟩ := Store.defined_of_findMethod? hm
  exact h.offers q name m hq

theorem methodOf? (v : Value) (name : String) :
    w.right.methodOf? v name = w.left.methodOf? v name := by
  cases v with
  | classRef cls => exact h.findMethod? cls name
  | const _ | native _ | function _ | method _ | instanceRef _ => rfl

theorem offers_of_methodOf? {v : Value} {name : String} {m : FunctionId}
    (hm : w.left.methodOf? v name = some m) : w.Offers c m := by
  cases v with
  | classRef cls => exact h.offers_of_findMethod? hm
  | const _ | native _ | function _ | method _ | instanceRef _ => cases hm

omit h in
/-- A function that both stores have is shown and called in the same way. -/
theorem function_alike {ls : List Bool} {id : FunctionId} (hs : w.Spells c ls id) :
    (w.right.function id).decl.name.text = (w.left.function id).decl.name.text ∧
      w.right.functionArity id = w.left.functionArity id ∧
      (w.right.function id).frame = (w.left.function id).frame := by
  obtain ⟨_, r, _, hspelled, hfollows⟩ := hs
  rw [Store.functionArity, Store.functionArity, hspelled]
  generalize w.left.function id = closure at hfollows
  obtain ⟨⟨name, params, body⟩, frame, isInitializer⟩ := closure
  exact ⟨hfollows.1, by simp [Closure.respell], rfl⟩

theorem display {v : Value} (hv : w.Known c v) : w.right.display v = w.left.display v := by
  cases v with
  | const _ | native _ => rfl
  | function id =>
    obtain ⟨_, hs, _⟩ := hv
    rw [Store.display, Store.display, (function_alike hs).1]
  | method id =>
    obtain ⟨_, _, hs, _⟩ := hv
    rw [Store.display, Store.display, h.method, (function_alike hs).1]
  | classRef cls => rw [Store.display, Store.display, h.classObject]
  | instanceRef id => rw [Store.display, Store.display, h.instanceObject, h.classObject]

theorem arity? {v : Value} (hv : w.Known c v) : w.right.arity? v = w.left.arity? v := by
  cases v with
  | const _ | native _ | instanceRef _ => rfl
  | function id =>
    obtain ⟨_, hs, _⟩ := hv
    rw [Store.arity?, Store.arity?, (function_alike hs).2.1]
  | method id =>
    obtain ⟨_, _, hs, _⟩ := hv
    rw [Store.arity?, Store.arity?, h.method, (function_alike hs).2.1]
  | classRef cls =>
    rw [Store.arity?, Store.arity?, h.findMethod?]
    cases hm : w.left.findMethod? cls Store.initName with
    | none => rfl
    | some m =>
      obtain ⟨_, hs, _⟩ := h.offers_of_findMethod? hm
      simp only [(function_alike hs).2.1]

/-- Nothing is exchanged among the globals. -/
theorem fits_globals : w.Fits [] Store.globals := by
  intro d a ha
  cases d with
  | zero =>
    cases ha
    exact ⟨h.root, h.layer⟩
  | succ d =>
    rw [Store.ancestor?, h.outermost] at ha
    cases ha

/-- Only the globals are among the globals. -/
theorem holder?_globals (name : String) :
    w.left.holder? name Store.globals =
        (if (w.left.frame Store.globals).vars.contains name then some Store.globals else none) ∧
      w.right.holder? name Store.globals = w.left.holder? name Store.globals := by
  obtain ⟨k, hk⟩ := Nat.exists_eq_add_one.mpr h.root
  have hleft : w.left.holder? name Store.globals =
      if (w.left.frame Store.globals).vars.contains name then some Store.globals else none := by
    rw [Store.holder?, hk, Store.holderWithin?, h.outermost]
  refine ⟨hleft, ?_⟩
  rw [hleft, Store.holder?, h.frames, hk, Store.holderWithin?, h.parent, h.outermost,
    Bindings.contains, Bindings.contains, h.varsGlobals]

theorem get?_globals (name : String) :
    w.right.get? Store.globals name = w.left.get? Store.globals name := by
  obtain ⟨hleft, hright⟩ := h.holder?_globals name
  rw [Store.get?, Store.get?, hright, hleft]
  split
  · exact h.varsGlobals name
  · rfl

end Twins

/-! ### Steps of both stores -/

namespace Pair

variable (w : Pair)

/-- A new frame in both stores, in which the names are exchanged or are not. -/
def withFrame (parent : Option FrameId) (b : Bool) : Pair where
  layer f := if f = w.left.frames.size then b else w.layer f
  left := w.left.withFrame parent
  right := w.right.withFrame parent

/-- A name bound in a frame, and in the second store what it is called there. -/
def define (c : Exchange) (f : FrameId) (name : String) (v : Value) : Pair where
  layer := w.layer
  left := w.left.define f name v
  right := w.right.define f (c.name (w.layer f) name) v

/-- A new function, in the second store spelled otherwise. -/
def withFunction (r : Respelling) (closure : Closure) : Pair where
  layer := w.layer
  left := w.left.withFunction closure
  right := w.right.withFunction (closure.respell r)

/-- The same step in both stores. -/
def both (m : Store → Store) : Pair := ⟨w.layer, m w.left, m w.right⟩

variable {w}

theorem le_withFrame (parent : Option FrameId) (b : Bool) : w.Le (w.withFrame parent b) := by
  have hold : ∀ f < w.left.frames.size, f ≠ w.left.frames.size := fun _ hf => Nat.ne_of_lt hf
  refine ⟨by simp [withFrame, Store.withFrame], fun f hf => if_neg (hold f hf), fun f hf => ?_,
    fun f name hb => ?_, Nat.le_refl _, fun _ _ => ⟨rfl, rfl⟩, Nat.le_refl _, fun _ _ => rfl⟩
  · show ((w.left.withFrame parent).frame f).parent = _
    rw [Store.frame_withFrame, if_neg (hold f hf)]
  · exact Store.binds_withFrame.mpr ⟨hold f hb.lt, hb⟩

theorem le_define (c : Exchange) {f : FrameId} (name : String) (v : Value)
    (hf : f < w.left.frames.size) : w.Le (w.define c f name v) := by
  refine ⟨by simp [define, Store.define], fun _ _ => rfl, fun g _ => ?_, fun g other hb => ?_,
    Nat.le_refl _, fun _ _ => ⟨rfl, rfl⟩, Nat.le_refl _, fun _ _ => rfl⟩
  · show ((w.left.define f name v).frame g).parent = _
    rw [Store.frame_define]
    split <;> rfl
  · exact (Store.binds_define hf).mpr (.inr hb)

theorem le_withFunction {c : Exchange} (h : Twins c w) (r : Respelling) (closure : Closure) :
    w.Le (w.withFunction r closure) := by
  refine ⟨Nat.le_refl _, fun _ _ => rfl, fun _ _ => rfl, fun _ _ hb => hb,
    by simp [withFunction, Store.withFunction], fun id hid => ?_, Nat.le_refl _, fun _ _ => rfl⟩
  have hne : id ≠ w.left.functions.size := Nat.ne_of_lt hid
  constructor
  · exact (Store.function_withFunction ..).trans (if_neg hne)
  · refine (Store.function_withFunction ..).trans (if_neg ?_)
    rw [h.functions]
    exact hne

/-- The step leaves frames and functions alone, and does not ask for them. -/
def Aside (m : Store → Store) : Prop :=
  ∀ s frames functions, m { s with frames, functions } = { m s with frames, functions }

namespace Aside

variable {m : Store → Store} (hm : Aside m) (s : Store)
include hm

theorem frames : (m s).frames = s.frames := by
  have hs : m s = { m s with frames := s.frames, functions := s.functions } :=
    hm s s.frames s.functions
  have hframes := congrArg Store.frames hs
  exact hframes

theorem functions : (m s).functions = s.functions := by
  have hs : m s = { m s with frames := s.frames, functions := s.functions } :=
    hm s s.frames s.functions
  have hfunctions := congrArg Store.functions hs
  exact hfunctions

theorem frame (f : FrameId) : (m s).frame f = s.frame f := by
  rw [Store.frame, hm.frames]
  rfl

theorem function (id : FunctionId) : (m s).function id = s.function id := by
  rw [Store.function, hm.functions]
  rfl

end Aside

/-- A step beside frames and functions that keeps bound methods. -/
theorem le_both {m : Store → Store} (hm : Aside m)
    (hsize : w.left.methods.size ≤ (m w.left).methods.size)
    (hmethod : ∀ id < w.left.methods.size, (m w.left).method id = w.left.method id) :
    w.Le (w.both m) := by
  refine ⟨?_, fun _ _ => rfl, fun f _ => ?_, fun f name hb => ?_, ?_,
    fun id _ => ⟨hm.function _ id, hm.function _ id⟩, hsize, hmethod⟩
  · exact Nat.le_of_eq (congrArg Array.size (hm.frames _).symm)
  · exact congrArg Frame.parent (hm.frame _ f)
  · show ((m w.left).frame f).vars.contains name = true
    rwa [hm.frame]
  · exact Nat.le_of_eq (congrArg Array.size (hm.functions _).symm)

end Pair

namespace Twins

variable {c : Exchange} {w w' : Pair}

/-- Twins stay twins while they grow, if what is new within reach is known. -/
theorem grow (h : Twins c w) (hle : w.Le w') (frames : w'.right.frames.size = w'.left.frames.size)
    (parent : ∀ f, (w'.right.frame f).parent = (w'.left.frame f).parent)
    (vars : ∀ f name,
      (w'.right.frame f).vars.get? (c.name (w'.layer f) name) = (w'.left.frame f).vars.get? name)
    (functions : w'.right.functions.size = w'.left.functions.size)
    (rest : w'.right = { w'.left with frames := w'.right.frames, functions := w'.right.functions })
    (knownVars : ∀ f name v, (w'.left.frame f).vars.get? name = some v → w.Known c v)
    (knownFields : ∀ i name v, (w'.left.instanceObject i).fields.get? name = some v →
      w.Known c v)
    (offers : ∀ cls name m, (w'.left.classObject cls).methods.get? name = some m →
      w.Offers c m) : Twins c w' where
  frames := frames
  parent := parent
  vars := vars
  functions := functions
  rest := rest
  root := Nat.lt_of_lt_of_le h.root hle.frames
  outermost := (hle.parent _ h.root).trans h.outermost
  layer := (hle.layer _ h.root).trans h.layer
  knownVars f name v hv := (knownVars f name v hv).mono hle
  knownFields i name v hv := (knownFields i name v hv).mono hle
  offers cls name m hm := (offers cls name m hm).mono hle

variable (h : Twins c w)
include h

theorem withFrame (parent : Option FrameId) (b : Bool) : Twins c (w.withFrame parent b) := by
  have hframe : ∀ f, (w.withFrame parent b).right.frame f =
      if f = w.left.frames.size then ⟨parent, .empty⟩ else w.right.frame f := by
    intro f
    rw [← h.frames]
    exact Store.frame_withFrame ..
  have hframe' : ∀ f, (w.withFrame parent b).left.frame f =
      if f = w.left.frames.size then ⟨parent, .empty⟩ else w.left.frame f :=
    Store.frame_withFrame w.left parent
  refine h.grow (Pair.le_withFrame parent b) ?_ (fun f => ?_) (fun f name => ?_) h.functions ?_
    (fun f name v hv => ?_) h.knownFields h.offers
  · simp [Pair.withFrame, Store.withFrame, h.frames]
  · rw [hframe, hframe']
    split
    · rfl
    · exact h.parent f
  · rw [hframe, hframe']
    show (if f = _ then _ else _ : Frame).vars.get? (c.name (if f = _ then b else w.layer f) name) = _
    split
    · rfl
    · exact h.vars f name
  · show w.right.withFrame parent = _
    conv_lhs => rw [h.rest]
    rfl
  · rw [hframe'] at hv
    split at hv
    · cases hv
    · exact h.knownVars f name v hv

theorem define {f : FrameId} {name : String} {v : Value} (hf : f < w.left.frames.size)
    (hv : w.Known c v) : Twins c (w.define c f name v) := by
  have hframe : ∀ g, (w.define c f name v).right.frame g =
      if g = f ∧ f < w.left.frames.size then
        { w.right.frame g with vars := (w.right.frame g).vars.bind (c.name (w.layer f) name) v }
      else w.right.frame g := by
    intro g
    rw [← h.frames]
    exact Store.frame_define ..
  have hframe' : ∀ g, (w.define c f name v).left.frame g =
      if g = f ∧ f < w.left.frames.size then
        { w.left.frame g with vars := (w.left.frame g).vars.bind name v }
      else w.left.frame g := Store.frame_define w.left f name v
  refine h.grow (Pair.le_define c name v hf) ?_ (fun g => ?_) (fun g other => ?_) h.functions ?_
    (fun g other u hu => ?_) h.knownFields h.offers
  · simp [Pair.define, Store.define, h.frames]
  · rw [hframe, hframe']
    split
    · exact h.parent g
    · exact h.parent g
  · rw [hframe, hframe']
    show (if g = f ∧ _ then _ else _ : Frame).vars.get? (c.name (w.layer g) other) = _
    split
    · rename_i hg
      rw [Bindings.get?_bind, Bindings.get?_bind, hg.1, h.vars]
      simp only [Exchange.name_inj]
    · exact h.vars g other
  · show w.right.define f _ v = _
    conv_lhs => rw [h.rest]
    rfl
  · rw [hframe'] at hu
    split at hu
    · rw [Bindings.get?_bind] at hu
      split at hu
      · cases hu
        exact hv
      · exact h.knownVars g other u hu
    · exact h.knownVars g other u hu

theorem withFunction (r : Respelling) (closure : Closure) : Twins c (w.withFunction r closure) := by
  refine h.grow (Pair.le_withFunction h r closure) h.frames h.parent h.vars ?_ ?_
    h.knownVars h.knownFields h.offers
  · simp [Pair.withFunction, Store.withFunction, h.functions]
  · show w.right.withFunction _ = _
    conv_lhs => rw [h.rest]
    rfl

/-- A step beside frames and functions, if it brings nothing unknown within reach. -/
theorem both {m : Store → Store} (hm : Pair.Aside m) (hle : w.Le (w.both m))
    (hfields : ∀ i name v, ((m w.left).instanceObject i).fields.get? name = some v → w.Known c v)
    (hoffers : ∀ cls name k, ((m w.left).classObject cls).methods.get? name = some k →
      w.Offers c k) : Twins c (w.both m) := by
  refine h.grow hle ?_ (fun f => ?_) (fun f name => ?_) ?_ ?_ (fun f name v hv => ?_) hfields hoffers
  · show (m w.right).frames.size = (m w.left).frames.size
    rw [hm.frames, hm.frames, h.frames]
  · show ((m w.right).frame f).parent = ((m w.left).frame f).parent
    rw [hm.frame, hm.frame, h.parent]
  · show ((m w.right).frame f).vars.get? (c.name (w.layer f) name) = ((m w.left).frame f).vars.get? name
    rw [hm.frame, hm.frame, h.vars]
  · show (m w.right).functions.size = (m w.left).functions.size
    rw [hm.functions, hm.functions, h.functions]
  · show m w.right = { m w.left with frames := (m w.right).frames, functions := (m w.right).functions }
    rw [← hm, hm.frames, hm.functions, ← h.rest]
  · have hv : ((m w.left).frame f).vars.get? name = some v := hv
    rw [hm.frame] at hv
    exact h.knownVars f name v hv

end Twins

end Lox
