/-
# Stores without idle frames

Beside a store stands another one without those of its frames that are idle
(`Lox.Pared`). A frame is idle if it binds nothing and never will; it stands
for the frame around it. The other frames are those of the second store, one
for one, with the same variables and the same frames around them. The second
store has the same functions too, with idle scopes shed in them as is right
for the frames that they are called in: a function is called in the frame that
it was made in, a method in one for its receiver, inside that one. All else is
the same in both stores.

Of functions that are values, or methods of classes, it is known in which
frames they are called; what is known stays known while the stores grow.

Key definitions: `Lox.Paring`, `Lox.Paring.Fits`, `Lox.Paring.Known`, `Lox.Pared`.
Key theorems: `Lox.Paring.Fits.ancestor?_eq`, `Lox.Paring.Known.mono`.
-/
import Lox.Proofs.Dispatch.Superclasses
import Lox.Proofs.Idle.Trees
import Lox.Proofs.Running.Names

namespace Lox

/-- Two stores, the idle frames of the first one, and the frame of the second one that each frame of
the first one stands for. -/
structure Paring where
  idle : FrameId → Bool
  image : FrameId → FrameId
  left : Store
  right : Store

namespace Paring

variable {w w' w'' : Paring} {ls : List Bool} {f : FrameId} {id : FunctionId}

/-! ### Growth -/

/-- Both stores grow, and what was there stays. -/
structure Le (w w' : Paring) : Prop where
  frames : w.left.frames.size ≤ w'.left.frames.size
  idle : ∀ f < w.left.frames.size, w'.idle f = w.idle f
  image : ∀ f < w.left.frames.size, w'.image f = w.image f
  parent : ∀ f < w.left.frames.size, (w'.left.frame f).parent = (w.left.frame f).parent
  bound : ∀ f name, w.left.Binds f name → w'.left.Binds f name
  functions : w.left.functions.size ≤ w'.left.functions.size
  function : ∀ id < w.left.functions.size,
    w'.left.function id = w.left.function id ∧ w'.right.function id = w.right.function id
  methods : w.left.methods.size ≤ w'.left.methods.size
  method : ∀ id < w.left.methods.size,
    w'.left.method id = w.left.method id ∧ w'.right.method id = w.right.method id

namespace Le

theorem refl (w : Paring) : w.Le w :=
  ⟨Nat.le_refl _, fun _ _ => rfl, fun _ _ => rfl, fun _ _ => rfl, fun _ _ h => h, Nat.le_refl _,
    fun _ _ => ⟨rfl, rfl⟩, Nat.le_refl _, fun _ _ => ⟨rfl, rfl⟩⟩

theorem trans (h : w.Le w') (g : w'.Le w'') : w.Le w'' where
  frames := Nat.le_trans h.frames g.frames
  idle f hf := (g.idle f (Nat.lt_of_lt_of_le hf h.frames)).trans (h.idle f hf)
  image f hf := (g.image f (Nat.lt_of_lt_of_le hf h.frames)).trans (h.image f hf)
  parent f hf := (g.parent f (Nat.lt_of_lt_of_le hf h.frames)).trans (h.parent f hf)
  bound f name hb := g.bound f name (h.bound f name hb)
  functions := Nat.le_trans h.functions g.functions
  function id hid := by
    obtain ⟨hleft, hright⟩ := g.function id (Nat.lt_of_lt_of_le hid h.functions)
    exact ⟨hleft.trans (h.function id hid).1, hright.trans (h.function id hid).2⟩
  methods := Nat.le_trans h.methods g.methods
  method id hid := by
    obtain ⟨hleft, hright⟩ := g.method id (Nat.lt_of_lt_of_le hid h.methods)
    exact ⟨hleft.trans (h.method id hid).1, hright.trans (h.method id hid).2⟩

end Le

/-! ### Frames around a frame -/

/-- The flags tell which frames outward from this one are idle, out to the globals. -/
inductive Fits (w : Paring) : List Bool → FrameId → Prop
  | globals : Store.globals < w.left.frames.size → Fits w [] Store.globals
  | inside {ls : List Bool} {f p : FrameId} {b : Bool} : f < w.left.frames.size → w.idle f = b →
    (w.left.frame f).parent = some p → Fits w ls p → Fits w (b :: ls) f

theorem Fits.lt (h : w.Fits ls f) : f < w.left.frames.size := by
  cases h with
  | globals h | inside h => exact h

theorem Fits.mono (h : w.Fits ls f) (hle : w.Le w') : w'.Fits ls f := by
  induction h with
  | globals h => exact .globals (Nat.lt_of_lt_of_le h hle.frames)
  | inside hf hidle hp _ ih =>
    exact .inside (Nat.lt_of_lt_of_le hf hle.frames) ((hle.idle _ hf).trans hidle)
      ((hle.parent _ hf).trans hp) ih

/-! ### Functions -/

/-- Both stores have the function, and the second one without idle scopes under these flags. An
initializer finds the receiver in the frame that it is called in. -/
structure Spells (w : Paring) (ls : List Bool) (id : FunctionId) : Prop where
  lt : id < w.left.functions.size
  isInitializer : (w.right.function id).isInitializer = (w.left.function id).isInitializer
  busy : (w.left.function id).isInitializer = true → Busy ls 0
  decl : FunctionSheds ls (w.left.function id).decl (w.right.function id).decl

/-- The function was made in frames that stand for each other. -/
def Lies (w : Paring) (id : FunctionId) : Prop :=
  (w.right.function id).frame = w.image (w.left.function id).frame

/-- The function can be called inside the frame. -/
def Calls (w : Paring) (id : FunctionId) (outer : FrameId) : Prop :=
  ∃ ls, w.Spells ls id ∧ w.Fits ls outer

/-- The function can be called as a method, inside a frame for the receiver. -/
def Offers (w : Paring) (id : FunctionId) : Prop :=
  w.Lies id ∧ ∃ ls, w.Spells (false :: ls) id ∧ w.Fits ls (w.left.function id).frame

/-- A function or bound method can be called. -/
def Known (w : Paring) : Value → Prop
  | .function id => w.Lies id ∧ w.Calls id (w.left.function id).frame
  | .method id =>
    id < w.left.methods.size ∧ w.right.method id = ⟨(w.left.method id).function,
      w.image (w.left.method id).frame⟩ ∧ w.Calls (w.left.method id).function (w.left.method id).frame
  | .const _ | .native _ | .classRef _ | .instanceRef _ => True

theorem Spells.mono (h : w.Spells ls id) (hle : w.Le w') : w'.Spells ls id := by
  obtain ⟨hid, hinit, hbusy, hdecl⟩ := h
  obtain ⟨hleft, hright⟩ := hle.function id hid
  refine ⟨Nat.lt_of_lt_of_le hid hle.functions, ?_, ?_, ?_⟩
  · rw [hleft, hright]
    exact hinit
  · rw [hleft]
    exact hbusy
  · rw [hleft, hright]
    exact hdecl

theorem Calls.mono {outer : FrameId} (h : w.Calls id outer) (hle : w.Le w') : w'.Calls id outer := by
  obtain ⟨ls, hspells, hfits⟩ := h
  exact ⟨ls, hspells.mono hle, hfits.mono hle⟩

theorem Lies.mono (h : w.Lies id) (hle : w.Le w') (hid : id < w.left.functions.size)
    (hf : (w.left.function id).frame < w.left.frames.size) : w'.Lies id := by
  obtain ⟨hleft, hright⟩ := hle.function id hid
  rw [Lies, hleft, hright, hle.image _ hf]
  exact h

theorem Offers.mono (h : w.Offers id) (hle : w.Le w') : w'.Offers id := by
  obtain ⟨hlies, ls, hspells, hfits⟩ := h
  refine ⟨hlies.mono hle hspells.lt hfits.lt, ls, hspells.mono hle, ?_⟩
  rw [(hle.function id hspells.lt).1]
  exact hfits.mono hle

/-- Known values stay known. -/
theorem Known.mono {v : Value} (h : w.Known v) (hle : w.Le w') : w'.Known v := by
  cases v with
  | const _ | native _ | classRef _ | instanceRef _ => trivial
  | function id =>
    obtain ⟨hlies, ls, hspells, hfits⟩ := h
    refine ⟨hlies.mono hle hspells.lt hfits.lt, ls, hspells.mono hle, ?_⟩
    rw [(hle.function id hspells.lt).1]
    exact hfits.mono hle
  | method id =>
    obtain ⟨hid, hright, hcalls⟩ := h
    obtain ⟨hleft', hright'⟩ := hle.method id hid
    refine ⟨Nat.lt_of_lt_of_le hid hle.methods, ?_, ?_⟩
    · obtain ⟨_, _, hfits⟩ := hcalls
      rw [hleft', hright', hright, hle.image _ hfits.lt]
    · rw [hleft']
      exact hcalls.mono hle

/-- The frames of the second store are the frames of the first one that are not idle, and an idle
frame stands for the one around it. -/
structure Folds (w : Paring) : Prop where
  root : Store.globals < w.left.frames.size
  outermost : (w.left.frame Store.globals).parent = none
  busy : w.idle Store.globals = false
  fixed : w.image Store.globals = Store.globals
  below : ∀ f < w.left.frames.size, w.image f < w.right.frames.size
  parents : ∀ f < w.left.frames.size, ∀ p, (w.left.frame f).parent = some p →
    p < w.left.frames.size
  skipped : ∀ f < w.left.frames.size, w.idle f = true → (w.left.frame f).vars = .empty ∧
    ∃ p, (w.left.frame f).parent = some p ∧ w.image f = w.image p
  kept : ∀ f < w.left.frames.size, w.idle f = false →
    w.right.frame (w.image f) = ⟨(w.left.frame f).parent.map w.image, (w.left.frame f).vars⟩
  injective : ∀ f < w.left.frames.size, ∀ g < w.left.frames.size, w.idle f = false →
    w.idle g = false → w.image f = w.image g → f = g
  onto : ∀ g < w.right.frames.size, ∃ f < w.left.frames.size, w.idle f = false ∧ w.image f = g

end Paring

/-- The second store is the first one without its idle frames, and what is within reach can be
called. -/
structure Pared (w : Paring) : Prop extends w.Folds where
  functions : w.right.functions.size = w.left.functions.size
  methods : w.right.methods.size = w.left.methods.size
  rest : w.right = { w.left with
    frames := w.right.frames, functions := w.right.functions, methods := w.right.methods }
  knownVars : ∀ f name v, (w.left.frame f).vars.get? name = some v → w.Known v
  knownFields : ∀ i name v, (w.left.instanceObject i).fields.get? name = some v → w.Known v
  offers : ∀ cls name m, (w.left.classObject cls).methods.get? name = some m → w.Offers m

namespace Paring

variable {w w' : Paring} {ls : List Bool} {f : FrameId}

/-! ### Frames around, in both stores -/

/-- So many steps out the second store has what stands for what the first one has, with idle frames
left out on the way. -/
theorem Fits.ancestor?_eq (h : w.Fits ls f) (hw : w.Folds) (d : Nat) :
    w.right.ancestor? (shed ls d) (w.image f) = (w.left.ancestor? d f).map w.image := by
  induction h generalizing d with
  | globals _ =>
    cases d with
    | zero => rfl
    | succ d =>
      have hkept := hw.kept Store.globals hw.root hw.busy
      rw [hw.outermost] at hkept
      simp only [shed, Store.ancestor?, hkept, hw.outermost, Option.map_none]
  | @inside ls f p b hf hidle hp _ ih =>
    cases d with
    | zero =>
      rw [shed_zero]
      rfl
    | succ d =>
      rw [Store.ancestor?, hp]
      cases b with
      | true =>
        obtain ⟨_, p', hp', himage⟩ := hw.skipped f hf hidle
        cases hp.symm.trans hp'
        rw [himage]
        exact ih d
      | false =>
        have hkept := hw.kept f hf hidle
        rw [hp] at hkept
        simp only [shed, Store.ancestor?, hkept, Option.map_some]
        exact ih d

/-- What is so many steps out is there, and idle as the flags say. -/
theorem Fits.idle_ancestor (h : w.Fits ls f) (hw : w.Folds) {d : Nat} {a : FrameId}
    (ha : w.left.ancestor? d f = some a) : a < w.left.frames.size ∧ w.idle a = ls.getD d false := by
  induction h generalizing d with
  | globals _ =>
    cases d with
    | zero =>
      cases ha
      exact ⟨hw.root, hw.busy⟩
    | succ d =>
      rw [Store.ancestor?, hw.outermost] at ha
      cases ha
  | inside hf hidle hp _ ih =>
    cases d with
    | zero =>
      cases ha
      exact ⟨hf, hidle⟩
    | succ d =>
      rw [Store.ancestor?, hp] at ha
      exact ih ha

theorem Fits.idle_eq (h : w.Fits ls f) (hw : w.Folds) (hb : Busy ls 0) : w.idle f = false :=
  (h.idle_ancestor hw (d := 0) rfl).2.trans hb

end Paring

namespace Pared

variable {w : Paring} (h : Pared w)
include h

/-! ### What both stores tell -/

theorem classObject (cls : ClassId) : w.right.classObject cls = w.left.classObject cls := by
  rw [h.rest]
  rfl

theorem instanceObject (id : InstanceId) : w.right.instanceObject id = w.left.instanceObject id := by
  rw [h.rest]
  rfl

theorem clock : w.right.clock = w.left.clock := by
  rw [h.rest]

theorem findMethod? (cls : ClassId) (name : String) :
    w.right.findMethod? cls name = w.left.findMethod? cls name :=
  Store.findMethod?_congr (by rw [h.rest])

/-- A method that is found is one that a class offers. -/
theorem offers_of_findMethod? {cls : ClassId} {name : String} {m : FunctionId}
    (hm : w.left.findMethod? cls name = some m) : w.Offers m := by
  obtain ⟨q, hq⟩ := Store.defined_of_findMethod? hm
  exact h.offers q name m hq

theorem methodOf? (v : Value) (name : String) : w.right.methodOf? v name = w.left.methodOf? v name := by
  cases v with
  | classRef cls => exact h.findMethod? cls name
  | const _ | native _ | function _ | method _ | instanceRef _ => rfl

theorem offers_of_methodOf? {v : Value} {name : String} {m : FunctionId}
    (hm : w.left.methodOf? v name = some m) : w.Offers m := by
  cases v with
  | classRef cls => exact h.offers_of_findMethod? hm
  | const _ | native _ | function _ | method _ | instanceRef _ => cases hm

omit h in
theorem functionArity_eq {ls : List Bool} {id : FunctionId} (hs : w.Spells ls id) :
    w.right.functionArity id = w.left.functionArity id := by
  rw [Store.functionArity, Store.functionArity, hs.decl.params_eq]

theorem display {v : Value} (hv : w.Known v) : w.right.display v = w.left.display v := by
  cases v with
  | const _ | native _ => rfl
  | function id =>
    obtain ⟨_, _, hs, _⟩ := hv
    rw [Store.display, Store.display, hs.decl.name_eq]
  | method id =>
    obtain ⟨_, hmethod, _, hs, _⟩ := hv
    rw [Store.display, Store.display, hmethod, hs.decl.name_eq]
  | classRef cls => rw [Store.display, Store.display, h.classObject]
  | instanceRef id => rw [Store.display, Store.display, h.instanceObject, h.classObject]

theorem arity? {v : Value} (hv : w.Known v) : w.right.arity? v = w.left.arity? v := by
  cases v with
  | const _ | native _ | instanceRef _ => rfl
  | function id =>
    obtain ⟨_, _, hs, _⟩ := hv
    rw [Store.arity?, Store.arity?, functionArity_eq hs]
  | method id =>
    obtain ⟨_, hmethod, _, hs, _⟩ := hv
    rw [Store.arity?, Store.arity?, hmethod, functionArity_eq hs]
  | classRef cls =>
    rw [Store.arity?, Store.arity?, h.findMethod?]
    cases hm : w.left.findMethod? cls Store.initName with
    | none => rfl
    | some m =>
      obtain ⟨_, _, hs, _⟩ := h.offers_of_findMethod? hm
      simp only [functionArity_eq hs]

theorem frame_globals : w.right.frame Store.globals = w.left.frame Store.globals := by
  have hkept := h.kept Store.globals h.root h.busy
  rw [h.fixed, h.outermost] at hkept
  rw [hkept]
  exact congrArg (Frame.mk · _) h.outermost.symm

/-- Only the globals are among the globals. -/
theorem holder?_globals (name : String) :
    w.left.holder? name Store.globals =
        (if (w.left.frame Store.globals).vars.contains name then some Store.globals else none) ∧
      w.right.holder? name Store.globals = w.left.holder? name Store.globals := by
  have hright : Store.globals < w.right.frames.size := by
    have hbelow := h.below _ h.root
    rwa [h.fixed] at hbelow
  obtain ⟨k, hk⟩ := Nat.exists_eq_add_one.mpr h.root
  obtain ⟨k', hk'⟩ := Nat.exists_eq_add_one.mpr hright
  have hleft : w.left.holder? name Store.globals =
      if (w.left.frame Store.globals).vars.contains name then some Store.globals else none := by
    rw [Store.holder?, hk, Store.holderWithin?, h.outermost]
  refine ⟨hleft, ?_⟩
  rw [hleft, Store.holder?, hk', Store.holderWithin?, h.frame_globals, h.outermost]

theorem get?_globals (name : String) :
    w.right.get? Store.globals name = w.left.get? Store.globals name := by
  obtain ⟨hleft, hright⟩ := h.holder?_globals name
  rw [Store.get?, Store.get?, hright, hleft]
  split
  · exact congrArg (·.vars.get? name) h.frame_globals
  · rfl

/-- What binds a name is not idle. -/
theorem idle_of_binds {f : FrameId} {name : String} (hb : w.left.Binds f name) : w.idle f = false := by
  cases hidle : w.idle f with
  | false => rfl
  | true =>
    obtain ⟨hempty, _⟩ := h.skipped f hb.lt hidle
    rw [Store.Binds, hempty] at hb
    cases hb

theorem binds_image {f : FrameId} {name : String} (hb : w.left.Binds f name) :
    w.right.Binds (w.image f) name := by
  rw [Store.Binds, h.kept f hb.lt (h.idle_of_binds hb)]
  exact hb

end Pared

end Lox
