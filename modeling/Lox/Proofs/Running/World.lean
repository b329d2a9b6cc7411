/-
# Stores whose frames are instances of scopes

Every frame of a running program but the globals is an instance of a scope,
for the opener of which it was made. A world is a store with that opener for
each of its frames (`Lox.World`). A frame mirrors open scopes if it and the
frames around it are instances of them, one for one, out to the globals
(`Lox.Mirrors`). A function is known where it was visited: the frame that it
was made in mirrors the scopes that were open there (`Lox.Known`). A world is
sound if all functions it holds were written at places (`Lox.WrittenAt`), and
those within reach are known (`Lox.Sound`).

Worlds only grow (`Lox.World.Le`): frames keep their openers and the frames
around them, and what they bind stays bound. No frame binds a new name, but
for the new frames and the one that a statement runs in.

Key definitions: `Lox.World`, `Lox.World.Le`, `Lox.Mirrors`, `Lox.Matches`,
`Lox.Runs`, `Lox.Callable`, `Lox.Known`, `Lox.WrittenAt`, `Lox.Sound`.
Key theorems: `Lox.Mirrors.mono`, `Lox.Known.mono`, `Lox.Mirrors.ancestor`.
-/
import Lox.Proofs.Binding.Settled
import Lox.Store

namespace Lox

/-- The frame binds the name. -/
def Store.Binds (s : Store) (f : FrameId) (name : String) : Prop :=
  (s.frame f).vars.contains name = true

/-- A store, and the opener that each frame was made for. -/
structure World where
  labels : FrameId → Opener
  store : Store

/-! ### Growth -/

/-- The world grows, and new names are bound only in new frames and in the free one, if any. -/
structure World.Le (free : Option FrameId) (w w' : World) : Prop where
  frames : w.store.frames.size ≤ w'.store.frames.size
  labels : ∀ f < w.store.frames.size, w'.labels f = w.labels f
  parent : ∀ f < w.store.frames.size, (w'.store.frame f).parent = (w.store.frame f).parent
  bound : ∀ f < w.store.frames.size, ∀ name, w.store.Binds f name → w'.store.Binds f name
  still : ∀ f < w.store.frames.size, some f ≠ free →
    ∀ name, w'.store.Binds f name → w.store.Binds f name
  functions : w.store.functions.size ≤ w'.store.functions.size
  function : ∀ id < w.store.functions.size, w'.store.function id = w.store.function id
  methods : w.store.methods.size ≤ w'.store.methods.size
  method : ∀ id < w.store.methods.size, w'.store.method id = w.store.method id

namespace World.Le

variable {free : Option FrameId} {w w' w'' : World}

theorem refl (free : Option FrameId) (w : World) : w.Le free w :=
  ⟨Nat.le_refl _, fun _ _ => rfl, fun _ _ => rfl, fun _ _ _ h => h, fun _ _ _ _ h => h,
    Nat.le_refl _, fun _ _ => rfl, Nat.le_refl _, fun _ _ => rfl⟩

theorem trans (h : w.Le free w') (g : w'.Le free w'') : w.Le free w'' where
  frames := Nat.le_trans h.frames g.frames
  labels f hf := (g.labels f (Nat.lt_of_lt_of_le hf h.frames)).trans (h.labels f hf)
  parent f hf := (g.parent f (Nat.lt_of_lt_of_le hf h.frames)).trans (h.parent f hf)
  bound f hf name hb := g.bound f (Nat.lt_of_lt_of_le hf h.frames) name (h.bound f hf name hb)
  still f hf hn name hb :=
    h.still f hf hn name (g.still f (Nat.lt_of_lt_of_le hf h.frames) hn name hb)
  functions := Nat.le_trans h.functions g.functions
  function id hid :=
    (g.function id (Nat.lt_of_lt_of_le hid h.functions)).trans (h.function id hid)
  methods := Nat.le_trans h.methods g.methods
  method id hid := (g.method id (Nat.lt_of_lt_of_le hid h.methods)).trans (h.method id hid)

theorem loosen (h : w.Le none w') : w.Le free w' :=
  { h with still := fun f hf _ => h.still f hf (by simp) }

/-- What is free in a frame that was not there before is not free. -/
theorem close (h : w.Le none w') {f : FrameId} (hf : w.store.frames.size ≤ f)
    (g : w'.Le (some f) w'') : w.Le none w'' :=
  have h' : w.Le (some f) w'' := h.loosen.trans g
  { h' with still := fun e he _ => h'.still e he (by
      intro heq
      cases heq
      exact Nat.not_lt.mpr hf he) }

end World.Le

/-! ### Frames that mirror scopes -/

/-- The frame and those around it are instances of the scopes, out to the globals: each binds the
names that are ready in its scope, and no others than its opener declares. -/
inductive Mirrors (w : World) : List (Bindings Bool) → List Opener → FrameId → Prop
  | globals : Mirrors w [] [] Store.globals
  | inside {scope : Bindings Bool} {scopes : List (Bindings Bool)} {os : List Opener}
      {f p : FrameId} :
    f < w.store.frames.size → (∀ name, scope.get? name = some true → w.store.Binds f name) →
      (∀ name, w.store.Binds f name → name ∈ (w.labels f).names) →
        (w.store.frame f).parent = some p → Mirrors w scopes os p →
          Mirrors w (scope :: scopes) (w.labels f :: os) f

/-- The frame is the one that runs where the scopes are open: it mirrors them, and binds no name that
is not ready yet. -/
structure Matches (w : World) (scopes : List (Bindings Bool)) (os : List Opener) (f : FrameId) :
    Prop where
  mirrors : Mirrors w scopes os f
  exact : ∀ scope ∈ scopes.head?, ∀ name, w.store.Binds f name → scope.get? name = some true

/-- The frame is the one that the part runs in. While the superclass of a class is read, the pass has
declared the name of the class already, which the frame does not bind yet. -/
inductive Runs (w : World) : Visit → FrameId → Prop
  | inside {v : Visit} {f : FrameId} : Matches w v.scoping.scopes v.openers f → Runs w v f
  | superclass {σ : Scoping} {os : List Opener} {name : Mark} {use : NameUse} {f : FrameId} :
    use.name.text ≠ name.text → Matches w σ.scopes os f →
      Runs w ⟨.expr (.variable use), { σ.define name with cls := .subclass }, os⟩ f

/-- The function belongs to a place, where it was read as an initializer if it is one, and can be
called inside the frame: that mirrors the scopes which are open at the place, and an initializer finds
the receiver in it. -/
inductive Callable (P : Visit → Prop) (w : World) (id : FunctionId) (outer : FrameId) : Prop
  | of {kind : FunctionKind} {decl : Fun} {σ : Scoping} {os : List Opener} :
    id < w.store.functions.size → P ⟨.function kind decl, σ, os⟩ →
      (w.store.function id).decl = σ.boundFunction kind decl →
        ((w.store.function id).isInitializer = true ↔ kind = .initializer) →
          ((w.store.function id).isInitializer = true → w.store.Binds outer "this") →
            Mirrors w σ.scopes os outer → Callable P w id outer

/-- The function is the method of that name of a place, made in a frame that mirrors the scopes
outside that of its receiver. -/
inductive Bindable (P : Visit → Prop) (w : World) (name : String) (id : FunctionId) : Prop
  | of {decl : Fun} {σ : Scoping} {cls : Mark} {os : List Opener} :
    id < w.store.functions.size →
      P ⟨.function (methodKind decl.name) decl, σ, .receiver cls :: os⟩ →
        (w.store.function id).decl = σ.boundFunction (methodKind decl.name) decl →
          decl.name.text = name → (w.store.function id).isInitializer = (name = Store.initName : Bool) →
            Mirrors w σ.scopes.tail os (w.store.function id).frame → Bindable P w name id

/-- If the value is a function or a bound method, it can be called in the frame that it keeps. Only
bound methods are initializers. -/
def Known (P : Visit → Prop) (w : World) : Value → Prop
  | .function id => Callable P w id (w.store.function id).frame ∧
    (w.store.function id).isInitializer = false
  | .method id =>
    id < w.store.methods.size ∧ Callable P w (w.store.method id).function (w.store.method id).frame
  | .const _ | .native _ | .classRef _ | .instanceRef _ => True

/-- The globals lie in no frame, and other frames bind only names that their openers declare. -/
structure Framed (w : World) : Prop where
  root : Store.globals < w.store.frames.size
  outermost : (w.store.frame Store.globals).parent = none
  confined : ∀ f < w.store.frames.size, f ≠ Store.globals →
    ∀ name, w.store.Binds f name → name ∈ (w.labels f).names

/-- The function is what the pass of names made of one at a place. -/
def WrittenAt (P : Visit → Prop) (decl : Fun) : Prop :=
  ∃ kind written σ os, P ⟨.function kind written, σ, os⟩ ∧ decl = σ.boundFunction kind written

/-- All functions were written at places, and those within reach are known. -/
structure Sound (P : Visit → Prop) (w : World) : Prop extends Framed w where
  functions : ∀ closure ∈ w.store.functions, WrittenAt P closure.decl
  vars : ∀ f name v, (w.store.frame f).vars.get? name = some v → Known P w v
  fields : ∀ i name v, (w.store.instanceObject i).fields.get? name = some v → Known P w v
  methods : ∀ c name m, (w.store.classObject c).methods.get? name = some m → Bindable P w name m

section

variable {P : Visit → Prop} {free : Option FrameId} {w w' : World} {scopes : List (Bindings Bool)}
  {os : List Opener} {f outer : FrameId} {id : FunctionId}

theorem Mirrors.lt (hs : Framed w) (h : Mirrors w scopes os f) : f < w.store.frames.size := by
  cases h with
  | globals => exact hs.root
  | inside hf _ _ _ _ => exact hf

theorem Mirrors.length_eq (h : Mirrors w scopes os f) : scopes.length = os.length := by
  induction h with
  | globals => rfl
  | inside _ _ _ _ _ ih => exact congrArg (· + 1) ih

/-- Frames go on mirroring scopes. -/
theorem Mirrors.mono (hs : Framed w') (hle : w.Le free w') (h : Mirrors w scopes os f) :
    Mirrors w' scopes os f := by
  induction h with
  | globals => exact .globals
  | @inside _ _ _ f p hf hready _ hp _ ih =>
    have hparent := (hle.parent f hf).trans hp
    have hlocal : f ≠ Store.globals := by
      intro heq
      rw [heq, hs.outermost] at hparent
      cases hparent
    have hf' := Nat.lt_of_lt_of_le hf hle.frames
    rw [← hle.labels f hf]
    exact .inside hf' (fun name hn => hle.bound f hf name (hready name hn))
      (hs.confined f hf' hlocal) hparent ih

/-- Only the openers of the frames that are there count. -/
theorem Mirrors.relabel {labels : FrameId → Opener}
    (hl : ∀ f < w.store.frames.size, labels f = w.labels f) (h : Mirrors w scopes os f) :
    Mirrors ⟨labels, w.store⟩ scopes os f := by
  induction h with
  | globals => exact .globals
  | @inside _ _ _ f p hf hready hnames hp _ ih =>
    have hlabel := hl f hf
    rw [← hlabel]
    refine .inside hf hready (fun name hn => ?_) hp ih
    rw [show (World.mk labels w.store).labels f = w.labels f from hlabel]
    exact hnames name hn

theorem Framed.relabel {labels : FrameId → Opener}
    (hl : ∀ f < w.store.frames.size, labels f = w.labels f) (h : Framed w) :
    Framed ⟨labels, w.store⟩ where
  root := h.root
  outermost := h.outermost
  confined f hf hlocal name hb := by
    rw [show (World.mk labels w.store).labels f = w.labels f from hl f hf]
    exact h.confined f hf hlocal name hb

theorem Matches.relabel {labels : FrameId → Opener}
    (hl : ∀ f < w.store.frames.size, labels f = w.labels f) (h : Matches w scopes os f) :
    Matches ⟨labels, w.store⟩ scopes os f :=
  ⟨h.mirrors.relabel hl, h.exact⟩

theorem Runs.relabel {labels : FrameId → Opener} {v : Visit}
    (hl : ∀ f < w.store.frames.size, labels f = w.labels f) (h : Runs w v f) :
    Runs ⟨labels, w.store⟩ v f := by
  cases h with
  | inside h => exact .inside (h.relabel hl)
  | superclass hn h => exact .superclass hn (h.relabel hl)

theorem Callable.mono (hs : Framed w') (hle : w.Le free w') (h : Callable P w id outer)
    (ho : outer < w.store.frames.size) : Callable P w' id outer := by
  cases h with
  | of hid hP hdecl hkind hinit hm =>
    refine .of (Nat.lt_of_lt_of_le hid hle.functions) hP ?_ ?_ ?_ (hm.mono hs hle)
    · rw [hle.function id hid, hdecl]
    · rw [hle.function id hid, hkind]
    · intro hi
      rw [hle.function id hid] at hi
      exact hle.bound outer ho _ (hinit hi)

theorem Callable.lt (hs : Framed w) (h : Callable P w id outer) :
    outer < w.store.frames.size := by
  cases h with
  | of _ _ _ _ _ hm => exact hm.lt hs

theorem Bindable.mono (hs : Framed w') (hle : w.Le free w') {name : String} (h : Bindable P w name id) :
    Bindable P w' name id := by
  cases h with
  | of hid hP hdecl hname hinit hm =>
    have hm' := hm.mono hs hle
    refine .of (Nat.lt_of_lt_of_le hid hle.functions) hP ?_ hname ?_ ?_
    · rw [hle.function id hid, hdecl]
    · rw [hle.function id hid, hinit]
    · rwa [hle.function id hid]

/-- Known values stay known. -/
theorem Known.mono (hs : Framed w) (hs' : Framed w') (hle : w.Le free w') {v : Value}
    (h : Known P w v) : Known P w' v := by
  cases v with
  | const _ | native _ | classRef _ | instanceRef _ => trivial
  | function id =>
    obtain ⟨h, hinit⟩ : Callable P w id (w.store.function id).frame ∧
      (w.store.function id).isInitializer = false := h
    have hid : id < w.store.functions.size := by
      cases h with
      | of hid _ _ _ _ _ => exact hid
    show Callable P w' id (w'.store.function id).frame ∧ (w'.store.function id).isInitializer = false
    rw [hle.function id hid]
    exact ⟨h.mono hs' hle (h.lt hs), hinit⟩
  | method id =>
    refine ⟨Nat.lt_of_lt_of_le h.1 hle.methods, ?_⟩
    rw [hle.method id h.1]
    exact h.2.mono hs' hle (h.2.lt hs)

/-- So many steps out lies the instance of the scope that is so many scopes out. -/
theorem Mirrors.ancestor (h : Mirrors w scopes os f) {d : Nat} (hd : d < scopes.length) :
    ∃ a, w.store.ancestor? d f = some a ∧ os[d]? = some (w.labels a) ∧
      Mirrors w (scopes.drop d) (os.drop d) a := by
  induction h generalizing d with
  | globals => cases hd
  | @inside scope scopes os f p hf hready hnames hp hm ih =>
    cases d with
    | zero => exact ⟨f, rfl, rfl, .inside hf hready hnames hp hm⟩
    | succ d =>
      obtain ⟨a, ha, hl, hm'⟩ := ih (Nat.lt_of_succ_lt_succ hd)
      refine ⟨a, ?_, by simpa using hl, by simpa using hm'⟩
      rw [Store.ancestor?, hp]
      exact ha

/-- A name that is ready in a scope is bound in its instance. -/
theorem Mirrors.binds (h : Mirrors w scopes os f) {d : Nat} {scope : Bindings Bool} {name : String}
    (hd : scopes[d]? = some scope) (hn : scope.get? name = some true) :
    ∃ a, w.store.ancestor? d f = some a ∧ w.store.Binds a name := by
  obtain ⟨hlt, hscope⟩ := List.getElem?_eq_some_iff.mp hd
  obtain ⟨a, ha, _, hm⟩ := h.ancestor hlt
  rw [List.drop_eq_getElem_cons hlt, hscope] at hm
  refine ⟨a, ha, ?_⟩
  generalize os.drop d = outer at hm
  cases hm with
  | inside _ hready _ _ _ => exact hready name hn

/-- The frames around stay where they are. -/
theorem Mirrors.ancestor_eq (hs : Framed w) (hs' : Framed w') (hle : w.Le free w')
    (h : Mirrors w scopes os f) (d : Nat) : w'.store.ancestor? d f = w.store.ancestor? d f := by
  induction h generalizing d with
  | globals =>
    cases d with
    | zero => rfl
    | succ d => rw [Store.ancestor?, Store.ancestor?, hs.outermost, hs'.outermost]
  | inside hf _ _ hp _ ih =>
    cases d with
    | zero => rfl
    | succ d =>
      rw [Store.ancestor?, Store.ancestor?, hle.parent _ hf, hp]
      exact ih d

/-- A frame goes on matching scopes while no name is bound in it. -/
theorem Matches.mono (hs : Framed w) (hs' : Framed w') (hle : w.Le none w')
    (h : Matches w scopes os f) : Matches w' scopes os f where
  mirrors := h.mirrors.mono hs' hle
  exact scope hscope name hb :=
    h.exact scope hscope name (hle.still f (h.mirrors.lt hs) (by simp) name hb)

/-- A world that grows stays sound if all that it holds was known, or a variable that it binds is
known now, and its functions were written at places. -/
theorem Sound.grow (hs : Sound P w) (hle : w.Le free w') (hf : Framed w')
    (hfunctions : ∀ closure ∈ w'.store.functions, WrittenAt P closure.decl)
    (hvars : ∀ f name v, (w'.store.frame f).vars.get? name = some v → Known P w v ∨ Known P w' v)
    (hfields : ∀ i name v, (w'.store.instanceObject i).fields.get? name = some v → Known P w v)
    (hmethods : ∀ c name m, (w'.store.classObject c).methods.get? name = some m →
      Bindable P w name m) :
    Sound P w' where
  toFramed := hf
  functions := hfunctions
  vars f name v hv := (hvars f name v hv).elim (·.mono hs.toFramed hf hle) id
  fields i name v hv := (hfields i name v hv).mono hs.toFramed hf hle
  methods c name m hm := (hmethods c name m hm).mono hf hle

theorem Sound.relabel {labels : FrameId → Opener}
    (hl : ∀ f < w.store.frames.size, labels f = w.labels f) (h : Sound P w) :
    Sound P ⟨labels, w.store⟩ :=
  have hle : w.Le none ⟨labels, w.store⟩ := { World.Le.refl none w with labels := hl }
  h.grow hle (h.toFramed.relabel hl) h.functions (fun f name v hv => .inl (h.vars f name v hv)) h.fields
    h.methods

end

end Lox
