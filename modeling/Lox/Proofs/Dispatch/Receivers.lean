/-
# What initializers result in

A bound method keeps a frame that binds `this` for it. What that frame binds
`this` to never changes, since programs bind plain names only; so a method
stays bound to the instance that it was bound to at first
(`Lox.Store.BoundTo`). An initializer results in what is bound there when its
body is done, and so in that instance. To call a class makes an instance and
runs the initializer bound to it. No function but a method that is bound to an
instance is an initializer, so no other one is ever called
(`Lox.Yields`).

Key definitions: `Lox.Store.BoundTo`, `Lox.Store.KeepsKind`, `Lox.Yields`.
Key theorems: `Lox.Store.BoundTo.mono`, `Lox.receiver_of_invoke`, `Lox.yields_of_callWith`.
-/
import Lox.Proofs.Dispatch.Dispatching
import Lox.Proofs.Dispatch.Returns

namespace Lox

open Procedure

/-! ### Bound methods -/

namespace Store

variable {H : Moment → Prop} {s t : Store} {id : MethodId} {i j : InstanceId}

/-- The bound method is there, and the frame that it keeps binds `this` to the instance. -/
def BoundTo (s : Store) (id : MethodId) (i : InstanceId) : Prop :=
  id < s.methods.size ∧ (s.frame (s.method id).frame).vars.get? "this" = some (.instanceRef i)

theorem BoundTo.unique (h : s.BoundTo id i) (h' : s.BoundTo id j) : i = j := by
  have heq := h.2.symm.trans h'.2
  cases heq
  rfl

/-- A method stays bound to its instance. -/
theorem BoundTo.mono (hs : s.Founded H) (hle : s.Grows t) (h : s.BoundTo id i) : t.BoundTo id i := by
  refine ⟨Nat.lt_of_lt_of_le h.1 hle.methods, ?_⟩
  rw [hle.method id h.1, hle.words _ (hs.methods id h.1).2.lt "this" not_isPlain_this]
  exact h.2

/-- A method that is bound now is the next one. -/
theorem boundTo_withBound (m : FunctionId) (i : InstanceId) :
    (s.withBound m (.instanceRef i)).BoundTo s.methods.size i ∧
      ((s.withBound m (.instanceRef i)).method s.methods.size).function = m := by
  have hmethod : (s.withBound m (.instanceRef i)).method s.methods.size = ⟨m, s.frames.size⟩ :=
    (method_withMethod ..).trans (if_pos rfl)
  refine ⟨⟨by simp [withBound, withMethod, binding, withFrame, define], ?_⟩, by rw [hmethod]⟩
  rw [hmethod]
  show ((s.binding _ _ _).frame s.frames.size).vars.get? "this" = _
  rw [frame_binding_self, Bindings.get?_bind, if_pos rfl]

end Store

/-- What is bound in the frame itself. -/
theorem getAt_self {s s' : Store} {f : FrameId} {name : String} {v : Value}
    (h : Run.getAt f 0 name s = (.ok v, s')) : s' = s ∧ (s.frame f).vars.get? name = some v := by
  unfold Run.getAt at h
  obtain ⟨a, s₁, ha, h⟩ := exists_of_bind h
  cases ha
  obtain ⟨found, s₁, hread, h⟩ := exists_of_bind h
  cases hread
  beta_reduce at h
  cases hv : (s.frame f).vars.get? name with
  | none =>
    rw [hv] at h
    cases h
  | some u =>
    rw [hv] at h
    cases h
    exact ⟨rfl, rfl⟩

/-- Where a run leads to that is not watched. -/
theorem Traced.quiet {α : Type} {H : Moment → Prop} {run : Watch → Run α} {s s' : Store}
    {Q : Store → α → Prop} {r : Except Fault α} (h : Traced H run s Q) (hH : ∀ t, H t)
    (hrun : run .quiet s = (r, s')) : s.Grows s' ∧ s'.Founded H := by
  obtain ⟨r', t, hle, ht, -, hruns⟩ := h fun t _ => hH t
  obtain heq | ⟨_, _, _, _, _, hstop, _⟩ := hruns .quiet Watch.lawful_quiet
  · cases hrun.symm.trans heq
    exact ⟨hle, ht⟩
  · cases hstop

/-! ### Initializers -/

section

variable {H : Moment → Prop} {inner : Watch → Evaluator} {s s' : Store} {id : FunctionId}
  {outer : FrameId} {args : List Value} {r : Value}

/-- An initializer results in the receiver that the frame around it binds, before and behind. -/
theorem receiver_of_invoke (h : Evaluator.Traces H inner) (hH : ∀ t, H t) (hs : s.Founded H)
    (hl : Lies H s outer (functionSupers (s.function id).decl))
    (hi : (s.function id).isInitializer = true)
    (hrun : invoke (inner .quiet) id outer args s = (.ok r, s')) :
    (s.frame outer).vars.get? "this" = some r := by
  obtain ⟨hle, -⟩ := (Traced.invoke h hs hl args).quiet hH hrun
  unfold invoke at hrun
  obtain ⟨_, _, hread, hrun⟩ := exists_of_bind hrun
  cases hread
  obtain ⟨f, s₁, -, hrun⟩ := exists_of_bind hrun
  obtain ⟨_, s₂, -, hrun⟩ := exists_of_bind hrun
  obtain ⟨flow, s₃, -, hrun⟩ := exists_of_bind hrun
  rw [if_pos hi] at hrun
  obtain ⟨rfl, hthis⟩ := getAt_self hrun
  rw [← hle.words outer hl.lt "this" not_isPlain_this]
  exact hthis

end

/-! ### Kinds of functions -/

/-- The function was read at a place, as an initializer if and only if it is one; and then its body
gives back no value. -/
structure Store.KeepsKind (P : Visit → Prop) (s : Store) (id : FunctionId) : Prop where
  place : ∃ kind decl σ os, P ⟨.function kind decl, σ, os⟩ ∧
    (s.function id).decl = σ.boundFunction kind decl ∧
      ((s.function id).isInitializer = true ↔ kind = .initializer)
  body : (s.function id).isInitializer = true → ∀ turns steps spent f,
    (execBody (Evaluator.within .recorded turns steps spent).called (s.function id).decl.body f).Results
      fun flow => flow = .next ∨ flow = .returning .nil

section

variable {P : Visit → Prop} {w : World} {id : FunctionId} {outer : FrameId}

theorem keepsKind_of_place (hst : Stock P) {s : Store} {kind : FunctionKind} {decl : Fun} {σ : Scoping}
    {os : List Opener} (hP : P ⟨.function kind decl, σ, os⟩)
    (hdecl : (s.function id).decl = σ.boundFunction kind decl)
    (hkind : (s.function id).isInitializer = true ↔ kind = .initializer) : s.KeepsKind P id := by
  refine ⟨⟨kind, decl, σ, os, hP, hdecl, hkind⟩, fun hi turns steps spent f => ?_⟩
  have hreturns := returnsIn_boundFunction hst hP
  rw [← hdecl] at hreturns
  have hcalled := (Evaluator.results_within kind .recorded turns steps spent).2
  intro s' flow s'' hrun
  have hallows := results_execBody (fun s => hcalled s f) hreturns s' flow s'' hrun
  cases flow with
  | next => exact .inl rfl
  | returning v => exact .inr (by rw [hallows.2 (hkind.mp hi)])

theorem Callable.keepsKind (hst : Stock P) (h : Callable P w id outer) : w.store.KeepsKind P id := by
  cases h with
  | of _ hP hdecl hkind _ _ => exact keepsKind_of_place hst hP hdecl hkind

theorem Bindable.keepsKind (hst : Stock P) {name : String} (h : Bindable P w name id) :
    w.store.KeepsKind P id ∧ ((w.store.function id).isInitializer = true ↔ name = Store.initName) := by
  cases h with
  | of _ hP hdecl hname hinit _ =>
    have hi : (w.store.function id).isInitializer = true ↔ name = Store.initName := by
      rw [hinit, decide_eq_true_iff]
    refine ⟨keepsKind_of_place hst hP hdecl ?_, hi⟩
    rw [hi, methodKind_eq_initializer, hname]

end

/-! ### Calls -/

/-- What a completed call of the value in the store comes to. A function that was not bound is no
initializer. A bound method that is one results in its instance. A class results in the next instance,
which is one of this class; its initializer ran bound to it, and resulted in it. -/
structure Yields (P : Visit → Prop) (inner : Evaluator) (callee : Value) (args : List Value) (s : Store)
    (r : Value) (s' : Store) : Prop where
  function : ∀ id, callee = .function id →
    s.KeepsKind P id ∧ (s.function id).isInitializer = false
  method : ∀ id, callee = .method id → s.KeepsKind P (s.method id).function ∧
    ((s.function (s.method id).function).isInitializer = true →
      ∃ i, r = .instanceRef i ∧ s.BoundTo id i)
  fresh : ∀ c, callee = .classRef c → r = .instanceRef s.instances.size ∧
    s.instances.size < s'.instances.size ∧ (s'.instanceObject s.instances.size).cls = c
  initializer : ∀ c m, callee = .classRef c → s.findMethod? c Store.initName = some m →
    s.KeepsKind P m ∧ (s.function m).isInitializer = true ∧
      invoke inner m s.frames.size args
        ((s.withInstance c).binding (s.function m).frame "this" r) = (.ok r, s')

section

variable {P : Visit → Prop} {inner : Evaluator} {w : World} {s s' : Store} {callee r : Value}
  {args : List Value} {place : Option Int}

/-- What can be called, and was. -/
theorem apply_of_callWith (h : callWith inner callee args place s = (.ok r, s')) :
    apply inner callee args s = (.ok r, s') := by
  unfold callWith at h
  obtain ⟨arity, s₁, hread, h⟩ := exists_of_bind h
  cases hread
  beta_reduce at h
  cases harity : s.arity? callee with
  | none =>
    rw [harity] at h
    cases h
  | some expected =>
    rw [harity] at h
    dsimp only at h
    split at h
    · exact h
    · cases h

/-- What a class makes is made before its initializer runs. -/
theorem exists_of_apply_class {c : ClassId} (h : apply inner (.classRef c) args s = (.ok r, s')) :
    r = .instanceRef s.instances.size ∧ ((s.findMethod? c Store.initName = none ∧
      s' = s.withInstance c) ∨ ∃ m v, s.findMethod? c Store.initName = some m ∧
        invoke inner m s.frames.size args
          ((s.withInstance c).binding (s.function m).frame "this" (.instanceRef s.instances.size)) =
            (.ok v, s')) := by
  have hfind : (s.withInstance c).findMethod? c Store.initName = s.findMethod? c Store.initName :=
    Store.findMethod?_congr (show (s.withInstance c).classes = s.classes from rfl)
  unfold apply at h
  obtain ⟨object, s₁, hmade, h⟩ := exists_of_bind h
  obtain ⟨rfl, rfl⟩ : s.instances.size = object ∧ s.withInstance c = s₁ := by
    cases hmade
    exact ⟨rfl, rfl⟩
  obtain ⟨found, s₂, hread, h⟩ := exists_of_bind h
  cases hread
  beta_reduce at h
  rw [hfind] at h
  cases hm : s.findMethod? c Store.initName with
  | none =>
    rw [hm] at h
    cases h
    exact ⟨rfl, .inl ⟨rfl, rfl⟩⟩
  | some m =>
    rw [hm] at h
    obtain ⟨frame, s₃, hframe, h⟩ := exists_of_bind h
    cases hframe
    obtain ⟨_, s₄, hinvoke, h⟩ := exists_of_bind h
    obtain ⟨v, s₅, hinvoke, hdiscard⟩ := exists_of_bind hinvoke
    cases hdiscard
    cases h
    exact ⟨rfl, .inr ⟨m, v, rfl, hinvoke⟩⟩

end

section

variable {P : Visit → Prop} {w : World} {turns steps spent : Nat} {callee r : Value}
  {args : List Value} {place : Option Int} {s' : Store}

/-- What a call comes to where the world is sound and its store founded. -/
theorem yields_of_callWith (hst : Stock P) (hs : Sound P w) (hf : w.store.Founded fun _ => True)
    (hc : Known P w callee)
    (h : callWith (.within .recorded turns steps spent) callee args place w.store = (.ok r, s')) :
    Yields P (.within .recorded turns steps spent) callee args w.store r s' := by
  have htraces := Evaluator.traces_watched (H := fun _ => True) turns steps spent
  have happly := apply_of_callWith h
  rw [← Evaluator.watched_quiet] at happly ⊢
  refine ⟨fun id hid => ?_, fun id hid => ?_, fun c hclass => ?_, fun c m hclass hm => ?_⟩
  · subst hid
    exact ⟨hc.1.keepsKind hst, hc.2⟩
  · subst hid
    refine ⟨hc.2.keepsKind hst, fun hi => ?_⟩
    have hthis := receiver_of_invoke htraces (fun _ => trivial) hf (hf.method id) hi happly
    obtain ⟨i, rfl⟩ := hf.receiver hthis
    exact ⟨i, rfl, hc.1, hthis⟩
  all_goals
    subst hclass
    have hmade := hf.of_same (t := w.store.withInstance c) rfl rfl rfl rfl (.withInstance c)
    have hnew : ((w.store.withInstance c).instanceObject w.store.instances.size).cls = c := by
      rw [Store.instanceObject_withInstance, if_pos rfl]
    have hsize : w.store.instances.size < (w.store.withInstance c).instances.size := by
      simp [Store.withInstance]
    -- the receiver's frame, where the initializer runs
    have hbinding {m : FunctionId} (i : InstanceId) :=
      hmade.2.receiverFrame (hmade.2.function m).2.lt i
    have hlies {m : FunctionId} (i : InstanceId) :=
      hmade.2.lies_receiverFrame (v := .instanceRef i) (hmade.2.function m).2
    obtain ⟨rfl, ⟨hnone, rfl⟩ | ⟨m', v, hm', hinvoke⟩⟩ := exists_of_apply_class happly
  · exact ⟨rfl, hsize, hnew⟩
  · have hle := Store.grows_binding.trans
      ((Traced.invoke htraces (hbinding _) (hlies _) args).quiet (fun _ => trivial) hinvoke).1
    exact ⟨rfl, Nat.lt_of_lt_of_le hsize hle.instances, (hle.cls _ hsize).trans hnew⟩
  · cases hnone.symm.trans hm
  · cases hm'.symm.trans hm
    obtain ⟨hkeeps, hinit⟩ := (hs.findMethod? hm).keepsKind hst
    have hi := hinit.mpr rfl
    have hthis := receiver_of_invoke htraces (fun _ => trivial) (hbinding _) (hlies _) hi hinvoke
    rw [Store.frame_binding_self, Bindings.get?_bind, if_pos rfl] at hthis
    cases hthis
    exact ⟨hkeeps, hi, hinvoke⟩

end

end Lox
