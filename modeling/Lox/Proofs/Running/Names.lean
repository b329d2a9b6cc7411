/-
# Reaching names in frames that match

In a frame that matches the open scopes, what the record of a name's use says
is so: the frame so many steps out is there, and is the instance of the scope
that binds the name. It binds the name too if the name is ready, as all are
that may be read. One that is assigned is not while it is initialized, and
then the assignment finds it unbound.

Key theorems: `Lox.Scoping.Reading.found`, `Lox.Scoping.Reading.fair`, `Lox.Holds.look`,
`Lox.Holds.store`.
-/
import Lox.Proofs.Running.Watch

namespace Lox

open Procedure

/-! ### The store -/

namespace Store

variable {s : Store} {f a : FrameId} {name : String} {d : Nat}

theorem Binds.get? (h : s.Binds f name) : ∃ v, (s.frame f).vars.get? name = some v :=
  Option.isSome_iff_exists.mp h

theorem Binds.lt (h : s.Binds f name) : f < s.frames.size := by
  refine Nat.lt_of_not_le fun hle => ?_
  have hdefault : s.frame f = default := by
    simp [frame, Array.getD_eq_getD_getElem?, Array.getElem?_eq_none hle]
  rw [Binds, hdefault] at h
  cases h

theorem binds_of_holderWithin? : ∀ {fuel : Nat} {f h : FrameId},
    s.holderWithin? name fuel f = some h → s.Binds h name
  | 0, _, _, h => nomatch h
  | fuel + 1, f, g, h => by
    unfold holderWithin? at h
    split at h
    · rename_i hb
      cases h
      exact hb
    · split at h
      · cases h
      · exact binds_of_holderWithin? h

theorem binds_of_holder? {h : FrameId} (hh : s.holder? name f = some h) : s.Binds h name :=
  binds_of_holderWithin? hh

theorem holder?_of_binds (h : s.Binds f name) : s.holder? name f = some f := by
  obtain ⟨n, hn⟩ := Nat.exists_eq_add_one.mpr (Nat.zero_lt_of_lt h.lt)
  rw [holder?, hn, holderWithin?]
  exact if_pos h

end Store

theorem ancestor_eq {s : Store} {f a : FrameId} {d : Nat} (ha : s.ancestor? d f = some a) :
    Run.ancestor f d s = (.ok a, s) := by
  have hread : Procedure.read (ε := Fault) (fun s : Store => s.ancestor? (d : Int).toNat f) s =
      (.ok (some a), s) := by
    rw [Procedure.read, Int.toNat_natCast, ha]
  unfold Run.ancestor
  rw [bind_ok hread]
  rfl

theorem getAt_of_binds {s : Store} {f a : FrameId} {d : Nat} {name : String}
    (ha : s.ancestor? d f = some a) (hb : s.Binds a name) :
    ∃ v, Run.getAt f d name s = (.ok v, s) ∧ (s.frame a).vars.get? name = some v := by
  obtain ⟨v, hv⟩ := hb.get?
  refine ⟨v, ?_, hv⟩
  have hread : Procedure.read (ε := Fault) (fun s : Store => (s.frame a).vars.get? name) s =
      (.ok (some v), s) := by
    rw [Procedure.read, hv]
  unfold Run.getAt
  rw [bind_ok (ancestor_eq ha), bind_ok hread]
  rfl

theorem assignAt_eq {s : Store} {f a : FrameId} {d : Nat} {name : String} {v : Value}
    (ha : s.ancestor? d f = some a) : Run.assignAt f d name v s =
      if (s.frame a).vars.contains name then (.ok (), s.define a name v)
      else (.error (.diverged (.unbound name d)), s) := by
  unfold Run.assignAt
  rw [bind_ok (ancestor_eq ha)]
  show (if (s.frame a).vars.contains name then Run.define a name v
    else halt (.diverged (.unbound name d)) : Run Unit) s = _
  split <;> rfl

/-! ### Scopes -/

theorem hopsIn?_eq_some {scopes : List (Bindings Bool)} {name : String} {d : Nat}
    (h : hopsIn? scopes name = some d) :
    ∃ scope, scopes[d]? = some scope ∧ scope.contains name = true := by
  obtain ⟨hd, hc, _⟩ := List.findIdx?_eq_some_iff_getElem.mp h
  exact ⟨scopes[d], List.getElem?_eq_getElem hd, hc⟩

theorem Aligned.given_ready {scopes : List (Bindings Bool)} {os : List Opener}
    (h : Aligned scopes os) {d : Nat} {o : Opener} (ho : os[d]? = some o) {name : String}
    (hn : name ∈ o.given) : ∃ scope, scopes[d]? = some scope ∧ scope.get? name = some true := by
  induction h generalizing d with
  | globals => simp at ho
  | @inside scope _ _ _ _ hgiven _ ih =>
    cases d with
    | zero =>
      obtain rfl : _ = o := by simpa using ho
      exact ⟨scope, rfl, hgiven name hn⟩
    | succ d => simpa using ih (by simpa using ho)

section

variable {P : Visit → Prop} {σ : Scoping} {os : List Opener} {uses : List Occurrence}

/-- The scope that binds a name has it ready, unless it is the innermost and initializes the
name. -/
theorem Scoping.Reading.found (h : σ.Reading P os uses) {name : String} {d : Nat}
    (hd : σ.hops? name = some d) : ∃ scope, σ.scopes[d]? = some scope ∧
      (scope.get? name = some true ∨ d = 0 ∧ σ.unready name = true) := by
  obtain ⟨scope, hscope, hc⟩ := hopsIn?_eq_some hd
  refine ⟨scope, hscope, ?_⟩
  obtain ⟨ready, hr⟩ := Option.isSome_iff_exists.mp hc
  have hr : scope.get? name = some ready := hr
  cases ready with
  | true => exact .inl hr
  | false =>
    refine .inr ?_
    cases hs : σ.scopes with
    | nil => simp [hs] at hscope
    | cons first outer =>
      rw [hs] at hscope
      cases d with
      | zero =>
        obtain rfl : first = scope := by simpa using hscope
        exact ⟨rfl, by simp [Scoping.unready, hs, hr]⟩
      | succ d =>
        have hmem : scope ∈ σ.scopes.tail := by
          rw [hs]
          exact List.mem_of_getElem? (by simpa using hscope)
        exact absurd hr (h.outer scope hmem name)

theorem Scoping.Reading.found_ready (h : σ.Reading P os uses) {name : String} {d : Nat}
    (hd : σ.hops? name = some d) (hr : σ.unready name = false) :
    ∃ scope, σ.scopes[d]? = some scope ∧ scope.get? name = some true := by
  obtain ⟨scope, hscope, hready | ⟨_, hu⟩⟩ := h.found hd
  · exact ⟨scope, hscope, hready⟩
  · rw [hr] at hu
    cases hu

/-- In a class the receiver is ready where it is recorded. -/
theorem Nested.receiver_ready (hn : Nested σ.cls os) (ha : Aligned σ.scopes os)
    (hcls : σ.cls ≠ .none) {d : Nat} (hd : σ.hops? "this" = some d) :
    ∃ scope, σ.scopes[d]? = some scope ∧ scope.get? "this" = some true := by
  obtain ⟨d', cls, hd', ho⟩ := hn.receiver_hops ha hcls
  cases hd.symm.trans hd'
  exact ha.given_ready ho (List.mem_singleton.mpr rfl)

theorem Scoping.get?_define {name : String} {m : Mark} (hn : name ≠ m.text) {d : Nat}
    {scope : Bindings Bool} (hd : (σ.define m).scopes[d]? = some scope)
    (hr : scope.get? name = some true) :
    ∃ scope, σ.scopes[d]? = some scope ∧ scope.get? name = some true := by
  cases hs : σ.scopes with
  | nil =>
    rw [define_of_nil hs, hs] at hd
    cases hd
  | cons first outer =>
    rw [define_of_cons hs] at hd
    cases d with
    | zero =>
      obtain rfl : first.bind m.text true = scope := by simpa using hd
      exact ⟨first, rfl, by simpa [hn] using hr⟩
    | succ d => exact ⟨scope, by simpa using hd, hr⟩

end

/-! ### Reads and assignments -/

/-- A variable that is not bound where it is recorded is one that is being initialized. -/
theorem Scoping.Reading.fair {P : Visit → Prop} {w : World} {σ : Scoping} {os : List Opener}
    {uses : List Occurrence} {f a : FrameId} {use : NameUse} {d : Nat} (hr : σ.Reading P os uses)
    (hm : Mirrors w σ.scopes os f) (huse : ⟨.assign, use⟩ ∈ uses)
    (hd : σ.hops? use.name.text = some d) (ha : w.store.ancestor? d f = some a)
    (hb : ¬ w.store.Binds a use.name.text) : Fair P (.diverged (.unbound use.name.text d)) := by
  obtain ⟨scope, hscope, hready | ⟨rfl, hunready⟩⟩ := hr.found hd
  · obtain ⟨a', ha', hb'⟩ := hm.binds hscope hready
    cases ha.symm.trans ha'
    exact absurd hb' hb
  · obtain ⟨τ, m, e, hP, hmname, he⟩ := hr.unready _ hunready
    refine ⟨use.name.text, rfl, τ, os, m, e, hP, ?_, hmname, ⟨.assign, use⟩, he huse, rfl, rfl⟩
    intro hos
    rw [hr.aligned.nil_iff.mpr hos] at hscope
    cases hscope

namespace Holds

variable {P : Visit → Prop} {w : World} {σ : Scoping} {os : List Opener} {uses : List Occurrence}
  {scopes : List (Bindings Bool)} {f : FrameId} {use : NameUse}

theorem fail {α : Type} {free : Option FrameId} (hs : Sound P w) {cause : Cause}
    {offset : Option Int} {Q : World → α → Prop} :
    Holds P free w (fun _ => (Run.fail cause offset : Run α)) Q :=
  halt hs trivial fun _ h => nomatch h

/-- A bound name is read by its record. -/
theorem getAt (hs : Sound P w) (hm : Mirrors w scopes os f) {d : Nat} {scope : Bindings Bool}
    {name : String} (hd : scopes[d]? = some scope) (hr : scope.get? name = some true) :
    Holds P none w (fun _ => Run.getAt f d name) (Known P) := by
  obtain ⟨a, ha, hb⟩ := hm.binds hd hr
  obtain ⟨v, hv, hvar⟩ := getAt_of_binds ha hb
  exact step hv (.refl none w) hs (hs.vars a name v hvar)

theorem getGlobal (hs : Sound P w) (name : Mark) :
    Holds P none w (fun _ => Run.get Store.globals name) (Known P) := by
  unfold Run.get
  refine read ?_
  cases hg : w.store.get? Store.globals name.text with
  | none => exact fail hs
  | some v =>
    obtain ⟨h, _, hv⟩ := Option.bind_eq_some_iff.mp hg
    exact pure hs (hs.vars h name.text v hv)

/-- A name that is ready where it is recorded is read, and one without a record among the globals. -/
theorem look (hs : Sound P w) (hm : Mirrors w scopes os f) {hops : Option Nat}
    (hready : ∀ d, hops = some d →
      ∃ scope, scopes[d]? = some scope ∧ scope.get? use.name.text = some true) :
    Holds P none w (fun _ => Access.recorded.look ⟨use.name, hops⟩ f) (Known P) := by
  unfold Access.recorded
  cases hops with
  | none => exact getGlobal hs use.name
  | some d =>
    obtain ⟨scope, hscope, hr⟩ := hready d rfl
    exact getAt hs hm hscope hr

/-- An assignment binds a name anew that is bound where it is recorded. -/
theorem store (hs : Sound P w) (hm : Mirrors w σ.scopes os f) {v : Value} (hv : Known P w v)
    (hb : ∀ d a, σ.hops? use.name.text = some d → w.store.ancestor? d f = some a →
      w.store.Binds a use.name.text) :
    Holds P none w (fun _ => Access.recorded.store ⟨use.name, σ.hops? use.name.text⟩ v f)
      fun _ _ => True := by
  unfold Access.recorded
  cases hd : σ.hops? use.name.text with
  | none =>
    show Holds P none w (fun _ => Run.assign Store.globals use.name v) _
    unfold Run.assign
    refine read ?_
    cases hh : w.store.holder? use.name.text Store.globals with
    | none => exact fail hs
    | some h =>
      have hb := Store.binds_of_holder? hh
      exact step rfl (World.le_redefine hb.lt hb) (hs.redefine hb.lt hb hv) trivial
  | some d =>
    obtain ⟨scope, hscope, _⟩ := hopsIn?_eq_some hd
    obtain ⟨a, ha, _, _⟩ := hm.ancestor (List.getElem?_eq_some_iff.mp hscope).1
    have hb := hb d a hd ha
    show Holds P none w (fun _ => Run.assignAt f d use.name.text v) _
    have hrun : Run.assignAt f d use.name.text v w.store =
        (.ok (), (w.set (w.store.define a use.name.text v)).store) :=
      (assignAt_eq ha).trans (if_pos hb)
    exact step hrun (World.le_redefine hb.lt hb) (hs.redefine hb.lt hb hv) trivial

end Holds

end Lox
