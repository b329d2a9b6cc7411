/-
# Names by search and names by distance

A name may be read or assigned from a frame in two ways: in the first frame
outward that binds it, or in the frame a given number of steps out. If the
frames lie in one another in a well-founded way and the distance is the least
at which the name is bound, both ways read the same value, and both assign it
in the same frame: the store differs from the old one in that one binding, and
whatever is read from it, in either way and from any frame, reads as before
unless it leads to that binding. If no frame on the way outward binds the name,
both ways fail, each in its own manner, and nothing changes.

Key definitions: `Lox.Store.LeastBinding`, `Lox.Store.Rebinds`.
Key theorems: `Lox.Store.LeastBinding.holder?`, `Lox.Store.rebinds_define`,
`Lox.Store.search_agrees_with_distance`.
-/
import Lox.Proofs.Failing.Checks
import Lox.Proofs.Links.Chains
import Lox.Proofs.Running.Walking

namespace Lox

open Procedure

namespace Store

/-! ### What the accesses come to -/

section

variable (s : Store) (f : FrameId) (name : String) (v : Value)

theorem ancestor_apply (d : Int) : Run.ancestor f d s =
    (match s.ancestor? d.toNat f with
      | some a => .ok a
      | none => .error (.diverged (.noFrame d)), s) := by
  have hread : Procedure.read (ε := Fault) (fun s : Store => s.ancestor? d.toNat f) s =
      (.ok (s.ancestor? d.toNat f), s) := rfl
  rw [Run.ancestor, bind_ok hread]
  cases s.ancestor? d.toNat f <;> rfl

theorem getAt_apply (d : Int) : Run.getAt f d name s =
    (match s.ancestor? d.toNat f with
      | none => .error (.diverged (.noFrame d))
      | some a =>
        match (s.frame a).vars.get? name with
        | some v => .ok v
        | none => .error (.diverged (.unbound name d)), s) := by
  have hancestor := ancestor_apply s f d
  rw [Run.getAt]
  cases ha : s.ancestor? d.toNat f with
  | none =>
    rw [ha] at hancestor
    exact bind_error hancestor
  | some a =>
    rw [ha] at hancestor
    have hread : Procedure.read (ε := Fault) (fun s : Store => (s.frame a).vars.get? name) s =
        (.ok ((s.frame a).vars.get? name), s) := rfl
    rw [bind_ok hancestor, bind_ok hread]
    dsimp only
    cases (s.frame a).vars.get? name <;> rfl

theorem get_apply (mark : Mark) : Run.get f mark s =
    (match s.get? f mark.text with
      | some v => .ok v
      | none => .error (.error ⟨.undefinedVariable mark.text, mark.offset⟩), s) := by
  cases hv : s.get? f mark.text with
  | some v => exact get_of_some hv
  | none => exact get_of_undefined hv

end

/-! ### The first binding -/

/-- The name is bound so many steps out, in this frame, and nowhere before. -/
structure LeastBinding (s : Store) (f : FrameId) (name : String) (d : Nat) (a : FrameId) : Prop where
  ancestor : s.ancestor? d f = some a
  binds : s.Binds a name
  least : ∀ i < d, ∀ b, s.ancestor? i f = some b → ¬ s.Binds b name

variable {s t : Store} {f a : FrameId} {fs : List FrameId} {name : String} {d : Nat} {v : Value}

/-- The search ends at the first binding. -/
theorem LeastBinding.holder? (h : s.LeastBinding f name d a) (hfs : Chain s.parent? f fs) :
    s.holder? name f = some a := by
  have ha : fs[d]? = some a := (ancestor?_eq hfs d).symm.trans h.ancestor
  obtain ⟨hd, rfl⟩ := List.getElem?_eq_some_iff.mp ha
  have hlt := hfs.lt_of_getElem_lt (fun _ _ => lt_of_parent?) hd h.binds.lt
  exact holder?_of_ancestor hlt h.least h.ancestor h.binds

/-- If no frame on the way outward binds the name, none is found. -/
theorem holder?_eq_none (hfs : Chain s.parent? f fs)
    (h : ∀ d a, s.ancestor? d f = some a → ¬ s.Binds a name) : s.holder? name f = none := by
  rw [holder?_eq hfs]
  refine List.find?_eq_none.mpr fun a ha => ?_
  obtain ⟨d, hd⟩ := List.getElem?_of_mem ha
  exact h d a ((ancestor?_eq hfs d).trans hd)

theorem not_binds_iff : ¬ s.Binds a name ↔ (s.frame a).vars.get? name = none := by
  simp [Binds, Bindings.contains]

/-! ### One binding anew -/

/-- The two stores differ at most in what the frame binds the name to: the second one has this value
there. So every access of the second gives what it gives in the first, or this value if it leads
there. -/
structure Rebinds (s t : Store) (a : FrameId) (name : String) (v : Value) : Prop where
  rest : t = { s with frames := t.frames }
  size : t.frames.size = s.frames.size
  parent : ∀ g, t.parent? g = s.parent? g
  names : ∀ g, (t.frame g).vars.names = (s.frame g).vars.names
  var : ∀ g other, (t.frame g).vars.get? other =
    if g = a ∧ other = name then some v else (s.frame g).vars.get? other
  ancestor : ∀ g e, Run.ancestor g e t = ((Run.ancestor g e s).1, t)
  get : ∀ g (mark : Mark), Run.get g mark t =
    (if s.holder? name g = some a ∧ mark.text = name then .ok v else (Run.get g mark s).1, t)
  getAt : ∀ g e other, Run.getAt g e other t =
    (if s.ancestor? e.toNat g = some a ∧ other = name then .ok v else (Run.getAt g e other s).1, t)

theorem ancestor?_congr (h : ∀ g, t.parent? g = s.parent? g) : ∀ (d : Nat) (g : FrameId),
    t.ancestor? d g = s.ancestor? d g
  | 0, _ => rfl
  | d + 1, g => by
    rw [ancestor?, ancestor?, show (t.frame g).parent = (s.frame g).parent from h g]
    cases (s.frame g).parent with
    | none => rfl
    | some p => exact ancestor?_congr h d p

theorem holder?_congr (hsize : t.frames.size = s.frames.size) (h : ∀ g, t.parent? g = s.parent? g)
    (hbinds : ∀ g, t.Binds g name ↔ s.Binds g name) (g : FrameId) :
    t.holder? name g = s.holder? name g := by
  have within : ∀ fuel g, t.holderWithin? name fuel g = s.holderWithin? name fuel g := by
    intro fuel
    induction fuel with
    | zero => exact fun _ => rfl
    | succ fuel ih =>
      intro g
      have hcontains : (t.frame g).vars.contains name = (s.frame g).vars.contains name :=
        Bool.eq_iff_iff.mpr (hbinds g)
      rw [holderWithin?, holderWithin?, hcontains,
        show (t.frame g).parent = (s.frame g).parent from h g]
      simp only [ih]
  rw [Store.holder?, Store.holder?, hsize, within]

theorem mem_names_of_contains {α : Type} {b : Bindings α} {name : String}
    (h : b.contains name = true) : name ∈ b.names := by
  obtain ⟨entries⟩ := b
  unfold Bindings.contains Bindings.get? at h
  induction entries with
  | nil => cases h
  | cons entry rest ih =>
    obtain ⟨other, x⟩ := entry
    by_cases hn : name = other
    · exact hn ▸ List.mem_cons_self
    · simp only [Bindings.find?, if_neg hn] at h
      exact List.mem_cons_of_mem _ (ih h)

/-- To bind a bound name anew is to change this one binding. -/
theorem rebinds_define (hb : s.Binds a name) (v : Value) : s.Rebinds (s.define a name v) a name v := by
  have hsize : (s.define a name v).frames.size = s.frames.size := by simp [define]
  have hframe : ∀ g, (s.define a name v).frame g =
      if g = a then { s.frame g with vars := (s.frame g).vars.bind name v } else s.frame g := by
    intro g
    simp [frame_define, hb.lt]
  have hparent : ∀ g, (s.define a name v).parent? g = s.parent? g := by
    intro g
    rw [parent?, hframe]
    split <;> rfl
  have hvar : ∀ g other, ((s.define a name v).frame g).vars.get? other =
      if g = a ∧ other = name then some v else (s.frame g).vars.get? other := by
    intro g other
    by_cases hg : g = a <;> simp [hframe, hg]
  have hbinds : ∀ other g, (s.define a name v).Binds g other ↔ s.Binds g other := by
    intro other g
    rw [binds_define hb.lt]
    refine or_iff_right_of_imp fun hother => ?_
    rw [hother.1, hother.2]
    exact hb
  refine ⟨rfl, hsize, hparent, fun g => ?_, hvar, fun g e => ?_, fun g mark => ?_,
    fun g e other => ?_⟩
  · by_cases hg : g = a
    · rw [hframe, if_pos hg, hg]
      exact Bindings.names_bind_of_mem v (mem_names_of_contains hb)
    · rw [hframe, if_neg hg]
  · rw [ancestor_apply, ancestor_apply, ancestor?_congr hparent]
  · -- the search ends where it did, and finds the value if that is the frame in question
    rw [get_apply, get_apply, get?, get?, holder?_congr hsize hparent (hbinds mark.text)]
    cases hh : s.holder? mark.text g with
    | none =>
      rw [if_neg fun hc => ?_]
      · rfl
      · rw [hc.2] at hh
        cases hh.symm.trans hc.1
    | some b =>
      by_cases hc : s.holder? name g = some a ∧ mark.text = name
      · rw [hc.2] at hh ⊢
        cases hh.symm.trans hc.1
        simp [hvar, hc.1]
      · have hne : ¬ (b = a ∧ mark.text = name) := by
          rintro ⟨rfl, hname⟩
          exact hc ⟨hname ▸ hh, hname⟩
        rw [if_neg hc, Option.bind_some, Option.bind_some, hvar, if_neg hne]
  · rw [getAt_apply, getAt_apply, ancestor?_congr hparent]
    cases s.ancestor? e.toNat g with
    | none => simp
    | some b => by_cases hb : b = a ∧ other = name <;> simp [hvar, hb]

/-! ### Both ways agree -/

/-- **Search and distance agree.** Let the frames of a store lie in one another in a well-founded way.
If a name is bound some steps out from a frame and nowhere before, then searching for it and reading it
at this distance give the same value; and assigning it in either way leads to the same store, which
differs from the old one in this one binding, so that all else reads as before. If no frame on the way
outward binds the name, then searching fails with the name as undefined, and any distance with a
divergence, that there is no frame or that it does not bind the name; and the store is as it was. -/
theorem search_agrees_with_distance (s : Store)
    (hwf : WellFounded fun p f => (s.frame f).parent = some p) (f : FrameId) (name : Mark) (v : Value) :
    (∀ d a, s.LeastBinding f name.text d a →
      (∃ w, (s.frame a).vars.get? name.text = some w ∧ Run.get f name s = (.ok w, s) ∧
        Run.getAt f d name.text s = (.ok w, s)) ∧
      Run.assign f name v s = (.ok (), s.define a name.text v) ∧
      Run.assignAt f d name.text v s = (.ok (), s.define a name.text v) ∧
      s.Rebinds (s.define a name.text v) a name.text v) ∧
    ((∀ d a, s.ancestor? d f = some a → ¬ s.Binds a name.text) →
      Run.get f name s = (.error (.error ⟨.undefinedVariable name.text, name.offset⟩), s) ∧
      Run.assign f name v s = (.error (.error ⟨.undefinedVariable name.text, name.offset⟩), s) ∧
      ∀ d : Int, ∃ x, (x = .noFrame d ∧ s.ancestor? d.toNat f = none ∨
          x = .unbound name.text d ∧ ∃ a, s.ancestor? d.toNat f = some a) ∧
        Run.getAt f d name.text s = (.error (.diverged x), s) ∧
        Run.assignAt f d name.text v s = (.error (.diverged x), s)) := by
  obtain ⟨fs, hfs⟩ : ∃ fs, Chain s.parent? f fs := Chain.exists_of_wellFounded hwf f
  constructor
  · intro d a h
    have hholder := h.holder? hfs
    obtain ⟨w, hgetAt, hw⟩ := getAt_of_binds h.ancestor h.binds
    have hget : s.get? f name.text = some w := by
      rw [get?, hholder, Option.bind_some, hw]
    exact ⟨⟨w, hw, get_of_some hget, hgetAt⟩, assign_of_some hholder,
      (assignAt_eq h.ancestor).trans (if_pos h.binds), rebinds_define h.binds v⟩
  · intro hnone
    have hholder := holder?_eq_none hfs hnone
    have hget : s.get? f name.text = none := by rw [get?, hholder, Option.bind_none]
    refine ⟨get_of_undefined hget, assign_of_undefined hholder, fun d => ?_⟩
    have hgetAt := getAt_apply s f name.text d
    have hancestor := ancestor_apply s f d
    cases ha : s.ancestor? d.toNat f with
    | none =>
      rw [ha] at hgetAt hancestor
      exact ⟨_, .inl ⟨rfl, rfl⟩, hgetAt, bind_error hancestor⟩
    | some a =>
      have hb := hnone _ _ ha
      rw [ha] at hgetAt hancestor
      dsimp only at hgetAt hancestor
      rw [not_binds_iff.mp hb] at hgetAt
      refine ⟨_, .inr ⟨rfl, a, rfl⟩, hgetAt, ?_⟩
      have hread : Procedure.read (ε := Fault)
          (fun s : Store => (s.frame a).vars.contains name.text) s =
            (.ok ((s.frame a).vars.contains name.text), s) := rfl
      rw [Run.assignAt, bind_ok hancestor, bind_ok hread]
      exact congrFun (if_neg hb) s

/-- Three frames in one another. The two outer ones bind the name; it is read and assigned in the middle
one, and the outermost keeps its own. A name that none of them binds is undefined. -/
theorem search_agrees_past_shadowed_binding :
    let s : Store := { initial (.still ⟨0⟩) with
      frames := #[⟨none, Bindings.empty.bind "a" (.bool true)⟩, ⟨some 0, Bindings.empty.bind "a" .nil⟩,
        ⟨some 1, .empty⟩] }
    let t := s.define 1 "a" (.bool false)
    s.LeastBinding 2 "a" 1 1 ∧
      Run.get 2 (.bare "a") s = (.ok .nil, s) ∧ Run.getAt 2 1 "a" s = (.ok .nil, s) ∧
      Run.assign 2 (.bare "a") (.bool false) s = (.ok (), t) ∧
      Run.assignAt 2 1 "a" (.bool false) s = (.ok (), t) ∧
      Run.getAt 2 2 "a" t = (.ok (.bool true), t) ∧
      Run.get 2 (.bare "b") s = (.error (.error ⟨.undefinedVariable "b", none⟩), s) := by
  intro s t
  have hthree : ∀ n : Nat, n < 3 → n = 0 ∨ n = 1 ∨ n = 2 := by omega
  have hwf : WellFounded fun p f => (s.frame f).parent = some p := by
    refine Chain.wellFounded_of_lt fun f p hp => ?_
    obtain rfl | rfl | rfl := hthree f (lt_of_parent? hp)
    all_goals cases hp
    all_goals decide
  have hleast : s.LeastBinding 2 "a" 1 1 := by
    refine ⟨rfl, rfl, fun i hi b hb => ?_⟩
    obtain rfl : i = 0 := by omega
    cases hb
    exact Bool.false_ne_true
  have hnone : ∀ d a, s.ancestor? d 2 = some a → ¬ s.Binds a "b" := by
    intro d a _ hb
    obtain rfl | rfl | rfl := hthree a hb.lt
    all_goals cases hb
  obtain ⟨⟨w, hw, hget, hgetAt⟩, hassign, hassignAt, hrebinds⟩ :=
    (search_agrees_with_distance s hwf 2 (.bare "a") (.bool false)).1 1 1 hleast
  obtain ⟨hundefined, -⟩ := (search_agrees_with_distance s hwf 2 (.bare "b") .nil).2 hnone
  cases hw
  exact ⟨hleast, hget, hgetAt, hassign, hassignAt, (hrebinds.getAt 2 2 "a").trans rfl, hundefined⟩

end Store

end Lox
