/-
# Methods along superclasses

A class provides its own methods, and those of its superclass that it does not
define itself (`Lox.Store.Provides`). Finding a method follows the superclasses
for as many steps as there are classes. That is far enough in every store: on
the way to a class that defines the method no class comes twice, since from
there the way would go round for ever.

Key definitions: `Lox.Store.Inherits`, `Lox.Store.Provides`.
Key theorems: `Lox.Store.findMethod?_eq_some_iff`, `Lox.Store.findMethod?_eq_none_iff`.
-/
import Mathlib.Data.List.Nodup
import Mathlib.Data.List.Perm.Subperm
import Lox.Store

namespace Lox

namespace Store

/-- The second class is on the chain of superclasses of the first, which begins with itself. -/
inductive Inherits (s : Store) : ClassId → ClassId → Prop
  | self (c : ClassId) : Inherits s c c
  | superclass {c p q : ClassId} : (s.classObject c).superclass = some p → Inherits s p q →
      Inherits s c q

/-- The nearest definition of a method: the class's own one, else that which its superclass has
nearest. -/
inductive Provides (s : Store) (name : String) : ClassId → FunctionId → Prop
  | own {c : ClassId} {m : FunctionId} : (s.classObject c).methods.get? name = some m →
      Provides s name c m
  | inherited {c p : ClassId} {m : FunctionId} : (s.classObject c).methods.get? name = none →
      (s.classObject c).superclass = some p → Provides s name p m → Provides s name c m

variable {s : Store} {name : String} {c q : ClassId} {m : FunctionId}

theorem Provides.defined (h : s.Provides name c m) :
    ∃ q, s.Inherits c q ∧ (s.classObject q).methods.get? name = some m := by
  induction h with
  | own hm => exact ⟨_, .self _, hm⟩
  | inherited _ hp _ ih =>
    obtain ⟨q, hq, hm⟩ := ih
    exact ⟨q, .superclass hp hq, hm⟩

theorem Inherits.provides (h : s.Inherits c q) (hq : (s.classObject q).methods.get? name ≠ none) :
    ∃ m, s.Provides name c m := by
  induction h with
  | self c =>
    obtain ⟨m, hm⟩ := Option.ne_none_iff_exists'.mp hq
    exact ⟨m, .own hm⟩
  | @superclass c p _ hp _ ih =>
    cases hm : (s.classObject c).methods.get? name with
    | some m => exact ⟨m, .own hm⟩
    | none =>
      obtain ⟨m, hm'⟩ := ih hq
      exact ⟨m, .inherited hm hp hm'⟩

/-! ### The way to a method -/

/-- The classes on the way to the nearest definition. -/
inductive Way (s : Store) (name : String) : ClassId → List ClassId → Prop
  | own {c : ClassId} : (s.classObject c).methods.get? name ≠ none → Way s name c [c]
  | inherited {c p : ClassId} {cs : List ClassId} : (s.classObject c).methods.get? name = none →
      (s.classObject c).superclass = some p → Way s name p cs → Way s name c (c :: cs)

theorem Provides.way (h : s.Provides name c m) : ∃ cs, s.Way name c cs := by
  induction h with
  | own hm => exact ⟨_, .own (by simp [hm])⟩
  | inherited hm hp _ ih =>
    obtain ⟨cs, hcs⟩ := ih
    exact ⟨_, .inherited hm hp hcs⟩

namespace Way

variable {cs : List ClassId}

theorem unique (h : s.Way name c cs) {cs' : List ClassId} (h' : s.Way name c cs') : cs = cs' := by
  induction h generalizing cs' with
  | own hm =>
    cases h' with
    | own _ => rfl
    | inherited hm' _ _ => exact absurd hm' hm
  | inherited hm hp _ ih =>
    cases h' with
    | own hm' => exact absurd hm hm'
    | inherited _ hp' h' =>
      cases hp.symm.trans hp'
      rw [ih h']

/-- From each class on the way the rest of it leads on. -/
theorem of_mem (h : s.Way name c cs) (hq : q ∈ cs) :
    ∃ cs', s.Way name q cs' ∧ cs'.length ≤ cs.length := by
  induction h with
  | own hm =>
    obtain rfl := List.mem_singleton.mp hq
    exact ⟨_, .own hm, Nat.le_refl _⟩
  | inherited hm hp h ih =>
    obtain rfl | hq := List.mem_cons.mp hq
    · exact ⟨_, .inherited hm hp h, Nat.le_refl _⟩
    · obtain ⟨cs', h', hle⟩ := ih hq
      exact ⟨cs', h', Nat.le_succ_of_le hle⟩

theorem nodup (h : s.Way name c cs) : cs.Nodup := by
  induction h with
  | own _ => exact List.nodup_singleton _
  | @inherited c p cs hm hp h ih =>
    refine List.nodup_cons.mpr ⟨fun hmem => ?_, ih⟩
    obtain ⟨cs', h', hle⟩ := h.of_mem hmem
    rw [h'.unique (.inherited hm hp h), List.length_cons] at hle
    omega

/-- The classes on the way are there, as one that is not has neither methods nor a superclass. -/
theorem lt (h : s.Way name c cs) : ∀ q ∈ cs, q < s.classes.size := by
  have hdefault : ∀ q, ¬ q < s.classes.size → s.classObject q = default := fun q hq => by
    simp [classObject, Array.getD_eq_getD_getElem?, Array.getElem?_eq_none (Nat.le_of_not_lt hq)]
  induction h with
  | @own c hm =>
    intro q hq
    obtain rfl := List.mem_singleton.mp hq
    refine Classical.byContradiction fun hlt => hm ?_
    rw [hdefault q hlt]
    rfl
  | @inherited c p cs _ hp _ ih =>
    refine List.forall_mem_cons.mpr ⟨Classical.byContradiction fun hlt => ?_, ih⟩
    rw [hdefault c hlt] at hp
    cases hp

theorem length_le (h : s.Way name c cs) : cs.length ≤ s.classes.size := by
  have hsubset : cs ⊆ List.range s.classes.size := fun q hq => List.mem_range.mpr (h.lt q hq)
  have hle := (h.nodup.subperm hsubset).length_le
  rwa [List.length_range] at hle

end Way

/-! ### Finding methods -/

/-- Only the classes of a store count. -/
theorem findMethod?_congr {s s' : Store} (h : s'.classes = s.classes) {c : ClassId}
    {name : String} : s'.findMethod? c name = s.findMethod? c name := by
  have hobject : ∀ c, s'.classObject c = s.classObject c := fun c => by
    rw [classObject, h]
    rfl
  have within : ∀ fuel c, s'.findMethodWithin? name fuel c = s.findMethodWithin? name fuel c := by
    intro fuel
    induction fuel with
    | zero => exact fun _ => rfl
    | succ fuel ih =>
      intro c
      simp only [findMethodWithin?, hobject, ih]
  rw [findMethod?, findMethod?, h, within]

theorem provides_of_findMethodWithin? : ∀ {fuel : Nat} {c : ClassId},
    s.findMethodWithin? name fuel c = some m → s.Provides name c m
  | 0, _, h => nomatch h
  | fuel + 1, c, h => by
    unfold findMethodWithin? at h
    split at h
    · rename_i hm
      cases h
      exact .own hm
    · rename_i hm
      split at h
      · cases h
      · rename_i hp
        exact .inherited hm hp (provides_of_findMethodWithin? h)

theorem Provides.findMethodWithin? {cs : List ClassId} (h : s.Provides name c m)
    (hway : s.Way name c cs) : ∀ {fuel : Nat}, cs.length ≤ fuel →
      s.findMethodWithin? name fuel c = some m := by
  induction h generalizing cs with
  | own hm =>
    intro fuel hfuel
    cases hway with
    | inherited hm' _ _ => cases hm.symm.trans hm'
    | own _ =>
      obtain ⟨fuel, rfl⟩ := Nat.exists_eq_add_one.mpr hfuel
      rw [Store.findMethodWithin?, hm]
  | inherited hm hp _ ih =>
    intro fuel hfuel
    cases hway with
    | own hm' => exact absurd hm hm'
    | inherited _ hp' hway =>
      cases hp.symm.trans hp'
      rw [List.length_cons] at hfuel
      obtain ⟨fuel, rfl⟩ := Nat.exists_eq_add_one.mpr (Nat.lt_of_lt_of_le (Nat.succ_pos _) hfuel)
      rw [Store.findMethodWithin?, hm, hp]
      exact ih hway (Nat.le_of_succ_le_succ hfuel)

/-- What is found is the nearest definition. -/
theorem findMethod?_eq_some_iff : s.findMethod? c name = some m ↔ s.Provides name c m := by
  refine ⟨provides_of_findMethodWithin?, fun h => ?_⟩
  obtain ⟨cs, hway⟩ := h.way
  exact h.findMethodWithin? hway hway.length_le

/-- A method that is found is one that some class defines itself. -/
theorem defined_of_findMethod? (h : s.findMethod? c name = some m) :
    ∃ q, (s.classObject q).methods.get? name = some m := by
  obtain ⟨q, -, hq⟩ := (findMethod?_eq_some_iff.mp h).defined
  exact ⟨q, hq⟩

/-- Nothing is found if no class on the chain defines the method. -/
theorem findMethod?_eq_none_iff : s.findMethod? c name = none ↔
    ∀ q, s.Inherits c q → (s.classObject q).methods.get? name = none := by
  constructor
  · intro h q hq
    refine Classical.byContradiction fun hm => ?_
    obtain ⟨m, hprovides⟩ := hq.provides hm
    cases h.symm.trans (findMethod?_eq_some_iff.mpr hprovides)
  · intro h
    cases hm : s.findMethod? c name with
    | none => rfl
    | some m =>
      obtain ⟨q, hq, hm'⟩ := (findMethod?_eq_some_iff.mp hm).defined
      cases (h q hq).symm.trans hm'

end Store

end Lox
