/-
# Chains of frames and of classes

A frame may lie in another one, a class may have a superclass: both are links
from a number to at most one other. Where the links are well founded, following
them from any number comes to an end, and what is met on the way is a list, the
chain of that number. All ways to walk outward are ways to look through this
list: to the frame at an index, the first frame that binds a name, what this
binds it to, the first method of a name.

Frames and classes are looked through for as many steps as there are frames or
classes in the store. No number comes twice in a chain, so this is far enough:
only the last one on a chain may be one that is not in the store, and nothing
is found there.

Key definitions: `Lox.Chain`, `Lox.Store.parent?`, `Lox.Store.superclass?`.
Key theorems: `Lox.Chain.exists_of_wellFounded`, `Lox.Chain.findSome?_take`,
`Lox.Store.ancestor?_eq`, `Lox.Store.holder?_eq`, `Lox.Store.get?_eq`, `Lox.Store.findMethod?_eq`.
-/
import Mathlib.Data.List.Nodup
import Mathlib.Data.List.Perm.Subperm
import Lox.Proofs.Dispatch.Founding

namespace Lox

/-- From the number on, what is met when the links are followed to the end. -/
inductive Chain (next : Nat → Option Nat) : Nat → List Nat → Prop
  | last {n : Nat} : next n = none → Chain next n [n]
  | link {n m : Nat} {rest : List Nat} : next n = some m → Chain next m rest →
      Chain next n (n :: rest)

namespace Chain

variable {next : Nat → Option Nat} {n : Nat} {ns : List Nat}

/-- Where links are well founded each number has a chain. -/
theorem exists_of_wellFounded (h : WellFounded fun m n => next n = some m) (n : Nat) :
    ∃ ns, Chain next n ns := by
  induction n using h.induction with
  | _ n ih =>
    cases hn : next n with
    | none => exact ⟨_, .last hn⟩
    | some m =>
      obtain ⟨rest, hrest⟩ := ih m hn
      exact ⟨_, .link hn hrest⟩

/-- Links to smaller numbers are well founded. -/
theorem wellFounded_of_lt (h : ∀ n m, next n = some m → m < n) :
    WellFounded fun m n => next n = some m :=
  Subrelation.wf (fun hn => h _ _ hn) Nat.lt_wfRel.wf

theorem unique (h : Chain next n ns) {ns' : List Nat} (h' : Chain next n ns') : ns = ns' := by
  induction h generalizing ns' with
  | last hn =>
    cases h' with
    | last _ => rfl
    | link hn' _ => cases hn.symm.trans hn'
  | link hn _ ih =>
    cases h' with
    | last hn' => cases hn.symm.trans hn'
    | link hn' h' =>
      cases hn.symm.trans hn'
      rw [ih h']

theorem getElem?_zero (h : Chain next n ns) : ns[0]? = some n := by
  cases h <;> rfl

/-- From each number on a chain the rest of it leads on. -/
theorem of_mem (h : Chain next n ns) {m : Nat} (hm : m ∈ ns) :
    ∃ ns', Chain next m ns' ∧ ns'.length ≤ ns.length := by
  induction h with
  | last hn =>
    obtain rfl := List.mem_singleton.mp hm
    exact ⟨_, .last hn, Nat.le_refl _⟩
  | link hn hrest ih =>
    obtain rfl | hm := List.mem_cons.mp hm
    · exact ⟨_, .link hn hrest, Nat.le_refl _⟩
    · obtain ⟨ns', h', hle⟩ := ih hm
      exact ⟨ns', h', Nat.le_succ_of_le hle⟩

/-- No number comes twice. -/
theorem nodup (h : Chain next n ns) : ns.Nodup := by
  induction h with
  | last _ => exact List.nodup_singleton _
  | @link n m rest hn hrest ih =>
    refine List.nodup_cons.mpr ⟨fun hmem => ?_, ih⟩
    obtain ⟨ns', h', hle⟩ := hrest.of_mem hmem
    rw [h'.unique (.link hn hrest), List.length_cons] at hle
    omega

/-- The link of a number on the chain leads to the one behind it. -/
theorem next_getElem (h : Chain next n ns) : ∀ {i : Nat} (hi : i < ns.length),
    next ns[i] = ns[i + 1]? := by
  induction h with
  | last hn =>
    intro i hi
    obtain rfl : i = 0 := by simpa using hi
    exact hn
  | link hn hrest ih =>
    intro i hi
    cases i with
    | zero => exact hn.trans hrest.getElem?_zero.symm
    | succ i => simpa using ih (Nat.lt_of_succ_lt_succ hi)

/-- If the numbers with a link are below a bound, then so many numbers of a chain are all that can be
below the bound. -/
theorem lt_of_getElem_lt (h : Chain next n ns) {bound : Nat}
    (hbound : ∀ i j, next i = some j → i < bound) {k : Nat} (hk : k < ns.length)
    (hlt : ns[k] < bound) : k < bound := by
  have hbelow : ∀ m ∈ ns.take (k + 1), m < bound := by
    intro m hm
    obtain ⟨i, hi, rfl⟩ := List.mem_take_iff_getElem.mp hm
    obtain rfl | hik : i = k ∨ i < k := by omega
    · exact hlt
    · have hnext := h.next_getElem (show i < ns.length by omega)
      rw [List.getElem?_eq_getElem (show i + 1 < ns.length by omega)] at hnext
      exact hbound _ _ hnext
  have hsubset : ns.take (k + 1) ⊆ List.range bound := fun m hm => List.mem_range.mpr (hbelow m hm)
  have hle := ((h.nodup.sublist (List.take_sublist _ _)).subperm hsubset).length_le
  rw [List.length_take, List.length_range] at hle
  omega

/-- What is found on a chain is found within so many steps as there are numbers at which something may
be found. -/
theorem findSome?_take (h : Chain next n ns) {bound : Nat}
    (hbound : ∀ i j, next i = some j → i < bound) {α : Type} {g : Nat → Option α}
    (hg : ∀ i a, g i = some a → i < bound) : (ns.take bound).findSome? g = ns.findSome? g := by
  have hrest : (ns.drop bound).findSome? g = none := by
    refine List.findSome?_eq_none_iff.mpr fun m hm => ?_
    obtain ⟨i, hi, rfl⟩ := List.mem_drop_iff_getElem.mp hm
    refine Option.eq_none_iff_forall_not_mem.mpr fun a ha => ?_
    have hlt := h.lt_of_getElem_lt hbound _ (hg _ a ha)
    omega
  calc (ns.take bound).findSome? g
      = ((ns.take bound).findSome? g).or ((ns.drop bound).findSome? g) := by rw [hrest, Option.or_none]
    _ = (ns.take bound ++ ns.drop bound).findSome? g := List.findSome?_append.symm
    _ = ns.findSome? g := by rw [List.take_append_drop]

end Chain

namespace Store

/-- The frame around a frame. -/
def parent? (s : Store) (f : FrameId) : Option FrameId := (s.frame f).parent

/-- The superclass of a class. -/
def superclass? (s : Store) (c : ClassId) : Option ClassId := (s.classObject c).superclass

variable {s : Store} {f : FrameId} {c : ClassId} {fs cs : List Nat}

theorem classObject_default (hc : ¬ c < s.classes.size) : s.classObject c = default := by
  simp [classObject, Array.getD_eq_getD_getElem?, Array.getElem?_eq_none (Nat.le_of_not_lt hc)]

/-- Only frames that are there lie in others. -/
theorem lt_of_parent? {p : FrameId} (h : s.parent? f = some p) : f < s.frames.size := by
  refine Classical.byContradiction fun hlt => ?_
  rw [parent?, Founded.frame_default hlt] at h
  cases h

theorem lt_of_superclass? {p : ClassId} (h : s.superclass? c = some p) : c < s.classes.size := by
  refine Classical.byContradiction fun hlt => ?_
  rw [superclass?, classObject_default hlt] at h
  cases h

/-- The frame so many steps out is the one at this index of the chain. -/
theorem ancestor?_eq (h : Chain s.parent? f fs) (d : Nat) : s.ancestor? d f = fs[d]? := by
  induction h generalizing d with
  | last hf =>
    cases d with
    | zero => rfl
    | succ d => rw [ancestor?, show (s.frame _).parent = none from hf]; rfl
  | link hf _ ih =>
    cases d with
    | zero => rfl
    | succ d => rw [ancestor?, show (s.frame _).parent = some _ from hf]; exact ih d

theorem holderWithin?_eq (h : Chain s.parent? f fs) (name : String) : ∀ fuel : Nat,
    s.holderWithin? name fuel f = (fs.take fuel).find? fun g => (s.frame g).vars.contains name := by
  induction h with
  | last hf =>
    intro fuel
    cases fuel with
    | zero => rfl
    | succ fuel =>
      rw [holderWithin?, show (s.frame _).parent = none from hf, List.take_succ_cons, List.find?_cons]
      split <;> simp_all
  | link hf _ ih =>
    intro fuel
    cases fuel with
    | zero => rfl
    | succ fuel =>
      rw [holderWithin?, show (s.frame _).parent = some _ from hf, List.take_succ_cons,
        List.find?_cons]
      dsimp only
      rw [ih]
      split <;> simp_all

/-- The first frame outward that binds a name is the first one on the chain. -/
theorem holder?_eq (h : Chain s.parent? f fs) (name : String) :
    s.holder? name f = fs.find? fun g => (s.frame g).vars.contains name := by
  rw [holder?, holderWithin?_eq h, List.find?_eq_findSome?_guard, List.find?_eq_findSome?_guard]
  refine h.findSome?_take (fun _ _ => lt_of_parent?) fun g a hg => ?_
  obtain ⟨_, hb⟩ := Option.guard_eq_some_iff.mp hg
  exact Binds.lt (show s.Binds g name from hb)

/-- What a name is bound to outward is the first that a frame on the chain binds it to. -/
theorem get?_eq (h : Chain s.parent? f fs) (name : String) :
    s.get? f name = fs.findSome? fun g => (s.frame g).vars.get? name := by
  rw [get?, holder?_eq h]
  generalize fs = chain
  induction chain with
  | nil => rfl
  | cons g chain ih =>
    rw [List.find?_cons, List.findSome?_cons, ← ih]
    unfold Bindings.contains
    cases hv : (s.frame g).vars.get? name with
    | none => rfl
    | some v => simpa using hv

theorem findMethodWithin?_eq (h : Chain s.superclass? c cs) (name : String) : ∀ fuel : Nat,
    s.findMethodWithin? name fuel c =
      (cs.take fuel).findSome? fun q => (s.classObject q).methods.get? name := by
  induction h with
  | last hc =>
    intro fuel
    cases fuel with
    | zero => rfl
    | succ fuel =>
      rw [findMethodWithin?, show (s.classObject _).superclass = none from hc, List.take_succ_cons,
        List.findSome?_cons]
      split <;> simp_all
  | link hc _ ih =>
    intro fuel
    cases fuel with
    | zero => rfl
    | succ fuel =>
      rw [findMethodWithin?, show (s.classObject _).superclass = some _ from hc, List.take_succ_cons,
        List.findSome?_cons]
      dsimp only
      rw [ih]
      split <;> simp_all

/-- The method of a name is the first that a class on the chain of superclasses has. -/
theorem findMethod?_eq (h : Chain s.superclass? c cs) (name : String) :
    s.findMethod? c name = cs.findSome? fun q => (s.classObject q).methods.get? name := by
  rw [findMethod?, findMethodWithin?_eq h]
  refine h.findSome?_take (fun _ _ => lt_of_superclass?) fun q m hq => ?_
  refine Classical.byContradiction fun hlt => ?_
  rw [classObject_default hlt] at hq
  cases hq

end Store

end Lox
