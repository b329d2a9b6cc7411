/-
# Binding names that are exchanged

Beside the open scopes stand others in which two names are exchanged scope by
scope (`Lox.Exchange.scoping`). If no tree or scope says the new name, a name
is found in the same scope under what that scope calls it, and in none further
in under that: there it would be the old name, which is found sooner, or the
new one. So of a tree that follows the exchange the pass of names makes the
bound tree, spelled that way, and it notes the same misuses.

Key definitions: `Lox.Exchange.scoping`, `Lox.Scoping.Suits`, `Lox.Resolve.Mimics`.
Key theorems: `Lox.Scoping.Suits.hops?`, `Lox.mimics_resolveStmt`, `Lox.boundBody_exchanged`.
-/
import Lox.Proofs.Binding.Settled
import Lox.Proofs.Grammar.Marks
import Lox.Proofs.Renaming.Exchange

namespace Lox

/-! ### Scopes with names exchanged -/

namespace Exchange

variable (c : Exchange)

/-- The scope with the names exchanged, or not. -/
def scope (b : Bool) (bs : Bindings Bool) : Bindings Bool :=
  ⟨bs.entries.map fun entry => (c.name b entry.1, entry.2)⟩

/-- What is known, with the names exchanged in the open scopes. -/
def scoping (ls : List Bool) (σ : Scoping) : Scoping :=
  { σ with scopes := List.zipWith c.scope ls σ.scopes }

theorem name_name (b : Bool) (n : String) : c.name b (c.name b n) = n := by
  cases b with
  | false => rfl
  | true => exact Equiv.swap_apply_self ..

theorem name_of_not_plain {n : String} (h : ¬ isPlain n) (b : Bool) : c.name b n = n := by
  refine c.name_of_ne ?_ ?_ b
  · rintro rfl
    exact h c.plainOld
  · rintro rfl
    exact h c.plainNew

theorem find?_scope (b : Bool) (n : String) : ∀ entries : List (String × Bool),
    Bindings.find? (c.name b n) (entries.map fun entry => (c.name b entry.1, entry.2)) =
      Bindings.find? n entries
  | [] => rfl
  | (other, ready) :: entries => by
    simp only [List.map_cons, Bindings.find?, name_inj, find?_scope b n entries]

@[simp] theorem get?_scope (b : Bool) (bs : Bindings Bool) (n : String) :
    (c.scope b bs).get? (c.name b n) = bs.get? n := c.find?_scope b n bs.entries

@[simp] theorem contains_scope (b : Bool) (bs : Bindings Bool) (n : String) :
    (c.scope b bs).contains (c.name b n) = bs.contains n :=
  congrArg Option.isSome (c.get?_scope b bs n)

theorem put_scope (b : Bool) (n : String) (ready : Bool) : ∀ entries : List (String × Bool),
    Bindings.put (c.name b n) ready (entries.map fun entry => (c.name b entry.1, entry.2)) =
      (Bindings.put n ready entries).map fun entry => (c.name b entry.1, entry.2)
  | [] => rfl
  | (other, first) :: entries => by
    simp only [List.map_cons, Bindings.put, name_inj, put_scope b n ready entries]
    split <;> rfl

theorem bind_scope (b : Bool) (bs : Bindings Bool) (n : String) (ready : Bool) :
    (c.scope b bs).bind (c.name b n) ready = c.scope b (bs.bind n ready) :=
  congrArg Bindings.mk (c.put_scope b n ready bs.entries)

/-- A name that is not in the scope is not there under what another scope calls it, unless that is the
new name. -/
theorem not_contains_scope {bs : Bindings Bool} {n : String} (hunused : bs.contains c.new = false)
    (hne : n ≠ c.new) (hn : bs.contains n = false) (b b' : Bool) :
    (c.scope b bs).contains (c.name b' n) = false := by
  rw [← c.name_name b (c.name b' n), contains_scope]
  by_cases ho : n = c.old
  · subst ho
    cases b <;> cases b' <;> simpa
  · rwa [c.name_of_ne ho hne, c.name_of_ne ho hne]

theorem nameAt_eq (ls : List Bool) (hops : Option Nat) (n : String) :
    ∃ b, c.nameAt ls hops n = c.name b n := by
  cases hops with
  | none => exact ⟨false, rfl⟩
  | some d => exact ⟨ls.getD d false, rfl⟩

end Exchange

namespace Scoping

variable {c : Exchange} {r : Respelling} {ls : List Bool} {σ : Scoping} {m : Mark} {n : String}

/-- There is a flag for each open scope, and none of them says the new name. -/
structure Suits (c : Exchange) (ls : List Bool) (σ : Scoping) : Prop where
  length : ls.length = σ.scopes.length
  unused : ∀ bs ∈ σ.scopes, bs.contains c.new = false

namespace Suits

theorem findIdx?_scopes (hn : n ≠ c.new) : ∀ {ls : List Bool} {scopes : List (Bindings Bool)},
    ls.length = scopes.length → (∀ bs ∈ scopes, bs.contains c.new = false) →
      (List.zipWith c.scope ls scopes).findIdx?
          (·.contains (c.nameAt ls (scopes.findIdx? (·.contains n)) n)) =
        scopes.findIdx? (·.contains n)
  | [], [], _, _ => rfl
  | b :: ls, bs :: scopes, hl, hu => by
    obtain ⟨hfirst, hu⟩ := List.forall_mem_cons.mp hu
    have ih := findIdx?_scopes hn (Nat.succ.inj hl) hu
    rw [List.zipWith_cons_cons, List.findIdx?_cons, List.findIdx?_cons]
    cases hc : bs.contains n with
    | true => exact if_pos ((c.contains_scope b bs n).trans hc)
    | false =>
      have hname : c.nameAt (b :: ls)
          (if false = true then some 0 else (scopes.findIdx? (·.contains n)).map (· + 1)) n =
            c.nameAt ls (scopes.findIdx? (·.contains n)) n := by
        cases scopes.findIdx? (·.contains n) <;> rfl
      obtain ⟨b', hb'⟩ := c.nameAt_eq ls (scopes.findIdx? (·.contains n)) n
      have habsent := c.not_contains_scope hfirst hn hc b b'
      rw [hname, if_neg (by simp [hb', habsent]), ih]
      rfl

variable (h : σ.Suits c ls)
include h

/-- A name is found as many scopes out under what the scope there calls it. -/
theorem hops? (hn : n ≠ c.new) :
    (c.scoping ls σ).hops? (c.nameAt ls (σ.hops? n) n) = σ.hops? n :=
  findIdx?_scopes hn h.length h.unused

theorem unready (hn : n ≠ c.new) :
    (c.scoping ls σ).unready (c.nameAt ls (σ.hops? n) n) = σ.unready n := by
  obtain ⟨scopes, pending, kind, cls, errors, misplaced, stopped⟩ := σ
  obtain ⟨hlength, hunused⟩ := h
  match ls, scopes with
  | [], [] => rfl
  | b :: ls, bs :: scopes =>
    simp only [Scoping.unready, Exchange.scoping, List.zipWith_cons_cons, Scoping.hops?,
      List.findIdx?_cons]
    cases hc : bs.contains n with
    | true => simp [Exchange.nameAt]
    | false =>
      obtain ⟨b', hb'⟩ := c.nameAt_eq (b :: ls)
        (if false = true then some 0 else (scopes.findIdx? (·.contains n)).map (· + 1)) n
      have habsent := c.not_contains_scope (hunused bs (List.mem_cons_self ..)) hn hc b b'
      rw [hb']
      simp only [Bindings.contains, Option.isSome_eq_false_iff, Option.isNone_iff_eq_none] at habsent hc
      rw [habsent, hc]

theorem isEmpty_scopes : (c.scoping ls σ).scopes.isEmpty = σ.scopes.isEmpty := by
  obtain ⟨scopes, pending, kind, cls, errors, misplaced, stopped⟩ := σ
  obtain ⟨hlength, hunused⟩ := h
  match ls, scopes with
  | [], [] => rfl
  | b :: ls, bs :: scopes => rfl

theorem note (misuse : Misuse) (m : Mark) : (σ.note misuse m).Suits c ls := ⟨h.length, h.unused⟩

theorem bindFirst {bs : Bindings Bool} {scopes : List (Bindings Bool)} (hs : σ.scopes = bs :: scopes)
    (hm : m.text ≠ c.new) (ready : Bool) {τ : Scoping}
    (hτ : τ.scopes = bs.bind m.text ready :: scopes) : τ.Suits c ls := by
  obtain ⟨hlength, hunused⟩ := h
  rw [hs] at hlength hunused
  refine ⟨by rw [hτ]; exact hlength, ?_⟩
  rw [hτ]
  refine List.forall_mem_cons.mpr ⟨?_, (List.forall_mem_cons.mp hunused).2⟩
  rw [Bindings.contains, Bindings.get?_bind, if_neg (Ne.symm hm)]
  exact (List.forall_mem_cons.mp hunused).1

theorem declare (hm : m.text ≠ c.new) : (σ.declare m).Suits c ls := by
  unfold Scoping.declare
  split
  · exact h
  · rename_i bs scopes hs
    exact h.bindFirst hs hm false rfl

theorem define (hm : m.text ≠ c.new) : (σ.define m).Suits c ls := by
  unfold Scoping.define
  split
  · exact h
  · rename_i bs scopes hs
    exact h.bindFirst hs hm true rfl

/-- The scopes that bind words have no name of a program. -/
theorem enter {names : List String} (hn : ∀ n ∈ names, ¬ isPlain n) (b : Bool) :
    (σ.enter names).Suits c (b :: ls) := by
  refine ⟨congrArg (· + 1) h.length, List.forall_mem_cons.mpr ⟨?_, h.unused⟩⟩
  have habsent : ∀ names : List String, (∀ n ∈ names, ¬ isPlain n) →
      Bindings.find? c.new (names.map fun n => (n, true)) = none := by
    intro names
    induction names with
    | nil => exact fun _ => rfl
    | cons n names ih =>
      intro hn
      obtain ⟨hfirst, hrest⟩ := List.forall_mem_cons.mp hn
      have hne : c.new ≠ n := by
        rintro rfl
        exact hfirst c.plainNew
      rw [List.map_cons, Bindings.find?, if_neg hne, ih hrest]
  rw [Bindings.contains, Bindings.get?, habsent names hn]
  rfl

omit h in
theorem leave {b : Bool} (h : σ.Suits c (b :: ls)) : σ.leave.Suits c ls := by
  obtain ⟨scopes, pending, kind, cls, errors, misplaced, stopped⟩ := σ
  obtain ⟨hlength, hunused⟩ := h
  match scopes with
  | bs :: scopes => exact ⟨Nat.succ.inj hlength, (List.forall_mem_cons.mp hunused).2⟩

end Suits

/-! ### Declarations, entering and leaving -/

theorem note_scoping (hr : r.Still) (misuse : Misuse) (m : Mark) :
    (c.scoping ls σ).note misuse (m.respell r) = c.scoping ls (σ.note misuse m) := by
  rw [Scoping.note, Scoping.note, Mark.respell_offset, hr.offset_eq]
  rfl

theorem declare_scoping (h : σ.Suits c ls) (hr : r.Still) (hm : m.Declares c r ls) :
    (c.scoping ls σ).declare (m.respell r) = c.scoping ls (σ.declare m) := by
  obtain ⟨scopes, pending, kind, cls, errors, misplaced, stopped⟩ := σ
  obtain ⟨hlength, -⟩ := h
  match ls, scopes with
  | [], [] => rfl
  | b :: ls, bs :: scopes =>
    have hm : (m.respell r).text = c.name b m.text := hm
    simp only [declare, Exchange.scoping, List.zipWith_cons_cons, hm, c.contains_scope, c.bind_scope,
      note, Mark.respell_offset, hr.offset_eq]
    split <;> rfl

theorem define_scoping (h : σ.Suits c ls) (hm : m.Declares c r ls) :
    (c.scoping ls σ).define (m.respell r) = c.scoping ls (σ.define m) := by
  obtain ⟨scopes, pending, kind, cls, errors, misplaced, stopped⟩ := σ
  obtain ⟨hlength, -⟩ := h
  match ls, scopes with
  | [], [] => rfl
  | b :: ls, bs :: scopes =>
    have hm : (m.respell r).text = c.name b m.text := hm
    simp only [define, Exchange.scoping, List.zipWith_cons_cons, hm, c.bind_scope]

theorem enter_scoping {names : List String} (hn : ∀ n ∈ names, ¬ isPlain n) (b : Bool) :
    (c.scoping ls σ).enter names = c.scoping (b :: ls) (σ.enter names) := by
  have hsame : (names.map fun n => (c.name b n, true)) = names.map fun n => (n, true) :=
    List.map_congr_left fun n hmem => by rw [c.name_of_not_plain (hn n hmem)]
  simp only [enter, Exchange.scoping, List.zipWith_cons_cons, Exchange.scope, List.map_map,
    Function.comp_def, hsame]

theorem leave_scoping {b : Bool} (h : σ.Suits c (b :: ls)) :
    (c.scoping (b :: ls) σ).leave = c.scoping ls σ.leave := by
  obtain ⟨scopes, pending, kind, cls, errors, misplaced, stopped⟩ := σ
  obtain ⟨hlength, -⟩ := h
  match scopes with
  | bs :: scopes => rfl

/-! ### Before the parts of statements -/

theorem nil_of_isEmpty (h : σ.Suits c ls) (he : σ.scopes.isEmpty = true) : ls = [] := by
  rw [List.isEmpty_iff] at he
  exact List.eq_nil_of_length_eq_zero (h.length.trans (by rw [he]; rfl))

/-- What a declaration at the top level declares keeps its name. -/
theorem text_of_isEmpty (h : σ.Suits c ls) (he : σ.scopes.isEmpty = true) (hm : m.Declares c r ls) :
    (m.respell r).text = m.text := by
  obtain rfl := nil_of_isEmpty h he
  exact hm

theorem initializing_scoping (h : σ.Suits c ls) (hr : r.Still) (hm : m.Declares c r ls)
    (hn : m.text ≠ c.new) :
    (c.scoping ls σ).initializing (m.respell r) = c.scoping ls (σ.initializing m) ∧
      (σ.initializing m).Suits c ls := by
  have hdeclared := h.declare hn
  unfold initializing
  rw [declare_scoping h hr hm, hdeclared.isEmpty_scopes]
  split
  · rw [text_of_isEmpty hdeclared ‹_› hm]
    exact ⟨rfl, hdeclared.length, hdeclared.unused⟩
  · exact ⟨rfl, hdeclared⟩

theorem resetting_scoping (h : σ.Suits c ls) (hr : r.Still) (hm : m.Declares c r ls)
    (hn : m.text ≠ c.new) {τ : Scoping} (hτ : τ.Suits c ls) :
    (c.scoping ls σ).resetting (m.respell r) (c.scoping ls τ) = c.scoping ls (σ.resetting m τ) ∧
      (σ.resetting m τ).Suits c ls := by
  have hdeclared := h.declare hn
  unfold resetting
  rw [declare_scoping h hr hm, hdeclared.isEmpty_scopes]
  split
  · rw [text_of_isEmpty hdeclared ‹_› hm]
    exact ⟨rfl, hτ.length, hτ.unused⟩
  · exact ⟨rfl, hτ⟩

theorem givingBack_scoping (h : σ.Suits c ls) (hr : r.Still) (keyword : Mark) :
    (c.scoping ls σ).givingBack (keyword.respell r) = c.scoping ls (σ.givingBack keyword) ∧
      (σ.givingBack keyword).Suits c ls := by
  have noted : ∀ (p : Prop) [Decidable p] {τ : Scoping} (misuse : Misuse), τ.Suits c ls →
      (if p then (c.scoping ls τ).note misuse (keyword.respell r) else c.scoping ls τ) =
          c.scoping ls (if p then τ.note misuse keyword else τ) ∧
        (if p then τ.note misuse keyword else τ).Suits c ls := by
    intro p _ τ misuse hτ
    split
    · exact ⟨note_scoping hr misuse keyword, hτ.note misuse keyword⟩
    · exact ⟨rfl, hτ⟩
  obtain ⟨hfirst, hsuits⟩ := noted (σ.function = .none) .returnOutside h
  unfold givingBack
  dsimp only
  rw [show (c.scoping ls σ).function = σ.function from rfl, hfirst]
  exact noted _ .valueFromInitializer hsuits

theorem declaringClass_scoping (h : σ.Suits c ls) (hr : r.Still) (hm : m.Declares c r ls)
    (hn : m.text ≠ c.new) :
    (c.scoping ls σ).declaringClass (m.respell r) = c.scoping ls (σ.declaringClass m) ∧
      (σ.declaringClass m).Suits c ls := by
  have hplain : Scoping.Suits c ls { σ with cls := .plain } := ⟨h.length, h.unused⟩
  have hdeclared := hplain.declare hn
  refine ⟨?_, hdeclared.define hn⟩
  rw [declaringClass, declaringClass, ← define_scoping hdeclared hm, ← declare_scoping hplain hr hm]
  rfl

/-- Behind its declaration a class is found in the innermost scope. -/
theorem hops?_declaringClass (σ : Scoping) (name : Mark) :
    (σ.declaringClass name).hops? name.text = if σ.scopes = [] then none else some 0 := by
  obtain ⟨scopes, pending, kind, cls, errors, misplaced, stopped⟩ := σ
  cases scopes with
  | nil => rfl
  | cons bs scopes =>
    simp [declaringClass, declare, define, Scoping.hops?, List.findIdx?_cons, Bindings.contains]

/-- A class inherits from itself under both names. -/
theorem inherits_iff (h : σ.Suits c ls) {name : Mark} {use : NameUse} (hk : name.Keeps r)
    (hm : name.Declares c r ls) (hn : name.text ≠ c.new) (hne : use.name.text ≠ c.new)
    (hu : NameUse.Follows c r ls ⟨use.name, (σ.declaringClass name).hops? use.name.text⟩) :
    (use.respell r).name.text = (name.respell r).text ↔ use.name.text = name.text := by
  have hname : (use.respell r).name.text =
      c.nameAt ls ((σ.declaringClass name).hops? use.name.text) use.name.text := hu
  rw [hname]
  constructor
  · intro heq
    obtain ⟨b, hb⟩ := c.nameAt_eq ls ((σ.declaringClass name).hops? use.name.text) use.name.text
    rw [hb, hk] at heq
    by_cases ho : use.name.text = c.old
    · cases b with
      | false => exact heq
      | true =>
        rw [ho, c.name_old] at heq
        exact absurd heq.symm hn
    · rwa [c.name_of_ne ho hne] at heq
  · intro heq
    rw [heq, hops?_declaringClass, hm]
    cases hs : σ.scopes with
    | nil =>
      have hls := nil_of_isEmpty h (by rw [hs]; rfl)
      subst hls
      rfl
    | cons bs scopes =>
      cases ls <;> rfl

theorem inheriting_scoping (h : σ.Suits c ls) (hr : r.Still) {name : Mark} {use : NameUse}
    (hk : name.Keeps r) (hm : name.Declares c r ls) (hn : name.text ≠ c.new)
    (hne : use.name.text ≠ c.new)
    (hu : NameUse.Follows c r ls ⟨use.name, (σ.declaringClass name).hops? use.name.text⟩) :
    (c.scoping ls σ).inheriting (name.respell r) (use.respell r) =
        c.scoping ls (σ.inheriting name use) ∧ (σ.inheriting name use).Suits c ls := by
  obtain ⟨hclass, hsuits⟩ := declaringClass_scoping h hr hm hn
  have hinherits := inherits_iff h hk hm hn hne hu
  unfold inheriting
  dsimp only
  rw [hclass]
  by_cases hself : use.name.text = name.text
  · rw [if_pos (hinherits.mpr hself), if_pos hself, NameUse.respell_name, note_scoping hr]
    exact ⟨rfl, hsuits.length, hsuits.unused⟩
  · rw [if_neg fun hs => hself (hinherits.mp hs), if_neg hself]
    exact ⟨rfl, hsuits.length, hsuits.unused⟩

end Scoping

/-! ### Steps of the pass -/

namespace Resolve

variable {α β : Type} {g : α → α} {k : β → β} {c : Exchange} {ls ls' ls'' : List Bool} {σ : Scoping}

/-- With names exchanged in the open scopes the second step makes the respelled result of the first
one, and leaves the names exchanged in the scopes that are open then. -/
def Mimics (c : Exchange) (ls ls' : List Bool) (g : α → α) (p p' : Resolve α) (σ : Scoping) : Prop :=
  σ.Suits c ls → p'.run (c.scoping ls σ) = (g (p.run σ).1, c.scoping ls' (p.run σ).2) ∧
    (p.run σ).2.Suits c ls'

namespace Mimics

variable {p p' : Resolve α}

theorem pure {a a' : α} (ha : a' = g a) :
    Mimics c ls ls g (Pure.pure a : Resolve α) (Pure.pure a') σ := by
  subst ha
  exact fun h => ⟨rfl, h⟩

theorem bind {q q' : α → Resolve β} (hp : Mimics c ls ls' g p p' σ)
    (hq : Mimics c ls' ls'' k (q (p.run σ).1) (q' (g (p.run σ).1)) (p.run σ).2) :
    Mimics c ls ls'' k (p >>= q) (p' >>= q') σ := by
  intro h
  obtain ⟨hrun, hsuits⟩ := hp h
  obtain ⟨hrun', hsuits'⟩ := hq hsuits
  refine ⟨?_, hsuits'⟩
  show (q' (p'.run (c.scoping ls σ)).1).run (p'.run (c.scoping ls σ)).2 = _
  rw [hrun]
  exact hrun'

/-- What is known may be asked for. -/
theorem bind_get {q q' : Scoping → Resolve β} (hq : Mimics c ls ls' k (q σ) (q' (c.scoping ls σ)) σ) :
    Mimics c ls ls' k (get >>= q) (get >>= q') σ := hq

/-- A misuse is noted at the same place. -/
theorem note {r : Respelling} (hr : r.Still) (misuse : Misuse) (m : Mark) :
    Mimics c ls ls id (modify (·.note misuse m)) (modify (·.note misuse (m.respell r))) σ :=
  fun h => ⟨congrArg (Prod.mk PUnit.unit) (Scoping.note_scoping hr misuse m), h.note misuse m⟩

theorem modify {m m' : Scoping → Scoping}
    (hm : σ.Suits c ls → m' (c.scoping ls σ) = c.scoping ls' (m σ) ∧ (m σ).Suits c ls') :
    Mimics c ls ls' id (modify m) (modify m') σ :=
  fun h => ⟨congrArg (Prod.mk PUnit.unit) (hm h).1, (hm h).2⟩

theorem ite {P : Prop} [Decidable P] {q q' : Resolve α} (hp : P → Mimics c ls ls' g p p' σ)
    (hq : ¬ P → Mimics c ls ls' g q q' σ) :
    Mimics c ls ls' g (if P then p else q) (if P then p' else q') σ := by
  split
  · exact hp ‹_›
  · exact hq ‹_›

end Mimics

end Resolve

open Resolve Scoping

section

variable {c : Exchange} {r : Respelling} {ls : List Bool} {σ : Scoping}

theorem mimics_resolveUse {use : NameUse} (hn : use.name.text ≠ c.new)
    (hu : NameUse.Follows c r ls ⟨use.name, σ.hops? use.name.text⟩) :
    Mimics c ls ls (NameUse.respell r) (resolveUse use) (resolveUse (use.respell r)) σ := by
  intro h
  have hname : (use.name.respell r).text = c.nameAt ls (σ.hops? use.name.text) use.name.text := hu
  have hhops : (c.scoping ls σ).hops? (use.name.respell r).text = σ.hops? use.name.text := by
    rw [hname, h.hops? hn]
  have hresult : NameUse.mk (use.name.respell r) ((c.scoping ls σ).hops? (use.name.respell r).text) =
      NameUse.respell r ⟨use.name, σ.hops? use.name.text⟩ := by
    rw [hhops]
    rfl
  exact ⟨congrArg (Prod.mk · (c.scoping ls σ)) hresult, h⟩

theorem mimics_resolveVariable (hr : r.Still) {use : NameUse} (hn : use.name.text ≠ c.new)
    (hu : NameUse.Follows c r ls ⟨use.name, σ.hops? use.name.text⟩) :
    Mimics c ls ls (NameUse.respell r) (resolveVariable use) (resolveVariable (use.respell r)) σ := by
  intro h
  have hname : (use.name.respell r).text = c.nameAt ls (σ.hops? use.name.text) use.name.text := hu
  have hunready : (c.scoping ls σ).unready (use.respell r).name.text = σ.unready use.name.text := by
    rw [NameUse.respell_name, hname, h.unready hn]
  revert h
  refine Mimics.bind_get ?_
  rw [hunready]
  refine .ite (fun _ => .bind (.note hr _ _) ?_) fun _ => mimics_resolveUse hn hu
  exact mimics_resolveUse hn hu

mutual

/-- Of an expression that follows the exchange the pass makes the bound expression respelled. -/
theorem mimics_resolveExpr (hr : r.Still) : ∀ {e : Expr} {σ : Scoping}, (∀ m ∈ e.marks, m.text ≠ c.new) →
    (σ.boundExpr e).Follows c r ls →
      Mimics c ls ls (Expr.respell r) (resolveExpr none e) (resolveExpr none (e.respell r)) σ
  | .literal _, _, _, _ => .pure rfl
  | .grouping e, σ, hn, he => .bind (mimics_resolveExpr hr (e := e) hn he) (.pure rfl)
  | .unary _ e, σ, hn, he =>
    .bind (mimics_resolveExpr hr (e := e) (List.forall_mem_cons.mp hn).2 he.2) (.pure rfl)
  | .get e _, σ, hn, he =>
    .bind (mimics_resolveExpr hr (e := e) (List.forall_mem_append.mp hn).1 he.1) (.pure rfl)
  | .binary l _ r', σ, hn, he | .logical l _ r', σ, hn, he => by
    obtain ⟨hl, hr'⟩ := List.forall_mem_append.mp hn
    exact .bind (mimics_resolveExpr hr hl he.1)
      (.bind (mimics_resolveExpr hr (List.forall_mem_cons.mp hr').2 he.2.2) (.pure rfl))
  | .ternary cond yes no, σ, hn, he => by
    obtain ⟨hn, hno⟩ := List.forall_mem_append.mp hn
    obtain ⟨hcond, hyes⟩ := List.forall_mem_append.mp hn
    exact .bind (mimics_resolveExpr hr hcond he.1) (.bind (mimics_resolveExpr hr hyes he.2.1)
      (.bind (mimics_resolveExpr hr hno he.2.2) (.pure rfl)))
  | .variable use, σ, hn, he => by
    have hu : NameUse.Follows c r ls ((resolveVariable use).run σ).1 := he
    rw [run_variable] at hu
    exact .bind (mimics_resolveVariable hr (hn _ (List.mem_singleton_self _)) hu) (.pure rfl)
  | .assign use value, σ, hn, he => by
    obtain ⟨huse, hvalue⟩ := List.forall_mem_cons.mp hn
    exact .bind (mimics_resolveExpr hr hvalue he.2) (.bind (mimics_resolveUse huse he.1) (.pure rfl))
  | .call callee _ args, σ, hn, he => by
    obtain ⟨hcallee, hargs⟩ := List.forall_mem_append.mp hn
    exact .bind (mimics_resolveExpr hr hcallee he.1)
      (.bind (mimics_resolveArgs hr (List.forall_mem_cons.mp hargs).2 he.2) (.pure rfl))
  | .set object _ value, σ, hn, he => by
    obtain ⟨hobject, hvalue⟩ := List.forall_mem_append.mp hn
    exact .bind (mimics_resolveExpr hr (List.forall_mem_cons.mp hvalue).2 he.2.2)
      (.bind (mimics_resolveExpr hr hobject he.1) (.pure rfl))
  | .receiver use, σ, hn, he => by
    rw [boundExpr, run_receiver] at he
    refine .bind_get (.ite (fun _ => .bind (.note hr _ _) (.pure rfl)) fun hinside => ?_)
    rw [if_neg hinside] at he
    exact .bind (mimics_resolveUse (hn _ (List.mem_singleton_self _)) he) (.pure rfl)
  | .superMethod use method, σ, hn, he => by
    rw [boundExpr, run_superMethod] at he
    have hused : ∀ τ : Scoping, τ.hops? use.name.text = σ.hops? use.name.text →
        Mimics c ls ls (Expr.respell r) (do return .superMethod (← resolveUse use) method)
          (do return .superMethod (← resolveUse (use.respell r)) (method.respell r)) τ := by
      intro τ hτ
      refine .bind (mimics_resolveUse (hn _ (List.mem_cons_self ..)) ?_) (.pure rfl)
      rw [hτ]
      exact he.1
    refine .bind_get ?_
    show Mimics c ls ls _ (match σ.cls with | .none => _ | .plain => _ | .subclass => _)
      (match σ.cls with | .none => _ | .plain => _ | .subclass => _) σ
    cases σ.cls with
    | none | plain => exact .bind (.note hr _ _) (hused _ rfl)
    | subclass => exact hused σ rfl
  | .stray node, σ, _, _ => .bind (.modify fun h => ⟨rfl, h.length, h.unused⟩) (.pure rfl)

theorem mimics_resolveArgs (hr : r.Still) : ∀ {es : List Expr} {σ : Scoping},
    (∀ m ∈ argMarks es, m.text ≠ c.new) → argsFollow c r ls (σ.boundArgs es) →
      Mimics c ls ls (argsRespell r) (resolveArgs none es) (resolveArgs none (argsRespell r es)) σ
  | [], _, _, _ => .pure rfl
  | e :: es, σ, hn, he => by
    obtain ⟨hfirst, hrest⟩ := List.forall_mem_append.mp hn
    exact .bind (mimics_resolveExpr hr hfirst he.1) (.bind (mimics_resolveArgs hr hrest he.2) (.pure rfl))

end

theorem not_plain_this : ∀ n ∈ ["this"], ¬ isPlain n :=
  List.forall_mem_singleton.mpr not_isPlain_this

theorem not_plain_super : ∀ n ∈ ["super"], ¬ isPlain n :=
  List.forall_mem_singleton.mpr not_isPlain_super

theorem mimics_declareParams (hr : r.Still) : ∀ {params : List Mark} {σ : Scoping},
    (∀ m ∈ params, m.text ≠ c.new) → (∀ m ∈ params, m.Declares c r ls) →
      Mimics c ls ls id (declareParams params) (declareParams (params.map (Mark.respell r))) σ
  | [], _, _, _ => .pure rfl
  | m :: params, σ, hn, hm => by
    obtain ⟨hnew, hn⟩ := List.forall_mem_cons.mp hn
    obtain ⟨hfirst, hm⟩ := List.forall_mem_cons.mp hm
    refine .bind (.modify fun h => ?_) (mimics_declareParams hr hn hm)
    rw [declare_scoping h hr hfirst, define_scoping (h.declare hnew) hfirst]
    exact ⟨rfl, (h.declare hnew).define hnew⟩

mutual

/-- Of a statement that follows the exchange the pass makes the bound statement respelled. -/
theorem mimics_resolveStmt (hr : r.Still) : ∀ {s : Stmt} {σ : Scoping} {ls : List Bool},
    (∀ m ∈ s.marks, m.text ≠ c.new) → (σ.boundStmt s).Follows c r ls →
      Mimics c ls ls (Stmt.respell r) (resolveStmt none s) (resolveStmt none (s.respell r)) σ
  | .expr e, σ, ls, hn, hs | .print e, σ, ls, hn, hs =>
    .bind (mimics_resolveExpr hr (e := e) hn hs) (.pure rfl)
  | .var name none, σ, ls, hn, hs => by
    have hnew := hn name (List.mem_singleton_self _)
    have hname : name.Declares c r ls := hs.1
    exact .bind (.modify fun h => ⟨declare_scoping h hr hname, h.declare hnew⟩)
      (.bind (.pure rfl) (.bind (.modify fun h => ⟨define_scoping h hname, h.define hnew⟩) (.pure rfl)))
  | .var name (some e), σ, ls, hn, hs => by
    intro h
    obtain ⟨hnew, hn⟩ := List.forall_mem_cons.mp hn
    rw [boundStmt_var] at hs
    have hname : name.Declares c r ls := hs.1
    obtain ⟨hinit, hsuits⟩ := initializing_scoping h hr hname hnew
    obtain ⟨hrun, hbehind⟩ := mimics_resolveExpr hr hn hs.2 hsuits
    obtain ⟨hreset, hsuits⟩ := resetting_scoping h hr hname hnew hbehind
    show (resolveStmt none (.var (name.respell r) (some (e.respell r)))).run _ = _ ∧ _
    rw [run_var, run_var, hinit, behindExpr, hrun]
    dsimp only
    rw [hreset, define_scoping hsuits hname]
    exact ⟨rfl, hsuits.define hnew⟩
  | .block body, σ, ls, hn, hs => by
    obtain ⟨b, hb⟩ := hs
    have hwords : ∀ n ∈ ([] : List String), ¬ isPlain n := List.forall_mem_nil _
    exact .bind (.modify fun h => ⟨enter_scoping hwords b, h.enter hwords b⟩)
      (.bind (mimics_resolveBody hr hn hb)
        (.bind (.modify fun h => ⟨leave_scoping h, h.leave⟩) (.pure rfl)))
  | .branch cond yes none, σ, ls, hn, hs | .loop cond yes, σ, ls, hn, hs => by
    obtain ⟨hcond, hyes⟩ := List.forall_mem_append.mp hn
    exact .bind (mimics_resolveExpr hr hcond hs.1) (.bind (mimics_resolveStmt hr hyes hs.2) (.pure rfl))
  | .branch cond yes (some no), σ, ls, hn, hs => by
    obtain ⟨hn, hno⟩ := List.forall_mem_append.mp hn
    obtain ⟨hcond, hyes⟩ := List.forall_mem_append.mp hn
    exact .bind (mimics_resolveExpr hr hcond hs.1) (.bind (mimics_resolveStmt hr hyes hs.2.1)
      (.bind (mimics_resolveStmt hr hno hs.2.2) (.pure rfl)))
  | .function ⟨name, params, body⟩, σ, ls, hn, hs => by
    have hnew := hn name (List.mem_cons_self ..)
    refine .bind (.modify fun h => ?_) (.bind (mimics_resolveFunction hr hn hs.2) (.pure rfl))
    show ((c.scoping ls σ).declare (name.respell r)).define (name.respell r) = _ ∧ _
    rw [declare_scoping h hr hs.1, define_scoping (h.declare hnew) hs.1]
    exact ⟨rfl, (h.declare hnew).define hnew⟩
  | .giveBack keyword none, σ, ls, _, _ =>
    .bind_get (.ite (fun _ => .bind (.note hr _ _) (.pure rfl)) fun _ => .pure rfl)
  | .giveBack keyword (some e), σ, ls, hn, hs => by
    intro h
    rw [boundStmt_giveBack] at hs
    obtain ⟨hgive, hsuits⟩ := givingBack_scoping h hr keyword
    obtain ⟨hrun, hbehind⟩ := mimics_resolveExpr hr (List.forall_mem_cons.mp hn).2 hs hsuits
    show (resolveStmt none (.giveBack (keyword.respell r) (some (e.respell r)))).run _ = _ ∧ _
    rw [run_giveBack, run_giveBack, hgive, behindExpr, hrun]
    exact ⟨rfl, hbehind⟩
  | .classDecl name none ms, σ, ls, hn, hs => by
    obtain ⟨hnew, hn⟩ := List.forall_mem_cons.mp hn
    refine .bind_get (.bind (.modify fun h => declaringClass_scoping h hr hs.2.1 hnew)
      (.bind (.modify fun h => ⟨enter_scoping not_plain_this false, h.enter not_plain_this false⟩)
        (.bind (mimics_resolveMethods hr hn hs.2.2) (.bind (.modify fun h => ?_) (.pure rfl)))))
    rw [leave_scoping h]
    exact ⟨rfl, h.leave.length, h.leave.unused⟩
  | .classDecl name (some use) ms, σ, ls, hn, hs => by
    intro h
    obtain ⟨hnew, hn⟩ := List.forall_mem_cons.mp hn
    obtain ⟨huse, hn⟩ := List.forall_mem_cons.mp hn
    rw [boundStmt_subclass] at hs
    obtain ⟨hkeeps, hname, hu, hms⟩ := hs
    have hinside : (σ.inheriting name use).hops? use.name.text =
        (σ.declaringClass name).hops? use.name.text := by
      unfold inheriting
      dsimp only
      split <;> rfl
    have hu' : NameUse.Follows c r ls ⟨use.name, (σ.declaringClass name).hops? use.name.text⟩ := by
      rw [← hinside]
      exact hu
    obtain ⟨hinherits, hsuits⟩ := inheriting_scoping h hr hkeeps hname hnew huse hu'
    obtain ⟨hrun, hbehind⟩ := mimics_resolveVariable hr huse hu hsuits
    have hsuits' := (hbehind.enter not_plain_super false).enter not_plain_this false
    obtain ⟨hrunMethods, hbehindMethods⟩ := mimics_resolveMethods hr hn hms hsuits'
    have hvar : (c.scoping ls (σ.inheriting name use)).behindExpr (.variable (use.respell r)) =
        c.scoping ls ((σ.inheriting name use).behindExpr (.variable use)) := congrArg Prod.snd hrun
    show (resolveStmt none (.classDecl (name.respell r) (some (use.respell r))
      (methodsRespell r ms))).run _ = _ ∧ _
    rw [run_subclass, run_subclass, hinherits, hrun, hvar, enter_scoping not_plain_super false,
      enter_scoping not_plain_this false, behindMethods]
    have hrunMethods : (resolveMethods none (methodsRespell r ms)).run (c.scoping (false :: false :: ls)
        ((((σ.inheriting name use).behindExpr (.variable use)).enter ["super"]).enter ["this"])) = _ :=
      hrunMethods
    rw [hrunMethods]
    dsimp only
    rw [leave_scoping hbehindMethods, leave_scoping hbehindMethods.leave]
    exact ⟨rfl, hbehindMethods.leave.leave.length, hbehindMethods.leave.leave.unused⟩
  | .stray node, σ, ls, _, _ => .bind (.modify fun h => ⟨rfl, h.length, h.unused⟩) (.pure rfl)

theorem mimics_resolveBody (hr : r.Still) : ∀ {body : List Stmt} {σ : Scoping} {ls : List Bool},
    (∀ m ∈ bodyMarks body, m.text ≠ c.new) → bodyFollows c r ls (σ.boundBody body) →
      Mimics c ls ls (bodyRespell r) (resolveBody none body) (resolveBody none (bodyRespell r body)) σ
  | [], _, _, _, _ => .pure rfl
  | s :: body, σ, ls, hn, hs => by
    obtain ⟨hfirst, hrest⟩ := List.forall_mem_append.mp hn
    exact .bind (mimics_resolveStmt hr hfirst hs.1) (.bind (mimics_resolveBody hr hrest hs.2) (.pure rfl))

theorem mimics_resolveFunction (hr : r.Still) : ∀ {decl : Fun} {kind : FunctionKind} {σ : Scoping}
    {ls : List Bool}, (∀ m ∈ functionMarks decl, m.text ≠ c.new) →
      functionFollows c r ls (σ.boundFunction kind decl) →
        Mimics c ls ls (functionRespell r) (resolveFunction none kind decl)
          (resolveFunction none kind (functionRespell r decl)) σ
  | ⟨name, params, body⟩, kind, σ, ls, hn, hs => by
    obtain ⟨-, b, hparams, hbody⟩ := hs
    obtain ⟨hnewParams, hnewBody⟩ := List.forall_mem_append.mp (List.forall_mem_cons.mp hn).2
    have hwords : ∀ n ∈ ([] : List String), ¬ isPlain n := List.forall_mem_nil _
    refine .bind_get (.bind (.modify fun h => ?_) (.bind (mimics_declareParams hr hnewParams hparams)
      (.bind (mimics_resolveBody hr hnewBody hbody) (.bind (.modify fun h => ?_) (.pure rfl)))))
    · rw [enter_scoping hwords b]
      exact ⟨rfl, (h.enter hwords b).length, (h.enter hwords b).unused⟩
    · rw [leave_scoping h]
      exact ⟨rfl, h.leave.length, h.leave.unused⟩

theorem mimics_resolveMethods (hr : r.Still) : ∀ {ms : List Fun} {σ : Scoping} {ls : List Bool},
    (∀ m ∈ methodMarks ms, m.text ≠ c.new) → methodsFollow c r ls (σ.boundMethods ms) →
      Mimics c ls ls (methodsRespell r) (resolveMethods none ms)
        (resolveMethods none (methodsRespell r ms)) σ
  | [], _, _, _, _ => .pure rfl
  | ⟨name, params, body⟩ :: ms, σ, ls, hn, hs => by
    obtain ⟨hfirst, hrest⟩ := List.forall_mem_append.mp hn
    have hkind : methodKind (name.respell r) = methodKind name := by
      have hname : (name.respell r).text = name.text := hs.1.1
      rw [methodKind, methodKind, hname]
    have hmethod : Mimics c ls ls (functionRespell r)
        (resolveFunction none (methodKind name) ⟨name, params, body⟩)
        (resolveFunction none (methodKind (name.respell r)) (functionRespell r ⟨name, params, body⟩)) σ := by
      rw [hkind]
      exact mimics_resolveFunction hr hfirst hs.1
    exact .bind hmethod (.bind (mimics_resolveMethods hr hrest hs.2) (.pure rfl))

end

/-- Of a program that follows the exchange, with no mark of the new name, the pass makes the bound
program respelled, and notes the same misuses. -/
theorem boundBody_exchanged (hr : r.Still) {body : List Stmt}
    (hn : ∀ m ∈ bodyMarks body, m.text ≠ c.new)
    (hs : bodyFollows c r [] (Scoping.initial.boundBody body)) :
    Scoping.initial.boundBody (bodyRespell r body) = bodyRespell r (Scoping.initial.boundBody body) ∧
      (Scoping.initial.behindBody (bodyRespell r body)).errors =
        (Scoping.initial.behindBody body).errors := by
  have hsuits : Scoping.initial.Suits c [] := ⟨rfl, List.forall_mem_nil _⟩
  obtain ⟨hrun, -⟩ := mimics_resolveBody hr hn hs hsuits
  exact ⟨congrArg Prod.fst hrun, congrArg (fun p => Scoping.errors p.2) hrun⟩

end

end Lox
