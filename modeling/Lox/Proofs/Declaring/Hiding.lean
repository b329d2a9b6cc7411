/-
# One more name in an open scope

Two passes of names stand side by side. In the second one, one of the open
scopes binds a name besides that it does not bind in the first one
(`Lox.Scoping.Hides`). A use of another name is bound alike in both, and so is
one of that name which in the first pass is bound further in than that scope.
So if no use of the name in a part is bound further out, nor by no scope at
all, both passes make the same of it, and note the same misuses.

Key definitions: `Lox.Bindings.without`, `Lox.Scoping.Hides`, `Lox.Resolve.Steady`.
Key theorems: `Lox.Scoping.Hides.hops?`, `Lox.steady_resolveStmt`, `Lox.steady_resolveBody`.
-/
import Lox.Proofs.Declaring.Insertion

namespace Lox

/-! ### Bindings without a name -/

namespace Bindings

variable {α : Type} {x n : String} {bs : Bindings α} {a : α}

/-- The other names, bound as they were. -/
def without (x : String) (bs : Bindings α) : Bindings α :=
  ⟨bs.entries.filter (·.1 ≠ x)⟩

theorem find?_filter (h : n ≠ x) : ∀ entries : List (String × α),
    find? n (entries.filter (·.1 ≠ x)) = find? n entries
  | [] => rfl
  | (other, b) :: entries => by
    by_cases ho : other = x
    · rw [List.filter_cons_of_neg (by simp [ho]), find?_filter h entries, find?,
        if_neg fun hn => h (hn.trans ho)]
    · rw [List.filter_cons_of_pos (by simp [ho]), find?, find?, find?_filter h entries]

theorem contains_without (h : n ≠ x) : (bs.without x).contains n = bs.contains n :=
  congrArg Option.isSome (find?_filter h bs.entries)

theorem get?_without (h : n ≠ x) : (bs.without x).get? n = bs.get? n :=
  find?_filter h bs.entries

theorem not_contains_without : (bs.without x).contains x = false := by
  have hnone : ∀ entries : List (String × α), find? x (entries.filter (·.1 ≠ x)) = none := by
    intro entries
    induction entries with
    | nil => rfl
    | cons entry entries ih =>
      by_cases ho : entry.1 = x
      · rwa [List.filter_cons_of_neg (by simp [ho])]
      · rw [List.filter_cons_of_pos (by simp [ho]), find?, if_neg (Ne.symm ho), ih]
  exact congrArg Option.isSome (hnone bs.entries)

theorem filter_put (h : n ≠ x) : ∀ entries : List (String × α),
    (put n a entries).filter (·.1 ≠ x) = put n a (entries.filter (·.1 ≠ x))
  | [] => by simp [put, h]
  | (other, b) :: entries => by
    have ih := filter_put h entries
    by_cases hn : n = other
    · subst hn
      rw [put, if_pos rfl, List.filter_cons_of_pos (by simp [h]), List.filter_cons_of_pos (by simp [h]),
        put, if_pos rfl]
    · rw [put, if_neg hn]
      by_cases ho : other = x
      · rwa [List.filter_cons_of_neg (by simp [ho]), List.filter_cons_of_neg (by simp [ho])]
      · rw [List.filter_cons_of_pos (by simp [ho]), List.filter_cons_of_pos (by simp [ho]), put,
          if_neg hn, ih]

theorem without_bind (h : n ≠ x) : (bs.bind n a).without x = (bs.without x).bind n a :=
  congrArg Bindings.mk (filter_put h bs.entries)

/-- A new name may be bound and left out again. -/
theorem without_bind_self (h : bs.contains x = false) : (bs.bind x a).without x = bs := by
  have hnone : ∀ entries : List (String × α), find? x entries = none →
      (put x a entries).filter (·.1 ≠ x) = entries := by
    intro entries
    induction entries with
    | nil => simp [put]
    | cons entry entries ih =>
      intro hfind
      by_cases hx : x = entry.1
      · rw [find?, if_pos hx] at hfind
        cases hfind
      · rw [find?, if_neg hx] at hfind
        rw [put, if_neg hx, List.filter_cons_of_pos (by simp [Ne.symm hx]), ih hfind]
  have hfind : bs.get? x = none := by simpa [contains] using h
  exact congrArg Bindings.mk (hnone bs.entries hfind)

end Bindings

/-! ### Scopes that bind a name besides -/

namespace Scoping

variable {x : String} {j : Nat} {σ σ' : Scoping} {m : Mark} {n : String}

/-- The second one has a scope more names are bound in by one: that scope, so many scopes out, binds
the name, and does not in the first one. -/
structure Hides (x : String) (j : Nat) (σ σ' : Scoping) : Prop where
  inside : j < σ'.scopes.length
  eq : σ = { σ' with scopes := σ'.scopes.modify j (Bindings.without x) }

theorem hopsIn?_modify : ∀ {j : Nat} {scopes : List (Bindings Bool)}, j < scopes.length →
    (n = x → ∃ d ≤ j, hopsIn? (scopes.modify j (Bindings.without x)) n = some d) →
      hopsIn? scopes n = hopsIn? (scopes.modify j (Bindings.without x)) n
  | 0, bs :: scopes, _, h => by
    rw [List.modify_zero_cons, hopsIn?_cons] at h ⊢
    by_cases hn : n = x
    · subst hn
      obtain ⟨d, hd, heq⟩ := h rfl
      obtain rfl := Nat.le_zero.mp hd
      rw [Bindings.not_contains_without] at heq
      obtain ⟨_, _, hs⟩ := Option.map_eq_some_iff.mp heq
      cases hs
    · rw [hopsIn?_cons, Bindings.contains_without hn]
  | j + 1, bs :: scopes, hj, h => by
    rw [List.modify_succ_cons, hopsIn?_cons] at h ⊢
    rw [hopsIn?_cons]
    cases hc : bs.contains n with
    | true => rfl
    | false =>
      rw [hc] at h
      rw [hopsIn?_modify (Nat.lt_of_succ_lt_succ hj)]
      intro hn
      obtain ⟨d, hd, heq⟩ := h hn
      obtain ⟨e, he, rfl⟩ := Option.map_eq_some_iff.mp heq
      exact ⟨e, Nat.le_of_succ_le_succ hd, he⟩

namespace Hides

variable (h : Hides x j σ σ')
include h

/-- A name is bound as far out in both, if it is not the one that is hidden. -/
theorem hops? (hn : n = x → ∃ d ≤ j, σ.hops? n = some d) : σ'.hops? n = σ.hops? n := by
  obtain ⟨inside, rfl⟩ := h
  exact hopsIn?_modify inside hn

theorem unready (hn : n = x → ∃ d ≤ j, σ.hops? n = some d) : σ'.unready n = σ.unready n := by
  obtain ⟨inside, rfl⟩ := h
  obtain ⟨scopes, pending, kind, cls, errors, misplaced, stopped⟩ := σ'
  match scopes, j with
  | bs :: scopes, 0 =>
    have hne : n ≠ x := by
      rintro rfl
      obtain ⟨d, hd, heq⟩ := hn rfl
      obtain rfl := Nat.le_zero.mp hd
      have heq : hopsIn? (bs.without n :: scopes) n = some 0 := heq
      rw [hopsIn?_cons, Bindings.not_contains_without] at heq
      obtain ⟨_, _, hs⟩ := Option.map_eq_some_iff.mp heq
      cases hs
    simp only [Scoping.unready, List.modify_zero_cons, Bindings.get?_without hne]
  | bs :: scopes, j + 1 => rfl

theorem isEmpty_scopes : σ'.scopes.isEmpty = false ∧ σ.scopes.isEmpty = false := by
  obtain ⟨inside, rfl⟩ := h
  obtain ⟨scopes, pending, kind, cls, errors, misplaced, stopped⟩ := σ'
  match scopes, j with
  | bs :: scopes, 0 => exact ⟨rfl, rfl⟩
  | bs :: scopes, j + 1 => exact ⟨rfl, rfl⟩

theorem note (misuse : Misuse) (m : Mark) : Hides x j (σ.note misuse m) (σ'.note misuse m) := by
  obtain ⟨inside, rfl⟩ := h
  exact ⟨inside, rfl⟩

theorem noteMisplaced (m : Misplaced) : Hides x j (σ.noteMisplaced m) (σ'.noteMisplaced m) := by
  obtain ⟨inside, rfl⟩ := h
  exact ⟨inside, rfl⟩

theorem inFunction (kind : FunctionKind) :
    Hides x j { σ with function := kind } { σ' with function := kind } := by
  obtain ⟨inside, rfl⟩ := h
  exact ⟨inside, rfl⟩

theorem inClass (cls : ClassKind) : Hides x j { σ with cls := cls } { σ' with cls := cls } := by
  obtain ⟨inside, rfl⟩ := h
  exact ⟨inside, rfl⟩

theorem function_eq : σ'.function = σ.function := by
  obtain ⟨inside, rfl⟩ := h
  rfl

theorem cls_eq : σ'.cls = σ.cls := by
  obtain ⟨inside, rfl⟩ := h
  rfl

theorem declare (hm : j = 0 → m.text ≠ x) : Hides x j (σ.declare m) (σ'.declare m) := by
  obtain ⟨inside, rfl⟩ := h
  obtain ⟨scopes, pending, kind, cls, errors, misplaced, stopped⟩ := σ'
  match scopes, j with
  | bs :: scopes, 0 =>
    refine ⟨inside, ?_⟩
    simp only [Scoping.declare, List.modify_zero_cons, Bindings.contains_without (hm rfl),
      ← Bindings.without_bind (hm rfl)]
    split <;> rfl
  | bs :: scopes, j + 1 =>
    refine ⟨inside, ?_⟩
    simp only [Scoping.declare, List.modify_succ_cons]
    split <;> rfl

theorem define (hm : j = 0 → m.text ≠ x) : Hides x j (σ.define m) (σ'.define m) := by
  obtain ⟨inside, rfl⟩ := h
  obtain ⟨scopes, pending, kind, cls, errors, misplaced, stopped⟩ := σ'
  match scopes, j with
  | bs :: scopes, 0 =>
    refine ⟨inside, ?_⟩
    simp only [Scoping.define, List.modify_zero_cons, ← Bindings.without_bind (hm rfl)]
  | bs :: scopes, j + 1 => exact ⟨inside, rfl⟩

theorem enter (names : List String) : Hides x (j + 1) (σ.enter names) (σ'.enter names) := by
  obtain ⟨inside, rfl⟩ := h
  exact ⟨Nat.succ_lt_succ inside, rfl⟩

omit h in
theorem leave (h : Hides x (j + 1) σ σ') : Hides x j σ.leave σ'.leave := by
  obtain ⟨inside, rfl⟩ := h
  obtain ⟨scopes, pending, kind, cls, errors, misplaced, stopped⟩ := σ'
  match scopes with
  | bs :: scopes => exact ⟨Nat.lt_of_succ_lt_succ inside, rfl⟩

/-- Behind that scope nothing is left of the name. -/
theorem leave_eq (hj : j = 0) : σ'.leave = σ.leave := by
  subst hj
  obtain ⟨inside, rfl⟩ := h
  obtain ⟨scopes, pending, kind, cls, errors, misplaced, stopped⟩ := σ'
  match scopes with
  | bs :: scopes => rfl

end Hides

/-! ### Before the parts of statements -/

namespace Hides

variable (h : Hides x j σ σ')
include h

theorem initializing (hm : j = 0 → m.text ≠ x) :
    Hides x j (σ.initializing m) (σ'.initializing m) := by
  have hdeclared := h.declare hm
  obtain ⟨hfirst, hsecond⟩ := hdeclared.isEmpty_scopes
  rw [Scoping.initializing, Scoping.initializing, hfirst, hsecond]
  exact hdeclared

theorem resetting (hm : j = 0 → m.text ≠ x) {τ τ' : Scoping} (hτ : Hides x j τ τ') :
    Hides x j (σ.resetting m τ) (σ'.resetting m τ') := by
  obtain ⟨hfirst, hsecond⟩ := (h.declare hm).isEmpty_scopes
  rw [Scoping.resetting, Scoping.resetting, hfirst, hsecond]
  exact hτ

theorem givingBack (keyword : Mark) : Hides x j (σ.givingBack keyword) (σ'.givingBack keyword) := by
  have noted : ∀ (p : Prop) [Decidable p] {τ τ' : Scoping} (misuse : Misuse), Hides x j τ τ' →
      Hides x j (if p then τ.note misuse keyword else τ) (if p then τ'.note misuse keyword else τ') := by
    intro p _ τ τ' misuse hτ
    split
    · exact hτ.note misuse keyword
    · exact hτ
  have hfirst := noted (σ.function = .none) .returnOutside h
  unfold Scoping.givingBack
  dsimp only
  rw [h.function_eq, hfirst.function_eq]
  exact noted _ .valueFromInitializer hfirst

theorem declaringClass (hm : j = 0 → m.text ≠ x) :
    Hides x j (σ.declaringClass m) (σ'.declaringClass m) :=
  ((h.inClass .plain).declare hm).define hm

theorem inheriting (hm : j = 0 → m.text ≠ x) (use : NameUse) :
    Hides x j (σ.inheriting m use) (σ'.inheriting m use) := by
  have hclass := h.declaringClass hm
  unfold Scoping.inheriting
  dsimp only
  split
  · exact (hclass.note .inheritsItself use.name).inClass .subclass
  · exact hclass.inClass .subclass

end Hides

end Scoping

/-! ### Steps of the pass -/

namespace Resolve

variable {α β : Type} {x : String} {j k l : Nat} {σ : Scoping}

/-- With the name bound besides in one of the scopes, the step has the same result and leaves that
binding where it is. -/
def Steady (x : String) (j k : Nat) (p : Resolve α) (σ : Scoping) : Prop :=
  ∀ σ', Scoping.Hides x j σ σ' →
    (p.run σ').1 = (p.run σ).1 ∧ Scoping.Hides x k (p.run σ).2 (p.run σ').2

namespace Steady

variable {p : Resolve α}

theorem pure (a : α) : Steady x j j (Pure.pure a : Resolve α) σ := fun _ h => ⟨rfl, h⟩

theorem bind {q : α → Resolve β} (hp : Steady x j k p σ)
    (hq : Steady x k l (q (p.run σ).1) (p.run σ).2) : Steady x j l (p >>= q) σ := by
  intro σ' h
  obtain ⟨hresult, hbehind⟩ := hp σ' h
  show ((q (p.run σ').1).run (p.run σ').2).1 = _ ∧
    Scoping.Hides x l _ ((q (p.run σ').1).run (p.run σ').2).2
  rw [hresult]
  exact hq _ hbehind

/-- What is asked for does not tell the binding. -/
theorem bind_get {q : Scoping → Resolve β} (hq : ∀ σ', Scoping.Hides x j σ σ' → q σ' = q σ)
    (h : Steady x j k (q σ) σ) : Steady x j k (get >>= q) σ := by
  intro σ' hides
  show ((q σ').run σ').1 = _ ∧ Scoping.Hides x k _ ((q σ').run σ').2
  rw [hq σ' hides]
  exact h σ' hides

theorem note (misuse : Misuse) (m : Mark) : Steady x j j (modify (·.note misuse m)) σ :=
  fun _ h => ⟨rfl, h.note misuse m⟩

theorem modify {m : Scoping → Scoping}
    (hm : ∀ σ', Scoping.Hides x j σ σ' → Scoping.Hides x k (m σ) (m σ')) :
    Steady x j k (modify m) σ :=
  fun σ' h => ⟨rfl, hm σ' h⟩

theorem ite {P : Prop} [Decidable P] {q : Resolve α} (hp : P → Steady x j k p σ)
    (hq : ¬ P → Steady x j k q σ) : Steady x j k (if P then p else q) σ := by
  split
  · exact hp ‹_›
  · exact hq ‹_›

end Steady

end Resolve

open Resolve Scoping

section

variable {x : String} {j : Nat} {σ : Scoping}

theorem steady_resolveUse {use : NameUse}
    (hu : use.name.text = x → ∃ d ≤ j, σ.hops? use.name.text = some d) :
    Steady x j j (resolveUse use) σ :=
  .bind_get (fun σ' h => by rw [h.hops? hu]) (.pure _)

theorem steady_resolveVariable {use : NameUse}
    (hu : use.name.text = x → ∃ d ≤ j, σ.hops? use.name.text = some d) :
    Steady x j j (resolveVariable use) σ :=
  .bind_get (fun σ' h => by rw [h.unready hu])
    (.ite (fun _ => .bind (.note _ _) (steady_resolveUse hu)) fun _ => steady_resolveUse hu)

mutual

theorem steady_resolveExpr : ∀ {e : Expr} {σ : Scoping},
    BoundWithin x j (σ.boundExpr e).occurrences → Steady x j j (resolveExpr none e) σ
  | .literal _, _, _ => .pure _
  | .grouping e, σ, h | .unary _ e, σ, h | .get e _, σ, h =>
    .bind (steady_resolveExpr (e := e) h) (.pure _)
  | .binary l _ r, σ, h | .logical l _ r, σ, h => by
    obtain ⟨hl, hr⟩ := BoundWithin.append.mp h
    exact .bind (steady_resolveExpr hl) (.bind (steady_resolveExpr hr) (.pure _))
  | .ternary cond yes no, σ, h => by
    obtain ⟨h, hno⟩ := BoundWithin.append.mp h
    obtain ⟨hcond, hyes⟩ := BoundWithin.append.mp h
    exact .bind (steady_resolveExpr hcond)
      (.bind (steady_resolveExpr hyes) (.bind (steady_resolveExpr hno) (.pure _)))
  | .variable use, σ, h => by
    have h : BoundWithin x j [⟨.variable, ((resolveVariable use).run σ).1⟩] := h
    rw [run_variable] at h
    exact .bind (steady_resolveVariable (BoundWithin.cons.mp h).1) (.pure _)
  | .assign use value, σ, h => by
    obtain ⟨hu, hvalue⟩ := BoundWithin.cons.mp h
    exact .bind (steady_resolveExpr hvalue) (.bind (steady_resolveUse hu) (.pure _))
  | .call callee _ args, σ, h => by
    obtain ⟨hcallee, hargs⟩ := BoundWithin.append.mp h
    exact .bind (steady_resolveExpr hcallee) (.bind (steady_resolveArgs hargs) (.pure _))
  | .set object _ value, σ, h => by
    obtain ⟨hobject, hvalue⟩ := BoundWithin.append.mp h
    exact .bind (steady_resolveExpr hvalue) (.bind (steady_resolveExpr hobject) (.pure _))
  | .receiver use, σ, h => by
    rw [boundExpr, run_receiver] at h
    refine .bind_get (fun σ' hides => by rw [hides.cls_eq]) (.ite (fun _ => ?_) fun hinside => ?_)
    · exact .bind (.note _ _) (.pure _)
    · rw [if_neg hinside] at h
      exact .bind (steady_resolveUse (BoundWithin.cons.mp h).1) (.pure _)
  | .superMethod use method, σ, h => by
    rw [boundExpr, run_superMethod] at h
    have hu := (BoundWithin.cons.mp h).1
    have hused : ∀ τ : Scoping, τ.hops? use.name.text = σ.hops? use.name.text →
        Steady x j j (do return Expr.superMethod (← resolveUse use) method) τ := by
      intro τ hτ
      refine .bind (steady_resolveUse ?_) (.pure _)
      rw [hτ]
      exact hu
    refine .bind_get (fun σ' hides => by rw [hides.cls_eq]) ?_
    cases σ.cls with
    | none | plain => exact .bind (.note _ _) (hused _ rfl)
    | subclass => exact hused σ rfl
  | .stray node, σ, _ => .bind (.modify fun _ h => h.noteMisplaced _) (.pure _)

theorem steady_resolveArgs : ∀ {es : List Expr} {σ : Scoping},
    BoundWithin x j (argOccurrences (σ.boundArgs es)) → Steady x j j (resolveArgs none es) σ
  | [], _, _ => .pure _
  | e :: es, σ, h => by
    obtain ⟨he, hes⟩ := BoundWithin.append.mp h
    exact .bind (steady_resolveExpr he) (.bind (steady_resolveArgs hes) (.pure _))

end

/-- Further in than that scope all names may be declared. -/
theorem steady_declareParams : ∀ (params : List Mark) {σ : Scoping},
    Steady x (j + 1) (j + 1) (declareParams params) σ
  | [], _ => .pure _
  | m :: params, σ => by
    refine .bind (.modify fun σ' h => ?_) (steady_declareParams params)
    exact (h.declare (absurd · j.succ_ne_zero)).define (absurd · j.succ_ne_zero)

end

section

variable {x : String}

mutual

/-- Of a statement that does not declare the name in that scope, and uses it only as it is bound
further in, the pass makes the same, and notes the same misuses. -/
theorem steady_resolveStmt : ∀ {s : Stmt} {σ : Scoping} {j : Nat}, s.Regular →
    (j = 0 → ∀ m ∈ s.declared?, m.text ≠ x) → BoundWithin x j (σ.boundStmt s).reaching →
      Steady x j j (resolveStmt none s) σ
  | .expr e, σ, j, _, _, h | .print e, σ, j, _, _, h =>
    .bind (steady_resolveExpr (e := e) h) (.pure _)
  | .var name none, σ, j, _, hn, _ => by
    have hname : j = 0 → name.text ≠ x := fun h0 => hn h0 name rfl
    exact .bind (.modify fun _ h => h.declare hname)
      (.bind (.pure _) (.bind (.modify fun _ h => h.define hname) (.pure _)))
  | .var name (some e), σ, j, _, hn, h => by
    intro σ' hides
    have hname : j = 0 → name.text ≠ x := fun h0 => hn h0 name rfl
    rw [boundStmt_var] at h
    obtain ⟨hresult, hbehind⟩ := steady_resolveExpr h _ (hides.initializing hname)
    rw [run_var, run_var, hresult]
    exact ⟨rfl, (hides.resetting hname hbehind).define hname⟩
  | .block body, σ, j, hr, _, h => by
    refine .bind (.modify fun _ h => h.enter []) (.bind ?_ (.bind (.modify fun _ h => h.leave) (.pure _)))
    exact steady_resolveBody hr (fun h0 => absurd h0 j.succ_ne_zero) (BoundWithin.inside h)
  | .branch cond yes none, σ, j, hr, _, h | .loop cond yes, σ, j, hr, _, h => by
    obtain ⟨hcond, hyes⟩ := BoundWithin.append.mp h
    have hnone : j = 0 → ∀ m ∈ yes.declared?, m.text ≠ x := fun _ m hm => by
      rw [hr.2.2] at hm
      cases hm
    exact .bind (steady_resolveExpr hcond) (.bind (steady_resolveStmt hr.2.1 hnone hyes) (.pure _))
  | .branch cond yes (some no), σ, j, hr, _, h => by
    obtain ⟨h, hno⟩ := BoundWithin.append.mp h
    obtain ⟨hcond, hyes⟩ := BoundWithin.append.mp h
    have hnone : ∀ s : Stmt, s.declared? = none → j = 0 → ∀ m ∈ s.declared?, m.text ≠ x :=
      fun s hs _ m hm => by
        rw [hs] at hm
        cases hm
    exact .bind (steady_resolveExpr hcond)
      (.bind (steady_resolveStmt hr.2.1.1 (hnone yes hr.2.1.2) hyes)
        (.bind (steady_resolveStmt hr.2.2.1 (hnone no hr.2.2.2) hno) (.pure _)))
  | .function decl, σ, j, hr, hn, h => by
    have hname : j = 0 → decl.name.text ≠ x := fun h0 => hn h0 decl.name rfl
    exact .bind (.modify fun _ h => (h.declare hname).define hname)
      (.bind (steady_resolveFunction hr h) (.pure _))
  | .giveBack keyword none, σ, j, _, _, _ =>
    .bind_get (fun σ' h => by rw [h.function_eq])
      (.ite (fun _ => .bind (.note _ _) (.pure _)) fun _ => .pure _)
  | .giveBack keyword (some e), σ, j, _, _, h => by
    intro σ' hides
    rw [boundStmt_giveBack] at h
    obtain ⟨hresult, hbehind⟩ := steady_resolveExpr h _ (hides.givingBack keyword)
    rw [run_giveBack, run_giveBack, hresult]
    exact ⟨rfl, hbehind⟩
  | .classDecl name none ms, σ, j, hr, hn, h => by
    have hname : j = 0 → name.text ≠ x := fun h0 => hn h0 name rfl
    refine .bind_get (fun σ' h => by rw [h.cls_eq]) (.bind (.modify fun _ h => h.declaringClass hname)
      (.bind (.modify fun _ h => h.enter ["this"]) (.bind (steady_resolveMethods hr.2 h.inside)
        (.bind (.modify fun _ h => h.leave.inClass _) (.pure _)))))
  | .classDecl name (some use) ms, σ, j, hr, hn, h => by
    intro σ' hides
    have hname : j = 0 → name.text ≠ x := fun h0 => hn h0 name rfl
    rw [boundStmt_subclass] at h
    obtain ⟨huse, hms⟩ := BoundWithin.cons.mp h
    have hused : Steady x j j (resolveVariable use) (σ.inheriting name use) :=
      steady_resolveVariable huse
    obtain ⟨hresult, hbehind⟩ := hused _ (hides.inheriting hname use)
    obtain ⟨hresult', hbehind'⟩ := steady_resolveMethods hr.2.2 hms.inside.inside _
      ((hbehind.enter ["super"]).enter ["this"])
    rw [run_subclass, run_subclass, hresult, hides.cls_eq]
    exact ⟨congrArg (Stmt.classDecl name _) hresult', hbehind'.leave.leave.inClass σ.cls⟩
  | .stray node, σ, j, _, _, _ => .bind (.modify fun _ h => h.noteMisplaced _) (.pure _)

theorem steady_resolveBody : ∀ {body : List Stmt} {σ : Scoping} {j : Nat}, bodyRegular body →
    (j = 0 → x ∉ declaredNames body) → BoundWithin x j (bodyReaching (σ.boundBody body)) →
      Steady x j j (resolveBody none body) σ
  | [], _, _, _, _, _ => .pure _
  | s :: body, σ, j, hr, hn, h => by
    obtain ⟨hs, hbody⟩ := BoundWithin.append.mp h
    rw [declaredNames_cons, List.mem_append, not_or] at hn
    have hfirst : j = 0 → ∀ m ∈ s.declared?, m.text ≠ x := fun h0 m hm hx =>
      (hn h0).1 (List.mem_map.mpr ⟨m, Option.mem_toList.mpr hm, hx⟩)
    exact .bind (steady_resolveStmt hr.1 hfirst hs)
      (.bind (steady_resolveBody hr.2 (fun h0 => (hn h0).2) hbody) (.pure _))

theorem steady_resolveFunction : ∀ {decl : Fun} {kind : FunctionKind} {σ : Scoping} {j : Nat},
    functionRegular decl → BoundWithin x j (functionReaching (σ.boundFunction kind decl)) →
      Steady x j j (resolveFunction none kind decl) σ
  | ⟨name, params, body⟩, kind, σ, j, hr, h => by
    refine .bind_get (fun σ' h => by rw [h.function_eq]) (.bind (.modify fun _ h => (h.enter []).inFunction kind)
      (.bind (steady_declareParams params) (.bind ?_ (.bind (.modify fun _ h => h.leave.inFunction _) (.pure _)))))
    exact steady_resolveBody hr.2.2 (fun h0 => absurd h0 j.succ_ne_zero) (BoundWithin.inside h)

theorem steady_resolveMethods : ∀ {ms : List Fun} {σ : Scoping} {j : Nat}, methodsRegular ms →
    BoundWithin x j (methodsReaching (σ.boundMethods ms)) → Steady x j j (resolveMethods none ms) σ
  | [], _, _, _, _ => .pure _
  | m :: ms, σ, j, hr, h => by
    obtain ⟨hm, hms⟩ := BoundWithin.append.mp h
    exact .bind (steady_resolveFunction hr.1 hm) (.bind (steady_resolveMethods hr.2 hms) (.pure _))

end

end

end Lox
