/-
# Binding names past idle scopes

Two places may have the same scopes open but for idle ones
(`Lox.Scoping.Sheds`). There the pass of names reports the same, and behind
each part that it comes by the places are alike again.

An idle scope lies inside the scope that a statement stands in, so all names
of that are ready, and it is not the scope of a superclass.

Key definitions: `Lox.ScopesShed`, `Lox.Scoping.Sheds`.
Key theorems: `Lox.ScopesShed.hops`, `Lox.Scoping.Sheds.idle`, `Lox.Scoping.Sheds.behindExpr`,
`Lox.Scoping.Sheds.behindStmt`.
-/
import Lox.Proofs.Binding.Settled
import Lox.Proofs.Idle.Trees

namespace Lox

open Scoping

/-- The second scopes are the first ones without those that are idle. -/
inductive ScopesShed (pending : List String) :
    List Bool → List (Bindings Bool) → List (Bindings Bool) → Prop
  | nil : ScopesShed pending [] [] []
  | idle {ls : List Bool} {scopes scopes' : List (Bindings Bool)} :
    pending = [] → (∀ scope ∈ scopes'.head?, AllReady scope) →
      (∀ scope ∈ scopes.head?, scope.contains "super" = false) →
        ScopesShed pending ls scopes scopes' →
          ScopesShed pending (true :: ls) (.empty :: scopes) scopes'
  | kept {ls : List Bool} (scope : Bindings Bool) {scopes scopes' : List (Bindings Bool)} :
    ScopesShed pending ls scopes scopes' →
      ScopesShed pending (false :: ls) (scope :: scopes) (scope :: scopes')

/-- The second place is like the first one, but for idle scopes. -/
structure Scoping.Sheds (ls : List Bool) (σ σ' : Scoping) : Prop where
  scopes : ScopesShed σ.pending ls σ.scopes σ'.scopes
  pending : σ'.pending = σ.pending
  function : σ'.function = σ.function
  cls : σ'.cls = σ.cls
  errors : σ'.errors = σ.errors

/-! ### What both places tell -/

namespace ScopesShed

variable {pending : List String} {ls : List Bool} {scopes scopes' : List (Bindings Bool)}

theorem refl (pending : List String) : ∀ scopes : List (Bindings Bool),
    ScopesShed pending (List.replicate scopes.length false) scopes scopes
  | [] => .nil
  | scope :: scopes => .kept scope (refl pending scopes)

theorem hops (h : ScopesShed pending ls scopes scopes') (name : String) :
    HopsShed ls (hopsIn? scopes name) (hopsIn? scopes' name) := by
  induction h with
  | nil => exact .globals
  | @idle ls scopes scopes' _ _ _ _ ih =>
    rw [hopsIn?_cons, if_neg (by simp [Bindings.contains])]
    generalize hopsIn? scopes name = hops, hopsIn? scopes' name = hops' at ih
    cases ih with
    | globals => exact .globals
    | @out d hd => exact .out (d := d + 1) hd
  | @kept ls scope scopes scopes' _ ih =>
    rw [hopsIn?_cons, hopsIn?_cons]
    split
    · exact .out (d := 0) rfl
    · generalize hopsIn? scopes name = hops, hopsIn? scopes' name = hops' at ih
      cases ih with
      | globals => exact .globals
      | @out d hd => exact .out (d := d + 1) hd

/-- The scope inside that of a superclass is not idle. -/
theorem busy_receiver (h : ScopesShed pending ls scopes scopes') {d : Nat}
    (hd : hopsIn? scopes "super" = some d) : Busy ls (d - 1) := by
  induction h generalizing d with
  | nil => cases hd
  | @idle ls scopes scopes' _ _ hsuper _ ih =>
    rw [hopsIn?_cons, if_neg (by simp [Bindings.contains])] at hd
    obtain ⟨e, he, rfl⟩ := Option.map_eq_some_iff.mp hd
    cases e with
    | zero =>
      obtain ⟨scope, hscope, hc⟩ :
          ∃ scope, scopes.head? = some scope ∧ scope.contains "super" = true := by
        cases scopes with
        | nil => cases he
        | cons scope scopes =>
          refine ⟨scope, rfl, ?_⟩
          rw [hopsIn?_cons] at he
          split at he
          · assumption
          · obtain ⟨_, _, h⟩ := Option.map_eq_some_iff.mp he
            cases h
      exact absurd hc (by simp [hsuper scope hscope])
    | succ e => exact ih he
  | @kept ls scope scopes scopes' _ ih =>
    rw [hopsIn?_cons] at hd
    split at hd
    · cases hd
      rfl
    · obtain ⟨e, he, rfl⟩ := Option.map_eq_some_iff.mp hd
      cases e with
      | zero => rfl
      | succ e => exact ih he

end ScopesShed

namespace Scoping.Sheds

variable {ls : List Bool} {σ σ' : Scoping}

theorem refl (σ : Scoping) : σ.Sheds (List.replicate σ.scopes.length false) σ :=
  ⟨.refl σ.pending σ.scopes, rfl, rfl, rfl, rfl⟩

/-- An idle scope inside the scope of a statement. -/
theorem idle {os : List Opener} (h : σ.Settled os) :
    (σ.enter []).Sheds (true :: List.replicate σ.scopes.length false) σ := by
  have hsuper : ∀ scope ∈ σ.scopes.head?, scope.contains "super" = false := by
    obtain ⟨hn, ha, _, _⟩ := h
    generalize σ.cls = kind at hn
    generalize σ.scopes = scopes at ha
    intro scope hscope
    cases ha with
    | globals => cases hscope
    | inside hnames hgiven hs =>
      cases hscope
      have ha := Aligned.inside hnames hgiven hs
      cases hn with
      | block hplain _ => exact ha.not_contains (o := .block _) hplain not_isPlain_super
      | call hplain _ => exact ha.not_contains hplain not_isPlain_super
      | plain _ _ | subclass _ _ => exact ha.contains_this.2
  exact ⟨.idle h.pending (fun scope hs => h.ready scope (List.mem_of_mem_head? hs)) hsuper
    (.refl _ _), rfl, rfl, rfl, rfl⟩

variable (h : σ.Sheds ls σ')
include h

theorem silent_iff : σ'.Silent ↔ σ.Silent := by rw [Silent, Silent, h.errors]

theorem unready_eq (name : String) : σ'.unready name = σ.unready name := by
  have hs := h.scopes
  rw [Scoping.unready, Scoping.unready, h.pending]
  generalize σ.scopes = scopes, σ'.scopes = scopes' at hs
  cases hs with
  | nil | kept => rfl
  | idle hpending hready _ _ =>
    cases scopes' with
    | nil => simp [hpending]
    | cons scope _ => simp [hready scope rfl name]

/-! ### Steps of the pass -/

theorem note (misuse : Misuse) (m : Mark) : (σ.note misuse m).Sheds ls (σ'.note misuse m) :=
  ⟨h.scopes, h.pending, h.function, h.cls, congrArg (·.push ⟨misuse, m.offset⟩) h.errors⟩

theorem withCls {cls cls' : ClassKind} (hc : cls' = cls) :
    Sheds ls { σ with cls := cls } { σ' with cls := cls' } :=
  ⟨h.scopes, h.pending, h.function, hc, h.errors⟩

theorem withFunction {kind kind' : FunctionKind} (hk : kind' = kind) :
    Sheds ls { σ with function := kind } { σ' with function := kind' } :=
  ⟨h.scopes, h.pending, hk, h.cls, h.errors⟩

theorem noteIf {p p' : Prop} [Decidable p] [Decidable p'] (hp : p' ↔ p) (misuse : Misuse) (m : Mark) :
    Sheds ls (if p then σ.note misuse m else σ) (if p' then σ'.note misuse m else σ') := by
  simp only [hp]
  split
  · exact h.note misuse m
  · exact h

theorem enter (names : List String) : (σ.enter names).Sheds (false :: ls) (σ'.enter names) :=
  ⟨.kept _ h.scopes, h.pending, h.function, h.cls, h.errors⟩

omit h in
theorem leave (h : σ.Sheds (false :: ls) σ') : σ.leave.Sheds ls σ'.leave := by
  refine ⟨?_, h.pending, h.function, h.cls, h.errors⟩
  have hs := h.scopes
  rw [Scoping.leave, Scoping.leave]
  generalize σ.scopes = scopes, σ'.scopes = scopes' at hs
  cases hs with
  | kept _ hs => exact hs

/-- A name is declared in a scope that is not idle. -/
theorem declare (hb : Busy ls 0) (m : Mark) : (σ.declare m).Sheds ls (σ'.declare m) := by
  have hs := h.scopes
  unfold Scoping.declare
  generalize hscopes : σ.scopes = scopes, hscopes' : σ'.scopes = scopes' at hs
  cases hs with
  | nil => exact h
  | idle => cases hb
  | kept scope hs =>
    have hnoted := h.noteIf (p := scope.contains m.text) .rfl .declaredTwice m
    refine ⟨?_, hnoted.pending, hnoted.function, hnoted.cls, hnoted.errors⟩
    dsimp only
    split <;> exact .kept _ hs

theorem define (hb : Busy ls 0) (m : Mark) : (σ.define m).Sheds ls (σ'.define m) := by
  have hs := h.scopes
  unfold Scoping.define
  generalize hscopes : σ.scopes = scopes, hscopes' : σ'.scopes = scopes' at hs
  cases hs with
  | nil => exact h
  | idle => cases hb
  | kept scope hs => exact ⟨.kept _ hs, h.pending, h.function, h.cls, h.errors⟩

theorem declaringClass (hb : Busy ls 0) (name : Mark) :
    (σ.declaringClass name).Sheds ls (σ'.declaringClass name) :=
  ((h.withCls rfl).declare hb name).define hb name

theorem inheriting (hb : Busy ls 0) (name : Mark) (use : NameUse) :
    (σ.inheriting name use).Sheds ls (σ'.inheriting name use) :=
  ((h.declaringClass hb name).noteIf .rfl .inheritsItself use.name).withCls rfl

theorem givingBack (keyword : Mark) : (σ.givingBack keyword).Sheds ls (σ'.givingBack keyword) := by
  have houtside : σ'.function = .none ↔ σ.function = .none := by rw [h.function]
  have hnoted := h.noteIf houtside .returnOutside keyword
  exact hnoted.noteIf (by rw [hnoted.function]) .valueFromInitializer keyword

theorem isEmpty_eq (hb : Busy ls 0) : σ'.scopes.isEmpty = σ.scopes.isEmpty := by
  have hs := h.scopes
  generalize σ.scopes = scopes, σ'.scopes = scopes' at hs
  cases hs with
  | nil | kept => rfl
  | idle => cases hb

/-- Only among the globals a name is pending, and there no scope is open. -/
theorem withPending (hb : Busy ls 0) (he : σ.scopes.isEmpty = true) {τ τ' : Scoping}
    (ht : τ.Sheds ls τ') {pending pending' : List String} (hp : pending' = pending) :
    Sheds ls { τ with pending := pending } { τ' with pending := pending' } := by
  have hs := h.scopes
  rw [List.isEmpty_iff.mp he] at hs
  generalize σ'.scopes = scopes' at hs
  cases hs
  refine ⟨?_, hp, ht.function, ht.cls, ht.errors⟩
  have hs := ht.scopes
  dsimp only
  generalize τ.scopes = scopes, τ'.scopes = scopes' at hs
  cases hs
  exact .nil

theorem initializing (hb : Busy ls 0) (name : Mark) :
    (σ.initializing name).Sheds ls (σ'.initializing name) := by
  have hd := h.declare hb name
  unfold Scoping.initializing
  rw [hd.isEmpty_eq hb]
  split
  · exact hd.withPending hb ‹_› hd (congrArg (List.insert name.text) hd.pending)
  · exact hd

theorem resetting (hb : Busy ls 0) (name : Mark) {τ τ' : Scoping} (ht : τ.Sheds ls τ') :
    (σ.resetting name τ).Sheds ls (σ'.resetting name τ') := by
  have hd := h.declare hb name
  unfold Scoping.resetting
  rw [hd.isEmpty_eq hb]
  split
  · exact hd.withPending hb ‹_› ht (congrArg (List.filter (· ≠ name.text)) ht.pending)
  · exact ht

theorem declareParams (hb : Busy ls 0) (params : List Mark) :
    ((Lox.declareParams params).run σ).2.Sheds ls ((Lox.declareParams params).run σ').2 := by
  induction params generalizing σ σ' with
  | nil => exact h
  | cons param params ih => exact ih ((h.declare hb param).define hb param)

theorem enteringFunction (kind : FunctionKind) (params : List Mark) :
    (σ.enteringFunction kind params).Sheds (false :: ls) (σ'.enteringFunction kind params) :=
  ((h.enter []).withFunction rfl).declareParams busy_inside params

theorem resolveVariable (use : NameUse) :
    ((Lox.resolveVariable use).run σ).2.Sheds ls ((Lox.resolveVariable use).run σ').2 := by
  rw [run_variable, run_variable]
  exact h.noteIf (by rw [h.unready_eq]) _ _

theorem usingSuper (use : NameUse) : (σ.usingSuper use).Sheds ls (σ'.usingSuper use) := by
  unfold Scoping.usingSuper
  rw [h.cls]
  split
  · exact h.note _ _
  · exact h.note _ _
  · exact h

end Scoping.Sheds

/-! ### Behind a part -/

namespace Scoping.Sheds

mutual

theorem behindExpr : ∀ (e : Expr) {ls : List Bool} {σ σ' : Scoping}, σ.Sheds ls σ' →
    (σ.behindExpr e).Sheds ls (σ'.behindExpr e)
  | .literal _, _, _, _, h => h
  | .grouping e, _, _, _, h | .unary _ e, _, _, _, h | .get e _, _, _, _, h
  | .assign _ e, _, _, _, h => behindExpr e h
  | .binary l _ r, _, _, _, h | .logical l _ r, _, _, _, h => behindExpr r (behindExpr l h)
  | .ternary cond yes no, _, _, _, h => behindExpr no (behindExpr yes (behindExpr cond h))
  | .call callee _ args, _, _, _, h => behindArgs args (behindExpr callee h)
  | .set object _ value, _, _, _, h => behindExpr object (behindExpr value h)
  | .variable use, _, _, _, h => h.resolveVariable use
  | .receiver use, _, σ, σ', h => by
    rw [Scoping.behindExpr, Scoping.behindExpr, run_receiver, run_receiver, h.cls]
    split
    · exact h.note _ _
    · exact h
  | .superMethod use m, _, σ, σ', h => by
    rw [Scoping.behindExpr, Scoping.behindExpr, run_superMethod, run_superMethod]
    exact h.usingSuper use
  | .stray _, _, _, _, h => ⟨h.scopes, h.pending, h.function, h.cls, h.errors⟩

theorem behindArgs : ∀ (es : List Expr) {ls : List Bool} {σ σ' : Scoping}, σ.Sheds ls σ' →
    (σ.behindArgs es).Sheds ls (σ'.behindArgs es)
  | [], _, _, _, h => h
  | e :: es, _, _, _, h => behindArgs es (behindExpr e h)

end

mutual

/-- Behind a statement, too, the places are alike; in an idle scope nothing is declared. -/
theorem behindStmt : ∀ (s : Stmt) {ls : List Bool} {σ σ' : Scoping}, s.Regular →
    (Busy ls 0 ∨ s.declared? = none) → σ.Sheds ls σ' → (σ.behindStmt s).Sheds ls (σ'.behindStmt s)
  | .expr e, _, _, _, _, _, h | .print e, _, _, _, _, _, h => behindExpr e h
  | .var name none, _, _, _, _, .inl hb, h => (h.declare hb name).define hb name
  | .var name (some e), _, _, _, _, .inl hb, h => by
    rw [behindStmt_var, behindStmt_var]
    exact (h.resetting hb name (behindExpr e (h.initializing hb name))).define hb name
  | .block body, _, _, _, hr, _, h => (behindBody body hr busy_inside (h.enter [])).leave
  | .branch cond yes none, _, _, _, hr, _, h | .loop cond yes, _, _, _, hr, _, h =>
    behindStmt yes hr.2.1 (.inr hr.2.2) (behindExpr cond h)
  | .branch cond yes (some no), _, _, _, hr, _, h =>
    behindStmt no hr.2.2.1 (.inr hr.2.2.2) (behindStmt yes hr.2.1.1 (.inr hr.2.1.2) (behindExpr cond h))
  | .function decl, _, _, _, hr, .inl hb, h =>
    behindFunction .function decl hr ((h.declare hb decl.name).define hb decl.name)
  | .giveBack keyword none, _, _, _, _, _, h => by
    rw [behindStmt_giveBack_none, behindStmt_giveBack_none]
    exact h.noteIf (by rw [h.function]) _ _
  | .giveBack keyword (some e), _, _, _, _, _, h => by
    rw [behindStmt_giveBack, behindStmt_giveBack]
    exact behindExpr e (h.givingBack keyword)
  | .classDecl name none ms, _, _, _, hr, .inl hb, h =>
    (behindMethods ms hr.2 ((h.declaringClass hb name).enter ["this"])).leave.withCls h.cls
  | .classDecl name (some use) ms, _, _, _, hr, .inl hb, h => by
    have huse := behindExpr (.variable use) (h.inheriting hb name use)
    have hms := (behindMethods ms hr.2.2 ((huse.enter ["super"]).enter ["this"])).leave.leave
    rw [behindStmt_subclass, behindStmt_subclass]
    exact hms.withCls h.cls
  | .stray _, _, _, _, hr, _, _ => hr.elim

theorem behindBody : ∀ (body : List Stmt) {ls : List Bool} {σ σ' : Scoping}, bodyRegular body →
    Busy ls 0 → σ.Sheds ls σ' → (σ.behindBody body).Sheds ls (σ'.behindBody body)
  | [], _, _, _, _, _, h => h
  | s :: body, _, _, _, hr, hb, h => behindBody body hr.2 hb (behindStmt s hr.1 (.inl hb) h)

theorem behindFunction : ∀ (kind : FunctionKind) (decl : Fun) {ls : List Bool} {σ σ' : Scoping},
    functionRegular decl → σ.Sheds ls σ' →
      (σ.behindFunction kind decl).Sheds ls (σ'.behindFunction kind decl)
  | kind, ⟨_, params, body⟩, _, _, _, hr, h =>
    (behindBody body hr.2.2 busy_inside (h.enteringFunction kind params)).leave.withFunction h.function

theorem behindMethods : ∀ (ms : List Fun) {ls : List Bool} {σ σ' : Scoping}, methodsRegular ms →
    σ.Sheds ls σ' → (σ.behindMethods ms).Sheds ls (σ'.behindMethods ms)
  | [], _, _, _, _, h => h
  | m :: ms, _, _, _, hr, h => behindMethods ms hr.2 (behindFunction (methodKind m.name) m hr.1 h)

end

end Scoping.Sheds

end Lox
