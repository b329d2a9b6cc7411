/-
# Binding names without a report

Where the pass of names reports nothing, what it knows changes in one way
only: behind a declaration its name is bound in the innermost scope and ready.
Expressions, blocks, functions and classes leave all the rest as it was. And
where nothing is reported behind a place, nothing is reported behind any part
of it.

Key definitions: `Lox.Scoping.behind`, `Lox.Visit.Clean`.
Key theorems: `Lox.Scoping.behindExpr_of_silent`, `Lox.Scoping.behindStmt_of_silent`,
`Lox.Visit.Clean.part`.
-/
import Lox.Proofs.Binding.Visit

namespace Lox

namespace Bindings

variable {α : Type}

theorem put_put (name : String) (a b : α) : ∀ entries : List (String × α),
    put name a (put name b entries) = put name a entries
  | [] => by simp [put]
  | (other, c) :: rest => by
    by_cases h : name = other
    · simp [put, h]
    · simp [put, h, put_put name a b rest]

theorem bind_bind (bs : Bindings α) (name : String) (a b : α) :
    (bs.bind name b).bind name a = bs.bind name a :=
  congrArg Bindings.mk (put_put name a b bs.entries)

end Bindings

namespace Scoping

variable {σ τ : Scoping}

/-- Nothing was reported. -/
def Silent (σ : Scoping) : Prop := σ.errors.size = 0

theorem Silent.of_le (h : τ.Silent) (hl : σ.Le τ) : σ.Silent :=
  Nat.le_zero.mp (Nat.le_trans hl (Nat.le_of_eq h))

theorem not_silent_note (misuse : Misuse) (m : Mark) : ¬ (σ.note misuse m).Silent := by
  simp [Silent, note]

/-! ### Declaring names -/

/-- The name can be declared: it is not yet, in the innermost scope. -/
def Fresh (σ : Scoping) (name : String) : Prop :=
  ∀ scope ∈ σ.scopes.head?, scope.contains name = false

theorem declare_of_contains {m : Mark} {scope : Bindings Bool} {outer : List (Bindings Bool)}
    (hs : σ.scopes = scope :: outer) (hc : scope.contains m.text = true) :
    (σ.declare m).errors = (σ.note .declaredTwice m).errors := by
  simp only [declare, hs, hc, if_true]

theorem declare_of_fresh {m : Mark} {scope : Bindings Bool} {outer : List (Bindings Bool)}
    (hs : σ.scopes = scope :: outer) (hc : scope.contains m.text = false) :
    σ.declare m = { σ with scopes := scope.bind m.text false :: outer } := by
  simp only [declare, hs, hc, Bool.false_eq_true, if_false]

theorem declare_of_nil {m : Mark} (hs : σ.scopes = []) : σ.declare m = σ := by
  rw [declare, hs]

theorem define_of_cons {m : Mark} {scope : Bindings Bool} {outer : List (Bindings Bool)}
    (hs : σ.scopes = scope :: outer) :
    σ.define m = { σ with scopes := scope.bind m.text true :: outer } := by
  rw [define, hs]

theorem define_of_nil {m : Mark} (hs : σ.scopes = []) : σ.define m = σ := by
  rw [define, hs]

theorem fresh_of_silent {m : Mark} (h : (σ.declare m).Silent) : σ.Fresh m.text := by
  intro scope hs
  cases hsc : σ.scopes with
  | nil => simp [hsc] at hs
  | cons first outer =>
    obtain rfl : first = scope := by simpa [hsc] using hs
    cases hc : first.contains m.text with
    | false => rfl
    | true =>
      rw [Silent, declare_of_contains hsc hc] at h
      exact absurd h (not_silent_note .declaredTwice m)

/-- A name that is declared and then ready is ready at once. -/
theorem define_declare {m : Mark} (h : σ.Fresh m.text) : (σ.declare m).define m = σ.define m := by
  cases hs : σ.scopes with
  | nil => rw [declare_of_nil hs]
  | cons scope outer =>
    rw [declare_of_fresh hs (h scope (by simp [hs])), define_of_cons rfl, define_of_cons hs,
      Bindings.bind_bind]

/-- The scopes outside the innermost one are left alone. -/
theorem leave_define {m : Mark} (hs : σ.scopes ≠ []) :
    (σ.define m).leave = σ.leave ∧ (σ.define m).scopes ≠ [] := by
  cases h : σ.scopes with
  | nil => exact absurd h hs
  | cons scope outer =>
    rw [define_of_cons h]
    simp [leave, h]

theorem leave_enter (σ : Scoping) (names : List String) : (σ.enter names).leave = σ := rfl

/-- A global variable that was not pending before its initializer is not pending behind it either. -/
theorem release_pending {name : String} (h : τ.pending = (σ.suspend name).pending)
    (hn : name ∉ σ.pending) : (τ.release name).pending = σ.pending := by
  have hinsert : τ.pending = name :: σ.pending := h.trans (List.insert_of_not_mem hn)
  rw [release, hinsert, List.filter_cons_of_neg (by simp), List.filter_eq_self]
  intro other hother
  exact decide_eq_true fun heq => hn (heq ▸ hother)

theorem release_suspend {name : String} (hn : name ∉ σ.pending) :
    (σ.suspend name).release name = σ := by
  show { σ with pending := ((σ.suspend name).release name).pending } = σ
  rw [release_pending rfl hn]

/-- Where no global variable was pending, only this one is not ready. -/
theorem unready_suspend {name other : String} (hs : σ.scopes = []) (hp : σ.pending = []) :
    (σ.suspend name).unready other = true ↔ name = other := by
  have hpending : (σ.suspend name).pending = [name] := by simp [suspend, hp]
  have hscopes : (σ.suspend name).scopes = [] := hs
  rw [unready, hscopes, hpending]
  simp [eq_comm]

/-! ### Behind statements -/

/-- Behind a statement: the name it declares is ready. -/
def behind (σ : Scoping) (s : Stmt) : Scoping :=
  match s.declared? with
  | some m => σ.define m
  | none => σ

/-- Behind the statements of a body. -/
def behindAll (σ : Scoping) (body : List Stmt) : Scoping := body.foldl behind σ

theorem define_pending (m : Mark) : (σ.define m).pending = σ.pending := by
  unfold define
  split <;> rfl

theorem define_cls (σ : Scoping) (m : Mark) : (σ.define m).cls = σ.cls := by
  unfold define
  split <;> rfl

theorem define_function (σ : Scoping) (m : Mark) : (σ.define m).function = σ.function := by
  unfold define
  split <;> rfl

theorem behind_pending (s : Stmt) : (σ.behind s).pending = σ.pending := by
  unfold behind
  split
  · exact define_pending _
  · rfl

theorem leave_behind {s : Stmt} (hs : σ.scopes ≠ []) :
    (σ.behind s).leave = σ.leave ∧ (σ.behind s).scopes ≠ [] := by
  unfold behind
  split
  · exact leave_define hs
  · exact ⟨rfl, hs⟩

theorem leave_behindAll : ∀ (body : List Stmt) {σ : Scoping}, σ.scopes ≠ [] →
    (σ.behindAll body).leave = σ.leave ∧ (σ.behindAll body).scopes ≠ []
  | [], _, hs => ⟨rfl, hs⟩
  | s :: body, σ, hs => by
    obtain ⟨hl, hn⟩ := leave_behind (s := s) hs
    obtain ⟨hl', hn'⟩ := leave_behindAll body hn
    exact ⟨hl'.trans hl, hn'⟩

/-- The parameters of a function are ready in its scope. -/
def defineAll (σ : Scoping) (params : List Mark) : Scoping := params.foldl (fun τ m => τ.define m) σ

theorem leave_defineAll : ∀ (params : List Mark) {σ : Scoping}, σ.scopes ≠ [] →
    (σ.defineAll params).leave = σ.leave ∧ (σ.defineAll params).scopes ≠ []
  | [], _, hs => ⟨rfl, hs⟩
  | m :: params, σ, hs => by
    obtain ⟨hl, hn⟩ := leave_define (m := m) hs
    obtain ⟨hl', hn'⟩ := leave_defineAll params hn
    exact ⟨hl'.trans hl, hn'⟩

theorem defineAll_pending : ∀ (params : List Mark) {σ : Scoping},
    (σ.defineAll params).pending = σ.pending
  | [], _ => rfl
  | _ :: params, _ => (defineAll_pending params).trans (define_pending _)

theorem declareParams_of_silent : ∀ (params : List Mark) {σ : Scoping},
    ((declareParams params).run σ).2.Silent → ((declareParams params).run σ).2 = σ.defineAll params
  | [], _, _ => rfl
  | m :: params, σ, h => by
    have hm : (σ.declare m).Silent :=
      h.of_le ((le_define _ m).trans (le_declareParams params ((σ.declare m).define m)))
    have hd := define_declare (fresh_of_silent hm)
    have h : ((declareParams params).run ((σ.declare m).define m)).2.Silent := h
    show ((declareParams params).run ((σ.declare m).define m)).2 = _
    rw [hd] at h ⊢
    exact declareParams_of_silent params h

theorem enteringFunction_of_silent {kind : FunctionKind} {params : List Mark}
    (h : (σ.enteringFunction kind params).Silent) : σ.enteringFunction kind params =
      Scoping.defineAll { σ.enter [] with function := kind } params :=
  declareParams_of_silent params h

/-! ### Behind silent places -/

theorem ready_of_silent {use : NameUse} (h : ((resolveVariable use).run σ).2.Silent) :
    σ.unready use.name.text = false := by
  rw [run_variable] at h
  cases hu : σ.unready use.name.text with
  | false => rfl
  | true =>
    rw [hu] at h
    exact absurd h (not_silent_note _ _)

theorem cls_of_silent_receiver {use : NameUse} (h : (σ.behindExpr (.receiver use)).Silent) :
    σ.cls ≠ .none := by
  intro hc
  rw [behindExpr, run_receiver, if_pos hc] at h
  exact not_silent_note _ _ h

theorem cls_of_silent_super {use : NameUse} {m : Mark}
    (h : (σ.behindExpr (.superMethod use m)).Silent) : σ.cls = .subclass := by
  rw [behindExpr, run_superMethod] at h
  dsimp only [usingSuper] at h
  split at h
  · exact absurd h (not_silent_note _ _)
  · exact absurd h (not_silent_note _ _)
  · assumption

mutual

/-- An expression leaves everything as it was. -/
theorem behindExpr_of_silent : ∀ {e : Expr} {σ : Scoping}, e.Regular → (σ.behindExpr e).Silent →
    σ.behindExpr e = σ
  | .literal _, _, _, _ => rfl
  | .grouping e, _, hr, h => behindExpr_of_silent (e := e) hr h
  | .unary _ e, _, hr, h => behindExpr_of_silent (e := e) hr h
  | .get e _, _, hr, h => behindExpr_of_silent (e := e) hr h
  | .assign _ e, _, hr, h => behindExpr_of_silent (e := e) hr.2 h
  | .binary l _ r, σ, hr, h | .logical l _ r, σ, hr, h => by
    have h : ((σ.behindExpr l).behindExpr r).Silent := h
    have hl := behindExpr_of_silent hr.1 (h.of_le (le_behindExpr r _))
    rw [hl] at h
    exact (congrArg (fun τ : Scoping => τ.behindExpr r) hl).trans (behindExpr_of_silent hr.2 h)
  | .ternary cond yes no, σ, hr, h => by
    have h : (((σ.behindExpr cond).behindExpr yes).behindExpr no).Silent := h
    have hy := h.of_le (le_behindExpr no _)
    have hc := behindExpr_of_silent hr.1 (hy.of_le (le_behindExpr yes _))
    rw [hc] at hy h
    have hy := behindExpr_of_silent hr.2.1 hy
    rw [hy] at h
    show ((σ.behindExpr cond).behindExpr yes).behindExpr no = σ
    rw [hc, hy, behindExpr_of_silent hr.2.2 h]
  | .call callee _ args, σ, hr, h => by
    have h : ((σ.behindExpr callee).behindArgs args).Silent := h
    have hc := behindExpr_of_silent hr.1 (h.of_le (le_behindArgs args _))
    rw [hc] at h
    exact (congrArg (fun τ : Scoping => τ.behindArgs args) hc).trans (behindArgs_of_silent hr.2 h)
  | .set object _ value, σ, hr, h => by
    have h : ((σ.behindExpr value).behindExpr object).Silent := h
    have hv := behindExpr_of_silent hr.2 (h.of_le (le_behindExpr object _))
    rw [hv] at h
    exact (congrArg (fun τ : Scoping => τ.behindExpr object) hv).trans (behindExpr_of_silent hr.1 h)
  | .variable use, σ, _, h => by
    have hr := ready_of_silent h
    show ((resolveVariable use).run σ).2 = σ
    rw [run_variable, hr]
    rfl
  | .receiver use, σ, _, h => by
    rw [behindExpr, run_receiver, if_neg (cls_of_silent_receiver h)]
  | .superMethod use m, σ, _, h => by
    rw [behindExpr, run_superMethod]
    dsimp only [usingSuper]
    rw [cls_of_silent_super h]
  | .stray _, _, hr, _ => hr.elim

theorem behindArgs_of_silent : ∀ {es : List Expr} {σ : Scoping}, argsRegular es →
    (σ.behindArgs es).Silent → σ.behindArgs es = σ
  | [], _, _, _ => rfl
  | e :: es, σ, hr, h => by
    have h : ((σ.behindExpr e).behindArgs es).Silent := h
    have he := behindExpr_of_silent hr.1 (h.of_le (le_behindArgs es _))
    rw [he] at h
    exact (congrArg (fun τ : Scoping => τ.behindArgs es) he).trans (behindArgs_of_silent hr.2 h)

end

theorem givingBack_of_silent {keyword : Mark} (h : (σ.givingBack keyword).Silent) :
    σ.givingBack keyword = σ := by
  unfold givingBack at h ⊢
  dsimp only at h ⊢
  by_cases hn : σ.function = .none
  · have hi : (σ.note .returnOutside keyword).function ≠ .initializer := by
      show σ.function ≠ _
      rw [hn]
      decide
    rw [if_pos hn, if_neg hi] at h
    exact absurd h (not_silent_note _ _)
  · rw [if_neg hn] at h ⊢
    split at h
    · exact absurd h (not_silent_note _ _)
    · rename_i hi
      rw [if_neg hi]

theorem declaringClass_of_silent {name : Mark} (h : (σ.declaringClass name).Silent) :
    σ.declaringClass name = { σ.define name with cls := .plain } := by
  have hf : Scoping.Fresh { σ with cls := .plain } name.text :=
    fresh_of_silent (h.of_le (le_define _ name))
  rw [declaringClass, define_declare hf]
  unfold define
  split
  · rename_i hs
    have hs : σ.scopes = [] := hs
    simp [hs]
  · rename_i hs
    have hs : σ.scopes = _ :: _ := hs
    simp [hs]

theorem inheriting_of_silent {name : Mark} {use : NameUse} (h : (σ.inheriting name use).Silent) :
    σ.inheriting name use = { σ.define name with cls := .subclass } ∧
      use.name.text ≠ name.text := by
  unfold inheriting at h ⊢
  dsimp only at h ⊢
  split at h
  · exact absurd h (not_silent_note _ _)
  · rename_i hn
    rw [if_neg hn]
    exact ⟨by rw [declaringClass_of_silent h], hn⟩

theorem initializing_of_nil (hs : σ.scopes = []) (name : Mark) :
    σ.initializing name = σ.suspend name.text := by
  simp [initializing, declare_of_nil hs, hs]

theorem resetting_of_nil (hs : σ.scopes = []) (name : Mark) (τ : Scoping) :
    σ.resetting name τ = τ.release name.text := by
  simp [resetting, declare_of_nil hs, hs]

theorem scopes_declare_ne_nil (hs : σ.scopes ≠ []) (name : Mark) : (σ.declare name).scopes ≠ [] := by
  obtain ⟨scope, outer, hscopes⟩ := List.exists_cons_of_ne_nil hs
  simp [declare, hscopes]

theorem initializing_of_ne_nil (hs : σ.scopes ≠ []) (name : Mark) :
    σ.initializing name = σ.declare name := by
  simp [initializing, scopes_declare_ne_nil hs]

theorem resetting_of_ne_nil (hs : σ.scopes ≠ []) (name : Mark) (τ : Scoping) :
    σ.resetting name τ = τ := by
  simp [resetting, scopes_declare_ne_nil hs]

/-- While a variable is initialized its name is not ready in the innermost scope. -/
theorem initializing_of_silent {name : Mark} (h : (σ.initializing name).Silent) :
    σ.initializing name = (match σ.scopes with
      | [] => σ.suspend name.text
      | scope :: outer => { σ with scopes := scope.bind name.text false :: outer }) ∧
      σ.Fresh name.text := by
  have hd : (σ.declare name).Silent := by
    unfold initializing at h
    split at h <;> exact h
  have hf := fresh_of_silent hd
  refine ⟨?_, hf⟩
  cases hs : σ.scopes with
  | nil => exact initializing_of_nil hs name
  | cons scope outer =>
    rw [initializing_of_ne_nil (by simp [hs]), declare_of_fresh hs (hf scope (by simp [hs]))]

theorem behind_of_declared {s : Stmt} (h : s.declared? = none) : σ.behind s = σ := by
  rw [behind, h]

theorem leave_enteringFunction {kind : FunctionKind} {params : List Mark}
    (h : (σ.enteringFunction kind params).Silent) :
    (σ.enteringFunction kind params).leave = { σ with function := kind } ∧
      (σ.enteringFunction kind params).scopes ≠ [] ∧
      (σ.enteringFunction kind params).pending = σ.pending := by
  rw [enteringFunction_of_silent h]
  obtain ⟨hl, hn⟩ := leave_defineAll params (σ := { σ.enter [] with function := kind })
    (by simp [enter])
  exact ⟨hl, hn, defineAll_pending params⟩

theorem resetting_initializing {name : Mark} (hp : σ.pending = []) :
    σ.resetting name (σ.initializing name) = σ.declare name := by
  by_cases hs : σ.scopes = []
  · rw [initializing_of_nil hs, resetting_of_nil hs, declare_of_nil hs]
    exact release_suspend (by simp [hp])
  · rw [resetting_of_ne_nil hs, initializing_of_ne_nil hs]

mutual

/-- A statement makes ready what it declares, and leaves everything else as it was. -/
theorem behindStmt_of_silent : ∀ {s : Stmt} {σ : Scoping}, s.Regular → σ.pending = [] →
    (σ.behindStmt s).Silent → σ.behindStmt s = σ.behind s
  | .expr _, _, hr, _, h | .print _, _, hr, _, h => behindExpr_of_silent hr h
  | .var name none, σ, _, _, h => define_declare (fresh_of_silent (h.of_le (le_define _ name)))
  | .var name (some e), σ, hr, hp, h => by
    rw [behindStmt_var] at h ⊢
    have hreset : (σ.resetting name ((σ.initializing name).behindExpr e)).Silent :=
      h.of_le (le_define _ name)
    have he : ((σ.initializing name).behindExpr e).Silent := by
      unfold resetting at hreset
      split at hreset <;> exact hreset
    have he' := behindExpr_of_silent hr.2 he
    rw [he'] at he ⊢
    rw [resetting_initializing hp]
    exact define_declare (initializing_of_silent he).2
  | .block body, σ, hr, hp, h => by
    have h : ((σ.enter []).behindBody body).Silent := h
    have hb := behindBody_of_silent (σ := σ.enter []) hr hp h
    show ((σ.enter []).behindBody body).leave = σ
    rw [hb, (leave_behindAll body (by simp [enter])).1, leave_enter]
  | .branch cond yes none, σ, hr, hp, h => by
    have h : ((σ.behindExpr cond).behindStmt yes).Silent := h
    have hc := behindExpr_of_silent hr.1 (h.of_le (le_behindStmt yes _))
    rw [hc] at h
    show (σ.behindExpr cond).behindStmt yes = σ
    rw [hc, behindStmt_of_silent hr.2.1 hp h, behind_of_declared hr.2.2]
  | .branch cond yes (some no), σ, hr, hp, h => by
    have h : (((σ.behindExpr cond).behindStmt yes).behindStmt no).Silent := h
    have hy := h.of_le (le_behindStmt no _)
    have hc := behindExpr_of_silent hr.1 (hy.of_le (le_behindStmt yes _))
    rw [hc] at hy h
    have hy := behindStmt_of_silent hr.2.1.1 hp hy
    rw [hy, behind_of_declared hr.2.1.2] at h
    show ((σ.behindExpr cond).behindStmt yes).behindStmt no = σ
    rw [hc, hy, behind_of_declared hr.2.1.2, behindStmt_of_silent hr.2.2.1 hp h,
      behind_of_declared hr.2.2.2]
  | .loop cond body, σ, hr, hp, h => by
    have h : ((σ.behindExpr cond).behindStmt body).Silent := h
    have hc := behindExpr_of_silent hr.1 (h.of_le (le_behindStmt body _))
    rw [hc] at h
    show (σ.behindExpr cond).behindStmt body = σ
    rw [hc, behindStmt_of_silent hr.2.1 hp h, behind_of_declared hr.2.2]
  | .function decl, σ, hr, hp, h => by
    have h : (((σ.declare decl.name).define decl.name).behindFunction .function decl).Silent := h
    have hd := h.of_le (le_behindFunction .function decl _)
    have hd := define_declare (fresh_of_silent (hd.of_le (le_define _ decl.name)))
    rw [hd] at h
    show ((σ.declare decl.name).define decl.name).behindFunction .function decl = σ.define decl.name
    rw [hd, behindFunction_of_silent hr ((define_pending _).trans hp) h]
  | .giveBack keyword none, σ, _, _, h => by
    rw [behindStmt_giveBack_none] at h ⊢
    split at h
    · exact absurd h (not_silent_note _ _)
    · rename_i hn
      rw [if_neg hn]
      rfl
  | .giveBack keyword (some e), σ, hr, _, h => by
    rw [behindStmt_giveBack] at h ⊢
    have hg := givingBack_of_silent (h.of_le (le_behindExpr e _))
    rw [hg] at h ⊢
    exact behindExpr_of_silent hr h
  | .classDecl name none ms, σ, hr, hp, h => by
    have h : (((σ.declaringClass name).enter ["this"]).behindMethods ms).Silent := h
    have hd : (σ.declaringClass name).Silent :=
      h.of_le (le_behindMethods ms ((σ.declaringClass name).enter ["this"]))
    have hd := declaringClass_of_silent hd
    have hp' : ((σ.declaringClass name).enter ["this"]).pending = [] := by
      rw [hd]
      exact (define_pending name).trans hp
    have hms := behindMethods_of_silent hr.2 hp' h
    show { (((σ.declaringClass name).enter ["this"]).behindMethods ms).leave with cls := σ.cls } =
      σ.define name
    rw [hms, leave_enter, hd, ← define_cls σ name]
  | .classDecl name (some use) ms, σ, hr, hp, h => by
    rw [behindStmt_subclass] at h ⊢
    dsimp only at h ⊢
    have h : (((((σ.inheriting name use).behindExpr (.variable use)).enter ["super"]).enter
      ["this"]).behindMethods ms).Silent := h
    have hu : ((σ.inheriting name use).behindExpr (.variable use)).Silent :=
      h.of_le (le_behindMethods ms
        ((((σ.inheriting name use).behindExpr (.variable use)).enter ["super"]).enter ["this"]))
    have hi := (inheriting_of_silent (hu.of_le (le_behindExpr (.variable use) _))).1
    have hu := (behindExpr_of_silent (e := .variable use) hr.2.1 hu).trans hi
    have hp' : ((((σ.inheriting name use).behindExpr (.variable use)).enter ["super"]).enter
        ["this"]).pending = [] := by
      rw [hu]
      exact (define_pending name).trans hp
    have hms := behindMethods_of_silent hr.2.2 hp' h
    rw [hms, leave_enter, leave_enter, hu, ← define_cls σ name]
    rfl
  | .stray _, _, hr, _, _ => hr.elim

theorem behindBody_of_silent : ∀ {body : List Stmt} {σ : Scoping}, bodyRegular body →
    σ.pending = [] → (σ.behindBody body).Silent → σ.behindBody body = σ.behindAll body
  | [], _, _, _, _ => rfl
  | s :: body, σ, hr, hp, h => by
    have h : ((σ.behindStmt s).behindBody body).Silent := h
    have hs := behindStmt_of_silent hr.1 hp (h.of_le (le_behindBody body _))
    rw [hs] at h
    show (σ.behindStmt s).behindBody body = (σ.behind s).behindAll body
    rw [hs, behindBody_of_silent hr.2 ((behind_pending s).trans hp) h]

theorem behindFunction_of_silent : ∀ {kind : FunctionKind} {decl : Fun} {σ : Scoping},
    functionRegular decl → σ.pending = [] → (σ.behindFunction kind decl).Silent →
      σ.behindFunction kind decl = σ
  | kind, ⟨name, params, body⟩, σ, hr, hp, h => by
    have h : ((σ.enteringFunction kind params).behindBody body).Silent := h
    obtain ⟨hl, hn, hpend⟩ := leave_enteringFunction (h.of_le (le_behindBody body _))
    have hb := behindBody_of_silent hr.2.2 (hpend.trans hp) h
    show { ((σ.enteringFunction kind params).behindBody body).leave with function := σ.function } = σ
    rw [hb, (leave_behindAll body hn).1, hl]

theorem behindMethods_of_silent : ∀ {ms : List Fun} {σ : Scoping}, methodsRegular ms →
    σ.pending = [] → (σ.behindMethods ms).Silent → σ.behindMethods ms = σ
  | [], _, _, _, _ => rfl
  | m :: ms, σ, hr, hp, h => by
    have h : ((σ.behindFunction (methodKind m.name) m).behindMethods ms).Silent := h
    have hm := behindFunction_of_silent hr.1 hp (h.of_le (le_behindMethods ms _))
    rw [hm] at h
    show (σ.behindFunction (methodKind m.name) m).behindMethods ms = σ
    rw [hm, behindMethods_of_silent hr.2 hp h]

end

end Scoping

/-! ### Parts of clean places -/

/-- The part is as the grammar makes them. -/
def Construct.Regular : Construct → Prop
  | .expr e => e.Regular
  | .args es => argsRegular es
  | .stmt s => s.Regular
  | .body stmts => bodyRegular stmts
  | .function _ decl => functionRegular decl
  | .methods decls => methodsRegular decls

/-- A part as the grammar makes them, behind which nothing is reported. -/
structure Visit.Clean (v : Visit) : Prop where
  regular : v.construct.Regular
  silent : v.after.Silent

namespace Visit

open Scoping

theorem of_mem_two {w a b : Visit} (h : w ∈ [a, b]) : w = a ∨ w = b := by
  simpa using h

theorem le_part : ∀ {v w : Visit}, w ∈ v.parts → w.after.Le v.after
  | ⟨.expr (.literal _), _, _⟩, _, h | ⟨.expr (.variable _), _, _⟩, _, h
  | ⟨.expr (.receiver _), _, _⟩, _, h | ⟨.expr (.superMethod _ _), _, _⟩, _, h
  | ⟨.expr (.stray _), _, _⟩, _, h | ⟨.args [], _, _⟩, _, h | ⟨.stmt (.var _ none), _, _⟩, _, h
  | ⟨.stmt (.giveBack _ none), _, _⟩, _, h | ⟨.stmt (.stray _), _, _⟩, _, h
  | ⟨.body [], _, _⟩, _, h | ⟨.methods [], _, _⟩, _, h => nomatch h
  | ⟨.expr (.grouping _), _, _⟩, _, h | ⟨.expr (.unary _ _), _, _⟩, _, h
  | ⟨.expr (.get _ _), _, _⟩, _, h | ⟨.expr (.assign _ _), _, _⟩, _, h
  | ⟨.stmt (.expr _), _, _⟩, _, h | ⟨.stmt (.print _), _, _⟩, _, h
  | ⟨.stmt (.function _), _, _⟩, _, h => by
    obtain rfl := List.mem_singleton.mp h
    exact .refl _
  | ⟨.expr (.binary _ _ r), _, _⟩, _, h | ⟨.expr (.logical _ _ r), _, _⟩, _, h => by
    obtain rfl | rfl := of_mem_two h
    · exact le_behindExpr r _
    · exact .refl _
  | ⟨.expr (.ternary _ yes no), _, _⟩, _, h => by
    obtain rfl | h := List.mem_cons.mp h
    · exact (le_behindExpr yes _).trans (le_behindExpr no _)
    · obtain rfl | rfl := of_mem_two h
      · exact le_behindExpr no _
      · exact .refl _
  | ⟨.expr (.call _ _ args), _, _⟩, _, h => by
    obtain rfl | rfl := of_mem_two h
    · exact le_behindArgs args _
    · exact .refl _
  | ⟨.expr (.set object _ _), _, _⟩, _, h => by
    obtain rfl | rfl := of_mem_two h
    · exact le_behindExpr object _
    · exact .refl _
  | ⟨.args (_ :: es), _, _⟩, _, h => by
    obtain rfl | rfl := of_mem_two h
    · exact le_behindArgs es _
    · exact .refl _
  | ⟨.stmt (.var name (some e)), σ, _⟩, _, h => by
    obtain rfl := List.mem_singleton.mp h
    show (Scoping.behindExpr _ e).Le (σ.behindStmt (.var name (some e)))
    rw [behindStmt_var]
    refine Le.trans ?_ (le_define _ name)
    unfold resetting
    split <;> exact .refl _
  | ⟨.stmt (.block body), _, _⟩, _, h => by
    obtain rfl := List.mem_singleton.mp h
    exact .refl (Scoping.behindBody _ body)
  | ⟨.stmt (.branch _ yes none), _, _⟩, _, h => by
    obtain rfl | rfl := of_mem_two h
    · exact le_behindStmt yes _
    · exact .refl _
  | ⟨.stmt (.branch _ yes (some no)), _, _⟩, _, h => by
    obtain rfl | h := List.mem_cons.mp h
    · exact (le_behindStmt yes _).trans (le_behindStmt no _)
    · obtain rfl | rfl := of_mem_two h
      · exact le_behindStmt no _
      · exact .refl _
  | ⟨.stmt (.loop _ body), _, _⟩, _, h => by
    obtain rfl | rfl := of_mem_two h
    · exact le_behindStmt body _
    · exact .refl _
  | ⟨.stmt (.giveBack keyword (some e)), σ, _⟩, _, h => by
    obtain rfl := List.mem_singleton.mp h
    show (Scoping.behindExpr _ e).Le (σ.behindStmt (.giveBack keyword (some e)))
    rw [behindStmt_giveBack]
    exact .refl _
  | ⟨.stmt (.classDecl _ none methods), _, _⟩, _, h => by
    obtain rfl := List.mem_singleton.mp h
    exact .refl (Scoping.behindMethods _ methods)
  | ⟨.stmt (.classDecl name (some use) methods), σ, _⟩, _, h => by
    have hm : (Scoping.behindMethods
        ((((σ.inheriting name use).behindExpr (.variable use)).enter ["super"]).enter ["this"])
        methods).Le (σ.behindStmt (.classDecl name (some use) methods)) := by
      rw [behindStmt_subclass]
      exact .refl (Scoping.behindMethods _ methods)
    obtain rfl | rfl := of_mem_two h
    · exact (le_behindMethods methods
        (((Scoping.behindExpr _ (.variable use)).enter ["super"]).enter ["this"])).trans hm
    · exact hm
  | ⟨.body (_ :: body), _, _⟩, _, h => by
    obtain rfl | rfl := of_mem_two h
    · exact le_behindBody body _
    · exact .refl _
  | ⟨.function _ ⟨_, _, body⟩, _, _⟩, _, h => by
    obtain rfl := List.mem_singleton.mp h
    exact .refl (Scoping.behindBody _ body)
  | ⟨.methods (_ :: ms), _, _⟩, _, h => by
    obtain rfl | rfl := of_mem_two h
    · exact le_behindMethods ms _
    · exact .refl _

theorem regular_part : ∀ {v w : Visit}, w ∈ v.parts → v.construct.Regular → w.construct.Regular
  | ⟨.expr (.literal _), _, _⟩, _, h, _ | ⟨.expr (.variable _), _, _⟩, _, h, _
  | ⟨.expr (.receiver _), _, _⟩, _, h, _ | ⟨.expr (.superMethod _ _), _, _⟩, _, h, _
  | ⟨.expr (.stray _), _, _⟩, _, h, _ | ⟨.args [], _, _⟩, _, h, _
  | ⟨.stmt (.var _ none), _, _⟩, _, h, _ | ⟨.stmt (.giveBack _ none), _, _⟩, _, h, _
  | ⟨.stmt (.stray _), _, _⟩, _, h, _ | ⟨.body [], _, _⟩, _, h, _
  | ⟨.methods [], _, _⟩, _, h, _ => nomatch h
  | ⟨.expr (.grouping _), _, _⟩, _, h, hr | ⟨.expr (.unary _ _), _, _⟩, _, h, hr
  | ⟨.expr (.get _ _), _, _⟩, _, h, hr | ⟨.stmt (.expr _), _, _⟩, _, h, hr
  | ⟨.stmt (.print _), _, _⟩, _, h, hr | ⟨.stmt (.function _), _, _⟩, _, h, hr
  | ⟨.stmt (.block _), _, _⟩, _, h, hr | ⟨.stmt (.giveBack _ (some _)), _, _⟩, _, h, hr => by
    obtain rfl := List.mem_singleton.mp h
    exact hr
  | ⟨.expr (.assign _ _), _, _⟩, _, h, hr | ⟨.stmt (.var _ (some _)), _, _⟩, _, h, hr
  | ⟨.stmt (.classDecl _ none _), _, _⟩, _, h, hr => by
    obtain rfl := List.mem_singleton.mp h
    exact hr.2
  | ⟨.function _ ⟨_, _, _⟩, _, _⟩, _, h, hr => by
    obtain rfl := List.mem_singleton.mp h
    exact hr.2.2
  | ⟨.expr (.binary _ _ _), _, _⟩, _, h, hr | ⟨.expr (.logical _ _ _), _, _⟩, _, h, hr
  | ⟨.expr (.call _ _ _), _, _⟩, _, h, hr | ⟨.args (_ :: _), _, _⟩, _, h, hr
  | ⟨.body (_ :: _), _, _⟩, _, h, hr | ⟨.methods (_ :: _), _, _⟩, _, h, hr => by
    obtain rfl | rfl := of_mem_two h
    · exact hr.1
    · exact hr.2
  | ⟨.expr (.set _ _ _), _, _⟩, _, h, hr => by
    obtain rfl | rfl := of_mem_two h
    · exact hr.2
    · exact hr.1
  | ⟨.expr (.ternary _ _ _), _, _⟩, _, h, hr => by
    obtain rfl | h := List.mem_cons.mp h
    · exact hr.1
    · obtain rfl | rfl := of_mem_two h
      · exact hr.2.1
      · exact hr.2.2
  | ⟨.stmt (.branch _ _ none), _, _⟩, _, h, hr | ⟨.stmt (.loop _ _), _, _⟩, _, h, hr => by
    obtain rfl | rfl := of_mem_two h
    · exact hr.1
    · exact hr.2.1
  | ⟨.stmt (.branch _ _ (some _)), _, _⟩, _, h, hr => by
    obtain rfl | h := List.mem_cons.mp h
    · exact hr.1
    · obtain rfl | rfl := of_mem_two h
      · exact hr.2.1.1
      · exact hr.2.2.1
  | ⟨.stmt (.classDecl _ (some _) _), _, _⟩, _, h, hr => by
    obtain rfl | rfl := of_mem_two h
    · exact hr.2.1
    · exact hr.2.2

theorem Clean.part {v w : Visit} (hc : v.Clean) (h : w ∈ v.parts) : w.Clean :=
  ⟨regular_part h hc.regular, hc.silent.of_le (le_part h)⟩

end Visit

end Lox
