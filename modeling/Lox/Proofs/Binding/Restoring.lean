/-
# What the pass of names leaves as it was

Whatever is reported on the way, and wherever the pass starts: behind an
expression it is in the same place as before (`Lox.Scoping.SamePlace`), and behind
a statement the scopes are those before it, but that the innermost one has
gained the names which the statement declares in it, all of them ready
(`Lox.Scoping.Gained`). The kinds of the enclosing function and class are
again what they were.

So are the pending globals, but for one thing: at the top level a variable with
an initializer is pending while that is read, and not behind it, even if it was
pending before (`Lox.Scoping.pendingBehind`). In a program this makes no
difference, since no statement of one begins with a global pending at the top
level (`Lox.Scoping.Calm`).

Key definitions: `Lox.Scoping.SamePlace`, `Lox.Stmt.initialized`,
`Lox.Scoping.pendingBehind`, `Lox.Scoping.Gained`, `Lox.Scoping.Calm`,
`Lox.Scoping.Restored`.
Key theorems: `Lox.Scoping.samePlace_behindExpr`, `Lox.Scoping.gained_behindStmt`,
`Lox.Scoping.Gained.restored`, `Lox.Visit.Calm.part`.
-/
import Lox.Proofs.Binding.Misuses

namespace Lox

/-- The variables that a statement gives their first values in the scope that it stands in. -/
def Stmt.initialized : Stmt → List Mark
  | .var name (some _) => [name]
  | .branch _ yes none => yes.initialized
  | .branch _ yes (some no) => yes.initialized ++ no.initialized
  | .loop _ body => body.initialized
  | .var _ none | .expr _ | .print _ | .block _ | .function _ | .giveBack _ _ | .classDecl _ _ _
  | .stray _ => []

namespace Scoping

variable {σ τ υ : Scoping} {m : Mark} {ms ns xs ys : List Mark}

/-- The same place: there may be more reports, but nothing else is different that the pass goes by. -/
structure SamePlace (σ τ : Scoping) : Prop where
  scopes : τ.scopes = σ.scopes
  pending : τ.pending = σ.pending
  function : τ.function = σ.function
  cls : τ.cls = σ.cls

/-- No global variable is pending at the top level. -/
def Calm (σ : Scoping) : Prop := σ.scopes = [] → σ.pending = []

/-- The globals that are still pending when these variables have got their first values: at the top
level the others, anywhere else all. -/
def pendingBehind (σ : Scoping) (xs : List Mark) : List String :=
  if σ.scopes = [] then σ.pending.filter (· ∉ xs.map (·.text)) else σ.pending

/-- The innermost scope has gained these names, all ready, and these variables have got their first
values; nothing else is different that the pass goes by. -/
structure Gained (σ : Scoping) (ms xs : List Mark) (τ : Scoping) : Prop where
  scopes : τ.scopes = (σ.defineAll ms).scopes
  pending : τ.pending = σ.pendingBehind xs
  function : τ.function = σ.function
  cls : τ.cls = σ.cls

/-! ### Expressions -/

namespace SamePlace

theorem refl (σ : Scoping) : σ.SamePlace σ := ⟨rfl, rfl, rfl, rfl⟩

theorem trans (h : σ.SamePlace τ) (g : τ.SamePlace υ) : σ.SamePlace υ :=
  ⟨g.scopes.trans h.scopes, g.pending.trans h.pending, g.function.trans h.function,
    g.cls.trans h.cls⟩

theorem note (misuse : Misuse) (m : Mark) : σ.SamePlace (σ.note misuse m) := ⟨rfl, rfl, rfl, rfl⟩

theorem ite {c : Prop} [Decidable c] (h : σ.SamePlace τ) (g : σ.SamePlace υ) :
    σ.SamePlace (if c then τ else υ) := by
  split
  · exact h
  · exact g

end SamePlace

mutual

/-- Behind an expression the pass is where it was. -/
theorem samePlace_behindExpr : ∀ (e : Expr) (σ : Scoping), σ.SamePlace (σ.behindExpr e)
  | .literal _, σ => .refl σ
  | .stray _, _ => ⟨rfl, rfl, rfl, rfl⟩
  | .grouping e, σ | .unary _ e, σ | .get e _, σ | .assign _ e, σ => samePlace_behindExpr e σ
  | .binary l _ r, σ | .logical l _ r, σ =>
    (samePlace_behindExpr l σ).trans (samePlace_behindExpr r _)
  | .ternary cond yes no, σ =>
    ((samePlace_behindExpr cond σ).trans (samePlace_behindExpr yes _)).trans
      (samePlace_behindExpr no _)
  | .call callee _ args, σ => (samePlace_behindExpr callee σ).trans (samePlace_behindArgs args _)
  | .set object _ value, σ => (samePlace_behindExpr value σ).trans (samePlace_behindExpr object _)
  | .variable use, σ => by
    show σ.SamePlace ((resolveVariable use).run σ).2
    rw [run_variable]
    exact .ite (.note _ _) (.refl σ)
  | .receiver use, σ => by
    rw [behindExpr, run_receiver]
    split
    · exact .note _ _
    · exact .refl σ
  | .superMethod use method, σ => by
    rw [behindExpr, run_superMethod]
    dsimp only [usingSuper]
    split
    · exact .note _ _
    · exact .note _ _
    · exact .refl σ

theorem samePlace_behindArgs : ∀ (es : List Expr) (σ : Scoping), σ.SamePlace (σ.behindArgs es)
  | [], σ => .refl σ
  | e :: es, σ => (samePlace_behindExpr e σ).trans (samePlace_behindArgs es _)

end

/-! ### Declarations -/

theorem scopes_define_congr (h : τ.scopes = σ.scopes) (m : Mark) :
    (τ.define m).scopes = (σ.define m).scopes := by
  unfold define
  rw [h]
  cases hs : σ.scopes with
  | nil => simp [h, hs]
  | cons scope outer => rfl

theorem SamePlace.define (h : σ.SamePlace τ) (m : Mark) : (σ.define m).SamePlace (τ.define m) where
  scopes := scopes_define_congr h.scopes m
  pending := by rw [define_pending, define_pending, h.pending]
  function := by rw [define_function, define_function, h.function]
  cls := by rw [define_cls, define_cls, h.cls]

theorem scopes_defineAll_congr : ∀ (ms : List Mark) {σ τ : Scoping}, τ.scopes = σ.scopes →
    (τ.defineAll ms).scopes = (σ.defineAll ms).scopes
  | [], _, _, h => h
  | m :: ms, _, _, h => scopes_defineAll_congr ms (scopes_define_congr h m)

theorem defineAll_of_nil : ∀ (ms : List Mark) {σ : Scoping}, σ.scopes = [] → σ.defineAll ms = σ
  | [], _, _ => rfl
  | m :: ms, σ, h => by
    show (σ.define m).defineAll ms = σ
    rw [define_of_nil h]
    exact defineAll_of_nil ms h

theorem scopes_defineAll_eq_nil (h : (σ.defineAll ms).scopes = []) : σ.scopes = [] := by
  refine Classical.byContradiction fun hne => ?_
  exact (leave_defineAll ms hne).2 h

/-- To declare a name and make it ready is to make it ready, but for what is noted. -/
theorem samePlace_define_declare (σ : Scoping) (m : Mark) :
    (σ.define m).SamePlace ((σ.declare m).define m) := by
  cases hs : σ.scopes with
  | nil =>
    rw [declare_of_nil hs]
    exact .refl _
  | cons scope outer =>
    cases hc : scope.contains m.text with
    | false =>
      rw [declare_of_fresh hs hc, define_of_cons hs, define_of_cons rfl, Bindings.bind_bind]
      exact .refl _
    | true =>
      have hdeclare : σ.declare m =
          { σ.note .declaredTwice m with scopes := scope.bind m.text false :: outer } := by
        simp only [declare, hs, hc, if_true]
      rw [hdeclare, define_of_cons hs, define_of_cons rfl, Bindings.bind_bind]
      exact ⟨rfl, rfl, rfl, rfl⟩

theorem pendingBehind_of_ne_nil (hs : σ.scopes ≠ []) (xs : List Mark) :
    σ.pendingBehind xs = σ.pending :=
  if_neg hs

theorem pendingBehind_of_nil (hs : σ.scopes = []) (xs : List Mark) :
    σ.pendingBehind xs = σ.pending.filter (· ∉ xs.map (·.text)) :=
  if_pos hs

theorem pendingBehind_nil (σ : Scoping) : σ.pendingBehind [] = σ.pending := by
  unfold pendingBehind
  split
  · simp
  · rfl

/-- Behind its initializer a variable is not pending, even if it was before; the others are as they were. -/
theorem release_suspend_pending (σ : Scoping) (name : String) :
    ((σ.suspend name).release name).pending = σ.pending.filter (· ≠ name) := by
  show (σ.pending.insert name).filter (· ≠ name) = _
  by_cases h : name ∈ σ.pending
  · rw [List.insert_of_mem h]
  · rw [List.insert_of_not_mem h, List.filter_cons_of_neg (by simp)]

namespace Gained

theorem of_samePlace (h : σ.SamePlace τ) : σ.Gained [] [] τ :=
  ⟨h.scopes, h.pending.trans (pendingBehind_nil σ).symm, h.function, h.cls⟩

theorem refl (σ : Scoping) : σ.Gained [] [] σ := of_samePlace (.refl σ)

theorem scopes_eq_nil_iff (h : σ.Gained ms xs τ) : τ.scopes = [] ↔ σ.scopes = [] := by
  rw [h.scopes]
  exact ⟨scopes_defineAll_eq_nil, fun hs => by rw [defineAll_of_nil ms hs, hs]⟩

theorem calm (h : σ.Gained ms xs τ) (hσ : σ.Calm) : τ.Calm := by
  intro hτ
  have hs := h.scopes_eq_nil_iff.mp hτ
  rw [h.pending, pendingBehind_of_nil hs, hσ hs, List.filter_nil]

theorem trans (h : σ.Gained ms xs τ) (g : τ.Gained ns ys υ) : σ.Gained (ms ++ ns) (xs ++ ys) υ where
  scopes := by
    rw [defineAll_append, g.scopes]
    exact scopes_defineAll_congr ns h.scopes
  pending := by
    rw [g.pending]
    by_cases hs : σ.scopes = []
    · rw [pendingBehind_of_nil (h.scopes_eq_nil_iff.mpr hs), h.pending, pendingBehind_of_nil hs,
        pendingBehind_of_nil hs, List.filter_filter]
      refine List.filter_congr fun name _ => ?_
      rw [← Bool.decide_and, decide_eq_decide, List.map_append, List.mem_append, not_or, and_comm]
    · rw [pendingBehind_of_ne_nil (mt h.scopes_eq_nil_iff.mp hs), h.pending,
        pendingBehind_of_ne_nil hs, pendingBehind_of_ne_nil hs]
  function := g.function.trans h.function
  cls := g.cls.trans h.cls

/-- A name is declared, and ready. -/
theorem define_declare (σ : Scoping) (m : Mark) : σ.Gained [m] [] ((σ.declare m).define m) :=
  have h := samePlace_define_declare σ m
  ⟨h.scopes, (h.pending.trans (define_pending m)).trans (pendingBehind_nil σ).symm,
    h.function.trans (define_function σ m), h.cls.trans (define_cls σ m)⟩

/-- Behind it nothing more is gained. -/
theorem samePlace (h : σ.Gained ms xs τ) (g : τ.SamePlace υ) : σ.Gained ms xs υ := by
  have both := h.trans (of_samePlace g)
  rwa [List.append_nil, List.append_nil] at both

/-- Away from the top level it makes no difference which variables have got their first values. -/
theorem of_ne_nil (h : σ.Gained ms xs τ) (hs : σ.scopes ≠ []) (ys : List Mark) :
    σ.Gained ms ys τ :=
  { h with pending := by rw [h.pending, pendingBehind_of_ne_nil hs, pendingBehind_of_ne_nil hs] }

/-- What was gained in an inner scope is left behind with it. -/
theorem tail {scope : Bindings Bool} {outer : List (Bindings Bool)} (h : σ.Gained ms xs τ)
    (hs : σ.scopes = scope :: outer) : τ.scopes.tail = outer ∧ τ.pending = σ.pending := by
  have hne : σ.scopes ≠ [] := by simp [hs]
  refine ⟨?_, h.pending.trans (pendingBehind_of_ne_nil hne xs)⟩
  rw [h.scopes]
  refine (congrArg Scoping.scopes (leave_defineAll ms hne).1).trans ?_
  rw [leave, hs]
  rfl

/-- Where the same globals are pending, no variable of this scope has got its first value. -/
theorem of_inside (hscopes : τ.scopes = (σ.defineAll ms).scopes) (hpending : τ.pending = σ.pending)
    (hfunction : τ.function = σ.function) (hcls : τ.cls = σ.cls) : σ.Gained ms [] τ :=
  ⟨hscopes, hpending.trans (pendingBehind_nil σ).symm, hfunction, hcls⟩

end Gained

theorem gained_declareParams : ∀ (params : List Mark) (σ : Scoping),
    σ.Gained params [] ((declareParams params).run σ).2
  | [], σ => .refl σ
  | param :: params, σ => (Gained.define_declare σ param).trans (gained_declareParams params _)

/-! ### Statements -/

/-- A variable with an initializer. At the top level it is pending while that is read, and then it is
not, even if it was before. -/
theorem gained_var (σ : Scoping) (name : Mark) (e : Expr) :
    σ.Gained [name] [name] (σ.behindStmt (.var name (some e))) := by
  rw [behindStmt_var]
  by_cases hs : σ.scopes = []
  · rw [initializing_of_nil hs, resetting_of_nil hs]
    have he := samePlace_behindExpr e (σ.suspend name.text)
    generalize Scoping.behindExpr _ e = τ at he ⊢
    have hnil : (τ.release name.text).scopes = [] := he.scopes.trans hs
    have hpending : (τ.release name.text).pending =
        ((σ.suspend name.text).release name.text).pending := by
      rw [release, he.pending]
      rfl
    rw [define_of_nil hnil]
    refine ⟨?_, ?_, he.function, he.cls⟩
    · rw [defineAll_of_nil [name] hs]
      exact he.scopes
    · rw [hpending, release_suspend_pending, pendingBehind_of_nil hs]
      simp
  · rw [initializing_of_ne_nil hs, resetting_of_ne_nil hs]
    have he := samePlace_behindExpr e (σ.declare name)
    exact ((Gained.define_declare σ name).samePlace (he.define name)).of_ne_nil hs [name]

/-- A class is declared, whatever it is in. -/
theorem declaringClass_spec (σ : Scoping) (name : Mark) :
    (σ.declaringClass name).scopes = (σ.define name).scopes ∧
      (σ.declaringClass name).function = σ.function ∧
      (σ.declaringClass name).pending = σ.pending := by
  have h := samePlace_define_declare { σ with cls := .plain } name
  have hscopes : (Scoping.define name { σ with cls := .plain }).scopes = (σ.define name).scopes := by
    rw [define_cls_comm]
  exact ⟨h.scopes.trans hscopes, h.function.trans (define_function _ name),
    h.pending.trans (define_pending name)⟩

theorem inheriting_spec (σ : Scoping) (name : Mark) (use : NameUse) :
    (σ.inheriting name use).scopes = (σ.define name).scopes ∧
      (σ.inheriting name use).function = σ.function ∧
      (σ.inheriting name use).pending = σ.pending := by
  have hinside : (σ.declaringClass name).SamePlace (if use.name.text = name.text then
      (σ.declaringClass name).note .inheritsItself use.name else σ.declaringClass name) :=
    .ite (.note _ _) (.refl _)
  obtain ⟨hscopes, hfunction, hpending⟩ := declaringClass_spec σ name
  exact ⟨hinside.scopes.trans hscopes, hinside.function.trans hfunction,
    hinside.pending.trans hpending⟩

theorem samePlace_givingBack (σ : Scoping) (keyword : Mark) : σ.SamePlace (σ.givingBack keyword) := by
  unfold givingBack
  have hnoted : σ.SamePlace (if σ.function = .none then σ.note .returnOutside keyword else σ) :=
    .ite (.note _ _) (.refl σ)
  exact hnoted.trans (.ite (.note _ _) (.refl _))

mutual

/-- Behind a statement the pass has gained what the statement declares. -/
theorem gained_behindStmt : ∀ (s : Stmt) (σ : Scoping),
    σ.Gained s.declarations s.initialized (σ.behindStmt s)
  | .expr e, σ | .print e, σ => .of_samePlace (samePlace_behindExpr e σ)
  | .stray _, _ => .of_samePlace ⟨rfl, rfl, rfl, rfl⟩
  | .var name none, σ => .define_declare σ name
  | .var name (some e), σ => gained_var σ name e
  | .block body, σ => by
    have hbody := gained_behindBody body (σ.enter [])
    obtain ⟨hscopes, hpending⟩ := hbody.tail rfl
    exact .of_inside hscopes hpending hbody.function hbody.cls
  | .branch cond yes none, σ | .loop cond yes, σ =>
    (Gained.of_samePlace (samePlace_behindExpr cond σ)).trans (gained_behindStmt yes _)
  | .branch cond yes (some no), σ =>
    ((Gained.of_samePlace (samePlace_behindExpr cond σ)).trans (gained_behindStmt yes _)).trans
      (gained_behindStmt no _)
  | .function decl, σ =>
    (Gained.define_declare σ decl.name).trans (gained_behindFunction .function decl _)
  | .giveBack keyword none, σ => by
    rw [behindStmt_giveBack_none]
    exact .of_samePlace (.ite (.note _ _) (.refl σ))
  | .giveBack keyword (some e), σ => by
    rw [behindStmt_giveBack]
    exact .of_samePlace ((samePlace_givingBack σ keyword).trans (samePlace_behindExpr e _))
  | .classDecl name none ms, σ => by
    obtain ⟨hscopes, hfunction, hpending⟩ := declaringClass_spec σ name
    have hmethods := gained_behindMethods ms ((σ.declaringClass name).enter ["this"])
    obtain ⟨htail, hsame⟩ := hmethods.tail rfl
    exact .of_inside (htail.trans hscopes) (hsame.trans hpending)
      (hmethods.function.trans hfunction) rfl
  | .classDecl name (some use) ms, σ => by
    rw [behindStmt_subclass]
    obtain ⟨hscopes, hfunction, hpending⟩ := inheriting_spec σ name use
    have huse := samePlace_behindExpr (.variable use) (σ.inheriting name use)
    have hmethods := gained_behindMethods ms
      ((((σ.inheriting name use).behindExpr (.variable use)).enter ["super"]).enter ["this"])
    obtain ⟨htail, hsame⟩ := hmethods.tail rfl
    refine .of_inside ?_ (hsame.trans (huse.pending.trans hpending))
      (hmethods.function.trans (huse.function.trans hfunction)) rfl
    exact (congrArg List.tail htail).trans (huse.scopes.trans hscopes)

theorem gained_behindBody : ∀ (body : List Stmt) (σ : Scoping),
    σ.Gained (body.flatMap Stmt.declarations) (body.flatMap Stmt.initialized) (σ.behindBody body)
  | [], σ => .refl σ
  | s :: body, σ => by
    rw [List.flatMap_cons, List.flatMap_cons]
    exact (gained_behindStmt s σ).trans (gained_behindBody body _)

theorem gained_behindFunction : ∀ (kind : FunctionKind) (decl : Fun) (σ : Scoping),
    σ.Gained [] [] (σ.behindFunction kind decl)
  | kind, ⟨_, params, body⟩, σ => by
    have hparams := gained_declareParams params { σ.enter [] with function := kind }
    have hbody := hparams.trans (gained_behindBody body (σ.enteringFunction kind params))
    obtain ⟨hscopes, hpending⟩ := hbody.tail rfl
    exact .of_inside hscopes hpending rfl hbody.cls

theorem gained_behindMethods : ∀ (ms : List Fun) (σ : Scoping), σ.Gained [] [] (σ.behindMethods ms)
  | [], σ => .refl σ
  | m :: ms, σ => (gained_behindFunction (methodKind m.name) m σ).trans (gained_behindMethods ms _)

end

/-! ### What is restored -/

theorem scopes_defineAll_of_cons : ∀ (ms : List Mark) {σ : Scoping} {scope : Bindings Bool}
    {outer : List (Bindings Bool)}, σ.scopes = scope :: outer →
      ∃ scope', (σ.defineAll ms).scopes = scope' :: outer ∧
        ∀ name, scope'.get? name = if name ∈ ms.map (·.text) then some true else scope.get? name
  | [], _, scope, _, hs => ⟨scope, hs, fun _ => rfl⟩
  | m :: ms, σ, scope, outer, hs => by
    have hdefine : (σ.define m).scopes = scope.bind m.text true :: outer := by
      rw [define_of_cons hs]
    obtain ⟨scope', hscope, hget⟩ := scopes_defineAll_of_cons ms hdefine
    refine ⟨scope', hscope, fun name => ?_⟩
    rw [hget, Bindings.get?_bind]
    by_cases hlater : name ∈ ms.map (·.text) <;> by_cases hname : name = m.text <;>
      simp_all

/-- As many scopes are open as before. Those outside the innermost one are as they were, and in that
the names declared are ready, and all others as they were. The enclosing function and class are of the
kinds that they were. The same globals are pending, except that at the top level a variable that has
got its first value is so no more. -/
structure Restored (σ : Scoping) (declared initialized : List Mark) (τ : Scoping) : Prop where
  depth : τ.scopes.length = σ.scopes.length
  outer : τ.scopes.tail = σ.scopes.tail
  innermost : ∀ scope ∈ σ.scopes.head?, ∃ scope' ∈ τ.scopes.head?, ∀ name,
    scope'.get? name = if name ∈ declared.map (·.text) then some true else scope.get? name
  function : τ.function = σ.function
  cls : τ.cls = σ.cls
  pending : τ.pending = σ.pendingBehind initialized

theorem Gained.restored (h : σ.Gained ms xs τ) : σ.Restored ms xs τ := by
  cases hs : σ.scopes with
  | nil =>
    have hnil : τ.scopes = [] := h.scopes_eq_nil_iff.mpr hs
    refine ⟨?_, ?_, fun scope hscope => ?_, h.function, h.cls, h.pending⟩
    · rw [hnil, hs]
    · rw [hnil, hs]
    · simp [hs] at hscope
  | cons scope outer =>
    obtain ⟨scope', hscope', hget⟩ := scopes_defineAll_of_cons ms hs
    have hτ : τ.scopes = scope' :: outer := h.scopes.trans hscope'
    refine ⟨?_, ?_, fun first hfirst => ?_, h.function, h.cls, h.pending⟩
    · rw [hτ, hs]
      rfl
    · rw [hτ, hs]
      rfl
    · obtain rfl : scope = first := by simpa [hs] using hfirst
      exact ⟨scope', by simp [hτ], hget⟩

theorem calm_enter (σ : Scoping) (names : List String) : (σ.enter names).Calm :=
  fun h => nomatch h

end Scoping

/-! ### Where statements begin -/

namespace Visit

open Scoping

/-- What is not read within an initializer begins with no global pending at the top level. -/
def Calm (v : Visit) : Prop :=
  match v.construct with
  | .expr _ | .args _ => True
  | .stmt _ | .body _ | .function _ _ | .methods _ => v.scoping.Calm

theorem Calm.part : ∀ {v w : Visit}, v.Calm → w ∈ v.parts → w.Calm
  | ⟨.expr (.literal _), _, _⟩, _, _, h | ⟨.expr (.variable _), _, _⟩, _, _, h
  | ⟨.expr (.receiver _), _, _⟩, _, _, h | ⟨.expr (.superMethod _ _), _, _⟩, _, _, h
  | ⟨.expr (.stray _), _, _⟩, _, _, h | ⟨.args [], _, _⟩, _, _, h
  | ⟨.stmt (.var _ none), _, _⟩, _, _, h | ⟨.stmt (.giveBack _ none), _, _⟩, _, _, h
  | ⟨.stmt (.stray _), _, _⟩, _, _, h | ⟨.body [], _, _⟩, _, _, h
  | ⟨.methods [], _, _⟩, _, _, h => nomatch h
  | ⟨.expr (.grouping _), _, _⟩, _, _, h | ⟨.expr (.unary _ _), _, _⟩, _, _, h
  | ⟨.expr (.get _ _), _, _⟩, _, _, h | ⟨.expr (.assign _ _), _, _⟩, _, _, h
  | ⟨.stmt (.expr _), _, _⟩, _, _, h | ⟨.stmt (.print _), _, _⟩, _, _, h
  | ⟨.stmt (.var _ (some _)), _, _⟩, _, _, h | ⟨.stmt (.giveBack _ (some _)), _, _⟩, _, _, h => by
    obtain rfl := List.mem_singleton.mp h
    trivial
  | ⟨.expr (.binary _ _ _), _, _⟩, _, _, h | ⟨.expr (.logical _ _ _), _, _⟩, _, _, h
  | ⟨.expr (.call _ _ _), _, _⟩, _, _, h | ⟨.expr (.set _ _ _), _, _⟩, _, _, h
  | ⟨.args (_ :: _), _, _⟩, _, _, h => by
    obtain rfl | rfl := of_mem_two h <;> trivial
  | ⟨.expr (.ternary _ _ _), _, _⟩, _, _, h => by
    obtain rfl | h := List.mem_cons.mp h
    · trivial
    · obtain rfl | rfl := of_mem_two h <;> trivial
  | ⟨.stmt (.block _), σ, _⟩, _, _, h => by
    obtain rfl := List.mem_singleton.mp h
    exact calm_enter σ []
  | ⟨.stmt (.classDecl name none _), σ, _⟩, _, _, h => by
    obtain rfl := List.mem_singleton.mp h
    exact calm_enter (σ.declaringClass name) ["this"]
  | ⟨.stmt (.classDecl _ (some _) _), _, _⟩, _, _, h => by
    obtain rfl | rfl := of_mem_two h
    · trivial
    · exact calm_enter _ ["this"]
  | ⟨.stmt (.function decl), σ, _⟩, _, hv, h => by
    obtain rfl := List.mem_singleton.mp h
    exact (Gained.define_declare σ decl.name).calm hv
  | ⟨.stmt (.branch cond _ none), σ, _⟩, _, hv, h | ⟨.stmt (.loop cond _), σ, _⟩, _, hv, h => by
    obtain rfl | rfl := of_mem_two h
    · trivial
    · exact (Gained.of_samePlace (samePlace_behindExpr cond σ)).calm hv
  | ⟨.stmt (.branch cond yes (some _)), σ, _⟩, _, hv, h => by
    have hcond : (σ.behindExpr cond).Calm :=
      (Gained.of_samePlace (samePlace_behindExpr cond σ)).calm hv
    obtain rfl | h := List.mem_cons.mp h
    · trivial
    · obtain rfl | rfl := of_mem_two h
      · exact hcond
      · exact (gained_behindStmt yes _).calm hcond
  | ⟨.body (s :: _), σ, _⟩, _, hv, h => by
    obtain rfl | rfl := of_mem_two h
    · exact hv
    · exact (gained_behindStmt s σ).calm hv
  | ⟨.function kind ⟨_, params, _⟩, σ, _⟩, _, _, h => by
    obtain rfl := List.mem_singleton.mp h
    exact (gained_declareParams params { σ.enter [] with function := kind }).calm
      fun hnil => nomatch hnil
  | ⟨.methods (m :: _), σ, _⟩, _, hv, h => by
    obtain rfl | rfl := of_mem_two h
    · exact hv
    · exact (gained_behindFunction (methodKind m.name) m σ).calm hv

end Visit

/-- Wherever the pass of a program comes by a statement, no global is pending at the top level. -/
theorem Visited.calm {program : List Stmt} {v : Visit} (h : Visited program v) : v.Calm := by
  induction h with
  | program => exact fun _ => rfl
  | part _ hw ih => exact ih.part hw

end Lox
