/-
# Binding names with one more declaration

A place for a declaration of a name is spared if its scope does not declare
the name, and no use of the name behind it, inside the scope, is bound further
out, or by no scope at all (`Lox.Spared`). There the declaration is never seen:
what the pass of names makes of the program with the declaration is what it
makes of the program, with the declaration in it, and it notes the same
misuses.

Key definitions: `Lox.Construct.bound`, `Lox.Spared`, `Lox.BindsAlike`.
Key theorems: `Lox.Spared.declared`, `Lox.Grown.bindsAlike`.
-/
import Lox.Proofs.Declaring.Hiding
import Lox.Proofs.Spelling.Joining

namespace Lox

open Scoping

/-- What the pass of names makes of the part. -/
def Construct.bound (σ : Scoping) : Construct → Construct
  | .expr e => .expr (σ.boundExpr e)
  | .args es => .args (σ.boundArgs es)
  | .stmt s => .stmt (σ.boundStmt s)
  | .body stmts => .body (σ.boundBody stmts)
  | .function kind decl => .function kind (σ.boundFunction kind decl)
  | .methods decls => .methods (σ.boundMethods decls)

/-- In the scope of `o`, at the places of programs, the name is not declared, and behind these
statements of it no use of the name is bound further out. -/
structure Spared (P : Visit → Prop) (x : String) (o : Opener) (behind : List Stmt) : Prop where
  undeclared : x ∉ o.names
  unseen : ∀ {σ os}, P ⟨.body behind, σ, o :: os⟩ → BoundWithin x 0 (bodyReaching (σ.boundBody behind))

section

variable {P : Visit → Prop} {σ : Scoping} {os : List Opener}

/-- The statements behind the first ones of a body. -/
theorem Stock.rest (hst : Stock P) (later : List Stmt) : ∀ (before : List Stmt) {σ : Scoping},
    P ⟨.body (before ++ later), σ, os⟩ → P ⟨.body later, σ.behindBody before, os⟩
  | [], _, h => h
  | s :: before, σ, h => by
    have hrest : P ⟨.body (before ++ later), σ.behindStmt s, os⟩ :=
      hst.part h (List.mem_cons_of_mem _ (List.mem_singleton_self _))
    exact Stock.rest hst later before hrest

theorem Stock.methodsRest (hst : Stock P) (later : List Fun) : ∀ (before : List Fun) {σ : Scoping},
    P ⟨.methods (before ++ later), σ, os⟩ → P ⟨.methods later, σ.behindMethods before, os⟩
  | [], _, h => h
  | m :: before, σ, h => by
    have hrest : P ⟨.methods (before ++ later), σ.behindFunction (methodKind m.name) m, os⟩ :=
      hst.part h (List.mem_cons_of_mem _ (List.mem_singleton_self _))
    exact Stock.methodsRest hst later before hrest

theorem boundMethods_append (ms more : List Fun) : ∀ σ : Scoping,
    σ.boundMethods (ms ++ more) = σ.boundMethods ms ++ (σ.behindMethods ms).boundMethods more := by
  induction ms with
  | nil => exact fun _ => rfl
  | cons m ms ih =>
    exact fun σ => congrArg (σ.boundFunction (methodKind m.name) m :: ·) (ih (σ.behindFunction _ m))

theorem behindMethods_append (ms more : List Fun) : ∀ σ : Scoping,
    σ.behindMethods (ms ++ more) = (σ.behindMethods ms).behindMethods more := by
  induction ms with
  | nil => exact fun _ => rfl
  | cons m ms ih => exact fun σ => ih (σ.behindFunction (methodKind m.name) m)

/-- A scope that is open binds only names of its opener. -/
theorem Aligned.fresh {o : Opener} (h : Aligned σ.scopes (o :: os)) {x : String} (hn : x ∉ o.names) :
    σ.Fresh x ∧ σ.scopes ≠ [] := by
  generalize hs : σ.scopes = scopes at h
  cases h with
  | @inside scope scopes _ _ hnames _ _ =>
    refine ⟨fun first hfirst => ?_, List.cons_ne_nil _ _⟩
    obtain rfl : scope = first := by simpa [hs] using hfirst
    exact Bool.eq_false_iff.mpr fun hc => hn (hnames x hc)

/-- A name that is new in the innermost scope is bound there besides. -/
theorem Scoping.Fresh.hides {d : Mark} (h : σ.Fresh d.text) (hs : σ.scopes ≠ []) :
    Hides d.text 0 σ (σ.behindStmt (.var d none)) := by
  show Hides d.text 0 σ ((σ.declare d).define d)
  rw [define_declare h]
  obtain ⟨scopes, pending, kind, cls, errors, misplaced, stopped⟩ := σ
  match scopes with
  | bs :: scopes =>
    have hnew : (bs.bind d.text true).without d.text = bs := Bindings.without_bind_self (h bs rfl)
    refine ⟨Nat.zero_lt_succ _, ?_⟩
    simp only [define, List.modify_zero_cons, hnew]

variable {d : Mark} {o : Opener} {behind : List Stmt}

/-- Of the body of the scope the pass makes what it makes of it without the declaration, with that in
it, and has the same behind the scope. -/
theorem Spared.declared (hs : Spared P d.text o behind) (hst : Stock P) {before : List Stmt}
    (h : P ⟨.body (before ++ behind), σ, o :: os⟩) : ∃ before₁ behind₁,
    σ.boundBody (before ++ behind) = before₁ ++ behind₁ ∧
      σ.boundBody (before ++ .var d none :: behind) = before₁ ++ .var d none :: behind₁ ∧
        (σ.behindBody (before ++ .var d none :: behind)).leave =
          (σ.behindBody (before ++ behind)).leave := by
  have hplace := hst.rest behind before h
  obtain ⟨hsettled, hdeclares⟩ := hst.standing hplace
  obtain ⟨hfresh, hopen⟩ := hsettled.aligned.fresh hs.undeclared
  have hnew : 0 = 0 → d.text ∉ declaredNames behind := fun _ hd =>
    hs.undeclared (hdeclares o rfl _ hd)
  obtain ⟨hbound, hhides⟩ := steady_resolveBody (hst.clean hplace).regular hnew (hs.unseen hplace) _
    (hfresh.hides hopen)
  refine ⟨σ.boundBody before, _, boundBody_append before behind σ, ?_, ?_⟩
  · rw [boundBody_append]
    exact congrArg (fun body => σ.boundBody before ++ .var d none :: body) hbound
  · rw [behindBody_append, behindBody_append]
    exact hhides.leave_eq rfl

end

/-! ### Programs with the declaration -/

/-- The pass makes of the second part what it makes of the first one, with the declaration in it, and
has the same behind both. The scope of it has statements if that of `o` has some. -/
structure BindsAlike (d : Mark) (o : Opener) (σ : Scoping) (c c' : Construct) : Prop where
  behind : Visit.after ⟨c', σ, []⟩ = Visit.after ⟨c, σ, []⟩
  grown : ∃ o₁ behind₁, Grown d o₁ behind₁ (c.bound σ) (c'.bound σ) ∧ (o₁.body = [] → o.body = [])

section

variable {P : Visit → Prop} {d : Mark} {o : Opener} {behind : List Stmt} {c c' : Construct}

theorem eq_nil_of_bound {body : List Stmt} {σ : Scoping} (h : σ.boundBody body = []) : body = [] := by
  cases body with
  | nil => rfl
  | cons s body => cases h

/-- Where the declaration is not seen the pass makes the same, with the declaration in it. -/
theorem Grown.bindsAlike (hst : Stock P) (hs : Spared P d.text o behind) (h : Grown d o behind c c') :
    ∀ {σ os}, P ⟨c, σ, os⟩ → BindsAlike d o σ c c' := by
  induction h with
  | @inBlock before ho =>
    intro σ os hv
    subst ho
    obtain ⟨before₁, behind₁, hsame, hmore, hleave⟩ :=
      hs.declared hst (hst.part hv (List.mem_singleton_self _))
    refine ⟨hleave, .block (before₁ ++ behind₁), behind₁, ?_, fun he => eq_nil_of_bound (hsame.trans he)⟩
    show Grown d _ _ (.stmt (.block ((σ.enter []).boundBody (before ++ behind))))
      (.stmt (.block ((σ.enter []).boundBody (before ++ .var d none :: behind))))
    rw [hsame, hmore]
    exact .inBlock rfl
  | @inCall kind name params before ho =>
    intro σ os hv
    subst ho
    obtain ⟨before₁, behind₁, hsame, hmore, hleave⟩ :=
      hs.declared hst (hst.part hv (List.mem_singleton_self _))
    refine ⟨congrArg (fun τ : Scoping => { τ with function := σ.function }) hleave,
      .call ⟨name, params, before₁ ++ behind₁⟩, behind₁, ?_, fun he => eq_nil_of_bound (hsame.trans he)⟩
    show Grown d _ _
      (.function kind ⟨name, params, (σ.enteringFunction kind params).boundBody (before ++ behind)⟩)
      (.function kind ⟨name, params,
        (σ.enteringFunction kind params).boundBody (before ++ .var d none :: behind)⟩)
    rw [hsame, hmore]
    exact .inCall rfl
  | block _ ih =>
    intro σ os hv
    obtain ⟨hbehind, o₁, behind₁, hgrown, hempty⟩ := ih (hst.part hv (List.mem_singleton_self _))
    exact ⟨congrArg Scoping.leave hbehind, o₁, behind₁, .block hgrown, hempty⟩
  | call _ ih =>
    intro σ os hv
    obtain ⟨hbehind, o₁, behind₁, hgrown, hempty⟩ := ih (hst.part hv (List.mem_singleton_self _))
    exact ⟨congrArg (fun τ : Scoping => { τ.leave with function := σ.function }) hbehind, o₁, behind₁,
      .call hgrown, hempty⟩
  | @among before later s s' _ ih =>
    intro σ os hv
    obtain ⟨hbehind, o₁, behind₁, hgrown, hempty⟩ :=
      ih (hst.part (hst.rest (s :: later) before hv) (List.mem_cons_self ..))
    have hbehind : (σ.behindBody before).behindStmt s' = (σ.behindBody before).behindStmt s := hbehind
    refine ⟨?_, o₁, behind₁, ?_, hempty⟩
    · show σ.behindBody (before ++ s' :: later) = σ.behindBody (before ++ s :: later)
      rw [behindBody_append, behindBody_append]
      exact congrArg (fun τ : Scoping => τ.behindBody later) hbehind
    · show Grown d o₁ behind₁ (.body (σ.boundBody (before ++ s :: later)))
        (.body (σ.boundBody (before ++ s' :: later)))
      rw [boundBody_append, boundBody_append]
      show Grown d o₁ behind₁ (.body (_ ++ _ :: ((σ.behindBody before).behindStmt s).boundBody later))
        (.body (_ ++ _ :: ((σ.behindBody before).behindStmt s').boundBody later))
      rw [hbehind]
      exact .among hgrown
  | @yes cond yes yes' no _ ih =>
    intro σ os hv
    cases no with
    | none =>
      obtain ⟨hbehind, o₁, behind₁, hgrown, hempty⟩ :=
        ih (hst.part hv (List.mem_cons_of_mem _ (List.mem_singleton_self _)))
      exact ⟨hbehind, o₁, behind₁, .yes none hgrown, hempty⟩
    | some no =>
      obtain ⟨hbehind, o₁, behind₁, hgrown, hempty⟩ :=
        ih (hst.part hv (List.mem_cons_of_mem _ (List.mem_cons_self ..)))
      have hbehind : (σ.behindExpr cond).behindStmt yes' = (σ.behindExpr cond).behindStmt yes := hbehind
      refine ⟨congrArg (fun τ : Scoping => τ.behindStmt no) hbehind, o₁, behind₁, ?_, hempty⟩
      show Grown d o₁ behind₁
        (.stmt (.branch (σ.boundExpr cond) ((σ.behindExpr cond).boundStmt yes)
          (some (((σ.behindExpr cond).behindStmt yes).boundStmt no))))
        (.stmt (.branch (σ.boundExpr cond) ((σ.behindExpr cond).boundStmt yes')
          (some (((σ.behindExpr cond).behindStmt yes').boundStmt no))))
      rw [hbehind]
      exact .yes _ hgrown
  | no _ ih =>
    intro σ os hv
    obtain ⟨hbehind, o₁, behind₁, hgrown, hempty⟩ :=
      ih (hst.part hv (List.mem_cons_of_mem _ (List.mem_cons_of_mem _ (List.mem_singleton_self _))))
    exact ⟨hbehind, o₁, behind₁, .no hgrown, hempty⟩
  | loop _ ih =>
    intro σ os hv
    obtain ⟨hbehind, o₁, behind₁, hgrown, hempty⟩ :=
      ih (hst.part hv (List.mem_cons_of_mem _ (List.mem_singleton_self _)))
    exact ⟨hbehind, o₁, behind₁, .loop hgrown, hempty⟩
  | @function decl decl' h ih =>
    intro σ os hv
    obtain ⟨hbehind, o₁, behind₁, hgrown, hempty⟩ := ih (hst.part hv (List.mem_singleton_self _))
    have hname := h.name_eq
    refine ⟨?_, o₁, behind₁, ?_, hempty⟩
    · show ((σ.declare decl'.name).define decl'.name).behindFunction .function decl' = _
      rw [hname]
      exact hbehind
    · show Grown d o₁ behind₁
        (.stmt (.function (((σ.declare decl.name).define decl.name).boundFunction .function decl)))
        (.stmt (.function (((σ.declare decl'.name).define decl'.name).boundFunction .function decl')))
      rw [hname]
      exact .function hgrown
  | @classDecl name superclass methods methods' _ ih =>
    intro σ os hv
    cases superclass with
    | none =>
      obtain ⟨hbehind, o₁, behind₁, hgrown, hempty⟩ := ih (hst.part hv (List.mem_singleton_self _))
      exact ⟨congrArg (fun τ : Scoping => { τ.leave with cls := σ.cls }) hbehind, o₁, behind₁,
        .classDecl none hgrown, hempty⟩
    | some use =>
      obtain ⟨hbehind, o₁, behind₁, hgrown, hempty⟩ :=
        ih (hst.part hv (List.mem_cons_of_mem _ (List.mem_singleton_self _)))
      refine ⟨?_, o₁, behind₁, ?_, hempty⟩
      · show σ.behindStmt (.classDecl name (some use) methods') =
          σ.behindStmt (.classDecl name (some use) methods)
        rw [behindStmt_subclass, behindStmt_subclass]
        exact congrArg (fun τ : Scoping => { τ.leave.leave with cls := σ.cls }) hbehind
      · show Grown d o₁ behind₁ (.stmt (σ.boundStmt (.classDecl name (some use) methods)))
          (.stmt (σ.boundStmt (.classDecl name (some use) methods')))
        rw [boundStmt_subclass, boundStmt_subclass]
        exact .classDecl _ hgrown
  | @method before later m m' h ih =>
    intro σ os hv
    obtain ⟨hbehind, o₁, behind₁, hgrown, hempty⟩ :=
      ih (hst.part (hst.methodsRest (m :: later) before hv) (List.mem_cons_self ..))
    have hname := h.name_eq
    have hbehind : (σ.behindMethods before).behindFunction (methodKind m.name) m' =
        (σ.behindMethods before).behindFunction (methodKind m.name) m := hbehind
    refine ⟨?_, o₁, behind₁, ?_, hempty⟩
    · show σ.behindMethods (before ++ m' :: later) = σ.behindMethods (before ++ m :: later)
      rw [behindMethods_append, behindMethods_append]
      show ((σ.behindMethods before).behindFunction (methodKind m'.name) m').behindMethods later = _
      rw [hname, hbehind]
      rfl
    · show Grown d o₁ behind₁ (.methods (σ.boundMethods (before ++ m :: later)))
        (.methods (σ.boundMethods (before ++ m' :: later)))
      rw [boundMethods_append, boundMethods_append]
      show Grown d o₁ behind₁
        (.methods (_ ++ _ ::
          ((σ.behindMethods before).behindFunction (methodKind m.name) m).boundMethods later))
        (.methods (_ ++ (σ.behindMethods before).boundFunction (methodKind m'.name) m' ::
          ((σ.behindMethods before).behindFunction (methodKind m'.name) m').boundMethods later))
      rw [hname, hbehind]
      refine .method ?_
      show Grown d o₁ behind₁
        (.function (methodKind ((σ.behindMethods before).boundFunction (methodKind m.name) m).name) _)
        (.function (methodKind ((σ.behindMethods before).boundFunction (methodKind m.name) m).name) _)
      rw [boundFunction_name]
      exact hgrown

end

end Lox
