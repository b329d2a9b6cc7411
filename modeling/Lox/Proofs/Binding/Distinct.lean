/-
# The names of one scope

A name that is declared in a local scope is not declared there before, or the
pass of names would report it. So in a program without reports the parameters
and declarations of one scope have different names, and a name that one of its
variables has is declared by that variable alone.

Key definitions: `Lox.Stmt.var?`, `Lox.Opener.vars`.
Key theorems: `Lox.Visit.Clean.distinct_block`, `Lox.Visit.Clean.distinct_call`,
`Lox.Opener.eq_of_param`, `Lox.Opener.eq_of_declared`.
-/
import Lox.Proofs.Binding.Inside
import Mathlib.Data.List.Pairwise

namespace Lox

/-! ### Variables -/

/-- The name of a statement that declares a variable. -/
def Stmt.var? : Stmt → Option Mark
  | .var name _ => some name
  | _ => none

theorem Stmt.declared?_of_var? {s : Stmt} {m : Mark} (h : s.var? = some m) :
    s.declared? = some m := by
  cases s with
  | var name _ => exact h
  | _ => cases h

namespace Opener

/-- The parameters that the scope begins with. -/
def params : Opener → List Mark
  | .call decl => decl.params
  | .block _ | .receiver _ | .superclass _ => []

/-- The variables and parameters that the scope declares. -/
def vars (o : Opener) : List Mark := o.params ++ o.body.filterMap Stmt.var?

theorem locals_eq (o : Opener) : o.locals = o.params.map (·.text) ++ declaredNames o.body := by
  cases o <;> rfl

end Opener

/-! ### Fresh names -/

namespace Scoping

variable {σ : Scoping}

/-- What is fresh once a name is ready was fresh before, and is another one. -/
theorem fresh_of_define {m : Mark} {name : String} (hs : σ.scopes ≠ [])
    (h : (σ.define m).Fresh name) : name ≠ m.text ∧ σ.Fresh name := by
  cases hscopes : σ.scopes with
  | nil => exact absurd hscopes hs
  | cons scope outer =>
    rw [define_of_cons hscopes] at h
    have hcontains : (scope.bind m.text true).contains name = false := h _ rfl
    rw [Bindings.contains, Bindings.get?_bind] at hcontains
    split at hcontains
    · cases hcontains
    · rename_i hne
      refine ⟨hne, fun other hother => ?_⟩
      rw [hscopes] at hother
      cases hother
      exact hcontains

theorem define_scopes_ne {m : Mark} (hs : σ.scopes ≠ []) : (σ.define m).scopes ≠ [] :=
  (leave_define hs).2

theorem fresh_of_defineAll {name : String} : ∀ {params : List Mark} {σ : Scoping}, σ.scopes ≠ [] →
    (σ.defineAll params).Fresh name → name ∉ params.map (·.text) ∧ σ.Fresh name
  | [], _, _, h => ⟨List.not_mem_nil, h⟩
  | m :: params, σ, hs, h => by
    obtain ⟨hparams, hfresh⟩ := fresh_of_defineAll (define_scopes_ne (m := m) hs) h
    obtain ⟨hne, hfresh⟩ := fresh_of_define hs hfresh
    exact ⟨fun hn => (List.mem_cons.mp hn).elim hne hparams, hfresh⟩

/-- A name that a statement declares without a report was fresh. -/
theorem fresh_of_declared {s : Stmt} {m : Mark} (hd : s.declared? = some m)
    (h : (σ.behindStmt s).Silent) : σ.Fresh m.text := by
  cases s with
  | var _ initial =>
    cases hd
    cases initial with
    | none => exact fresh_of_silent (h.of_le (le_define _ m))
    | some e =>
      rw [behindStmt_var] at h
      have hreset : (σ.resetting m ((σ.initializing m).behindExpr e)).Silent :=
        h.of_le (le_define _ m)
      have he : ((σ.initializing m).behindExpr e).Silent := by
        unfold resetting at hreset
        split at hreset <;> exact hreset
      exact (initializing_of_silent (he.of_le (le_behindExpr e _))).2
  | function decl =>
    cases hd
    have hdeclared : ((σ.declare decl.name).define decl.name).Silent :=
      h.of_le (le_behindFunction .function decl _)
    exact fresh_of_silent (hdeclared.of_le (le_define _ decl.name))
  | classDecl _ superclass ms =>
    cases hd
    have hclass : (σ.declaringClass m).Silent := by
      cases superclass with
      | none => exact h.of_le (le_behindMethods ms ((σ.declaringClass m).enter ["this"]))
      | some use =>
        rw [behindStmt_subclass] at h
        have huse : ((σ.inheriting m use).behindExpr (.variable use)).Silent :=
          h.of_le (le_behindMethods ms
            ((((σ.inheriting m use).behindExpr (.variable use)).enter ["super"]).enter ["this"]))
        exact (huse.of_le (le_behindExpr (.variable use) _)).of_le (declaringClass_le_inheriting σ m use)
    have hfresh : Scoping.Fresh { σ with cls := .plain } m.text :=
      fresh_of_silent (hclass.of_le (le_define _ m))
    exact hfresh
  | _ => cases hd

/-- Parameters that are declared without a report are different, and were fresh. -/
theorem nodup_params : ∀ {params : List Mark} {σ : Scoping}, σ.scopes ≠ [] →
    ((declareParams params).run σ).2.Silent →
      (params.map (·.text)).Nodup ∧ ∀ name ∈ params.map (·.text), σ.Fresh name
  | [], _, _, _ => ⟨.nil, fun _ h => nomatch h⟩
  | m :: params, σ, hs, h => by
    have hdeclare : (σ.declare m).Silent :=
      h.of_le ((le_define _ m).trans (le_declareParams params ((σ.declare m).define m)))
    have hm := fresh_of_silent hdeclare
    have h : ((declareParams params).run ((σ.declare m).define m)).2.Silent := h
    rw [define_declare hm] at h
    obtain ⟨hnodup, hfresh⟩ := nodup_params (define_scopes_ne hs) h
    have hlater : ∀ name ∈ params.map (·.text), name ≠ m.text ∧ σ.Fresh name := fun name hn =>
      fresh_of_define hs (hfresh name hn)
    exact ⟨List.nodup_cons.mpr ⟨fun hn => (hlater _ hn).1 rfl, hnodup⟩,
      List.forall_mem_cons.mpr ⟨hm, fun name hn => (hlater name hn).2⟩⟩

end Scoping

/-! ### Places without reports -/

namespace Visit

open Scoping

variable {σ : Scoping} {os : List Opener}

/-- The statements of a body in a local scope declare different names, which were fresh. -/
theorem Clean.nodup_declaredNames : ∀ {body : List Stmt} {σ : Scoping}, Clean ⟨.body body, σ, os⟩ →
    σ.pending = [] → σ.scopes ≠ [] →
      (declaredNames body).Nodup ∧ ∀ name ∈ declaredNames body, σ.Fresh name
  | [], _, _, _, _ => ⟨.nil, fun _ h => nomatch h⟩
  | s :: body, σ, hc, hp, hs => by
    have hstmt : Clean ⟨.stmt s, σ, os⟩ := hc.part (List.mem_cons_self ..)
    have hbody : Clean ⟨.body body, σ.behindStmt s, os⟩ :=
      hc.part (List.mem_cons_of_mem _ (List.mem_singleton_self _))
    rw [hstmt.behindStmt_eq hp] at hbody
    have hp' := (behind_pending s).trans hp
    rw [declaredNames_cons]
    cases hd : s.declared? with
    | none =>
      rw [behind_of_declared hd] at hbody hp'
      exact hbody.nodup_declaredNames hp' hs
    | some m =>
      have hbehind : σ.behind s = σ.define m := by rw [behind, hd]
      rw [hbehind] at hbody hp'
      obtain ⟨hnodup, hfresh⟩ := hbody.nodup_declaredNames hp' (define_scopes_ne hs)
      have hlater : ∀ name ∈ declaredNames body, name ≠ m.text ∧ σ.Fresh name := fun name hn =>
        fresh_of_define hs (hfresh name hn)
      exact ⟨List.nodup_cons.mpr ⟨fun hn => (hlater _ hn).1 rfl, hnodup⟩,
        List.forall_mem_cons.mpr ⟨fresh_of_declared hd hstmt.silent, fun name hn => (hlater name hn).2⟩⟩

/-- The names of a block are different. -/
theorem Clean.distinct_block {body : List Stmt} (hc : Clean ⟨.stmt (.block body), σ, os⟩)
    (hp : σ.pending = []) : (Opener.block body).locals.Nodup := by
  have hbody : Clean ⟨.body body, σ.enter [], .block body :: os⟩ := hc.part (List.mem_singleton_self _)
  exact (hbody.nodup_declaredNames hp (by simp [enter])).1

/-- The names of a function are different, its parameters and those that its body declares. -/
theorem Clean.distinct_call {kind : FunctionKind} {decl : Fun}
    (hc : Clean ⟨.function kind decl, σ, os⟩) (hp : σ.pending = []) :
    (Opener.call decl).locals.Nodup := by
  obtain ⟨name, params, body⟩ := decl
  have hbody : Clean ⟨.body body, σ.enteringFunction kind params, .call ⟨name, params, body⟩ :: os⟩ :=
    hc.part (List.mem_singleton_self _)
  have hentered : (σ.enteringFunction kind params).Silent := hbody.silent.of_le (le_behindBody body _)
  have hopen : Scoping.scopes { σ.enter [] with function := kind } ≠ [] := by simp [enter]
  obtain ⟨-, hscopes, hpending⟩ := leave_enteringFunction hentered
  obtain ⟨hnodup, hfresh⟩ := hbody.nodup_declaredNames (hpending.trans hp) hscopes
  rw [enteringFunction_of_silent hentered] at hfresh
  refine List.nodup_append.mpr ⟨(nodup_params hopen hentered).1, hnodup, ?_⟩
  intro a ha b hb hab
  subst hab
  exact (fresh_of_defineAll hopen (hfresh a hb)).1 ha

end Visit

/-! ### Variables of scopes with different names -/

namespace Opener

variable {o : Opener} {d : Mark}

/-- A parameter with the name of a variable of the scope is that variable. -/
theorem eq_of_param (hn : o.locals.Nodup) (hd : d ∈ o.vars) {m : Mark} (hm : m ∈ o.params)
    (ht : m.text = d.text) : m = d := by
  rw [locals_eq] at hn
  obtain ⟨hparams, -, hdisjoint⟩ := List.nodup_append.mp hn
  obtain hd | hd := List.mem_append.mp hd
  · exact List.inj_on_of_nodup_map hparams hm hd ht
  · obtain ⟨s, hs, hvar⟩ := List.mem_filterMap.mp hd
    have hdeclared : d.text ∈ declaredNames o.body :=
      List.mem_filterMap.mpr ⟨s, hs, by rw [Stmt.declared?_of_var? hvar]; rfl⟩
    exact absurd ht (hdisjoint _ (List.mem_map_of_mem hm) _ hdeclared)

/-- A statement that declares the name of a variable of the scope declares that variable. -/
theorem eq_of_declared (hn : o.locals.Nodup) (hd : d ∈ o.vars) {s : Stmt} (hs : s ∈ o.body) {m : Mark}
    (hm : s.declared? = some m) (ht : m.text = d.text) : s.var? = some d := by
  rw [locals_eq] at hn
  obtain ⟨-, hnames, hdisjoint⟩ := List.nodup_append.mp hn
  have hdeclared : m.text ∈ declaredNames o.body :=
    List.mem_filterMap.mpr ⟨s, hs, by rw [hm]; rfl⟩
  obtain hd | hd := List.mem_append.mp hd
  · exact absurd ht.symm (hdisjoint _ (List.mem_map_of_mem hd) _ hdeclared)
  · obtain ⟨s', hs', hvar⟩ := List.mem_filterMap.mp hd
    have hname : s.declared?.map (·.text) = some d.text := by rw [hm, ← ht]; rfl
    have hname' : s'.declared?.map (·.text) = some d.text := by
      rw [Stmt.declared?_of_var? hvar]
      rfl
    have hpair := List.pairwise_filterMap.mp hnames
    by_cases heq : s = s'
    · rwa [heq]
    · have hdiffer := @List.Pairwise.forall _ _ _ ⟨fun _ _ h b hb b' hb' => (h b' hb' b hb).symm⟩ hpair
        _ hs _ hs' heq
      exact absurd rfl (hdiffer _ hname _ hname')

end Opener

end Lox
