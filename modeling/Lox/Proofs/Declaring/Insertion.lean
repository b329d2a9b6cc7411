/-
# One more declaration in a scope

A declaration without an initializer may stand between any two statements of a
block or of a function. The tree that has it is the one without it but for
that place (`Lox.Grown`); which scope it is in, and which statements of the
scope follow it, is told beside the two trees. It makes a program no deeper,
unless the scope had no statement before.

What lies behind the declaration may be told by its uses of names. The uses
that reach out of a statement are those that it binds in no scope of its own,
with the records that they have where the statement stands
(`Lox.Stmt.reaching`).

Key definitions: `Lox.Occurrence.outside?`, `Lox.Stmt.reaching`, `Lox.BoundWithin`, `Lox.Grown`.
Key theorems: `Lox.BoundWithin.inside`, `Lox.Grown.fits`, `Lox.Grown.forLoop`.
-/
import Lox.Ast.Depth
import Lox.Ast.Occurrence
import Lox.Grammar.Statement
import Lox.Proofs.Binding.Inside
import Lox.Proofs.Grammar.Marks
import Lox.Proofs.Spelling.Respelling

namespace Lox

/-! ### Uses that reach out -/

/-- The use as it is seen from outside a scope, unless that scope binds it. -/
def Occurrence.outside? (u : Occurrence) : Option Occurrence :=
  match u.use.hops with
  | none => some u
  | some 0 => none
  | some (d + 1) => some { u with use := ⟨u.use.name, some d⟩ }

theorem Occurrence.name_of_outside? {u v : Occurrence} (h : u.outside? = some v) :
    v.use.name = u.use.name := by
  obtain ⟨kind, name, hops⟩ := u
  match hops with
  | none | some (_ + 1) =>
    cases h
    rfl
  | some 0 => cases h

mutual

/-- The uses in a statement that are bound where it stands or further out. -/
def Stmt.reaching : Stmt → List Occurrence
  | .expr value | .print value => value.occurrences
  | .var _ initial => optionOccurrences initial
  | .block body => (bodyReaching body).filterMap Occurrence.outside?
  | .branch cond yes none => cond.occurrences ++ yes.reaching
  | .branch cond yes (some no) => cond.occurrences ++ yes.reaching ++ no.reaching
  | .loop cond body => cond.occurrences ++ body.reaching
  | .function decl => functionReaching decl
  | .giveBack _ value => optionOccurrences value
  | .classDecl _ none methods => (methodsReaching methods).filterMap Occurrence.outside?
  | .classDecl _ (some superclass) methods =>
    ⟨.variable, superclass⟩ ::
      ((methodsReaching methods).filterMap Occurrence.outside?).filterMap Occurrence.outside?
  | .stray _ => []

def bodyReaching : List Stmt → List Occurrence
  | [] => []
  | stmt :: body => stmt.reaching ++ bodyReaching body

def functionReaching : Fun → List Occurrence
  | ⟨_, _, body⟩ => (bodyReaching body).filterMap Occurrence.outside?

def methodsReaching : List Fun → List Occurrence
  | [] => []
  | method :: methods => functionReaching method ++ methodsReaching methods

end

/-- Uses of the name are bound in the innermost scope or one of so many around it. -/
def BoundWithin (x : String) (j : Nat) (uses : List Occurrence) : Prop :=
  ∀ u ∈ uses, u.use.name.text = x → ∃ d ≤ j, u.use.hops = some d

namespace BoundWithin

variable {x : String} {j : Nat} {uses more : List Occurrence} {u : Occurrence}

theorem append : BoundWithin x j (uses ++ more) ↔ BoundWithin x j uses ∧ BoundWithin x j more :=
  List.forall_mem_append

theorem cons : BoundWithin x j (u :: uses) ↔
    (u.use.name.text = x → ∃ d ≤ j, u.use.hops = some d) ∧ BoundWithin x j uses :=
  List.forall_mem_cons

/-- From inside of a scope there is one more around. -/
theorem inside (h : BoundWithin x j (uses.filterMap Occurrence.outside?)) :
    BoundWithin x (j + 1) uses := by
  rintro ⟨kind, name, hops⟩ hu hx
  have hout : ∀ v, Occurrence.outside? ⟨kind, name, hops⟩ = some v → v.use.name.text = x →
      ∃ d ≤ j, v.use.hops = some d := fun v hv => h v (List.mem_filterMap.mpr ⟨_, hu, hv⟩)
  match hops with
  | none =>
    obtain ⟨d, _, hd⟩ := hout _ rfl hx
    cases hd
  | some 0 => exact ⟨0, Nat.zero_le _, rfl⟩
  | some (d + 1) =>
    obtain ⟨e, hle, he⟩ := hout _ rfl hx
    cases he
    exact ⟨d + 1, Nat.succ_le_succ hle, rfl⟩

/-- Where no use of the name reaches out of a scope, all of them are bound in it. -/
theorem of_outside (h : ∀ u ∈ uses.filterMap Occurrence.outside?, u.use.name.text ≠ x) :
    BoundWithin x 0 uses := by
  rintro ⟨kind, name, hops⟩ hu hx
  have hout : ∀ v, Occurrence.outside? ⟨kind, name, hops⟩ = some v → v.use.name.text ≠ x :=
    fun v hv => h v (List.mem_filterMap.mpr ⟨_, hu, hv⟩)
  match hops with
  | none => exact absurd hx (hout _ rfl)
  | some 0 => exact ⟨0, Nat.le_refl 0, rfl⟩
  | some (d + 1) => exact absurd hx (hout ⟨kind, name, some d⟩ rfl)

end BoundWithin

/-! ### Trees with one more declaration -/

section

variable (d : Mark) (o : Opener) (behind : List Stmt)

/-- The second part is the first one with a declaration of `d` in the scope of `o`, before these
statements of the scope. -/
inductive Grown : Construct → Construct → Prop
  | inBlock {before : List Stmt} : o = .block (before ++ behind) →
    Grown (.stmt (.block (before ++ behind))) (.stmt (.block (before ++ .var d none :: behind)))
  | inCall {kind : FunctionKind} {name : Mark} {params : List Mark} {before : List Stmt} :
    o = .call ⟨name, params, before ++ behind⟩ →
      Grown (.function kind ⟨name, params, before ++ behind⟩)
        (.function kind ⟨name, params, before ++ .var d none :: behind⟩)
  | block {body body' : List Stmt} : Grown (.body body) (.body body') →
    Grown (.stmt (.block body)) (.stmt (.block body'))
  | call {kind : FunctionKind} {name : Mark} {params : List Mark} {body body' : List Stmt} :
    Grown (.body body) (.body body') →
      Grown (.function kind ⟨name, params, body⟩) (.function kind ⟨name, params, body'⟩)
  | among {before later : List Stmt} {s s' : Stmt} : Grown (.stmt s) (.stmt s') →
    Grown (.body (before ++ s :: later)) (.body (before ++ s' :: later))
  | yes {cond : Expr} {yes yes' : Stmt} (no : Option Stmt) : Grown (.stmt yes) (.stmt yes') →
    Grown (.stmt (.branch cond yes no)) (.stmt (.branch cond yes' no))
  | no {cond : Expr} {yes no no' : Stmt} : Grown (.stmt no) (.stmt no') →
    Grown (.stmt (.branch cond yes (some no))) (.stmt (.branch cond yes (some no')))
  | loop {cond : Expr} {body body' : Stmt} : Grown (.stmt body) (.stmt body') →
    Grown (.stmt (.loop cond body)) (.stmt (.loop cond body'))
  | function {decl decl' : Fun} : Grown (.function .function decl) (.function .function decl') →
    Grown (.stmt (.function decl)) (.stmt (.function decl'))
  | classDecl {name : Mark} (superclass : Option NameUse) {methods methods' : List Fun} :
    Grown (.methods methods) (.methods methods') →
      Grown (.stmt (.classDecl name superclass methods)) (.stmt (.classDecl name superclass methods'))
  | method {before later : List Fun} {m m' : Fun} :
    Grown (.function (methodKind m.name) m) (.function (methodKind m.name) m') →
      Grown (.methods (before ++ m :: later)) (.methods (before ++ m' :: later))

end

namespace Grown

variable {d : Mark} {o : Opener} {behind : List Stmt} {c c' : Construct}

/-- In the body of a for-loop. -/
theorem forLoop {body body' : Stmt} (initializer : Option Stmt) (cond increment : Option Expr)
    (h : Grown d o behind (.stmt body) (.stmt body')) :
    Grown d o behind (.stmt (forLoop initializer cond increment body))
      (.stmt (Lox.forLoop initializer cond increment body')) := by
  have hrepeated : ∀ e : Expr, Grown d o behind (.stmt (.block [body, .expr e]))
      (.stmt (.block [body', .expr e])) :=
    fun e => .block (@among d o behind [] [.expr e] body body' h)
  have hstarted : ∀ (start : Stmt) {s s' : Stmt}, Grown d o behind (.stmt s) (.stmt s') →
      Grown d o behind (.stmt (.block [start, s])) (.stmt (.block [start, s'])) :=
    fun start _ _ hs => .block (@among d o behind [start] [] _ _ hs)
  cases initializer with
  | none =>
    cases increment with
    | none => exact .loop h
    | some e => exact .loop (hrepeated e)
  | some start =>
    cases increment with
    | none => exact hstarted start (.loop h)
    | some e => exact hstarted start (.loop (hrepeated e))

theorem name_eq {kind kind' : FunctionKind} {f f' : Fun}
    (h : Grown d o behind (.function kind f) (.function kind' f')) : f'.name = f.name := by
  cases h with
  | inCall | call => rfl

end Grown

/-! ### Marks and depth -/

theorem bodyMarks_append (body more : List Stmt) :
    bodyMarks (body ++ more) = bodyMarks body ++ bodyMarks more := by
  induction body with
  | nil => rfl
  | cons s body ih => rw [List.cons_append, bodyMarks, bodyMarks, ih, List.append_assoc]

theorem methodMarks_append (ms more : List Fun) :
    methodMarks (ms ++ more) = methodMarks ms ++ methodMarks more := by
  induction ms with
  | nil => rfl
  | cons m ms ih => rw [List.cons_append, methodMarks, methodMarks, ih, List.append_assoc]

/-- The part is less than `depth` deep. -/
def Construct.fits (depth : Nat) : Construct → Bool
  | .expr e => e.fits depth
  | .args es => argsFit es depth
  | .stmt s => s.fits depth
  | .body stmts => bodyFits stmts depth
  | .function _ decl => functionFits decl depth
  | .methods decls => methodsFit decls depth

theorem methodsFit_append (ms more : List Fun) (depth : Nat) :
    methodsFit (ms ++ more) depth = (methodsFit ms depth && methodsFit more depth) := by
  induction ms with
  | nil => rw [List.nil_append, methodsFit, Bool.true_and]
  | cons m ms ih => rw [List.cons_append, methodsFit, methodsFit, ih, Bool.and_assoc]

theorem Stmt.fits_zero (s : Stmt) : s.fits 0 = false := by
  cases s <;> rfl

theorem bodyFits_zero {body : List Stmt} (h : body ≠ []) : bodyFits body 0 = false := by
  cases body with
  | nil => exact absurd rfl h
  | cons s body => rw [bodyFits, s.fits_zero, Bool.false_and]

theorem Stmt.fits_branch {cond : Expr} {yes : Stmt} {no : Option Stmt} {n : Nat} :
    (Stmt.branch cond yes no).fits (n + 1) = true ↔
      cond.fits n = true ∧ yes.fits n = true ∧ no.all (·.fits n) = true := by
  cases no <;> simp [Stmt.fits, and_assoc]

/-- A declaration is no deeper than another statement of the scope. -/
theorem bodyFits_insert {before behind : List Stmt} {depth : Nat} (m : Mark)
    (h : bodyFits (before ++ behind) depth = true)
    (he : before ++ behind = [] → depth ≠ 0) :
    bodyFits (before ++ .var m none :: behind) depth = true := by
  have hpos : depth ≠ 0 := by
    intro hzero
    by_cases hb : before ++ behind = []
    · exact he hb hzero
    · rw [hzero, bodyFits_zero hb] at h
      cases h
  obtain ⟨n, rfl⟩ := Nat.exists_eq_succ_of_ne_zero hpos
  rw [bodyFits_append] at h ⊢
  rw [bodyFits, show (Stmt.var m none).fits (n + 1) = true from rfl, Bool.true_and]
  exact h

namespace Grown

variable {d : Mark} {o : Opener} {behind : List Stmt} {c c' : Construct}

/-- The declaration makes the part no deeper; in a scope without statements it takes one step more. -/
theorem fits (h : Grown d o behind c c') : ∀ {depth : Nat}, c.fits depth = true →
    (o.body = [] → 0 < depth ∧ c.fits (depth - 1) = true) → c'.fits depth = true := by
  induction h with
  | inBlock ho =>
    subst ho
    intro depth hc he
    obtain _ | n := depth
    · cases hc
    refine bodyFits_insert d hc fun hb hn => ?_
    subst hn
    cases (he hb).2
  | inCall ho =>
    subst ho
    intro depth hc he
    exact bodyFits_insert d hc fun hb => Nat.ne_of_gt (he hb).1
  | call _ ih => exact fun hc he => ih hc he
  | block _ ih | function _ ih =>
    intro depth hc he
    obtain _ | n := depth
    · cases hc
    refine ih hc fun hb => ?_
    have hless := (he hb).2
    obtain _ | n := n
    · cases hless
    exact ⟨Nat.succ_pos n, hless⟩
  | classDecl superclass _ ih =>
    intro depth hc he
    obtain _ | n := depth
    · cases hc
    refine ih hc fun hb => ?_
    have hless := (he hb).2
    obtain _ | n := n
    · cases hless
    exact ⟨Nat.succ_pos n, hless⟩
  | among _ ih =>
    intro depth hc he
    unfold Construct.fits at hc he ⊢
    simp only [bodyFits_append, bodyFits, Bool.and_eq_true] at hc he ⊢
    exact ⟨hc.1, ih hc.2.1 fun hb => ⟨(he hb).1, (he hb).2.2.1⟩, hc.2.2⟩
  | method _ ih =>
    intro depth hc he
    unfold Construct.fits at hc he ⊢
    simp only [methodsFit_append, methodsFit, Bool.and_eq_true] at hc he ⊢
    exact ⟨hc.1, ih hc.2.1 fun hb => ⟨(he hb).1, (he hb).2.2.1⟩, hc.2.2⟩
  | yes no _ ih =>
    intro depth hc he
    obtain _ | n := depth
    · cases hc
    obtain ⟨hcond, hyes, hno⟩ := Stmt.fits_branch.mp hc
    refine Stmt.fits_branch.mpr ⟨hcond, ih hyes fun hb => ?_, hno⟩
    have hless := (he hb).2
    obtain _ | n := n
    · cases hless
    exact ⟨Nat.succ_pos n, (Stmt.fits_branch.mp hless).2.1⟩
  | no _ ih | loop _ ih =>
    intro depth hc he
    obtain _ | n := depth
    · cases hc
    have hc := Bool.and_eq_true_iff.mp hc
    refine Bool.and_eq_true_iff.mpr ⟨hc.1, ih hc.2 fun hb => ?_⟩
    have hless := (he hb).2
    obtain _ | n := n
    · cases hless
    exact ⟨Nat.succ_pos n, (Bool.and_eq_true_iff.mp hless).2⟩

end Grown

end Lox
