/-
# Whose superclass a use of `super` means

The innermost class with a superclass around a use of `super` is the one whose
superclass it means, just as the innermost declaration is the one that a name
means. So every tree leaves some uses of `super` open to the classes around
it, and the statement of a class with a superclass leaves none
(`Lox.Stmt.supers`).

Binding names records distances and leaves the names as they are, so what
runs is as regular as what is written.

Key definitions: `Lox.Expr.supers`, `Lox.Stmt.supers`, `Lox.methodSupers`.
Key theorems: `Lox.Expr.regular_bound`, `Lox.bodyRegular_bound`.
-/
import Lox.Proofs.Binding.Visit

namespace Lox

/-! ### Open uses -/

/-- A use of `super` and the method that it asks for. -/
abbrev SuperUse : Type := NameUse × Mark

mutual

/-- The uses of `super` that an expression leaves open. -/
def Expr.supers : Expr → List SuperUse
  | .literal _ | .variable _ | .receiver _ | .stray _ => []
  | .grouping e | .unary _ e | .get e _ | .assign _ e => e.supers
  | .binary l _ r | .logical l _ r => l.supers ++ r.supers
  | .ternary cond yes no => cond.supers ++ yes.supers ++ no.supers
  | .call callee _ args => callee.supers ++ argSupers args
  | .set object _ value => object.supers ++ value.supers
  | .superMethod use method => [(use, method)]

def argSupers : List Expr → List SuperUse
  | [] => []
  | e :: es => e.supers ++ argSupers es

end

def optionSupers : Option Expr → List SuperUse
  | none => []
  | some e => e.supers

mutual

/-- The uses of `super` that a statement leaves open: those in the methods of a class mean its
superclass, if it has one. -/
def Stmt.supers : Stmt → List SuperUse
  | .expr e | .print e => e.supers
  | .var _ e | .giveBack _ e => optionSupers e
  | .block body => bodySupers body
  | .branch cond yes none => cond.supers ++ yes.supers
  | .branch cond yes (some no) => cond.supers ++ yes.supers ++ no.supers
  | .loop cond body => cond.supers ++ body.supers
  | .function decl => functionSupers decl
  | .classDecl _ none methods => methodSupers methods
  | .classDecl _ (some _) _ | .stray _ => []

def bodySupers : List Stmt → List SuperUse
  | [] => []
  | s :: body => s.supers ++ bodySupers body

def functionSupers : Fun → List SuperUse
  | ⟨_, _, body⟩ => bodySupers body

/-- The uses of `super` that methods leave open to their class. -/
def methodSupers : List Fun → List SuperUse
  | [] => []
  | m :: ms => functionSupers m ++ methodSupers ms

end

/-! ### Binding keeps trees regular -/

variable {σ : Scoping}

mutual

theorem Expr.regular_bound : ∀ {e : Expr} {σ : Scoping}, e.Regular → (σ.boundExpr e).Regular
  | .literal _, _, h | .stray _, _, h => h
  | .grouping e, _, h | .unary _ e, _, h | .get e _, _, h => Expr.regular_bound (e := e) h
  | .binary .., _, h | .logical .., _, h | .set .., _, h =>
    ⟨Expr.regular_bound h.1, Expr.regular_bound h.2⟩
  | .ternary .., _, h =>
    ⟨Expr.regular_bound h.1, Expr.regular_bound h.2.1, Expr.regular_bound h.2.2⟩
  | .variable use, σ, h => by
    show isPlain ((resolveVariable use).run σ).1.name.text
    rw [Scoping.run_variable]
    exact h
  | .assign .., _, h => ⟨h.1, Expr.regular_bound h.2⟩
  | .call .., _, h => ⟨Expr.regular_bound h.1, argsRegular_bound h.2⟩
  | .receiver use, σ, h => by
    rw [Scoping.boundExpr, Scoping.run_receiver]
    split <;> exact h
  | .superMethod use m, σ, h => by
    rw [Scoping.boundExpr, Scoping.run_superMethod]
    exact h

theorem argsRegular_bound : ∀ {es : List Expr} {σ : Scoping}, argsRegular es →
    argsRegular (σ.boundArgs es)
  | [], _, h => h
  | _ :: _, _, h => ⟨Expr.regular_bound h.1, argsRegular_bound h.2⟩

end

/-- The pass makes of a statement one of the same sort, which declares the same name. -/
theorem Stmt.sort_bound (s : Stmt) (σ : Scoping) :
    (σ.boundStmt s).ctorIdx = s.ctorIdx ∧ (σ.boundStmt s).declared? = s.declared? := by
  cases s with
  | expr _ | print _ | block _ | loop _ _ | stray _ => exact ⟨rfl, rfl⟩
  | var name e =>
    cases e with
    | none => exact ⟨rfl, rfl⟩
    | some e =>
      rw [Scoping.boundStmt_var]
      exact ⟨rfl, rfl⟩
  | branch cond yes no => cases no <;> exact ⟨rfl, rfl⟩
  | function decl =>
    obtain ⟨name, params, body⟩ := decl
    exact ⟨rfl, rfl⟩
  | giveBack keyword e =>
    cases e with
    | none =>
      rw [Scoping.boundStmt_giveBack_none]
      exact ⟨rfl, rfl⟩
    | some e =>
      rw [Scoping.boundStmt_giveBack]
      exact ⟨rfl, rfl⟩
  | classDecl name superclass ms =>
    cases superclass with
    | none => exact ⟨rfl, rfl⟩
    | some use =>
      rw [Scoping.boundStmt_subclass]
      exact ⟨rfl, rfl⟩

theorem Stmt.declared?_bound (s : Stmt) (σ : Scoping) :
    (σ.boundStmt s).declared? = s.declared? := (s.sort_bound σ).2

mutual

theorem Stmt.regular_bound : ∀ {s : Stmt} {σ : Scoping}, s.Regular → (σ.boundStmt s).Regular
  | .expr _, _, h | .print _, _, h => Expr.regular_bound h
  | .var _ none, _, h => h
  | .var name (some e), σ, h => by
    rw [Scoping.boundStmt_var]
    exact ⟨h.1, Expr.regular_bound h.2⟩
  | .block _, _, h => bodyRegular_bound h
  | .branch cond yes none, σ, h | .loop cond yes, σ, h =>
    ⟨Expr.regular_bound h.1, Stmt.regular_bound h.2.1, (yes.declared?_bound _).trans h.2.2⟩
  | .branch cond yes (some no), σ, h =>
    ⟨Expr.regular_bound h.1, ⟨Stmt.regular_bound h.2.1.1, (yes.declared?_bound _).trans h.2.1.2⟩,
      Stmt.regular_bound h.2.2.1, (no.declared?_bound _).trans h.2.2.2⟩
  | .function _, _, h => functionRegular_bound h
  | .giveBack keyword none, σ, h => by
    rw [Scoping.boundStmt_giveBack_none]
    exact h
  | .giveBack keyword (some e), σ, h => by
    rw [Scoping.boundStmt_giveBack]
    exact Expr.regular_bound (e := e) h
  | .classDecl _ none _, _, h => ⟨h.1, methodsRegular_bound h.2⟩
  | .classDecl name (some use) ms, σ, h => by
    rw [Scoping.boundStmt_subclass]
    exact ⟨h.1, h.2.1, methodsRegular_bound h.2.2⟩
  | .stray _, _, h => h.elim

theorem bodyRegular_bound : ∀ {body : List Stmt} {σ : Scoping}, bodyRegular body →
    bodyRegular (σ.boundBody body)
  | [], _, h => h
  | _ :: _, _, h => ⟨Stmt.regular_bound h.1, bodyRegular_bound h.2⟩

theorem functionRegular_bound : ∀ {kind : FunctionKind} {decl : Fun} {σ : Scoping},
    functionRegular decl → functionRegular (σ.boundFunction kind decl)
  | _, ⟨_, _, _⟩, _, h => ⟨h.1, h.2.1, bodyRegular_bound h.2.2⟩

theorem methodsRegular_bound : ∀ {ms : List Fun} {σ : Scoping}, methodsRegular ms →
    methodsRegular (σ.boundMethods ms)
  | [], _, h => h
  | _ :: _, _, h => ⟨functionRegular_bound h.1, methodsRegular_bound h.2⟩

end

end Lox
