/-
# Trees without idle scopes

A scope in which nothing is ever bound is idle: a use that looks past it has
to go one scope further, and that is all. A tree sheds idle scopes if another
one is the same but for the distances, and those do not count idle scopes
(`Lox.Stmt.Sheds`). A list of flags tells of each open scope whether it is
idle, the innermost first.

No use is bound in an idle scope, and nothing is declared in one. The scope of
a superclass lies right outside that of the receiver, with no idle one between
them. The marks at which something can fail have an offset.

Key definitions: `Lox.shed`, `Lox.Busy`, `Lox.Expr.Sheds`, `Lox.Stmt.Sheds`.
-/
import Lox.Evaluation
import Mathlib.Data.List.Forall2

namespace Lox

/-! ### Distances -/

/-- A distance in which idle scopes do not count. -/
def shed : List Bool → Nat → Nat
  | _, 0 => 0
  | [], d + 1 => d + 1
  | true :: ls, d + 1 => shed ls d
  | false :: ls, d + 1 => shed ls d + 1

@[simp] theorem shed_zero (ls : List Bool) : shed ls 0 = 0 := by
  cases ls <;> rfl

/-- The scope at that distance is not idle. -/
def Busy (ls : List Bool) (d : Nat) : Prop := ls.getD d false = false

theorem busy_inside {ls : List Bool} : Busy (false :: ls) 0 := rfl

/-- The scope behind one that is not idle is one further out. -/
theorem shed_succ : ∀ {ls : List Bool} {d : Nat}, Busy ls d → shed ls (d + 1) = shed ls d + 1
  | [], 0, _ | [], _ + 1, _ | false :: _, 0, _ => by simp [shed]
  | true :: _, 0, h => nomatch h
  | true :: ls, d + 1, h | false :: ls, d + 1, h => by
    have h : Busy ls d := h
    simp [shed, shed_succ h]

/-- The record of a use, with and without idle scopes. -/
inductive HopsShed (ls : List Bool) : Option Nat → Option Nat → Prop
  | globals : HopsShed ls none none
  | out {d : Nat} : Busy ls d → HopsShed ls (some d) (some (shed ls d))

/-- The mark has an offset. -/
def Mark.Placed (m : Mark) : Prop := m.offset.isSome = true

/-! ### Expressions -/

/-- The use of a name sheds the idle scopes. -/
structure NameUse.Sheds (ls : List Bool) (use use' : NameUse) : Prop where
  name : use'.name = use.name
  placed : use.name.Placed
  hops : HopsShed ls use.hops use'.hops

/-- The expression sheds the idle scopes. -/
inductive Expr.Sheds (ls : List Bool) : Expr → Expr → Prop
  | literal (value : Literal) : Sheds ls (.literal value) (.literal value)
  | grouping {e e' : Expr} : Sheds ls e e' → Sheds ls (.grouping e) (.grouping e')
  | unary {op : Mark} {e e' : Expr} :
    op.Placed → Sheds ls e e' → Sheds ls (.unary op e) (.unary op e')
  | binary {l l' r r' : Expr} {op : Mark} :
    Sheds ls l l' → op.Placed → Sheds ls r r' → Sheds ls (.binary l op r) (.binary l' op r')
  | logical {l l' r r' : Expr} {op : Mark} :
    Sheds ls l l' → Sheds ls r r' → Sheds ls (.logical l op r) (.logical l' op r')
  | ternary {cond cond' yes yes' no no' : Expr} :
    Sheds ls cond cond' → Sheds ls yes yes' → Sheds ls no no' →
      Sheds ls (.ternary cond yes no) (.ternary cond' yes' no')
  | variable {use use' : NameUse} : use.Sheds ls use' → Sheds ls (.variable use) (.variable use')
  | assign {use use' : NameUse} {e e' : Expr} :
    use.Sheds ls use' → Sheds ls e e' → Sheds ls (.assign use e) (.assign use' e')
  | call {callee callee' : Expr} {paren : Mark} {args args' : List Expr} :
    Sheds ls callee callee' → paren.Placed → List.Forall₂ (Sheds ls) args args' →
      Sheds ls (.call callee paren args) (.call callee' paren args')
  | get {e e' : Expr} {name : Mark} :
    Sheds ls e e' → name.Placed → Sheds ls (.get e name) (.get e' name)
  | set {object object' value value' : Expr} {name : Mark} :
    Sheds ls object object' → name.Placed → Sheds ls value value' →
      Sheds ls (.set object name value) (.set object' name value')
  | receiver {use use' : NameUse} : use.Sheds ls use' → Sheds ls (.receiver use) (.receiver use')
  | superMethod {use use' : NameUse} {method : Mark} :
    use.Sheds ls use' → (∀ d, use.hops = some d → Busy ls (d - 1)) → method.Placed →
      Sheds ls (.superMethod use method) (.superMethod use' method)

/-! ### Statements -/

mutual

/-- The statement sheds the idle scopes. -/
inductive Stmt.Sheds : List Bool → Stmt → Stmt → Prop
  | expr {ls : List Bool} {e e' : Expr} : e.Sheds ls e' → Stmt.Sheds ls (.expr e) (.expr e')
  | print {ls : List Bool} {e e' : Expr} : e.Sheds ls e' → Stmt.Sheds ls (.print e) (.print e')
  | var {ls : List Bool} {name : Mark} {e e' : Option Expr} :
    Busy ls 0 → Option.Rel (Expr.Sheds ls) e e' → Stmt.Sheds ls (.var name e) (.var name e')
  | block {ls : List Bool} {body body' : List Stmt} :
    BodySheds (false :: ls) body body' → Stmt.Sheds ls (.block body) (.block body')
  | branch {ls : List Bool} {cond cond' : Expr} {yes yes' : Stmt} :
    cond.Sheds ls cond' → Stmt.Sheds ls yes yes' →
      Stmt.Sheds ls (.branch cond yes none) (.branch cond' yes' none)
  | branchElse {ls : List Bool} {cond cond' : Expr} {yes yes' no no' : Stmt} :
    cond.Sheds ls cond' → Stmt.Sheds ls yes yes' → Stmt.Sheds ls no no' →
      Stmt.Sheds ls (.branch cond yes (some no)) (.branch cond' yes' (some no'))
  | loop {ls : List Bool} {cond cond' : Expr} {body body' : Stmt} :
    cond.Sheds ls cond' → Stmt.Sheds ls body body' → Stmt.Sheds ls (.loop cond body) (.loop cond' body')
  | function {ls : List Bool} {decl decl' : Fun} :
    Busy ls 0 → FunctionSheds ls decl decl' → Stmt.Sheds ls (.function decl) (.function decl')
  | giveBack {ls : List Bool} {keyword : Mark} {e e' : Option Expr} :
    Option.Rel (Expr.Sheds ls) e e' → Stmt.Sheds ls (.giveBack keyword e) (.giveBack keyword e')
  | classDecl {ls : List Bool} {name : Mark} {ms ms' : List Fun} :
    Busy ls 0 → MethodsShed (false :: ls) ms ms' →
      Stmt.Sheds ls (.classDecl name none ms) (.classDecl name none ms')
  | subclass {ls : List Bool} {name : Mark} {use use' : NameUse} {ms ms' : List Fun} :
    Busy ls 0 → use.Sheds ls use' → MethodsShed (false :: false :: ls) ms ms' →
      Stmt.Sheds ls (.classDecl name (some use) ms) (.classDecl name (some use') ms')

inductive BodySheds : List Bool → List Stmt → List Stmt → Prop
  | nil {ls : List Bool} : BodySheds ls [] []
  | cons {ls : List Bool} {s s' : Stmt} {body body' : List Stmt} :
    Stmt.Sheds ls s s' → BodySheds ls body body' → BodySheds ls (s :: body) (s' :: body')

inductive FunctionSheds : List Bool → Fun → Fun → Prop
  | of {ls : List Bool} {name : Mark} {params : List Mark} {body body' : List Stmt} :
    BodySheds (false :: ls) body body' → FunctionSheds ls ⟨name, params, body⟩ ⟨name, params, body'⟩

inductive MethodsShed : List Bool → List Fun → List Fun → Prop
  | nil {ls : List Bool} : MethodsShed ls [] []
  | cons {ls : List Bool} {m m' : Fun} {ms ms' : List Fun} :
    FunctionSheds ls m m' → MethodsShed ls ms ms' → MethodsShed ls (m :: ms) (m' :: ms')

end

variable {ls : List Bool}

/-- It takes as many steps into both trees. -/
theorem Expr.Sheds.stepsIn_eq {e e' : Expr} (h : e.Sheds ls e') : e'.stepsIn = e.stepsIn := by
  cases h <;> rfl

theorem Stmt.Sheds.stepsIn_eq {s s' : Stmt} (h : s.Sheds ls s') : s'.stepsIn = s.stepsIn := by
  cases h <;> rfl

theorem FunctionSheds.name_eq {decl decl' : Fun} (h : FunctionSheds ls decl decl') :
    decl'.name = decl.name := by
  cases h
  rfl

theorem FunctionSheds.params_eq {decl decl' : Fun} (h : FunctionSheds ls decl decl') :
    decl'.params = decl.params := by
  cases h
  rfl

end Lox
