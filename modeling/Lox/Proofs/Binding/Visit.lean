/-
# The places that the pass of names comes by

Binding the names of a program comes by every part of its tree, and at each of
them some scopes are open (`Lox.Visited`). A scope is opened by a block, by a
function for its parameters and its body together, by a class for the receiver
of its methods, and around that by a class with a superclass for that
(`Lox.Opener`). So a place has a list of openers beside its scopes, one for
one, the innermost first.

Key definitions: `Lox.Opener`, `Lox.Construct`, `Lox.Visit`, `Lox.Visit.parts`,
`Lox.Visited`, `Lox.Visit.resolved?`.
-/
import Lox.Proofs.Grammar.Regular
import Lox.Resolution

namespace Lox

/-! ### What opens scopes -/

/-- The names that the statements of a body declare in its scope. -/
def declaredNames (body : List Stmt) : List String :=
  body.filterMap fun stmt => stmt.declared?.map (·.text)

/-- What opens a scope. Those of a class carry its name. -/
inductive Opener where
  | block (body : List Stmt)
  | call (decl : Fun)
  | receiver (cls : Mark)
  | superclass (cls : Mark)

/-- The names that the scope may come to bind. -/
def Opener.names : Opener → List String
  | .block body => declaredNames body
  | .call decl => decl.params.map (·.text) ++ declaredNames decl.body
  | .receiver _ => ["this"]
  | .superclass _ => ["super"]

/-! ### What the pass makes of a part, and where it is behind it -/

namespace Scoping

variable (σ : Scoping)

def boundExpr (e : Expr) : Expr := ((resolveExpr none e).run σ).1

def boundArgs (es : List Expr) : List Expr := ((resolveArgs none es).run σ).1

def boundStmt (s : Stmt) : Stmt := ((resolveStmt none s).run σ).1

def boundBody (body : List Stmt) : List Stmt := ((resolveBody none body).run σ).1

def boundFunction (kind : FunctionKind) (decl : Fun) : Fun :=
  ((resolveFunction none kind decl).run σ).1

def boundMethods (methods : List Fun) : List Fun := ((resolveMethods none methods).run σ).1

def behindExpr (e : Expr) : Scoping := ((resolveExpr none e).run σ).2

def behindArgs (es : List Expr) : Scoping := ((resolveArgs none es).run σ).2

def behindStmt (s : Stmt) : Scoping := ((resolveStmt none s).run σ).2

def behindBody (body : List Stmt) : Scoping := ((resolveBody none body).run σ).2

def behindFunction (kind : FunctionKind) (decl : Fun) : Scoping :=
  ((resolveFunction none kind decl).run σ).2

def behindMethods (methods : List Fun) : Scoping := ((resolveMethods none methods).run σ).2

/-- Before the initializer of a variable. -/
def initializing (name : Mark) : Scoping :=
  if (σ.declare name).scopes.isEmpty then (σ.declare name).suspend name.text
  else σ.declare name

/-- Behind the initializer of a variable, from where the pass is behind its expression. -/
def resetting (name : Mark) (τ : Scoping) : Scoping :=
  if (σ.declare name).scopes.isEmpty then τ.release name.text else τ

/-- Before the value that is given back. -/
def givingBack (keyword : Mark) : Scoping :=
  let noted := if σ.function = .none then σ.note .returnOutside keyword else σ
  if noted.function = .initializer then noted.note .valueFromInitializer keyword else noted

/-- Before the parts of a class: its name is declared and ready. -/
def declaringClass (name : Mark) : Scoping :=
  ({ σ with cls := .plain }.declare name).define name

/-- Before the use of a superclass. -/
def inheriting (name : Mark) (use : NameUse) : Scoping :=
  let inside := σ.declaringClass name
  { (if use.name.text = name.text then inside.note .inheritsItself use.name else inside) with
    cls := .subclass }

/-- Before the body of a function. -/
def enteringFunction (kind : FunctionKind) (params : List Mark) : Scoping :=
  ((declareParams params).run { σ.enter [] with function := kind }).2

variable {σ} in
/-- The pass of names leaves the name of a function as it is. -/
theorem boundFunction_name (kind : FunctionKind) (decl : Fun) :
    (σ.boundFunction kind decl).name = decl.name := by
  obtain ⟨name, params, body⟩ := decl
  rfl

end Scoping

/-! ### Places -/

/-- A part of a program. -/
inductive Construct where
  | expr (e : Expr)
  | args (es : List Expr)
  | stmt (s : Stmt)
  | body (body : List Stmt)
  | function (kind : FunctionKind) (decl : Fun)
  | methods (methods : List Fun)

/-- A part of a program with what is known where it stands: what the pass knows, and what opened
the scopes that are open. -/
structure Visit where
  construct : Construct
  scoping : Scoping
  openers : List Opener

namespace Visit

/-- What the pass knows behind the part. -/
def after (v : Visit) : Scoping :=
  match v.construct with
  | .expr e => v.scoping.behindExpr e
  | .args es => v.scoping.behindArgs es
  | .stmt s => v.scoping.behindStmt s
  | .body body => v.scoping.behindBody body
  | .function kind decl => v.scoping.behindFunction kind decl
  | .methods methods => v.scoping.behindMethods methods

/-- The parts that the pass comes by next, in its order. -/
def parts : Visit → List Visit
  | ⟨.expr e, σ, os⟩ =>
    match e with
    | .literal _ | .variable _ | .receiver _ | .superMethod .. | .stray _ => []
    | .grouping e | .unary _ e | .get e _ | .assign _ e => [⟨.expr e, σ, os⟩]
    | .binary l _ r | .logical l _ r => [⟨.expr l, σ, os⟩, ⟨.expr r, σ.behindExpr l, os⟩]
    | .ternary cond yes no =>
      [⟨.expr cond, σ, os⟩, ⟨.expr yes, σ.behindExpr cond, os⟩,
        ⟨.expr no, (σ.behindExpr cond).behindExpr yes, os⟩]
    | .call callee _ args => [⟨.expr callee, σ, os⟩, ⟨.args args, σ.behindExpr callee, os⟩]
    | .set object _ value => [⟨.expr value, σ, os⟩, ⟨.expr object, σ.behindExpr value, os⟩]
  | ⟨.args es, σ, os⟩ =>
    match es with
    | [] => []
    | e :: es => [⟨.expr e, σ, os⟩, ⟨.args es, σ.behindExpr e, os⟩]
  | ⟨.stmt s, σ, os⟩ =>
    match s with
    | .var _ none | .giveBack _ none | .stray _ => []
    | .expr e | .print e => [⟨.expr e, σ, os⟩]
    | .var name (some e) => [⟨.expr e, σ.initializing name, os⟩]
    | .block body => [⟨.body body, σ.enter [], .block body :: os⟩]
    | .branch cond yes none => [⟨.expr cond, σ, os⟩, ⟨.stmt yes, σ.behindExpr cond, os⟩]
    | .branch cond yes (some no) =>
      [⟨.expr cond, σ, os⟩, ⟨.stmt yes, σ.behindExpr cond, os⟩,
        ⟨.stmt no, (σ.behindExpr cond).behindStmt yes, os⟩]
    | .loop cond body => [⟨.expr cond, σ, os⟩, ⟨.stmt body, σ.behindExpr cond, os⟩]
    | .function decl => [⟨.function .function decl, (σ.declare decl.name).define decl.name, os⟩]
    | .giveBack keyword (some e) => [⟨.expr e, σ.givingBack keyword, os⟩]
    | .classDecl name none methods =>
      [⟨.methods methods, (σ.declaringClass name).enter ["this"], .receiver name :: os⟩]
    | .classDecl name (some use) methods =>
      [⟨.expr (.variable use), σ.inheriting name use, os⟩,
        ⟨.methods methods,
          (((σ.inheriting name use).behindExpr (.variable use)).enter ["super"]).enter ["this"],
          .receiver name :: .superclass name :: os⟩]
  | ⟨.body body, σ, os⟩ =>
    match body with
    | [] => []
    | s :: body => [⟨.stmt s, σ, os⟩, ⟨.body body, σ.behindStmt s, os⟩]
  | ⟨.function kind ⟨name, params, body⟩, σ, os⟩ =>
    [⟨.body body, σ.enteringFunction kind params, .call ⟨name, params, body⟩ :: os⟩]
  | ⟨.methods methods, σ, os⟩ =>
    match methods with
    | [] => []
    | m :: ms =>
      [⟨.function (methodKind m.name) m, σ, os⟩,
        ⟨.methods ms, σ.behindFunction (methodKind m.name) m, os⟩]

end Visit

/-- Binding the names of the program comes by the place. -/
inductive Visited (program : List Stmt) : Visit → Prop
  | program : Visited program ⟨.body program, .initial, []⟩
  | part {v w : Visit} : Visited program v → w ∈ v.parts → Visited program w

/-- What can be evaluated: an expression or a statement. -/
inductive Site where
  | expr (e : Expr)
  | stmt (s : Stmt)

/-- What the pass makes of the part: an expression or statement with its names bound. -/
def Visit.resolved? (v : Visit) : Option Site :=
  match v.construct with
  | .expr e => some (.expr (v.scoping.boundExpr e))
  | .stmt s => some (.stmt (v.scoping.boundStmt s))
  | _ => none

/-! ### What the pass does at the places -/

namespace Scoping

variable (σ : Scoping)

@[simp] theorem hops?_note (misuse : Misuse) (m : Mark) (name : String) :
    (σ.note misuse m).hops? name = σ.hops? name := rfl

theorem run_variable (use : NameUse) : (resolveVariable use).run σ =
    (⟨use.name, σ.hops? use.name.text⟩,
      if σ.unready use.name.text then σ.note .readInOwnInitializer use.name else σ) := by
  by_cases h : σ.unready use.name.text
  · simp only [resolveVariable, resolveUse, Resolve.run_bind, Resolve.run_get, Resolve.run_modify,
      Resolve.run_record, Resolve.run_pure, h, ↓reduceIte, hops?_note]
  · simp only [resolveVariable, resolveUse, Resolve.run_bind, Resolve.run_get, Resolve.run_record,
      Resolve.run_pure, h, Bool.false_eq_true, ↓reduceIte]

variable {σ} in
theorem boundExpr_variable (use : NameUse) :
    σ.boundExpr (.variable use) = .variable ⟨use.name, σ.hops? use.name.text⟩ := by
  show Expr.variable ((resolveVariable use).run σ).1 = _
  rw [run_variable]

theorem run_receiver (use : NameUse) : (resolveExpr none (.receiver use)).run σ =
    if σ.cls = .none then (.receiver use, σ.note .thisOutside use.name)
    else (.receiver ⟨use.name, σ.hops? use.name.text⟩, σ) := by
  by_cases h : σ.cls = .none
  · simp only [resolveExpr, further, Resolve.run_bind, Resolve.run_get, Resolve.run_modify,
      Resolve.run_pure, h, ↓reduceIte]
  · simp only [resolveExpr, further, resolveUse, Resolve.run_bind, Resolve.run_get, Resolve.run_record,
      Resolve.run_pure, h, ↓reduceIte]

/-- What is noted at a use of the superclass. -/
def usingSuper (use : NameUse) : Scoping :=
  match σ.cls with
  | .none => σ.note .superOutside use.name
  | .plain => σ.note .superWithoutSuperclass use.name
  | .subclass => σ

theorem run_superMethod (use : NameUse) (m : Mark) :
    (resolveExpr none (.superMethod use m)).run σ =
      (.superMethod ⟨use.name, σ.hops? use.name.text⟩ m, σ.usingSuper use) := by
  unfold usingSuper
  cases h : σ.cls with
  | none | plain | subclass =>
    simp only [resolveExpr, further, resolveUse, Resolve.run_bind, Resolve.run_get, Resolve.run_modify,
      Resolve.run_record, Resolve.run_pure, h, hops?_note]

variable {σ} in
theorem boundExpr_superMethod (use : NameUse) (m : Mark) :
    σ.boundExpr (.superMethod use m) = .superMethod ⟨use.name, σ.hops? use.name.text⟩ m := by
  rw [boundExpr, run_superMethod]

theorem run_var (name : Mark) (e : Expr) : (resolveStmt none (.var name (some e))).run σ =
    (.var name (some ((resolveExpr none e).run (σ.initializing name)).1),
      (σ.resetting name ((σ.initializing name).behindExpr e)).define name) := by
  by_cases h : (σ.declare name).scopes.isEmpty
  · simp only [resolveStmt, further, resolveInitializer, Resolve.run_bind, Resolve.run_modify,
      Resolve.run_get, Resolve.run_pure, initializing, h, ↓reduceIte, resetting]
    rfl
  · simp only [resolveStmt, further, resolveInitializer, Resolve.run_bind, Resolve.run_modify,
      Resolve.run_get, Resolve.run_pure, initializing, h, Bool.false_eq_true, ↓reduceIte, resetting]
    rfl

theorem run_giveBack_none (keyword : Mark) : (resolveStmt none (.giveBack keyword none)).run σ =
    (.giveBack keyword none,
      if σ.function = .none then σ.note .returnOutside keyword else σ) := by
  by_cases h : σ.function = .none
  · simp only [resolveStmt, further, Resolve.run_bind, Resolve.run_get, Resolve.run_modify,
      Resolve.run_pure, h, ↓reduceIte]
  · simp only [resolveStmt, further, Resolve.run_bind, Resolve.run_get, Resolve.run_pure, h,
      ↓reduceIte]

theorem run_giveBack (keyword : Mark) (e : Expr) :
    (resolveStmt none (.giveBack keyword (some e))).run σ =
      (.giveBack keyword (some ((resolveExpr none e).run (σ.givingBack keyword)).1),
        (σ.givingBack keyword).behindExpr e) := by
  by_cases h : σ.function = .none
  · have h' : (σ.note .returnOutside keyword).function = .none := h
    simp only [resolveStmt, further, Resolve.run_bind, Resolve.run_get, Resolve.run_modify,
      Resolve.run_pure, h, ↓reduceIte, h', reduceCtorEq, givingBack]
    rfl
  · by_cases h' : σ.function = .initializer
    · simp only [resolveStmt, further, Resolve.run_bind, Resolve.run_get, Resolve.run_modify,
        Resolve.run_pure, h', reduceCtorEq, ↓reduceIte, givingBack]
      rfl
    · simp only [resolveStmt, further, Resolve.run_bind, Resolve.run_get, Resolve.run_pure, h,
        ↓reduceIte, h', givingBack]
      rfl

theorem run_subclass (name : Mark) (use : NameUse) (ms : List Fun) :
    let inside := (((σ.inheriting name use).behindExpr (.variable use)).enter ["super"]).enter ["this"]
    (resolveStmt none (.classDecl name (some use) ms)).run σ =
      (.classDecl name (some ((resolveVariable use).run (σ.inheriting name use)).1)
        ((resolveMethods none ms).run inside).1,
        { (inside.behindMethods ms).leave.leave with cls := σ.cls }) := by
  by_cases h : use.name.text = name.text
  · simp only [resolveStmt, further, h, ↓reduceIte, Resolve.run_bind, Resolve.run_get,
      Resolve.run_modify, Resolve.run_pure, inheriting, declaringClass]
    rfl
  · simp only [resolveStmt, further, h, ↓reduceIte, Resolve.run_bind, Resolve.run_get,
      Resolve.run_modify, Resolve.run_pure, inheriting, declaringClass]
    rfl

section

variable {σ}

theorem boundStmt_var (name : Mark) (e : Expr) :
    σ.boundStmt (.var name (some e)) = .var name (some ((σ.initializing name).boundExpr e)) := by
  rw [boundStmt, run_var]
  rfl

theorem behindStmt_var (name : Mark) (e : Expr) : σ.behindStmt (.var name (some e)) =
    (σ.resetting name ((σ.initializing name).behindExpr e)).define name := by
  rw [behindStmt, run_var]

theorem boundStmt_giveBack_none (keyword : Mark) :
    σ.boundStmt (.giveBack keyword none) = .giveBack keyword none := by
  rw [boundStmt, run_giveBack_none]

theorem behindStmt_giveBack_none (keyword : Mark) : σ.behindStmt (.giveBack keyword none) =
    if σ.function = .none then σ.note .returnOutside keyword else σ := by
  rw [behindStmt, run_giveBack_none]

theorem boundStmt_giveBack (keyword : Mark) (e : Expr) : σ.boundStmt (.giveBack keyword (some e)) =
    .giveBack keyword (some ((σ.givingBack keyword).boundExpr e)) := by
  rw [boundStmt, run_giveBack]
  rfl

theorem behindStmt_giveBack (keyword : Mark) (e : Expr) :
    σ.behindStmt (.giveBack keyword (some e)) = (σ.givingBack keyword).behindExpr e := by
  rw [behindStmt, run_giveBack]

theorem boundStmt_subclass (name : Mark) (use : NameUse) (ms : List Fun) :
    σ.boundStmt (.classDecl name (some use) ms) =
      .classDecl name (some ⟨use.name, (σ.inheriting name use).hops? use.name.text⟩)
        (((((σ.inheriting name use).behindExpr (.variable use)).enter ["super"]).enter
          ["this"]).boundMethods ms) := by
  rw [boundStmt, run_subclass, run_variable]
  rfl

theorem behindStmt_subclass (name : Mark) (use : NameUse) (ms : List Fun) :
    σ.behindStmt (.classDecl name (some use) ms) =
      { (((((σ.inheriting name use).behindExpr (.variable use)).enter ["super"]).enter
          ["this"]).behindMethods ms).leave.leave with cls := σ.cls } := by
  rw [behindStmt, run_subclass]

end

/-! ### Reports only grow in number -/

/-- There are at least as many reports. -/
def Le (τ : Scoping) : Prop := σ.errors.size ≤ τ.errors.size

variable {σ} {τ υ : Scoping}

theorem Le.refl (σ : Scoping) : σ.Le σ := Nat.le_refl _

theorem Le.trans (h : σ.Le τ) (g : τ.Le υ) : σ.Le υ := Nat.le_trans h g

theorem le_note (misuse : Misuse) (m : Mark) : σ.Le (σ.note misuse m) := by
  simp [Le, note]

theorem le_declare (σ : Scoping) (m : Mark) : σ.Le (σ.declare m) := by
  unfold declare
  split
  · exact .refl σ
  · split
    · exact le_note .declaredTwice m
    · exact .refl σ

theorem define_errors (σ : Scoping) (m : Mark) : (σ.define m).errors = σ.errors := by
  unfold define
  split <;> rfl

theorem le_define (σ : Scoping) (m : Mark) : σ.Le (σ.define m) :=
  Nat.le_of_eq (by rw [define_errors])

theorem le_initializing (σ : Scoping) (name : Mark) : σ.Le (σ.initializing name) := by
  unfold initializing
  split
  · exact le_declare σ name
  · exact le_declare σ name

theorem le_givingBack (σ : Scoping) (keyword : Mark) : σ.Le (σ.givingBack keyword) := by
  have noted : ∀ (p : Prop) [Decidable p] (τ : Scoping) misuse,
      τ.Le (if p then τ.note misuse keyword else τ) := by
    intro p _ τ misuse
    split
    · exact le_note misuse keyword
    · exact .refl τ
  exact (noted (σ.function = .none) σ .returnOutside).trans (noted _ _ .valueFromInitializer)

theorem le_declaringClass (σ : Scoping) (name : Mark) : σ.Le (σ.declaringClass name) :=
  (le_declare { σ with cls := .plain } name).trans (le_define _ name)

/-- A superclass is used behind the declaration of the class. -/
theorem declaringClass_le_inheriting (σ : Scoping) (name : Mark) (use : NameUse) :
    (σ.declaringClass name).Le (σ.inheriting name use) := by
  unfold inheriting
  simp only
  split
  · exact le_note .inheritsItself use.name
  · exact .refl _

theorem le_inheriting (σ : Scoping) (name : Mark) (use : NameUse) :
    σ.Le (σ.inheriting name use) :=
  (le_declaringClass σ name).trans (declaringClass_le_inheriting σ name use)

theorem le_declareParams : ∀ params (σ : Scoping), σ.Le ((declareParams params).run σ).2
  | [], σ => .refl σ
  | param :: params, σ =>
    ((le_declare σ param).trans (le_define _ param)).trans (le_declareParams params _)

mutual

theorem le_behindExpr : ∀ (e : Expr) (σ : Scoping), σ.Le (σ.behindExpr e)
  | .literal _, σ => .refl σ
  | .grouping e, σ => le_behindExpr e σ
  | .unary _ e, σ => le_behindExpr e σ
  | .get e _, σ => le_behindExpr e σ
  | .assign _ e, σ => le_behindExpr e σ
  | .binary l _ r, σ => (le_behindExpr l σ).trans (le_behindExpr r _)
  | .logical l _ r, σ => (le_behindExpr l σ).trans (le_behindExpr r _)
  | .ternary cond yes no, σ =>
    ((le_behindExpr cond σ).trans (le_behindExpr yes _)).trans (le_behindExpr no _)
  | .call callee _ args, σ => (le_behindExpr callee σ).trans (le_behindArgs args _)
  | .set object _ value, σ => (le_behindExpr value σ).trans (le_behindExpr object _)
  | .variable use, σ => by
    show σ.Le ((resolveVariable use).run σ).2
    rw [run_variable]
    dsimp only
    split
    · exact le_note _ _
    · exact .refl σ
  | .receiver use, σ => by
    rw [behindExpr, run_receiver]
    split
    · exact le_note _ _
    · exact .refl σ
  | .superMethod use _, σ => by
    rw [behindExpr, run_superMethod]
    dsimp only [usingSuper]
    split
    · exact le_note _ _
    · exact le_note _ _
    · exact .refl σ
  | .stray _, σ => .refl σ

theorem le_behindArgs : ∀ (es : List Expr) (σ : Scoping), σ.Le (σ.behindArgs es)
  | [], σ => .refl σ
  | e :: es, σ => (le_behindExpr e σ).trans (le_behindArgs es _)

end

theorem le_enteringFunction (σ : Scoping) (kind : FunctionKind) (params : List Mark) :
    σ.Le (σ.enteringFunction kind params) :=
  le_declareParams params { σ.enter [] with function := kind }

mutual

theorem le_behindStmt : ∀ (s : Stmt) (σ : Scoping), σ.Le (σ.behindStmt s)
  | .expr e, σ => le_behindExpr e σ
  | .print e, σ => le_behindExpr e σ
  | .var name none, σ => (le_declare σ name).trans (le_define _ name)
  | .var name (some e), σ => by
    have h : σ.Le ((σ.initializing name).behindExpr e) :=
      (le_initializing σ name).trans (le_behindExpr e _)
    rw [behindStmt_var]
    refine Le.trans ?_ (le_define _ name)
    unfold resetting
    split
    · exact h
    · exact h
  | .block body, σ => le_behindBody body (σ.enter [])
  | .branch cond yes none, σ => (le_behindExpr cond σ).trans (le_behindStmt yes _)
  | .branch cond yes (some no), σ =>
    ((le_behindExpr cond σ).trans (le_behindStmt yes _)).trans (le_behindStmt no _)
  | .loop cond body, σ => (le_behindExpr cond σ).trans (le_behindStmt body _)
  | .function decl, σ =>
    ((le_declare σ decl.name).trans (le_define _ decl.name)).trans (le_behindFunction .function decl _)
  | .giveBack keyword none, σ => by
    rw [behindStmt_giveBack_none]
    split
    · exact le_note _ _
    · exact .refl σ
  | .giveBack keyword (some e), σ => by
    rw [behindStmt_giveBack]
    exact (le_givingBack σ keyword).trans (le_behindExpr e _)
  | .classDecl name none ms, σ =>
    (le_declaringClass σ name).trans (le_behindMethods ms ((σ.declaringClass name).enter ["this"]))
  | .classDecl name (some use) ms, σ => by
    rw [behindStmt_subclass]
    have huse := (le_inheriting σ name use).trans (le_behindExpr (.variable use) _)
    exact huse.trans (le_behindMethods ms (((Scoping.behindExpr _ _).enter ["super"]).enter ["this"]))
  | .stray _, σ => .refl σ

theorem le_behindBody : ∀ (body : List Stmt) (σ : Scoping), σ.Le (σ.behindBody body)
  | [], σ => .refl σ
  | s :: body, σ => (le_behindStmt s σ).trans (le_behindBody body _)

theorem le_behindFunction : ∀ (kind : FunctionKind) (decl : Fun) (σ : Scoping),
    σ.Le (σ.behindFunction kind decl)
  | kind, ⟨_, params, body⟩, σ =>
    (le_enteringFunction σ kind params).trans (le_behindBody body (σ.enteringFunction kind params))

theorem le_behindMethods : ∀ (ms : List Fun) (σ : Scoping), σ.Le (σ.behindMethods ms)
  | [], σ => .refl σ
  | m :: ms, σ => (le_behindFunction (methodKind m.name) m σ).trans (le_behindMethods ms _)

end

end Scoping

end Lox
