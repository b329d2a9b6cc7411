/-
# The misuses of a program

How names and words are misused can be told from a program's tree alone: each
of them stands in some surroundings (`Lox.Surroundings`), the functions and
classes around it, the names declared before it in its local scope, and the
variable whose initializer it is in; and a rule says when it is misused there
(`Lox.Surroundings.misuse?`). The pass of names keeps its own account of the
surroundings while it goes along the tree, and reports these misuses, each one
once and no others, in the order of the tree.

Key definitions: `Lox.Surroundings`, `Lox.Usage`, `Lox.Surroundings.misuse?`,
`Lox.bodyUsages`, `Lox.misuses`.
Key theorems: `Lox.Scoping.noted_behindExpr`, `Lox.Scoping.noted_behindStmt`,
`Lox.resolve_reports_misuses`.
-/
import Lox.Proofs.Binding.Gate

namespace Lox

/-! ### The rules -/

/-- A function or a method, seen from inside. -/
inductive Enclosing where
  | function
  | method (name : String)
  deriving DecidableEq

/-- What a place lies in. -/
structure Surroundings where
  /-- The functions and methods around it, the innermost first. -/
  functions : List Enclosing
  /-- The classes around it, the innermost first: whether they have a superclass. -/
  classes : List Bool
  /-- The names declared before it in its local scope, if it is in one. -/
  declared : Option (List String)
  /-- The variable whose initializer it is in. -/
  initialized : Option String

/-- What can be misused. -/
inductive Usage where
  | giveBack (keyword : Mark) (hasValue : Bool)
  | receiver (word : Mark)
  | superclass (word : Mark)
  | inheritance (name superclass : Mark)
  | declaration (name : Mark)
  | read (name : Mark)

namespace Surroundings

/-- At the top level. -/
def outermost : Surroundings := ⟨[], [], none, none⟩

/-- How something is misused in its surroundings, and the mark that is reported. -/
def misuse? (around : Surroundings) : Usage → Option (Misuse × Mark)
  | .giveBack keyword hasValue =>
    if around.functions = [] then some (.returnOutside, keyword)
    else if hasValue && around.functions.head? = some (.method "init") then
      some (.valueFromInitializer, keyword)
    else none
  | .receiver word => if around.classes = [] then some (.thisOutside, word) else none
  | .superclass word =>
    match around.classes with
    | [] => some (.superOutside, word)
    | false :: _ => some (.superWithoutSuperclass, word)
    | true :: _ => none
  | .inheritance name superclass =>
    if superclass.text = name.text then some (.inheritsItself, superclass) else none
  | .declaration name =>
    if around.declared.any (·.contains name.text) then some (.declaredTwice, name) else none
  | .read name =>
    if around.initialized = some name.text then some (.readInOwnInitializer, name) else none

/-- Behind declarations in the same scope. -/
def declaring (around : Surroundings) (names : List Mark) : Surroundings :=
  { around with declared := around.declared.map (· ++ names.map (·.text)) }

/-- In the initializer of a variable, which is declared. -/
def initializing (around : Surroundings) (name : Mark) : Surroundings :=
  { around.declaring [name] with initialized := some name.text }

/-- In a block. -/
def entering (around : Surroundings) : Surroundings :=
  { around with declared := some [] }

/-- In a function, before its parameters. -/
def calling (around : Surroundings) (enclosing : Enclosing) : Surroundings :=
  { around with functions := enclosing :: around.functions, declared := some [] }

/-- In a class. -/
def inClass (around : Surroundings) (inherits : Bool) : Surroundings :=
  { around with classes := inherits :: around.classes }

end Surroundings

/-- The misuses among usages in their surroundings. -/
def misuses (usages : List (Surroundings × Usage)) : List ScopeError :=
  usages.filterMap fun (around, usage) =>
    (around.misuse? usage).map fun (misuse, m) => ⟨misuse, m.offset⟩

/-! ### What is used where -/

section

variable (around : Surroundings)

mutual

/-- What is used in an expression. An assigned value stands before the object assigned to. -/
def Expr.usages : Expr → List (Surroundings × Usage)
  | .literal _ | .stray _ => []
  | .grouping e | .unary _ e | .get e _ | .assign _ e => e.usages
  | .binary left _ right | .logical left _ right => left.usages ++ right.usages
  | .ternary cond yes no => cond.usages ++ yes.usages ++ no.usages
  | .call callee _ args => callee.usages ++ argUsages args
  | .set object _ value => value.usages ++ object.usages
  | .variable use => [(around, .read use.name)]
  | .receiver use => [(around, .receiver use.name)]
  | .superMethod use _ => [(around, .superclass use.name)]

def argUsages : List Expr → List (Surroundings × Usage)
  | [] => []
  | arg :: args => arg.usages ++ argUsages args

end

/-- What is used in an expression that may be absent. -/
def optionUsages : Option Expr → List (Surroundings × Usage)
  | none => []
  | some e => e.usages around

end

/-- The declarations that a statement makes in the scope that it stands in. -/
def Stmt.declarations : Stmt → List Mark
  | .var name _ | .classDecl name _ _ => [name]
  | .function decl => [decl.name]
  | .branch _ yes none => yes.declarations
  | .branch _ yes (some no) => yes.declarations ++ no.declarations
  | .loop _ body => body.declarations
  | .expr _ | .print _ | .block _ | .giveBack _ _ | .stray _ => []

/-- The parameters of a function, each behind the ones before it. -/
def paramUsages (around : Surroundings) : List Mark → List (Surroundings × Usage)
  | [] => []
  | param :: params => (around, .declaration param) :: paramUsages (around.declaring [param]) params

mutual

/-- What is used in a statement. -/
def Stmt.usages (around : Surroundings) : Stmt → List (Surroundings × Usage)
  | .expr e | .print e => e.usages around
  | .var name initial =>
    (around, .declaration name) :: optionUsages (around.initializing name) initial
  | .block body => bodyUsages around.entering body
  | .branch cond yes none => cond.usages around ++ yes.usages around
  | .branch cond yes (some no) =>
    cond.usages around ++ yes.usages around ++ no.usages (around.declaring yes.declarations)
  | .loop cond body => cond.usages around ++ body.usages around
  | .function decl => (around, .declaration decl.name) :: functionUsages around .function decl
  | .giveBack keyword value =>
    (around, .giveBack keyword value.isSome) :: optionUsages around value
  | .classDecl name none methods =>
    (around, .declaration name) :: methodUsages (around.inClass false) methods
  | .classDecl name (some use) methods =>
    (around, .declaration name) :: (around, .inheritance name use.name) ::
      methodUsages (around.inClass true) methods
  | .stray _ => []

/-- What is used in the statements of a body, each behind the declarations of the ones before it. -/
def bodyUsages (around : Surroundings) : List Stmt → List (Surroundings × Usage)
  | [] => []
  | stmt :: body => stmt.usages around ++ bodyUsages (around.declaring stmt.declarations) body

/-- What is used in a function. Its parameters and its body have one scope. -/
def functionUsages (around : Surroundings) (enclosing : Enclosing) :
    Fun → List (Surroundings × Usage)
  | ⟨_, params, body⟩ =>
    paramUsages (around.calling enclosing) params ++
      bodyUsages ((around.calling enclosing).declaring params) body

def methodUsages (around : Surroundings) : List Fun → List (Surroundings × Usage)
  | [] => []
  | ⟨name, params, body⟩ :: methods =>
    functionUsages around (.method name.text) ⟨name, params, body⟩ ++ methodUsages around methods

end

@[simp] theorem misuses_append (usages more : List (Surroundings × Usage)) :
    misuses (usages ++ more) = misuses usages ++ misuses more :=
  List.filterMap_append

theorem misuses_cons (around : Surroundings) (usage : Usage) (more : List (Surroundings × Usage)) :
    misuses ((around, usage) :: more) = misuses [(around, usage)] ++ misuses more :=
  misuses_append [(around, usage)] more

namespace Surroundings

/-- The kind of the innermost function around. -/
def functionKind (around : Surroundings) : FunctionKind :=
  match around.functions with
  | [] => .none
  | .function :: _ => .function
  | .method name :: _ => if name = "init" then .initializer else .method

/-- The kind of the innermost class around. -/
def classKind (around : Surroundings) : ClassKind :=
  match around.classes with
  | [] => .none
  | false :: _ => .plain
  | true :: _ => .subclass

end Surroundings

namespace Scoping

variable {σ τ υ : Scoping} {es fs : List ScopeError} {around : Surroundings}

/-! ### More is noted -/

/-- With more misuses noted, and perhaps a node out of place. -/
def noting (es : List ScopeError) (m : Option Misplaced) (σ : Scoping) : Scoping :=
  { σ with errors := σ.errors ++ es.toArray, misplaced := m }

/-- Nothing is different but that these misuses were noted. -/
def Noted (σ : Scoping) (es : List ScopeError) (τ : Scoping) : Prop := ∃ m, τ = σ.noting es m

theorem Noted.refl (σ : Scoping) : Noted σ [] σ := ⟨σ.misplaced, by simp [noting]⟩

theorem Noted.trans (h : Noted σ es τ) (g : Noted τ fs υ) : Noted σ (es ++ fs) υ := by
  obtain ⟨m, rfl⟩ := h
  obtain ⟨m', rfl⟩ := g
  exact ⟨m', by simp [noting]⟩

theorem noted_note (σ : Scoping) (misuse : Misuse) (m : Mark) :
    Noted σ [⟨misuse, m.offset⟩] (σ.note misuse m) :=
  ⟨σ.misplaced, by simp [noting, note]⟩

/-- What is misused is noted. -/
theorem noted_misuse {usage : Usage} {misuse : Misuse} {m : Mark}
    (h : around.misuse? usage = some (misuse, m)) :
    Noted σ (misuses [(around, usage)]) (σ.note misuse m) := by
  have hmisuses : misuses [(around, usage)] = [⟨misuse, m.offset⟩] := by simp [misuses, h]
  rw [hmisuses]
  exact noted_note σ misuse m

/-- Of what is not misused nothing is noted. -/
theorem noted_nothing {usage : Usage} (h : around.misuse? usage = none) :
    Noted σ (misuses [(around, usage)]) σ := by
  have hmisuses : misuses [(around, usage)] = [] := by simp [misuses, h]
  rw [hmisuses]
  exact .refl σ

theorem noted_noteMisplaced (σ : Scoping) (m : Misplaced) : Noted σ [] (σ.noteMisplaced m) :=
  ⟨σ.misplaced.or (some m), by simp [noting, noteMisplaced]⟩

/-- What changes something else commutes with noting. -/
theorem Noted.map (h : Noted σ es τ) {f : Scoping → Scoping}
    (hf : ∀ m, f (σ.noting es m) = (f σ).noting es m) : Noted (f σ) es (f τ) := by
  obtain ⟨m, rfl⟩ := h
  exact ⟨m, hf m⟩

theorem Noted.define (h : Noted σ es τ) (m : Mark) : Noted (σ.define m) es (τ.define m) := by
  refine h.map fun misplaced => ?_
  unfold Scoping.define
  cases hs : σ.scopes with
  | nil | cons _ _ => simp [noting, hs]

theorem Noted.defineAll (h : Noted σ es τ) : ∀ ms : List Mark,
    Noted (σ.defineAll ms) es (τ.defineAll ms) := by
  intro ms
  induction ms generalizing σ τ with
  | nil => exact h
  | cons m ms ih => exact ih (h.define m)

theorem Noted.leave (h : Noted σ es τ) : Noted σ.leave es τ.leave := h.map fun _ => rfl

theorem Noted.pending (h : Noted σ es τ) : τ.pending = σ.pending := by
  obtain ⟨m, rfl⟩ := h
  rfl

theorem Noted.cls (h : Noted σ es τ) : τ.cls = σ.cls := by
  obtain ⟨m, rfl⟩ := h
  rfl

theorem Noted.errors (h : Noted σ es τ) : τ.errors.toList = σ.errors.toList ++ es := by
  obtain ⟨m, rfl⟩ := h
  simp [noting]

/-! ### The account of the surroundings -/

/-- What the pass knows of the functions, the classes and the initializer around a place. -/
structure Inside (around : Surroundings) (σ : Scoping) : Prop where
  function : σ.function = around.functionKind
  cls : σ.cls = around.classKind
  unready : ∀ name, σ.unready name = true ↔ around.initialized = some name

/-- What the pass knows before a statement: the names in its scope too. -/
structure Meets (around : Surroundings) (σ : Scoping) : Prop extends Inside around σ where
  globals : around.declared = none → σ.scopes = []
  locals : ∀ names, around.declared = some names → ∃ scope outer, σ.scopes = scope :: outer ∧
    ∀ name, scope.contains name = names.contains name
  idle : around.initialized = none
  settled : σ.pending = []

theorem Inside.noted (h : Inside around σ) (g : Noted σ es τ) : Inside around τ := by
  obtain ⟨m, rfl⟩ := g
  exact ⟨h.function, h.cls, h.unready⟩

theorem Meets.noted (h : Meets around σ) (g : Noted σ es τ) : Meets around τ := by
  obtain ⟨m, rfl⟩ := g
  exact ⟨h.toInside.noted ⟨m, rfl⟩, h.globals, h.locals, h.idle, h.settled⟩

/-! ### Expressions -/

theorem noted_variable (h : Inside around σ) (use : NameUse) :
    Noted σ (misuses [(around, .read use.name)]) (σ.behindExpr (.variable use)) := by
  show Noted σ _ ((resolveVariable use).run σ).2
  rw [run_variable]
  by_cases hread : around.initialized = some use.name.text
  · rw [if_pos ((h.unready _).mpr hread)]
    exact noted_misuse (by simp [Surroundings.misuse?, hread])
  · rw [if_neg fun hunready => hread ((h.unready _).mp hunready)]
    exact noted_nothing (by simp [Surroundings.misuse?, hread])

theorem noted_receiver (h : Inside around σ) (use : NameUse) :
    Noted σ (misuses [(around, .receiver use.name)]) (σ.behindExpr (.receiver use)) := by
  rw [behindExpr, run_receiver, h.cls]
  unfold Surroundings.classKind
  cases hclasses : around.classes with
  | nil => exact noted_misuse (by simp [Surroundings.misuse?, hclasses])
  | cons inherits classes =>
    cases inherits with
    | false | true => exact noted_nothing (by simp [Surroundings.misuse?, hclasses])

theorem noted_superMethod (h : Inside around σ) (use : NameUse) (m : Mark) :
    Noted σ (misuses [(around, .superclass use.name)]) (σ.behindExpr (.superMethod use m)) := by
  rw [behindExpr, run_superMethod]
  show Noted σ _ (σ.usingSuper use)
  unfold usingSuper
  rw [h.cls]
  unfold Surroundings.classKind
  cases hclasses : around.classes with
  | nil => exact noted_misuse (by simp [Surroundings.misuse?, hclasses])
  | cons inherits classes =>
    cases inherits with
    | false => exact noted_misuse (by simp [Surroundings.misuse?, hclasses])
    | true => exact noted_nothing (by simp [Surroundings.misuse?, hclasses])

mutual

/-- Behind an expression its misuses are noted, and nothing else is different. -/
theorem noted_behindExpr : ∀ (e : Expr) {σ : Scoping}, Inside around σ →
    Noted σ (misuses (e.usages around)) (σ.behindExpr e)
  | .literal _, σ, _ => .refl σ
  | .stray node, σ, _ => noted_noteMisplaced σ _
  | .grouping e, _, h | .unary _ e, _, h | .get e _, _, h | .assign _ e, _, h =>
    noted_behindExpr e h
  | .binary left _ right, σ, h | .logical left _ right, σ, h => by
    have hleft := noted_behindExpr left h
    have hright := noted_behindExpr right (h.noted hleft)
    rw [Expr.usages, misuses_append]
    exact hleft.trans hright
  | .ternary cond yes no, σ, h => by
    have hcond := noted_behindExpr cond h
    have hyes := noted_behindExpr yes (h.noted hcond)
    have hno := noted_behindExpr no ((h.noted hcond).noted hyes)
    rw [Expr.usages, misuses_append, misuses_append]
    exact (hcond.trans hyes).trans hno
  | .call callee _ args, σ, h => by
    have hcallee := noted_behindExpr callee h
    have hargs := noted_behindArgs args (h.noted hcallee)
    rw [Expr.usages, misuses_append]
    exact hcallee.trans hargs
  | .set object _ value, σ, h => by
    have hvalue := noted_behindExpr value h
    have hobject := noted_behindExpr object (h.noted hvalue)
    rw [Expr.usages, misuses_append]
    exact hvalue.trans hobject
  | .variable use, _, h => noted_variable h use
  | .receiver use, _, h => noted_receiver h use
  | .superMethod use m, _, h => noted_superMethod h use m

theorem noted_behindArgs : ∀ (args : List Expr) {σ : Scoping}, Inside around σ →
    Noted σ (misuses (argUsages around args)) (σ.behindArgs args)
  | [], σ, _ => .refl σ
  | arg :: args, σ, h => by
    have harg := noted_behindExpr arg h
    have hargs := noted_behindArgs args (h.noted harg)
    rw [argUsages, misuses_append]
    exact harg.trans hargs

end

/-! ### Declarations -/

/-- A declaration is noted if its name is in the scope. -/
theorem noted_define_declare (h : Meets around σ) (m : Mark) :
    Noted (σ.define m) (misuses [(around, .declaration m)]) ((σ.declare m).define m) := by
  cases hdeclared : around.declared with
  | none =>
    rw [declare_of_nil (h.globals hdeclared)]
    exact noted_nothing (by simp [Surroundings.misuse?, hdeclared])
  | some names =>
    obtain ⟨scope, outer, hscopes, hcontains⟩ := h.locals names hdeclared
    cases hm : names.contains m.text with
    | false =>
      have hnot : m.text ∉ names := by simpa using hm
      rw [declare_of_fresh hscopes ((hcontains _).trans hm), define_of_cons hscopes,
        define_of_cons rfl, Bindings.bind_bind]
      exact noted_nothing (by simp [Surroundings.misuse?, hdeclared, hnot])
    | true =>
      have hmem : m.text ∈ names := by simpa using hm
      have hmisuse : around.misuse? (.declaration m) = some (.declaredTwice, m) := by
        simp [Surroundings.misuse?, hdeclared, hmem]
      have hdeclare : σ.declare m =
          { σ.note .declaredTwice m with scopes := scope.bind m.text false :: outer } := by
        simp only [declare, hscopes, (hcontains _).trans hm, if_true]
      rw [hdeclare, define_of_cons hscopes, define_of_cons rfl, Bindings.bind_bind]
      exact (noted_misuse (σ := σ) hmisuse).map
        (f := fun τ => { τ with scopes := scope.bind m.text true :: outer }) fun _ => rfl

theorem declaring_nil (around : Surroundings) : around.declaring [] = around := by
  simp [Surroundings.declaring]

theorem declaring_append (around : Surroundings) (ms more : List Mark) :
    around.declaring (ms ++ more) = (around.declaring ms).declaring more := by
  simp [Surroundings.declaring, Function.comp_def]

theorem defineAll_append (σ : Scoping) (ms more : List Mark) :
    σ.defineAll (ms ++ more) = (σ.defineAll ms).defineAll more :=
  List.foldl_append

/-- Before a statement every name is ready. -/
theorem Meets.ready (h : Meets around σ) (name : String) : σ.unready name = false := by
  rw [← Bool.not_eq_true, h.unready, h.idle]
  exact fun hnone => by cases hnone

/-- Behind a declaration its name is in the scope, and ready. -/
theorem Meets.define (h : Meets around σ) (m : Mark) : Meets (around.declaring [m]) (σ.define m) := by
  cases hdeclared : around.declared with
  | none =>
    have hscopes := h.globals hdeclared
    rw [define_of_nil hscopes]
    refine ⟨⟨h.function, h.cls, h.unready⟩, fun _ => hscopes, fun names hnames => ?_, h.idle, h.settled⟩
    simp [Surroundings.declaring, hdeclared] at hnames
  | some names =>
    obtain ⟨scope, outer, hscopes, hcontains⟩ := h.locals names hdeclared
    rw [define_of_cons hscopes]
    refine ⟨⟨h.function, h.cls, fun name => ?_⟩, fun hnone => ?_, fun names' hnames => ?_, h.idle,
      h.settled⟩
    · have hold := h.ready name
      simp only [unready, hscopes] at hold
      simp only [unready, Bindings.get?_bind]
      show _ ↔ around.initialized = some name
      rw [h.idle]
      by_cases hname : name = m.text
      · simp [hname]
      · simpa [hname] using hold
    · simp [Surroundings.declaring, hdeclared] at hnone
    · refine ⟨_, outer, rfl, fun name => ?_⟩
      obtain rfl : names ++ [m.text] = names' := by
        simpa [Surroundings.declaring, hdeclared] using hnames
      have hold := hcontains name
      unfold Bindings.contains at hold ⊢
      rw [Bindings.get?_bind]
      by_cases hname : name = m.text
      · simp [hname]
      · simp [hname, hold]

theorem Meets.defineAll : ∀ (ms : List Mark) {σ : Scoping} {around : Surroundings},
    Meets around σ → Meets (around.declaring ms) (σ.defineAll ms)
  | [], σ, around, h => by
    rw [declaring_nil]
    exact h
  | m :: ms, σ, around, h => by
    have hms := Meets.defineAll ms (h.define m)
    rw [← declaring_append] at hms
    exact hms

/-- In the initializer of a variable its name is not ready. -/
theorem inside_initializing (h : Meets around σ) (name : Mark) :
    Inside (around.initializing name) (σ.initializing name) := by
  unfold initializing
  cases hscopes : σ.scopes with
  | nil =>
    rw [declare_of_nil hscopes, hscopes]
    refine ⟨h.function, h.cls, fun other => ?_⟩
    exact (unready_suspend hscopes h.settled).trans Option.some_inj.symm
  | cons scope outer =>
    have hdeclare : (σ.declare name).scopes = scope.bind name.text false :: outer := by
      simp only [declare, hscopes]
    have hkinds : (σ.declare name).function = σ.function ∧ (σ.declare name).cls = σ.cls := by
      simp only [declare, hscopes]
      split
      · exact ⟨rfl, rfl⟩
      · exact ⟨rfl, rfl⟩
    rw [hdeclare]
    refine ⟨hkinds.1.trans h.function, hkinds.2.trans h.cls, fun other => ?_⟩
    have hold := h.ready other
    simp only [unready, hscopes] at hold
    simp only [List.isEmpty_cons, Bool.false_eq_true, if_false, unready, hdeclare,
      Bindings.get?_bind]
    show _ ↔ some name.text = some other
    by_cases hname : other = name.text
    · simp [hname]
    · simp [hname, Ne.symm hname] at hold ⊢
      exact hold

/-- Behind the initializer there is only the declaration, but for what was noted. -/
theorem Noted.resetting {name : Mark} (h : Meets around σ) (g : Noted (σ.initializing name) es τ) :
    Noted (σ.declare name) es (σ.resetting name τ) := by
  have hmap := g.map (f := σ.resetting name) fun _ => by
    unfold Scoping.resetting
    split
    · rfl
    · rfl
  rwa [resetting_initializing h.settled] at hmap

/-! ### Scopes -/

/-- What the pass knows before a function, whose scope is to come. -/
structure Hosts (around : Surroundings) (σ : Scoping) : Prop where
  cls : σ.cls = around.classKind
  idle : around.initialized = none
  settled : σ.pending = []

theorem Meets.hosts (h : Meets around σ) : Hosts around σ := ⟨h.cls, h.idle, h.settled⟩

theorem Hosts.noted (h : Hosts around σ) (g : Noted σ es τ) : Hosts around τ :=
  ⟨g.cls.trans h.cls, h.idle, g.pending.trans h.settled⟩

theorem Hosts.define (h : Hosts around σ) (m : Mark) : Hosts around (σ.define m) :=
  ⟨(define_cls σ m).trans h.cls, h.idle, (define_pending m).trans h.settled⟩

theorem Hosts.enter (h : Hosts around σ) (names : List String) : Hosts around (σ.enter names) :=
  ⟨h.cls, h.idle, h.settled⟩

/-- A scope without names meets the surroundings that have none declared. -/
theorem Hosts.meets (h : Hosts around σ) (hfunction : σ.function = around.functionKind)
    (hdeclared : around.declared = some []) : Meets around (σ.enter []) where
  function := hfunction
  cls := h.cls
  unready name := by
    rw [h.idle]
    exact ⟨fun hunready => (by cases hunready), fun hsome => (by cases hsome)⟩
  globals hnone := by
    rw [hdeclared] at hnone
    cases hnone
  locals names hnames := by
    obtain rfl : [] = names := Option.some.inj (hdeclared.symm.trans hnames)
    exact ⟨_, _, rfl, fun _ => rfl⟩
  idle := h.idle
  settled := h.settled

theorem Meets.enter (h : Meets around σ) : Meets around.entering (σ.enter []) :=
  Hosts.meets ⟨h.cls, h.idle, h.settled⟩ h.function rfl

/-- A function that is entered has a scope of its own. -/
theorem Hosts.call (h : Hosts around σ) (enclosing : Enclosing) :
    Meets (around.calling enclosing)
      { σ.enter [] with function := (around.calling enclosing).functionKind } :=
  Hosts.meets (σ := { σ with function := (around.calling enclosing).functionKind })
    ⟨h.cls, h.idle, h.settled⟩ rfl rfl

theorem Meets.inClass (h : Meets around σ) (inherits : Bool) :
    Meets (around.inClass inherits) { σ with cls := (around.inClass inherits).classKind } :=
  ⟨⟨h.function, rfl, h.unready⟩, h.globals, h.locals, h.idle, h.settled⟩

/-- It makes no difference to a declaration which class it is in. -/
theorem define_cls_comm (σ : Scoping) (cls : ClassKind) (m : Mark) :
    Scoping.define m { σ with cls := cls } = { σ.define m with cls := cls } := by
  unfold Scoping.define
  cases hs : σ.scopes with
  | nil => simp [hs]
  | cons scope outer => simp

/-- Back in the class that was around before, or in none. -/
theorem Noted.outOfClass {cls : ClassKind} {m : Mark}
    (h : Noted (Scoping.define m { σ with cls := cls }) es τ) :
    Noted (σ.define m) es { τ with cls := σ.cls } := by
  have hmap := h.map (f := fun υ => { υ with cls := σ.cls }) fun _ => rfl
  rw [define_cls_comm] at hmap
  have hback : σ.define m = { σ.define m with cls := σ.cls } := by rw [← define_cls σ m]
  rw [hback]
  exact hmap

theorem noted_declareParams : ∀ (params : List Mark) {σ : Scoping} {around : Surroundings},
    Meets around σ → Noted (σ.defineAll params) (misuses (paramUsages around params))
      ((declareParams params).run σ).2
  | [], σ, _, _ => .refl σ
  | param :: params, σ, around, h => by
    have hparam := noted_define_declare h param
    have hparams := noted_declareParams params ((h.define param).noted hparam)
    rw [paramUsages, misuses_cons]
    exact (hparam.defineAll params).trans hparams

/-! ### Statements -/

theorem noted_returnOutside (h : Meets around σ) (keyword : Mark) :
    Noted σ (misuses [(around, .giveBack keyword false)])
      (if σ.function = .none then σ.note .returnOutside keyword else σ) := by
  rw [h.function]
  unfold Surroundings.functionKind
  cases hfunctions : around.functions with
  | nil => exact noted_misuse (by simp [Surroundings.misuse?, hfunctions])
  | cons enclosing functions =>
    have hfine : Noted σ (misuses [(around, .giveBack keyword false)]) σ :=
      noted_nothing (by simp [Surroundings.misuse?, hfunctions])
    cases enclosing with
    | function => exact hfine
    | method name =>
      by_cases hinit : name = "init"
      · simpa [hinit] using hfine
      · simpa [hinit] using hfine

theorem noted_givingBack (h : Meets around σ) (keyword : Mark) :
    Noted σ (misuses [(around, .giveBack keyword true)]) (σ.givingBack keyword) := by
  have hkind := h.function
  unfold givingBack
  cases hfunctions : around.functions with
  | nil =>
    rw [Surroundings.functionKind, hfunctions] at hkind
    have hnot : (σ.note .returnOutside keyword).function ≠ .initializer := by
      show σ.function ≠ _
      rw [hkind]
      decide
    dsimp only
    rw [if_pos hkind, if_neg hnot]
    exact noted_misuse (by simp [Surroundings.misuse?, hfunctions])
  | cons enclosing functions =>
    rw [Surroundings.functionKind, hfunctions] at hkind
    cases enclosing with
    | function =>
      have hfine : Noted σ (misuses [(around, .giveBack keyword true)]) σ :=
        noted_nothing (by simp [Surroundings.misuse?, hfunctions])
      simpa [hkind] using hfine
    | method name =>
      by_cases hinit : name = "init"
      · have hmisuse : around.misuse? (.giveBack keyword true) =
            some (.valueFromInitializer, keyword) := by
          simp [Surroundings.misuse?, hfunctions, hinit]
        simpa [hkind, hinit] using noted_misuse (σ := σ) hmisuse
      · have hfine : Noted σ (misuses [(around, .giveBack keyword true)]) σ :=
          noted_nothing (by simp [Surroundings.misuse?, hfunctions, hinit])
        simpa [hkind, hinit] using hfine

theorem noted_inheriting (h : Meets around σ) (name : Mark) (use : NameUse) :
    Noted (Scoping.define name { σ with cls := .subclass })
      (misuses [(around, .declaration name), (around, .inheritance name use.name)])
      (σ.inheriting name use) := by
  have hname := noted_define_declare (h.inClass false) name
  have hinherit : Noted (σ.declaringClass name) (misuses [(around, .inheritance name use.name)])
      (if use.name.text = name.text then (σ.declaringClass name).note .inheritsItself use.name
        else σ.declaringClass name) := by
    by_cases hsame : use.name.text = name.text
    · rw [if_pos hsame]
      exact noted_misuse (by simp [Surroundings.misuse?, hsame])
    · rw [if_neg hsame]
      exact noted_nothing (by simp [Surroundings.misuse?, hsame])
  have hboth := (hname.trans hinherit).map (f := fun υ => { υ with cls := .subclass }) fun _ => rfl
  rw [define_cls_comm] at hboth
  rw [define_cls_comm, misuses_cons]
  exact hboth

mutual

/-- Behind a statement its misuses are noted, what it declares is ready, and nothing else is
different. -/
theorem noted_behindStmt : ∀ (s : Stmt) {σ : Scoping} {around : Surroundings}, Meets around σ →
    Noted (σ.defineAll s.declarations) (misuses (s.usages around)) (σ.behindStmt s)
  | .expr e, _, _, h | .print e, _, _, h => noted_behindExpr e h.toInside
  | .stray node, σ, _, _ => noted_noteMisplaced σ _
  | .var name none, σ, around, h => by
    rw [Stmt.usages, optionUsages]
    exact noted_define_declare h name
  | .var name (some e), σ, around, h => by
    have hinitial := noted_behindExpr e (inside_initializing h name)
    have hreset := Noted.resetting h hinitial
    rw [Stmt.usages, optionUsages, misuses_cons, behindStmt_var]
    exact (noted_define_declare h name).trans (hreset.define name)
  | .block body, σ, around, h => by
    have hbody := (noted_behindBody body h.enter).leave
    rwa [(leave_defineAll _ (by simp [Scoping.enter])).1, leave_enter] at hbody
  | .branch cond yes none, σ, around, h => by
    have hcond := noted_behindExpr cond h.toInside
    have hyes := noted_behindStmt yes (h.noted hcond)
    rw [Stmt.usages, misuses_append]
    exact (hcond.defineAll _).trans hyes
  | .branch cond yes (some no), σ, around, h => by
    have hcond := noted_behindExpr cond h.toInside
    have hyes := noted_behindStmt yes (h.noted hcond)
    have hbefore := (hcond.defineAll _).trans hyes
    have hno := noted_behindStmt no ((h.defineAll _).noted hbefore)
    rw [Stmt.usages, Stmt.declarations, misuses_append, misuses_append, defineAll_append]
    exact (hbefore.defineAll _).trans hno
  | .loop cond body, σ, around, h => by
    have hcond := noted_behindExpr cond h.toInside
    have hbody := noted_behindStmt body (h.noted hcond)
    rw [Stmt.usages, misuses_append]
    exact (hcond.defineAll _).trans hbody
  | .function decl, σ, around, h => by
    have hname := noted_define_declare h decl.name
    have hbody := noted_behindFunction .function decl ((h.hosts.define decl.name).noted hname)
    rw [Stmt.usages, misuses_cons]
    exact hname.trans hbody
  | .giveBack keyword none, σ, around, h => by
    rw [Stmt.usages, behindStmt_giveBack_none]
    exact noted_returnOutside h keyword
  | .giveBack keyword (some e), σ, around, h => by
    have hkeyword := noted_givingBack h keyword
    have hvalue := noted_behindExpr e (h.toInside.noted hkeyword)
    rw [Stmt.usages, behindStmt_giveBack, misuses_cons]
    exact hkeyword.trans hvalue
  | .classDecl name none methods, σ, around, h => by
    have hclass := h.inClass false
    have hname := noted_define_declare hclass name
    have hmethods := noted_behindMethods methods
      (((hclass.hosts.define name).noted hname).enter ["this"])
    have hleft := hmethods.leave
    rw [leave_enter] at hleft
    rw [Stmt.usages, misuses_cons]
    exact (hname.trans hleft).outOfClass
  | .classDecl name (some use) methods, σ, around, h => by
    have hclass := h.inClass true
    have hname := noted_inheriting h name use
    have huse := noted_variable ((hclass.define name).toInside.noted hname) use
    have hidle : around.initialized = none := h.idle
    have hread : misuses [((around.inClass true).declaring [name], .read use.name)] = [] := by
      simp [misuses, Surroundings.misuse?, Surroundings.declaring, Surroundings.inClass, hidle]
    rw [hread] at huse
    have hboth := hname.trans huse
    have hmethods := noted_behindMethods methods
      ((((hclass.hosts.define name).noted hboth).enter ["super"]).enter ["this"])
    have hleft := hmethods.leave.leave
    rw [leave_enter, leave_enter] at hleft
    have hall := (hboth.trans hleft).outOfClass
    rw [List.append_nil] at hall
    rw [behindStmt_subclass]
    rw [← misuses_append] at hall
    exact hall

theorem noted_behindBody : ∀ (body : List Stmt) {σ : Scoping} {around : Surroundings},
    Meets around σ →
      Noted (σ.defineAll (body.flatMap Stmt.declarations)) (misuses (bodyUsages around body))
        (σ.behindBody body)
  | [], σ, _, _ => .refl σ
  | stmt :: body, σ, around, h => by
    have hstmt := noted_behindStmt stmt h
    have hbody := noted_behindBody body ((h.defineAll _).noted hstmt)
    rw [bodyUsages, misuses_append, List.flatMap_cons, defineAll_append]
    exact (hstmt.defineAll _).trans hbody

theorem noted_behindFunction : ∀ (enclosing : Enclosing) (decl : Fun) {σ : Scoping}
    {around : Surroundings}, Hosts around σ →
      Noted σ (misuses (functionUsages around enclosing decl))
        (σ.behindFunction (around.calling enclosing).functionKind decl)
  | enclosing, ⟨name, params, body⟩, σ, around, h => by
    have hcall := h.call enclosing
    have hparams := noted_declareParams params hcall
    have hbody := noted_behindBody body ((hcall.defineAll params).noted hparams)
    have hall := ((hparams.defineAll _).trans hbody).leave
    rw [← defineAll_append, (leave_defineAll _ (by simp [Scoping.enter])).1] at hall
    rw [functionUsages, misuses_append]
    exact hall.map (f := fun υ => { υ with function := σ.function }) fun _ => rfl

theorem noted_behindMethods : ∀ (methods : List Fun) {σ : Scoping} {around : Surroundings},
    Hosts around σ → Noted σ (misuses (methodUsages around methods)) (σ.behindMethods methods)
  | [], σ, _, _ => .refl σ
  | ⟨name, params, body⟩ :: methods, σ, around, h => by
    have hmethod := noted_behindFunction (.method name.text) ⟨name, params, body⟩ h
    have hmethods := noted_behindMethods methods (h.noted hmethod)
    rw [methodUsages, misuses_append]
    exact hmethod.trans hmethods

end

theorem defineAll_errors : ∀ (ms : List Mark) (σ : Scoping), (σ.defineAll ms).errors = σ.errors
  | [], _ => rfl
  | m :: ms, σ => (defineAll_errors ms (σ.define m)).trans (define_errors σ m)

theorem meets_initial : Meets .outermost .initial where
  function := rfl
  cls := rfl
  unready name := ⟨fun hunready => by simp [Scoping.unready, initial] at hunready,
    fun hsome => (by cases hsome)⟩
  globals _ := rfl
  locals _ hsome := by cases hsome
  idle := rfl
  settled := rfl

end Scoping

/-- Of a program whose statements fit the limit the pass of names reports the misuses that the rules
find in it, each one once and nothing else, in the order of the program. -/
theorem resolve_reports_misuses (limits : Limits) (stmts : List Stmt)
    (hfits : bodyFits stmts limits.steps = true) :
    (resolve limits stmts).diagnostics =
      (misuses (bodyUsages .outermost stmts)).map ScopeError.diagnostic := by
  have hrun := run_resolveTops_of_fits .initial hfits
  have herrors : (resolve limits stmts).errors =
      ((resolveTops limits.steps stmts).run .initial).2.errors.toList := rfl
  have hnoted := Scoping.noted_behindBody stmts Scoping.meets_initial
  have hfound : (Scoping.initial.behindBody stmts).errors.toList =
      misuses (bodyUsages .outermost stmts) := by
    rw [hnoted.errors, Scoping.defineAll_errors]
    rfl
  rw [Resolution.diagnostics, herrors, hrun, hfound]

/-- A program with a misuse of every kind, and a global variable that is declared again. -/
def misusing : List Stmt :=
  let mark (text : String) (offset : Int) : Mark := ⟨.identifier, text, some offset⟩
  let use (text : String) (offset : Int) : NameUse := .free (mark text offset)
  [.giveBack (mark "return" 0) none,
    .print (.receiver (use "this" 14)),
    .expr (.superMethod (use "super" 20) (mark "m" 26)),
    .classDecl (mark "A" 35) (some (use "A" 39))
      [⟨mark "init" 43, [mark "a" 48, mark "a" 51],
        [.var (mark "a" 60) none, .giveBack (mark "return" 63) (some (.receiver (use "this" 70)))]⟩],
    .classDecl (mark "B" 86) none
      [⟨mark "m" 90, [], [.expr (.superMethod (use "super" 96) (mark "m" 102))]⟩],
    .var (mark "v" 113) (some (.variable (use "v" 117))),
    .block [.var (mark "w" 126) (some (.variable (use "w" 130))), .classDecl (mark "w" 139) none []],
    .var (mark "v" 151) none]

theorem reports_of_misusing : bodyFits misusing 4 = true ∧
    (resolve ⟨4, 0⟩ misusing).diagnostics =
      [⟨.static, 0, "Can't return from top-level code."⟩,
        ⟨.static, 14, "Can't use 'this' outside of a class."⟩,
        ⟨.static, 20, "Can't use 'super' outside of a class."⟩,
        ⟨.static, 39, "A class can't inherit from itself."⟩,
        ⟨.static, 51, "Already a variable with this name in this scope."⟩,
        ⟨.static, 60, "Already a variable with this name in this scope."⟩,
        ⟨.static, 63, "Can't return a value from an initializer."⟩,
        ⟨.static, 96, "Can't use 'super' in a class with no superclass."⟩,
        ⟨.static, 117, "Can't read local variable in its own initializer."⟩,
        ⟨.static, 130, "Can't read local variable in its own initializer."⟩,
        ⟨.static, 139, "Already a variable with this name in this scope."⟩] :=
  ⟨by decide, (resolve_reports_misuses ⟨4, 0⟩ misusing (by decide)).trans (by decide)⟩

end Lox
