/-
# Binding names to scopes

Every use of a name in a program gets the number of scopes between it and the
innermost scope that binds the name where it stands; a use that no open scope
binds is left to the globals. Misuses are noted on the way. Expressions open
no scope; a block opens one, a function one for its parameters and body
together, a class one that binds the receiver, and around that one that binds
the superclass, if it has one. Each statement leaves the open scopes as they
were, but for the names it declares itself.

A statement that fits the limit is read without regard to depth. In one that
does not, the pass follows the tree as far as there is room, and stops there:
what it has bound and noted stays, what it has not reached is left as it is.

Of each use that it binds the pass makes a record, when it is at the use. So
the records come in the order of the pass, which is not that of the tree: an
assigned value is read before the variable is bound.

Key definitions: `Lox.Record`, `Lox.Resolve`, `Lox.resolveExpr`,
`Lox.resolveStmt`, `Lox.resolve`, `Lox.resolveExpression`, `Lox.Room`.
-/
import Lox.Ast.Depth
import Lox.Ast.Node
import Lox.Limits
import Lox.Scope

namespace Lox

/-- The name of a use, and how many scopes out it is bound. -/
structure Record where
  name : Mark
  hops : Nat
  deriving DecidableEq, Repr

/-- The record that is made of a use with its distance; of a use of a global there is none. -/
def NameUse.record? (use : NameUse) : Option Record := use.hops.map (Record.mk use.name)

/-- A step of binding names, from one place in a program to the next, and what it records. -/
def Resolve (α : Type) : Type := Scoping → (α × Scoping) × List Record

namespace Resolve

variable {α β : Type}

/-- The result of a step, and the place behind it. -/
def run (p : Resolve α) (s : Scoping) : α × Scoping := (p s).1

/-- The records of a step, in the order in which they are made. -/
def log (p : Resolve α) (s : Scoping) : List Record := (p s).2

/-- A result at once. -/
@[always_inline, inline]
protected def pure (a : α) : Resolve α := fun s => ((a, s), [])

/-- One step after the other. -/
@[always_inline, inline]
protected def bind (p : Resolve α) (f : α → Resolve β) : Resolve β := fun s =>
  match p s with
  | ((a, s'), earlier) =>
    match f a s' with
    | (r, later) => (r, earlier ++ later)

@[always_inline]
instance : Monad Resolve where
  pure := Resolve.pure
  bind := Resolve.bind

@[always_inline]
instance : MonadStateOf Scoping Resolve where
  get := fun s => ((s, s), [])
  set s := fun _ => (((), s), [])
  modifyGet f := fun s => (f s, [])

instance : LawfulMonad Resolve :=
  LawfulMonad.mk' Resolve
    (fun p => by
      funext s
      show ((p s).1, (p s).2 ++ []) = p s
      rw [List.append_nil])
    (fun _ _ => rfl)
    (fun p f g => by
      funext s
      show (_, (_ ++ _) ++ _) = (_, _ ++ (_ ++ _))
      rw [List.append_assoc])

/-- Record the distance of a use, if it has one. -/
def record (use : NameUse) : Resolve Unit := fun s => (((), s), use.record?.toList)

section

variable (s : Scoping)

@[simp] theorem run_pure (a : α) : (Pure.pure a : Resolve α).run s = (a, s) := rfl

@[simp] theorem log_pure (a : α) : (Pure.pure a : Resolve α).log s = [] := rfl

@[simp] theorem run_bind (p : Resolve α) (f : α → Resolve β) :
    (p >>= f).run s = (f (p.run s).1).run (p.run s).2 := rfl

@[simp] theorem log_bind (p : Resolve α) (f : α → Resolve β) :
    (p >>= f).log s = p.log s ++ (f (p.run s).1).log (p.run s).2 := rfl

@[simp] theorem run_map (f : α → β) (p : Resolve α) :
    (f <$> p).run s = (f (p.run s).1, (p.run s).2) := rfl

@[simp] theorem log_map (f : α → β) (p : Resolve α) : (f <$> p).log s = p.log s :=
  List.append_nil (p.log s)

@[simp] theorem run_get : (get : Resolve Scoping).run s = (s, s) := rfl

@[simp] theorem log_get : (get : Resolve Scoping).log s = [] := rfl

@[simp] theorem run_modify (f : Scoping → Scoping) : (modify f : Resolve Unit).run s = ((), f s) := rfl

@[simp] theorem log_modify (f : Scoping → Scoping) : (modify f : Resolve Unit).log s = [] := rfl

@[simp] theorem run_record (use : NameUse) : (record use).run s = ((), s) := rfl

@[simp] theorem log_record (use : NameUse) : (record use).log s = use.record?.toList := rfl

end

end Resolve

/-- How many steps further in the pass may go; without a number, any. -/
abbrev Room : Type := Option Nat

/-- A step, unless the pass has stopped; then `a` is left as it is. -/
def unlessStopped {α : Type} (room : Room) (a : α) (step : Resolve α) : Resolve α :=
  match room with
  | none => step
  | some _ => fun s => if s.stopped then ((a, s), []) else step s

theorem run_unlessStopped {α : Type} (room : Nat) (a : α) (step : Resolve α) (s : Scoping) :
    (unlessStopped (some room) a step).run s = if s.stopped then (a, s) else step.run s := by
  show (if s.stopped then ((a, s), []) else step s).1 = _
  split <;> rfl

/-- A step further in, if there is room for it; otherwise the pass stops. -/
def further {α : Type} (room : Room) (a : α) (step : Room → Resolve α) : Resolve α :=
  match room with
  | none => step none
  | some 0 => fun s => ((a, s.stop), [])
  | some (n + 1) => unlessStopped room a (step (some n))

/-- The use with the number of scopes out to its binding, which is recorded. -/
def resolveUse (use : NameUse) : Resolve NameUse := do
  let bound : NameUse := ⟨use.name, (← get).hops? use.name.text⟩
  Resolve.record bound
  return bound

/-- A use that reads a variable. -/
def resolveVariable (use : NameUse) : Resolve NameUse := do
  if (← get).unready use.name.text then
    modify (·.note .readInOwnInitializer use.name)
  resolveUse use

mutual

/-- The names in an expression. An assigned value comes before the object it is assigned to. -/
def resolveExpr (room : Room) (e : Expr) : Resolve Expr :=
  further room e fun room =>
  match e with
  | .literal value => return .literal value
  | .grouping inner => return .grouping (← resolveExpr room inner)
  | .unary op operand => return .unary op (← resolveExpr room operand)
  | .binary left op right => do
    let left ← resolveExpr room left
    let right ← resolveExpr room right
    return .binary left op right
  | .logical left op right => do
    let left ← resolveExpr room left
    let right ← resolveExpr room right
    return .logical left op right
  | .ternary cond yes no => do
    let cond ← resolveExpr room cond
    let yes ← resolveExpr room yes
    let no ← resolveExpr room no
    return .ternary cond yes no
  | .variable use => return .variable (← resolveVariable use)
  | .assign use value => do
    let value ← resolveExpr room value
    let use ← unlessStopped room use (resolveUse use)
    return .assign use value
  | .call callee paren args => do
    let callee ← resolveExpr room callee
    let args ← resolveArgs room args
    return .call callee paren args
  | .get object name => return .get (← resolveExpr room object) name
  | .set object name value => do
    let value ← resolveExpr room value
    let object ← resolveExpr room object
    return .set object name value
  | .receiver use => do
    if (← get).cls = .none then
      modify (·.note .thisOutside use.name)
      return .receiver use
    else
      return .receiver (← resolveUse use)
  | .superMethod use method => do
    match (← get).cls with
    | .none => modify (·.note .superOutside use.name)
    | .plain => modify (·.note .superWithoutSuperclass use.name)
    | .subclass => pure ()
    return .superMethod (← resolveUse use) method
  | .stray node => do
    modify (·.noteMisplaced (.expression node.label))
    return .stray node

/-- The names in arguments. -/
def resolveArgs (room : Room) : List Expr → Resolve (List Expr)
  | [] => return []
  | arg :: args => do
    let arg ← resolveExpr room arg
    let args ← resolveArgs room args
    return arg :: args

end

/-- The names in the initializer of a variable. At the top level its name is pending meanwhile. -/
def resolveInitializer (room : Room) (name : Mark) : Option Expr → Resolve (Option Expr)
  | none => return none
  | some initial => do
    if (← get).scopes.isEmpty then
      modify (·.suspend name.text)
      let initial ← resolveExpr room initial
      modify (·.release name.text)
      return some initial
    else
      return some (← resolveExpr room initial)

/-- Parameters are declared and ready at once. -/
def declareParams : List Mark → Resolve Unit
  | [] => return ()
  | param :: params => do
    modify fun s => (s.declare param).define param
    declareParams params

/-- The kind of a method. -/
def methodKind (name : Mark) : FunctionKind :=
  if name.text = "init" then .initializer else .method

mutual

/-- The names in a statement. -/
def resolveStmt (room : Room) (stmt : Stmt) : Resolve Stmt :=
  further room stmt fun room =>
  match stmt with
  | .expr value => return .expr (← resolveExpr room value)
  | .print value => return .print (← resolveExpr room value)
  | .var name initial => do
    modify (·.declare name)
    let initial ← resolveInitializer room name initial
    modify (·.define name)
    return .var name initial
  | .block body => do
    modify (·.enter [])
    let body ← resolveBody room body
    modify (·.leave)
    return .block body
  | .branch cond yes none => do
    let cond ← resolveExpr room cond
    let yes ← resolveStmt room yes
    return .branch cond yes none
  | .branch cond yes (some no) => do
    let cond ← resolveExpr room cond
    let yes ← resolveStmt room yes
    let no ← resolveStmt room no
    return .branch cond yes (some no)
  | .loop cond body => do
    let cond ← resolveExpr room cond
    let body ← resolveStmt room body
    return .loop cond body
  | .function decl => do
    modify fun s => (s.declare decl.name).define decl.name
    return .function (← resolveFunction room .function decl)
  | .giveBack keyword none => do
    if (← get).function = .none then
      modify (·.note .returnOutside keyword)
    return .giveBack keyword none
  | .giveBack keyword (some value) => do
    if (← get).function = .none then
      modify (·.note .returnOutside keyword)
    if (← get).function = .initializer then
      modify (·.note .valueFromInitializer keyword)
    return .giveBack keyword (some (← resolveExpr room value))
  | .classDecl name superclass methods => do
    let enclosing := (← get).cls
    modify fun s => ({ s with cls := .plain }.declare name).define name
    match superclass with
    | none =>
      modify (·.enter ["this"])
      let methods ← resolveMethods room methods
      modify fun s => { s.leave with cls := enclosing }
      return .classDecl name none methods
    | some use =>
      if use.name.text = name.text then
        modify (·.note .inheritsItself use.name)
      modify fun s => { s with cls := .subclass }
      let use ← resolveVariable use
      modify fun s => (s.enter ["super"]).enter ["this"]
      let methods ← resolveMethods room methods
      modify fun s => { s.leave.leave with cls := enclosing }
      return .classDecl name (some use) methods
  | .stray node => do
    modify (·.noteMisplaced (.statement node.label))
    return .stray node

/-- The names in the statements of a body. -/
def resolveBody (room : Room) : List Stmt → Resolve (List Stmt)
  | [] => return []
  | stmt :: body => do
    let stmt ← resolveStmt room stmt
    let body ← resolveBody room body
    return stmt :: body

/-- The names in a function: one scope for its parameters and its body. -/
def resolveFunction (room : Room) (kind : FunctionKind) : Fun → Resolve Fun
  | ⟨name, params, body⟩ => unlessStopped room ⟨name, params, body⟩ do
    let enclosing := (← get).function
    modify fun s => { s.enter [] with function := kind }
    declareParams params
    let body ← resolveBody room body
    modify fun s => { s.leave with function := enclosing }
    return ⟨name, params, body⟩

/-- The names in methods. -/
def resolveMethods (room : Room) : List Fun → Resolve (List Fun)
  | [] => return []
  | method :: methods => do
    let method ← resolveFunction room (methodKind method.name) method
    let methods ← resolveMethods room methods
    return method :: methods

end

/-- The names in a statement of the top level. One that is too deep is reported where it begins. -/
def resolveTop (depth : Nat) (stmt : Stmt) : Resolve Stmt := do
  if stmt.fits depth then
    resolveStmt none stmt
  else
    let reached ← resolveStmt (some depth) stmt
    modify (·.restart (stmt.offset?.getD 0))
    return reached

/-- A program with its names bound, what was found, and what was recorded. -/
structure Resolution where
  stmts : List Stmt
  errors : List ScopeError
  misplaced : Option Misplaced
  records : List Record

/-- Bind the names of a program. -/
def resolve (limits : Limits) (stmts : List Stmt) : Resolution :=
  let ((stmts, s), records) := stmts.mapM (resolveTop limits.steps) .initial
  ⟨stmts, s.errors.toList, s.misplaced, records⟩

/-- Bind the names of an expression that stands alone. -/
def resolveExpression (limits : Limits) (e : Expr) : Expr × List ScopeError :=
  let r := resolve limits [.expr e]
  match r.stmts with
  | [.expr resolved] => (resolved, r.errors)
  | _ => (e, r.errors)

/-- The reports of the misuses. -/
def Resolution.diagnostics (r : Resolution) : List Diagnostic :=
  r.errors.map ScopeError.diagnostic

end Lox
