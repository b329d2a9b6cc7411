/-
# Running programs

Expressions are evaluated in a frame, operands before operators and from left
to right; statements are executed in a frame and either end normally or give
back a value to the nearest call. A block runs in a new frame, a call in a new
frame inside the frame of the function, with the parameters bound. A class
with a superclass makes its methods in a frame that binds `super`.

Names are reached in one of two ways (`Lox.Access`); the superclass and the
receiver of `super` always by the record. An error without a place gets that
of the innermost node around it that has one.

Each evaluation is written against the evaluations further in
(`Lox.Evaluator`), so the depth that is followed has a limit; a loop has a
limit of turns of its own.

Key definitions: `Lox.Evaluator`, `Lox.Evaluator.within`, `Lox.Flow`,
`Lox.evalExpr`, `Lox.execStmt`, `Lox.callWith`.
-/
import Lox.Access
import Lox.Ast.Node
import Lox.Limits
import Lox.Object
import Lox.Operator

namespace Lox

open Procedure

/-- How a statement ends. -/
inductive Flow where
  | next
  | returning (value : Value)
  deriving DecidableEq, Repr, Inhabited

/-- The evaluations further in, of expressions, of statements, and of the statements of a function
that is called; the way to reach names; and the turns that a loop may take. -/
structure Evaluator where
  access : Access
  turns : Nat
  expr : Expr → FrameId → Run Value
  stmt : Stmt → FrameId → Run Flow
  called : Stmt → FrameId → Run Flow

/-- The method of the superclass, bound to the receiver. The frame that binds `this` lies just
inside the one that binds `super`. -/
def superProperty (use : NameUse) (name : Mark) (f : FrameId) : Run Value := do
  match use.hops with
  | none => halt (.diverged .unresolvedSuper)
  | some d =>
    let superclass ← Run.getAt f d "super"
    let receiver ← Run.getAt f ((d : Int) - 1) "this"
    match ← read (·.methodOf? superclass name.text) with
    | some m => bindMethod m receiver
    | none => Run.fail (.undefinedProperty name.text) name.offset

/-- Execute statements in order until one gives back a value. -/
def execBody (exec : Stmt → FrameId → Run Flow) : List Stmt → FrameId → Run Flow
  | [], _ => return .next
  | stmt :: body, f => do
    match ← exec stmt f with
    | .next => execBody exec body f
    | .returning v => return .returning v

/-- Bind parameters to arguments. -/
def bindParams (f : FrameId) : List Mark → List Value → Run Unit
  | param :: params, arg :: args => do
    Run.define f param.text arg
    bindParams f params args
  | _, _ => return ()

/-- Run a function's body in a new frame inside the given one. An initializer gives back the
receiver that this frame binds. -/
def invoke (inner : Evaluator) (function : FunctionId) (outer : FrameId) (args : List Value) :
    Run Value := do
  let closure ← read (·.function function)
  let f ← Run.newFrame (some outer)
  bindParams f closure.decl.params args
  let flow ← execBody inner.called closure.decl.body f
  if closure.isInitializer then
    Run.getAt outer 0 "this"
  else
    match flow with
    | .returning v => return v
    | .next => return .nil

/-- Call a value that takes these arguments. -/
def apply (inner : Evaluator) (callee : Value) (args : List Value) : Run Value := do
  match callee with
  | .native .clock => return .number (← Run.tick)
  | .function id => invoke inner id (← read fun s => (s.function id).frame) args
  | .method id =>
    let bound ← read (·.method id)
    invoke inner bound.function bound.frame args
  | .classRef c =>
    let object ← Run.newInstance c
    match ← read (·.findMethod? c Store.initName) with
    | none => return .instanceRef object
    | some m =>
      let frame ← receiverFrame m (.instanceRef object)
      discard (invoke inner m frame args)
      return .instanceRef object
  | .const _ | .instanceRef _ => return .nil

/-- Call a value, once it is known to be callable and to take that many arguments. -/
def callWith (inner : Evaluator) (callee : Value) (args : List Value) (place : Option Int) :
    Run Value := do
  match ← read (·.arity? callee) with
  | none => Run.fail .notCallable place
  | some expected =>
    if args.length = expected then apply inner callee args
    else Run.fail (.wrongArity expected args.length) place

/-- The values of arguments, from left to right. -/
def evalArgs (inner : Evaluator) : List Expr → FrameId → Run (List Value)
  | [], _ => return []
  | arg :: args, f => do
    let v ← inner.expr arg f
    let vs ← evalArgs inner args f
    return v :: vs

/-- The value of an expression. -/
def evalExpr (inner : Evaluator) (e : Expr) (f : FrameId) : Run Value :=
  match e with
  | .literal value => return .const value
  | .grouping e => inner.expr e f
  | .variable use => inner.access.look use f
  | .receiver use => inner.access.look use f
  | .assign use value => do
    let v ← inner.expr value f
    inner.access.store use v f
    return v
  | .unary op operand => do
    let v ← inner.expr operand f
    unaryResult op v
  | .binary left op right => do
    let v ← inner.expr left f
    let w ← inner.expr right f
    binaryResult op v w
  | .logical left op right => do
    let v ← inner.expr left f
    if v.truthy = (op.kind = .kwOr) then return v else inner.expr right f
  | .ternary cond yes no => do
    let v ← inner.expr cond f
    if v.truthy then inner.expr yes f else inner.expr no f
  | .call callee paren args => do
    let v ← inner.expr callee f
    let vs ← evalArgs inner args f
    callWith inner v vs paren.offset
  | .get object name => do
    let v ← inner.expr object f
    getProperty v name
  | .set object name value => do
    match ← inner.expr object f with
    | .instanceRef id =>
      let v ← inner.expr value f
      setProperty id name v
      return v
    | _ => Run.fail .noFields name.offset
  | .superMethod use method => superProperty use method f
  | .stray node => halt (.misplaced (.expression node.label))

/-- The value of an expression that may be absent. -/
def evalOption (inner : Evaluator) (e : Option Expr) (f : FrameId) : Run Value :=
  match e with
  | none => return .nil
  | some e => inner.expr e f

/-- Execute the body as long as the condition holds, so many times at most. -/
def execLoop (inner : Evaluator) (cond : Expr) (body : Stmt) (f : FrameId) : Nat → Run Flow
  | 0 => halt .exhausted
  | turns + 1 => do
    let v ← inner.expr cond f
    if v.truthy then
      match ← inner.stmt body f with
      | .next => execLoop inner cond body f turns
      | .returning v => return .returning v
    else
      return .next

/-- Make the methods of a class in a frame; of two with one name the later one counts. -/
def makeMethods (f : FrameId) : List Fun → Bindings FunctionId → Run (Bindings FunctionId)
  | [], made => return made
  | method :: methods, made => do
    let name := method.name.text
    let id ← Run.newFunction ⟨method, f, name = Store.initName⟩
    makeMethods f methods (made.bind name id)

/-- The class that a superclass names. -/
def evalSuperclass (inner : Evaluator) (use : NameUse) (f : FrameId) : Run ClassId := do
  match ← inner.expr (.variable use) f with
  | .classRef c => return c
  | _ => Run.fail .superclassNotClass use.name.offset

/-- The frame that the methods of a class are made in: with a superclass, a new one that binds
it. -/
def methodFrame (superclass : Option ClassId) (f : FrameId) : Run FrameId := do
  match superclass with
  | none => return f
  | some c =>
    let inside ← Run.newFrame (some f)
    Run.define inside "super" (.classRef c)
    return inside

/-- Make a class and bind its name. The superclass comes first, so that nothing is bound if it is
none; then the name, so that the methods lie in its scope. -/
def execClass (inner : Evaluator) (name : Mark) (superclass : Option NameUse)
    (methods : List Fun) (f : FrameId) : Run Unit := do
  let superclass ←
    match superclass with
    | none => pure none
    | some use => some <$> evalSuperclass inner use f
  Run.define f name.text .nil
  let inside ← methodFrame superclass f
  let made ← makeMethods inside methods .empty
  let c ← Run.newClass ⟨name.text, superclass, made⟩
  Run.assign f name (.classRef c)

/-- Execute a statement. -/
def execStmt (inner : Evaluator) (stmt : Stmt) (f : FrameId) : Run Flow :=
  match stmt with
  | .expr value => do
    discard (inner.expr value f)
    return .next
  | .print value => do
    let v ← inner.expr value f
    Run.print v
    return .next
  | .var name initial => do
    let v ← evalOption inner initial f
    Run.define f name.text v
    return .next
  | .block body => do
    let inside ← Run.newFrame (some f)
    execBody inner.stmt body inside
  | .branch cond yes no => do
    let v ← inner.expr cond f
    if v.truthy then inner.stmt yes f
    else
      match no with
      | some no => inner.stmt no f
      | none => return .next
  | .loop cond body => execLoop inner cond body f inner.turns
  | .function decl => do
    let id ← Run.newFunction ⟨decl, f, false⟩
    Run.define f decl.name.text (.function id)
    return .next
  | .giveBack _ value => do
    return .returning (← evalOption inner value f)
  | .classDecl name superclass methods => do
    execClass inner name superclass methods f
    return .next
  | .stray node => halt (.misplaced (.statement node.label))

/-- The steps on the way into an expression, but for the first one: operators, calls and properties
take one more than the others. -/
def Expr.stepsIn : Expr → Nat
  | .unary .. | .binary .. | .logical .. | .ternary .. | .call .. | .get .. | .set .. => 2
  | _ => 1

/-- The steps on the way into a statement, but for the first one: a block takes one more than the
others. -/
def Stmt.stepsIn : Stmt → Nat
  | .block _ => 2
  | _ => 1

namespace Evaluator

/-- The steps from a call to the body of the function. -/
def callSteps : Nat := 5

/-- Evaluation with so many steps left, of which some are spent on the way in; without any left
everything overflows. -/
def within (access : Access) (turns : Nat) : Nat → Nat → Evaluator
  | 0, _ =>
    { access, turns
      expr := fun _ _ => halt .overflow
      stmt := fun _ _ => halt .overflow
      called := fun _ _ => halt .overflow }
  | steps + 1, spent + 1 => within access turns steps spent
  | steps + 1, 0 =>
    { access, turns
      expr := fun e f =>
        Run.placed (fun _ => e.offset?) (evalExpr (within access turns steps e.stepsIn) e f)
      stmt := fun s f =>
        Run.placed (fun _ => s.offset?) (execStmt (within access turns steps s.stepsIn) s f)
      called := fun s f =>
        Run.placed (fun _ => s.offset?)
          (execStmt (within access turns steps (callSteps + s.stepsIn)) s f) }

/-- Evaluation to the limits, with names reached by their records. -/
def ofLimits (limits : Limits) : Evaluator :=
  within .recorded limits.turns limits.steps 0

end Evaluator

end Lox
