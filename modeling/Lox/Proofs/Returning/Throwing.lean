/-
# Returns that are thrown

A second way to run programs, in which statements have no outcome. A return
throws its value, which ends whatever would follow, as an error does; and the
call of a function, and nothing else, catches a value that its body throws.
Blocks, branches and loops know nothing of returns: they do one thing after
the other. All that is neither a statement nor a call is done as ever
(`Lox.Throwing.lift`).

The evaluations are watched as those with outcomes are, so that it can be said
of both that they evaluate the same.

Key definitions: `Lox.Throw`, `Lox.Throwing`, `Lox.Throwing.caught`, `Lox.Thrower`,
`Lox.Thrower.invoke`, `Lox.Thrower.execStmt`, `Lox.Thrower.watched`.
-/
import Lox.Proofs.Running.Watch

namespace Lox

open Procedure

/-- What is thrown: a fault, or the value of a return. -/
inductive Throw where
  | fault (fault : Fault)
  | value (value : Value)

/-- A procedure of a running program that may throw. -/
abbrev Throwing (α : Type) : Type := Procedure Store Throw α

/-- What is thrown, with a place given to an error that has none. -/
def Throw.place (offset : Unit → Option Int) : Throw → Throw
  | .fault e => .fault (if e.isUnplaced then e.attach (offset ()) else e)
  | .value v => .value v

namespace Throwing

variable {α : Type}

/-- Throw the value of a return. -/
def giveBack (v : Value) : Throwing α := halt (.value v)

/-- A procedure that throws its faults. -/
def lift (p : Run α) : Throwing α := fun s =>
  match p s with
  | (.ok a, s') => (.ok a, s')
  | (.error fault, s') => (.error (.fault fault), s')

/-- The value that is thrown, or nil if nothing is; a fault is not caught. -/
def caught (p : Throwing Unit) : Throwing Value := fun s =>
  match p s with
  | (.ok _, s') => (.ok .nil, s')
  | (.error (.value v), s') => (.ok v, s')
  | (.error (.fault fault), s') => (.error (.fault fault), s')

/-- Give a place to an error that leaves the procedure without one. -/
def placed (offset : Unit → Option Int) (p : Throwing α) : Throwing α :=
  mapHalt (Throw.place offset) p

end Throwing

open Throwing (lift caught)

/-- The evaluations further in, with returns that are thrown. -/
structure Thrower where
  access : Access
  turns : Nat
  expr : Expr → FrameId → Throwing Value
  stmt : Stmt → FrameId → Throwing Unit
  called : Stmt → FrameId → Throwing Unit

namespace Thrower

/-- Run a function's body in a new frame inside the given one, and catch the value that it
throws. -/
def invoke (inner : Thrower) (function : FunctionId) (outer : FrameId) (args : List Value) :
    Throwing Value := do
  let closure ← read (·.function function)
  let f ← lift (Run.newFrame (some outer))
  lift (bindParams f closure.decl.params args)
  let v ← caught (forM closure.decl.body fun stmt => inner.called stmt f)
  if closure.isInitializer then lift (Run.getAt outer 0 "this") else return v

/-- Call a value that takes these arguments. -/
def apply (inner : Thrower) (callee : Value) (args : List Value) : Throwing Value := do
  match callee with
  | .native .clock => return .number (← lift Run.tick)
  | .function id => inner.invoke id (← read fun s => (s.function id).frame) args
  | .method id =>
    let bound ← read (·.method id)
    inner.invoke bound.function bound.frame args
  | .classRef c =>
    let object ← lift (Run.newInstance c)
    match ← read (·.findMethod? c Store.initName) with
    | none => return .instanceRef object
    | some m =>
      let frame ← lift (receiverFrame m (.instanceRef object))
      discard (inner.invoke m frame args)
      return .instanceRef object
  | .const _ | .instanceRef _ => return .nil

/-- Call a value, once it is known to be callable and to take that many arguments. -/
def callWith (inner : Thrower) (callee : Value) (args : List Value) (place : Option Int) :
    Throwing Value := do
  match ← read (·.arity? callee) with
  | none => lift (Run.fail .notCallable place)
  | some expected =>
    if args.length = expected then inner.apply callee args
    else lift (Run.fail (.wrongArity expected args.length) place)

/-- The values of arguments, from left to right. -/
def evalArgs (inner : Thrower) : List Expr → FrameId → Throwing (List Value)
  | [], _ => return []
  | arg :: args, f => do
    let v ← inner.expr arg f
    let vs ← inner.evalArgs args f
    return v :: vs

/-- The value of an expression. -/
def evalExpr (inner : Thrower) (e : Expr) (f : FrameId) : Throwing Value :=
  match e with
  | .literal value => return .const value
  | .grouping e => inner.expr e f
  | .variable use => lift (inner.access.look use f)
  | .receiver use => lift (inner.access.look use f)
  | .assign use value => do
    let v ← inner.expr value f
    lift (inner.access.store use v f)
    return v
  | .unary op operand => do
    let v ← inner.expr operand f
    lift (unaryResult op v)
  | .binary left op right => do
    let v ← inner.expr left f
    let w ← inner.expr right f
    lift (binaryResult op v w)
  | .logical left op right => do
    let v ← inner.expr left f
    if v.truthy = (op.kind = .kwOr) then return v else inner.expr right f
  | .ternary cond yes no => do
    let v ← inner.expr cond f
    if v.truthy then inner.expr yes f else inner.expr no f
  | .call callee paren args => do
    let v ← inner.expr callee f
    let vs ← inner.evalArgs args f
    inner.callWith v vs paren.offset
  | .get object name => do
    let v ← inner.expr object f
    lift (getProperty v name)
  | .set object name value => do
    match ← inner.expr object f with
    | .instanceRef id =>
      let v ← inner.expr value f
      lift (setProperty id name v)
      return v
    | _ => lift (Run.fail .noFields name.offset)
  | .superMethod use method => lift (superProperty use method f)
  | .stray node => lift (halt (.misplaced (.expression node.label)))

/-- The value of an expression that may be absent. -/
def evalOption (inner : Thrower) (e : Option Expr) (f : FrameId) : Throwing Value :=
  match e with
  | none => return .nil
  | some e => inner.expr e f

/-- Execute the body as long as the condition holds, so many times at most. -/
def execLoop (inner : Thrower) (cond : Expr) (body : Stmt) (f : FrameId) : Nat → Throwing Unit
  | 0 => lift (halt .exhausted)
  | turns + 1 => do
    let v ← inner.expr cond f
    if v.truthy then
      inner.stmt body f
      inner.execLoop cond body f turns

/-- The class that a superclass names. -/
def evalSuperclass (inner : Thrower) (use : NameUse) (f : FrameId) : Throwing ClassId := do
  match ← inner.expr (.variable use) f with
  | .classRef c => return c
  | _ => lift (Run.fail .superclassNotClass use.name.offset)

/-- Make a class and bind its name. -/
def execClass (inner : Thrower) (name : Mark) (superclass : Option NameUse)
    (methods : List Fun) (f : FrameId) : Throwing Unit := do
  let superclass ←
    match superclass with
    | none => pure none
    | some use => some <$> inner.evalSuperclass use f
  lift (Run.define f name.text .nil)
  let inside ← lift (methodFrame superclass f)
  let made ← lift (makeMethods inside methods .empty)
  let c ← lift (Run.newClass ⟨name.text, superclass, made⟩)
  lift (Run.assign f name (.classRef c))

/-- Execute a statement. -/
def execStmt (inner : Thrower) (stmt : Stmt) (f : FrameId) : Throwing Unit :=
  match stmt with
  | .expr value => discard (inner.expr value f)
  | .print value => do
    let v ← inner.expr value f
    lift (Run.print v)
  | .var name initial => do
    let v ← inner.evalOption initial f
    lift (Run.define f name.text v)
  | .block body => do
    let inside ← lift (Run.newFrame (some f))
    forM body fun stmt => inner.stmt stmt inside
  | .branch cond yes no => do
    let v ← inner.expr cond f
    if v.truthy then inner.stmt yes f
    else
      match no with
      | some no => inner.stmt no f
      | none => return ()
  | .loop cond body => inner.execLoop cond body f inner.turns
  | .function decl => do
    let id ← lift (Run.newFunction ⟨decl, f, false⟩)
    lift (Run.define f decl.name.text (.function id))
  | .giveBack _ value => do
    Throwing.giveBack (← inner.evalOption value f)
  | .classDecl name superclass methods => inner.execClass name superclass methods f
  | .stray node => lift (halt (.misplaced (.statement node.label)))

/-- Evaluation with a watch, with so many steps left, of which some are spent on the way in. -/
def watched (watch : Watch) (access : Access) (turns : Nat) : Nat → Nat → Thrower
  | 0, _ =>
    { access, turns
      expr := fun _ _ => lift (halt .overflow)
      stmt := fun _ _ => lift (halt .overflow)
      called := fun _ _ => lift (halt .overflow) }
  | steps + 1, spent + 1 => watched watch access turns steps spent
  | steps + 1, 0 =>
    { access, turns
      expr := fun e f => do
        lift (watch (.expr e) f)
        Throwing.placed (fun _ => e.offset?)
          ((watched watch access turns steps e.stepsIn).evalExpr e f)
      stmt := fun s f => do
        lift (watch (.stmt s) f)
        Throwing.placed (fun _ => s.offset?)
          ((watched watch access turns steps s.stepsIn).execStmt s f)
      called := fun s f => do
        lift (watch (.stmt s) f)
        Throwing.placed (fun _ => s.offset?)
          ((watched watch access turns steps (Evaluator.callSteps + s.stepsIn)).execStmt s f) }

end Thrower

end Lox
