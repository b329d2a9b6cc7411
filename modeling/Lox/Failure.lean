/-
# What can go wrong while a program runs

A runtime error has a cause in the program, and an offset: that of the
operation that failed. An error raised without an offset takes the first one
it is given on its way out, and keeps it. A fault is all that ends a run early:
a runtime error, nesting beyond the limit, and three that only trees that were
not checked can bring about: a name that is not where its record says, a node
out of place, a loop that used up its steps.

Key definitions: `Lox.Cause`, `Lox.RuntimeError`, `Lox.RuntimeError.attach`,
`Lox.Divergence`, `Lox.Misplaced`, `Lox.Fault`.
Key theorems: `Lox.RuntimeError.attach_some`, `Lox.RuntimeError.attach_attach`.
-/

namespace Lox

/-- Why a program fails. -/
inductive Cause where
  | undefinedVariable (name : String)
  | undefinedProperty (name : String)
  | wrongArity (expected got : Nat)
  | operandNotNumber
  | operandsNotNumbers
  | operandsNotAddable
  | unsupportedOperator (text : String)
  | unsupportedUnary (text : String)
  | notCallable
  | noProperties
  | noFields
  | superclassNotClass
  | raised (message : String)
  deriving DecidableEq, Repr

/-- The wording of a cause. One that a host raises has words of its own. -/
def Cause.message : Cause → String
  | .undefinedVariable name => "Undefined variable '" ++ name ++ "'."
  | .undefinedProperty name => "Undefined property '" ++ name ++ "'."
  | .wrongArity expected got =>
    "Expected " ++ toString expected ++ " arguments but got " ++ toString got ++ "."
  | .operandNotNumber => "Operand must be a number."
  | .operandsNotNumbers => "Operands must be numbers."
  | .operandsNotAddable => "Operands must be two numbers or at least one string."
  | .unsupportedOperator text => "Unsupported operator '" ++ text ++ "'."
  | .unsupportedUnary text => "Unsupported unary operator '" ++ text ++ "'."
  | .notCallable => "Can only call functions and classes."
  | .noProperties => "Only instances have properties."
  | .noFields => "Only instances have fields."
  | .superclassNotClass => "Superclass must be a class."
  | .raised message => message

/-- A failure of the program, and where it happened, once that is known. -/
structure RuntimeError where
  cause : Cause
  offset : Option Int
  deriving DecidableEq, Repr

namespace RuntimeError

/-- Give a place to an error that has none. -/
def attach (offset : Option Int) (e : RuntimeError) : RuntimeError :=
  { e with offset := e.offset.or offset }

/-- The message, with the offset if there is one. -/
def text (e : RuntimeError) : String :=
  match e.offset with
  | none => e.cause.message
  | some n => e.cause.message ++ " (offset " ++ toString n ++ ")"

/-- A place once given stays. -/
theorem attach_some (cause : Cause) (n : Int) (offset : Option Int) :
    attach offset ⟨cause, some n⟩ = ⟨cause, some n⟩ := rfl

theorem attach_attach (a b : Option Int) (e : RuntimeError) :
    attach b (attach a e) = attach (a.or b) e := by
  simp [attach, Option.or_assoc]

end RuntimeError

/-- A name is not where the record of its use says. -/
inductive Divergence where
  | noFrame (distance : Int)
  | unbound (name : String) (distance : Int)
  | unresolvedSuper
  deriving DecidableEq, Repr

def Divergence.message : Divergence → String
  | .noFrame distance => "no frame " ++ toString distance ++ " levels out"
  | .unbound name distance =>
    "'" ++ name ++ "' is not bound " ++ toString distance ++ " frames out"
  | .unresolvedSuper => "unresolved 'super'"

/-- A node is no expression, or no statement, where one stands. -/
inductive Misplaced where
  | expression (label : String)
  | statement (label : String)
  deriving DecidableEq, Repr

def Misplaced.message : Misplaced → String
  | .expression label => "unknown expression node: " ++ label
  | .statement label => "unknown statement node: " ++ label

/-- What ends a run early. -/
inductive Fault where
  | error (e : RuntimeError)
  | overflow
  | diverged (d : Divergence)
  | misplaced (m : Misplaced)
  | exhausted
  deriving DecidableEq, Repr

/-- A fault with a place given to its error, if it is one without. -/
def Fault.attach (offset : Option Int) : Fault → Fault
  | .error e => .error (e.attach offset)
  | fault => fault

/-- The fault is an error without a place. -/
def Fault.isUnplaced : Fault → Bool
  | .error e => e.offset.isNone
  | _ => false

end Lox
