/-
# Values

Constants are values; functions, methods bound to a receiver, classes and
instances are values by reference, so that two of them are equal only if they
are one. Only nil and false count as false.

Key definitions: `Lox.Value`, `Lox.Value.truthy`, `Lox.Value.equals`.
Key theorems: `Lox.Value.equals_refl`, `Lox.Value.equals_symm`, `Lox.Value.equals_trans`.
-/
import Lox.Literal

namespace Lox

/-- The number of a frame, function, bound method, class or instance in its store. -/
abbrev FrameId := Nat

abbrev FunctionId := Nat

abbrev MethodId := Nat

abbrev ClassId := Nat

abbrev InstanceId := Nat

/-- The functions that are there from the start. -/
inductive Native where
  | clock
  deriving DecidableEq, Repr, Inhabited

/-- The name of a native function. -/
def Native.name : Native → String
  | .clock => "clock"

/-- The number of arguments a native function takes. -/
def Native.arity : Native → Nat
  | .clock => 0

/-- The native functions. -/
def natives : List Native := [.clock]

/-- What an expression evaluates to. -/
inductive Value where
  | const (value : Literal)
  | native (function : Native)
  | function (id : FunctionId)
  | method (id : MethodId)
  | classRef (id : ClassId)
  | instanceRef (id : InstanceId)
  deriving DecidableEq, Repr, Inhabited

namespace Value

def nil : Value := .const .nil

def bool (b : Bool) : Value := .const (.bool b)

def number (x : Double) : Value := .const (.number x)

def string (s : String) : Value := .const (.string s)

/-- Everything but nil and false counts as true. -/
def truthy : Value → Bool
  | .const .nil => false
  | .const (.bool b) => b
  | _ => true

/-- Numbers are equal by value, with NaN equal to itself; all else only to itself. -/
def equals : Value → Value → Bool
  | .const (.number x), .const (.number y) => x.same y
  | v, w => v = w

theorem equals_refl (v : Value) : v.equals v = true := by
  unfold equals
  split <;> simp_all [Double.same_refl]

theorem equals_symm {v w : Value} (h : v.equals w = true) : w.equals v = true := by
  unfold equals at h
  split at h
  · exact Double.same_symm h
  · obtain rfl := of_decide_eq_true h
    exact equals_refl _

theorem equals_trans {u v w : Value} (h : u.equals v = true) (g : v.equals w = true) :
    u.equals w = true := by
  unfold equals at h
  split at h
  · rename_i x y
    unfold equals at g
    split at g
    · rename_i y' z heq
      obtain rfl : y = y' := by simpa using heq
      exact Double.same_trans h g
    · obtain rfl := of_decide_eq_true g
      exact h
  · obtain rfl := of_decide_eq_true h
    exact g

end Value

end Lox
