/-
# Limits

How far the passes follow a program before they report that it is nested too
deeply: so many steps of recursion, each production, evaluation and call
taking as many as it passes on the way in; and how many turns a loop may take.

Key definitions: `Lox.Limits`, `Lox.Limits.ofRecursion`, `Lox.Limits.usual`.
-/

namespace Lox

/-- How far a program is followed. -/
structure Limits where
  steps : Nat
  turns : Nat
  deriving DecidableEq, Repr, Inhabited

namespace Limits

/-- The limits for a limit on recursion. A loop may take more turns than a run can last. -/
def ofRecursion (n : Nat) : Limits :=
  ⟨n, Nat.pow 2 62⟩

/-- The limit on recursion where none is set. -/
def usualRecursion : Nat := 6000

/-- The limits where none are set. -/
def usual : Limits := ofRecursion usualRecursion

end Limits

end Lox
