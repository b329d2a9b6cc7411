/-
# Settings

What a host may set by two texts: a limit on recursion, and whether runtime
reports keep a trace. A limit that is no integer is the usual one, and none is
below the least; a program is followed at least as far as to a limit that is
granted to all. A report keeps a trace if it comes from an error of the
program; an overflow has none.

Key definitions: `Lox.Settings`, `Lox.Settings.ofTexts`, `Lox.Settings.limits`,
`Lox.Settings.keepsTrace`.
Key theorems: `Lox.Settings.leastLimit_le_recursionLimit`.
-/
import Lox.Session

namespace Lox

/-- The settings of a host. -/
structure Settings where
  recursionLimit : Nat
  traces : Bool
  deriving DecidableEq, Repr, Inhabited

namespace Settings

/-- No limit is below this one. -/
def leastLimit : Nat := 100

/-- Every program is followed to this limit. -/
def grantedLimit : Nat := 1000

/-- No program is followed further than to this limit. -/
def greatestLimit : Nat := 100000

/-- The limit that a text sets. -/
def limitOf (text : String) : Nat :=
  match Text.integer? text.toList with
  | some n => max n.toNat leastLimit
  | none => Limits.usualRecursion

/-- The text asks for something: it says so in one of four words, in any case. -/
def isYes (text : String) : Bool :=
  ["1", "true", "yes", "on"].contains (String.ofList ((Text.trim Text.isMargin text.toList).map Char.toLower))

/-- The settings by their texts; an empty text sets nothing. -/
def ofTexts (limit traces : String) : Settings :=
  ⟨limitOf limit, isYes traces⟩

/-- The limits that programs are followed to. -/
def limits (s : Settings) : Limits :=
  .ofRecursion (min (max s.recursionLimit grantedLimit) greatestLimit)

/-- The report keeps a trace. -/
def keepsTrace (s : Settings) (d : Diagnostic) : Bool :=
  s.traces && d.phase = .runtime && d.message ≠ stackOverflowMessage

theorem leastLimit_le_limitOf (text : String) : leastLimit ≤ limitOf text := by
  unfold limitOf
  split
  · exact Nat.le_max_right ..
  · decide

theorem leastLimit_le_recursionLimit (limit traces : String) :
    leastLimit ≤ (ofTexts limit traces).recursionLimit :=
  leastLimit_le_limitOf limit

end Settings

end Lox
