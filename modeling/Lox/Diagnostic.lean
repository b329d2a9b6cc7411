/-
# Diagnostics

What the passes report: a message at an offset of the source, marked with the
phase that found it. Turning offsets into lines is left to the caller. A
collector of diagnostics is a list in the order of the reports.

Key definitions: `Lox.Phase`, `Lox.Diagnostic`, `Lox.Phase.ofName?`.
Key theorems: `Lox.Phase.ofName?_name`.
-/

namespace Lox

/-- The pass that reports: reading tokens, reading statements, binding names, running. -/
inductive Phase where
  | lexical | grammar | static | runtime
  deriving DecidableEq, Repr, Inhabited

/-- The name of a phase as it is shown. -/
def Phase.name : Phase → String
  | .lexical => "lexical"
  | .grammar => "syntax"
  | .static => "static"
  | .runtime => "runtime"

/-- The phase that is shown under a name. -/
def Phase.ofName? (name : String) : Option Phase :=
  [Phase.lexical, .grammar, .static, .runtime].find? (·.name == name)

theorem Phase.ofName?_name (p : Phase) : ofName? p.name = some p := by
  cases p <;> decide

/-- One report. -/
structure Diagnostic where
  phase : Phase
  offset : Int
  message : String
  deriving DecidableEq, Repr, Inhabited

/-- The report on one line: `[phase @offset] message`. -/
def Diagnostic.line (d : Diagnostic) : String :=
  "[" ++ d.phase.name ++ " @" ++ toString d.offset ++ "] " ++ d.message

/-- The message of every pass that meets more nesting than it follows. -/
def tooDeepMessage : String := "Too deeply nested."

end Lox
