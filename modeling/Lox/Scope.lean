/-
# Scopes and their misuse

The scopes that are open at a place in a program, the innermost first, each
with the names declared in it so far and whether they are ready for use: a
name is not while its own initializer is read. The global scope is none of
them. Beside the scopes stands what a place lies in: which kind of function,
which kind of class, and the initializers of which global variables.

Key definitions: `Lox.Scoping`, `Lox.Misuse`, `Lox.Scoping.hops?`,
`Lox.Scoping.declare`, `Lox.Scoping.define`.
-/
import Lox.Bindings
import Lox.Diagnostic
import Lox.Failure
import Lox.Token

namespace Lox

/-- How names and words can be misused. -/
inductive Misuse where
  | returnOutside
  | valueFromInitializer
  | thisOutside
  | superOutside
  | superWithoutSuperclass
  | inheritsItself
  | declaredTwice
  | readInOwnInitializer
  | tooDeep
  deriving DecidableEq, Repr

def Misuse.message : Misuse → String
  | .returnOutside => "Can't return from top-level code."
  | .valueFromInitializer => "Can't return a value from an initializer."
  | .thisOutside => "Can't use 'this' outside of a class."
  | .superOutside => "Can't use 'super' outside of a class."
  | .superWithoutSuperclass => "Can't use 'super' in a class with no superclass."
  | .inheritsItself => "A class can't inherit from itself."
  | .declaredTwice => "Already a variable with this name in this scope."
  | .readInOwnInitializer => "Can't read local variable in its own initializer."
  | .tooDeep => tooDeepMessage

/-- A misuse, and the offset of the mark in question. -/
structure ScopeError where
  misuse : Misuse
  offset : Option Int
  deriving DecidableEq, Repr

/-- The report of a misuse; one without an offset stands at the start. -/
def ScopeError.diagnostic (e : ScopeError) : Diagnostic :=
  ⟨.static, e.offset.getD 0, e.misuse.message⟩

/-- What kind of function a place lies in. -/
inductive FunctionKind where
  | none | function | method | initializer
  deriving DecidableEq, Repr, Inhabited

/-- What kind of class a place lies in. -/
inductive ClassKind where
  | none | plain | subclass
  deriving DecidableEq, Repr, Inhabited

/-- What is known at a place: the open scopes, the global variables whose initializer is read, the
enclosing function and class; what was found so far: misuses, and the first node out of place;
and whether the pass stopped because the statement is too deep. -/
structure Scoping where
  scopes : List (Bindings Bool)
  pending : List String
  function : FunctionKind
  cls : ClassKind
  errors : Array ScopeError
  misplaced : Option Misplaced
  stopped : Bool

namespace Scoping

/-- At the start of a program. -/
def initial : Scoping :=
  ⟨[], [], .none, .none, #[], none, false⟩

/-- No room is left further in. -/
def stop (s : Scoping) : Scoping :=
  { s with stopped := true }

/-- Behind a statement that is too deep, of which a report is made at the offset: at the top level
again. -/
def restart (offset : Int) (s : Scoping) : Scoping :=
  { initial with errors := s.errors.push ⟨.tooDeep, some offset⟩, misplaced := s.misplaced }

/-- How many scopes out the name is bound; none if no open scope binds it. -/
def hops? (s : Scoping) (name : String) : Option Nat :=
  s.scopes.findIdx? (·.contains name)

/-- Note a misuse at a mark. -/
def note (misuse : Misuse) (m : Mark) (s : Scoping) : Scoping :=
  { s with errors := s.errors.push ⟨misuse, m.offset⟩ }

/-- Note a node out of place, if it is the first. -/
def noteMisplaced (m : Misplaced) (s : Scoping) : Scoping :=
  { s with misplaced := s.misplaced.or (some m) }

/-- A scope that binds the given names, inside the others. -/
def enter (names : List String) (s : Scoping) : Scoping :=
  { s with scopes := ⟨names.map fun n => (n, true)⟩ :: s.scopes }

/-- Out of the innermost scope. -/
def leave (s : Scoping) : Scoping :=
  { s with scopes := s.scopes.tail }

/-- The initializer of the global variable is read from here on. -/
def suspend (name : String) (s : Scoping) : Scoping :=
  { s with pending := s.pending.insert name }

/-- The initializer of the global variable was read. -/
def release (name : String) (s : Scoping) : Scoping :=
  { s with pending := s.pending.filter (· ≠ name) }

/-- The name of a declaration, not ready yet. Globals may be declared again, local names not. -/
def declare (m : Mark) (s : Scoping) : Scoping :=
  match s.scopes with
  | [] => s
  | scope :: outer =>
    let noted := if scope.contains m.text then s.note .declaredTwice m else s
    { noted with scopes := scope.bind m.text false :: outer }

/-- The declared name is ready. -/
def define (m : Mark) (s : Scoping) : Scoping :=
  match s.scopes with
  | [] => s
  | scope :: outer => { s with scopes := scope.bind m.text true :: outer }

/-- The name is not ready: it is read inside its own initializer. -/
def unready (s : Scoping) (name : String) : Bool :=
  match s.scopes with
  | [] => name ∈ s.pending
  | scope :: _ => scope.get? name = some false

end Scoping

end Lox
