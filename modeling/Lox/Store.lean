/-
# The store

What a running program lives in: frames that bind names, the functions, bound
methods, classes and instances that were made, and what was printed. A frame
keeps the frame around it for ever. A new thing gets the next number, so a
frame's parent and a class's superclass have smaller numbers than itself, and
walking outward ends.

A name is looked up in two ways: outward from a frame until a frame binds it,
or in the frame a given number of steps out. The first fails as an undefined
variable, the second as a divergence of the record from the frames.

What the clock will show is not up to the program: a store starts with all the
readings there will be, and each look at the clock takes the next one.

Key definitions: `Lox.Clock`, `Lox.Store`, `Lox.Store.ancestor?`,
`Lox.Store.holder?`, `Lox.Store.findMethod?`, `Lox.Store.display`, `Lox.Run`.
-/
import Lox.Procedure
import Lox.Ast.Basic
import Lox.Bindings
import Lox.Failure
import Lox.Text.Quoted
import Lox.Value

namespace Lox

/-- One scope of a running program. -/
structure Frame where
  parent : Option FrameId
  vars : Bindings Value

instance : Inhabited Frame := ⟨⟨none, .empty⟩⟩

/-- The names that a frame binds, in quotes. -/
def Frame.summary (f : Frame) : String :=
  "Frame([" ++ ", ".intercalate (f.vars.names.map Text.quoted) ++ "])"

/-- A function with the frame it was made in. An initializer gives back its receiver. -/
structure Closure where
  decl : Fun
  frame : FrameId
  isInitializer : Bool

instance : Inhabited Closure := ⟨⟨⟨.bare "", [], []⟩, 0, false⟩⟩

/-- A method with the frame that binds its receiver. -/
structure BoundMethod where
  function : FunctionId
  frame : FrameId
  deriving Inhabited

/-- A class: its name, its superclass and its own methods. -/
structure ClassObject where
  name : String
  superclass : Option ClassId
  methods : Bindings FunctionId

instance : Inhabited ClassObject := ⟨⟨"", none, .empty⟩⟩

/-- An instance of a class. -/
structure InstanceObject where
  cls : ClassId
  fields : Bindings Value

instance : Inhabited InstanceObject := ⟨⟨0, .empty⟩⟩

/-- A clock: its readings in milliseconds, one after the other, and how many of them were taken. -/
structure Clock where
  readings : Nat → Double
  taken : Nat

namespace Clock

/-- What the clock shows at the next look. -/
def next (c : Clock) : Double := c.readings c.taken

/-- The clock after the next look. -/
def later (c : Clock) : Clock := { c with taken := c.taken + 1 }

/-- A clock that stands still. -/
def still (time : Double) : Clock := ⟨fun _ => time, 0⟩

/-- A session may be given a time for a clock; the clock then shows it always. -/
instance : Coe Double Clock := ⟨still⟩

end Clock

/-- Everything that a program has made, the lines it has printed, and the clock. -/
structure Store where
  frames : Array Frame
  functions : Array Closure
  methods : Array BoundMethod
  classes : Array ClassObject
  instances : Array InstanceObject
  output : Array String
  clock : Clock

namespace Store

/-- The frame that all others lie in. -/
def globals : FrameId := 0

/-- The start: one frame, which binds the native functions. -/
def initial (clock : Clock) : Store where
  frames := #[⟨none, natives.foldl (fun b f => b.bind f.name (.native f)) .empty⟩]
  functions := #[]
  methods := #[]
  classes := #[]
  instances := #[]
  output := #[]
  clock := clock

instance : Inhabited Store := ⟨initial (.still ⟨0⟩)⟩

/-- A frame by its number. -/
def frame (s : Store) (f : FrameId) : Frame := s.frames.getD f default

def function (s : Store) (id : FunctionId) : Closure := s.functions.getD id default

def method (s : Store) (id : MethodId) : BoundMethod := s.methods.getD id default

def classObject (s : Store) (id : ClassId) : ClassObject := s.classes.getD id default

def instanceObject (s : Store) (id : InstanceId) : InstanceObject := s.instances.getD id default

/-- The frame `distance` steps out. -/
def ancestor? (s : Store) : Nat → FrameId → Option FrameId
  | 0, f => some f
  | distance + 1, f =>
    match (s.frame f).parent with
    | none => none
    | some p => s.ancestor? distance p

/-- The first frame outward from `f` that binds the name, within so many frames. -/
def holderWithin? (s : Store) (name : String) : Nat → FrameId → Option FrameId
  | 0, _ => none
  | fuel + 1, f =>
    if (s.frame f).vars.contains name then some f
    else
      match (s.frame f).parent with
      | none => none
      | some p => s.holderWithin? name fuel p

/-- The first frame outward from `f` that binds the name. -/
def holder? (s : Store) (name : String) (f : FrameId) : Option FrameId :=
  s.holderWithin? name s.frames.size f

/-- What the first frame outward from `f` that binds the name binds it to. -/
def get? (s : Store) (f : FrameId) (name : String) : Option Value :=
  (s.holder? name f).bind fun h => (s.frame h).vars.get? name

/-- The method of that name on a chain of superclasses, within so many classes. -/
def findMethodWithin? (s : Store) (name : String) : Nat → ClassId → Option FunctionId
  | 0, _ => none
  | fuel + 1, c =>
    match (s.classObject c).methods.get? name with
    | some m => some m
    | none =>
      match (s.classObject c).superclass with
      | none => none
      | some p => s.findMethodWithin? name fuel p

/-- The method of that name, of the class or the nearest superclass that has one. -/
def findMethod? (s : Store) (c : ClassId) (name : String) : Option FunctionId :=
  s.findMethodWithin? name s.classes.size c

/-- The method of that name of a value, if that is a class. -/
def methodOf? (s : Store) (v : Value) (name : String) : Option FunctionId :=
  match v with
  | .classRef c => s.findMethod? c name
  | _ => none

/-- The name of the methods that set up new instances. -/
def initName : String := "init"

/-- The number of parameters of a function. -/
def functionArity (s : Store) (id : FunctionId) : Nat :=
  (s.function id).decl.params.length

/-- The number of arguments a value is called with, if it can be called. A class takes those of
its initializer. -/
def arity? (s : Store) : Value → Option Nat
  | .native f => some f.arity
  | .function id => some (s.functionArity id)
  | .method id => some (s.functionArity (s.method id).function)
  | .classRef id =>
    some (match s.findMethod? id initName with
      | some m => s.functionArity m
      | none => 0)
  | .const _ | .instanceRef _ => none

/-- The text of a value. -/
def display (s : Store) : Value → String
  | .const value => value.display
  | .native f => "<native fn " ++ f.name ++ ">"
  | .function id => "<fn " ++ (s.function id).decl.name.text ++ ">"
  | .method id => "<fn " ++ (s.function (s.method id).function).decl.name.text ++ ">"
  | .classRef id => (s.classObject id).name
  | .instanceRef id => (s.classObject (s.instanceObject id).cls).name ++ " instance"

/-- Bind a name in a frame. -/
def define (s : Store) (f : FrameId) (name : String) (v : Value) : Store :=
  { s with frames := s.frames.modify f fun fr => { fr with vars := fr.vars.bind name v } }

/-- Set a field of an instance. -/
def setField (s : Store) (id : InstanceId) (name : String) (v : Value) : Store :=
  { s with instances := s.instances.modify id fun o => { o with fields := o.fields.bind name v } }

end Store

/-- A procedure of a running program. -/
abbrev Run (α : Type) : Type := Procedure Store Fault α

namespace Run

open Procedure

variable {α : Type}

/-- Fail at a place. -/
def fail (cause : Cause) (offset : Option Int) : Run α :=
  halt (.error ⟨cause, offset⟩)

/-- What the clock shows. -/
def tick : Run Double := fun s =>
  (.ok s.clock.next, { s with clock := s.clock.later })

/-- Print a line. -/
def emit (line : String) : Run Unit :=
  change fun s => { s with output := s.output.push line }

/-- Print the text of a value. -/
def print (v : Value) : Run Unit := do
  emit (← read (·.display v))

/-- A new frame inside another one. -/
def newFrame (parent : Option FrameId) : Run FrameId := fun s =>
  (.ok s.frames.size, { s with frames := s.frames.push ⟨parent, .empty⟩ })

/-- A new function. -/
def newFunction (closure : Closure) : Run FunctionId := fun s =>
  (.ok s.functions.size, { s with functions := s.functions.push closure })

/-- A new bound method. -/
def newMethod (bound : BoundMethod) : Run MethodId := fun s =>
  (.ok s.methods.size, { s with methods := s.methods.push bound })

/-- A new class. -/
def newClass (cls : ClassObject) : Run ClassId := fun s =>
  (.ok s.classes.size, { s with classes := s.classes.push cls })

/-- A new instance without fields. -/
def newInstance (cls : ClassId) : Run InstanceId := fun s =>
  (.ok s.instances.size, { s with instances := s.instances.push ⟨cls, .empty⟩ })

/-- Bind a name in a frame. -/
def define (f : FrameId) (name : String) (v : Value) : Run Unit :=
  change (·.define f name v)

/-- What the nearest frame outward binds the name to. -/
def get (f : FrameId) (name : Mark) : Run Value := do
  match ← read (·.get? f name.text) with
  | some v => return v
  | none => fail (.undefinedVariable name.text) name.offset

/-- Bind the name anew in the nearest frame outward that binds it. -/
def assign (f : FrameId) (name : Mark) (v : Value) : Run Unit := do
  match ← read (·.holder? name.text f) with
  | some h => define h name.text v
  | none => fail (.undefinedVariable name.text) name.offset

/-- The frame so many steps out; no step for a negative distance. -/
def ancestor (f : FrameId) (distance : Int) : Run FrameId := do
  match ← read (·.ancestor? distance.toNat f) with
  | some a => return a
  | none => halt (.diverged (.noFrame distance))

/-- What the frame so many steps out binds the name to. -/
def getAt (f : FrameId) (distance : Int) (name : String) : Run Value := do
  let a ← ancestor f distance
  match ← read fun s => (s.frame a).vars.get? name with
  | some v => return v
  | none => halt (.diverged (.unbound name distance))

/-- Bind the name anew in the frame so many steps out, which must bind it. -/
def assignAt (f : FrameId) (distance : Int) (name : String) (v : Value) : Run Unit := do
  let a ← ancestor f distance
  if ← read fun s => (s.frame a).vars.contains name then define a name v
  else halt (.diverged (.unbound name distance))

/-- Give a place to an error that leaves the procedure without one. -/
def placed (offset : Unit → Option Int) (procedure : Run α) : Run α :=
  mapHalt (fun fault => if fault.isUnplaced then fault.attach (offset ()) else fault) procedure

end Run

end Lox
