/-
# Instances and bound methods

Reading a property finds a field first, then a method of the class or its
superclasses, which is bound to the instance: a new frame inside the method's
own one binds `this`.

Key definitions: `Lox.receiverFrame`, `Lox.bindMethod`, `Lox.getProperty`, `Lox.setProperty`.
-/
import Lox.Store

namespace Lox

open Procedure

/-- A frame that binds the receiver of a method, inside the method's own one. -/
def receiverFrame (function : FunctionId) (receiver : Value) : Run FrameId := do
  let frame ← Run.newFrame (some (← read fun s => (s.function function).frame))
  Run.define frame "this" receiver
  return frame

/-- The method bound to a receiver. -/
def bindMethod (function : FunctionId) (receiver : Value) : Run Value := do
  let frame ← receiverFrame function receiver
  return .method (← Run.newMethod ⟨function, frame⟩)

/-- A field of an instance, or a method bound to it. -/
def instanceProperty (id : InstanceId) (name : Mark) : Run Value := do
  match ← read fun s => (s.instanceObject id).fields.get? name.text with
  | some v => return v
  | none =>
    match ← read fun s => s.findMethod? (s.instanceObject id).cls name.text with
    | some m => bindMethod m (.instanceRef id)
    | none => Run.fail (.undefinedProperty name.text) name.offset

/-- A property of a value, which must be an instance. -/
def getProperty (object : Value) (name : Mark) : Run Value :=
  match object with
  | .instanceRef id => instanceProperty id name
  | _ => Run.fail .noProperties name.offset

/-- Set a field of an instance. -/
def setProperty (id : InstanceId) (name : Mark) (v : Value) : Run Unit :=
  change (·.setField id name.text v)

end Lox
