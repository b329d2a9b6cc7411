/-
# Reaching names

Two ways to read and to assign a name from a frame. By its record: the frame
that lies as many steps out as recorded, or the globals if there is no record.
By walking: the nearest frame outward that binds the name, whatever the record
says. Programs run by the record.

Key definitions: `Lox.Access`, `Lox.Access.recorded`, `Lox.Access.walking`.
-/
import Lox.Store

namespace Lox

/-- A way to reach names. -/
structure Access where
  look : NameUse → FrameId → Run Value
  store : NameUse → Value → FrameId → Run Unit

namespace Access

/-- In the frame that the record says, or among the globals. -/
def recorded : Access where
  look use f :=
    match use.hops with
    | some d => Run.getAt f d use.name.text
    | none => Run.get Store.globals use.name
  store use v f :=
    match use.hops with
    | some d => Run.assignAt f d use.name.text v
    | none => Run.assign Store.globals use.name v

/-- In the nearest frame outward that binds the name. -/
def walking : Access where
  look use f := Run.get f use.name
  store use v f := Run.assign f use.name v

end Access

end Lox
