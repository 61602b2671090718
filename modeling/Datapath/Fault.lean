import Datapath.Label
import Datapath.Text.Quoted

/-!
# Faults

A fault is a call that breaks the rules of the store: it names an element that does not exist, asks
for a delay that a dependency cannot have, and so on. Such a call gives no result and leaves no
design behind.
-/

namespace Datapath

inductive Element where
  | operation
  | port
  | bus
  | exit
  | entry
  | dependency
  | resource
deriving DecidableEq

def Element.name : Element → String
  | operation => "operation"
  | port => "port"
  | bus => "bus"
  | exit => "exit"
  | entry => "entry"
  | dependency => "dependency"
  | resource => "resource"

inductive Fault where
  | dangling (what : Element) (id : Int)
  /-- The port does not belong to the operation whose entry should hold the dependency. -/
  | foreignTarget (port : PortId) (op : Option Label)
  | invalidDelay (kind : DepKind) (clocks : Int64)
  | noMainExit (op : Option Label)
  | notPrimitive (kind : Kind)
  | notModule (kind : Kind)
  | invalidResourceKind (kind : ResourceKind)
  | cannotAccess (kind : Kind) (resource : ResourceKind) (name : String)
  | outOfRange
  /-- A walk along links comes back to where it started. -/
  | endless
deriving DecidableEq

def Fault.message : Fault → String
  | dangling what id => s!"lim: invalid {what.name} id: {id}"
  | foreignTarget port op => s!"lim: dependency target {port} is not a port of {labelText op}"
  | invalidDelay kind clocks => s!"lim: invalid {kind.name} dependency delay: {clocks}"
  | noMainExit op => s!"lim: no main exit on {labelText op}"
  | notPrimitive kind => s!"lim: not a primitive kind: {kind.name}"
  | notModule kind => s!"lim: not a module kind: {kind.name}"
  | invalidResourceKind kind => s!"lim: invalid resource kind: {kind.name}"
  | cannotAccess kind resource name =>
    s!"lim: {kind.name} cannot access {resource.name} {Text.quote name}"
  | outOfRange => "position out of range"
  | endless => "walk without an end"

end Datapath
