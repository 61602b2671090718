import Datapath.Region.Basic

/-!
# Tracking regions through a module

A tracker follows the operations of one module in schedule order and works out which regions each
of them runs in. An operation that closes a region, or that takes data of one, holds back its start.
A region that nothing holds back, and data that enters a region without control, stall the module.
-/

namespace Datapath.Region

structure Tracker where
  mod : OpId
  regions : List Int
  /-- The regions that have reached the ports of operations still to come. -/
  reached : List (PortId × List Int) := []
  stallingRegions : List Int := []
  stallingOps : List OpId := []
deriving DecidableEq, Inhabited

namespace Tracker

variable (t : Tracker) (d : Design)

def tracked : List Region := t.regions.filterMap fun i => at? d.regions i

def reachedAt (port : PortId) : List Int := (t.reached.lookup port).getD []

/-- The regions that drive a port: those that have reached it, and for data also those that one of
its drivers closes. -/
def driving (port : PortId) (data : Bool) : Except Fault (List Int) := do
  let deps ← d.portDeps port
  if deps.isEmpty then return []
  let carried := t.reachedAt port
  if !data then return carried
  let sources := deps.filterMap fun v => d.busOwner? v.source
  let closed := sources.flatMap fun src => ((t.tracked d).filter (·.isEnd src)).map Region.id
  return addIds carried closed

/-- What an operation has to do with the regions around it. -/
structure Role where
  initial : List Int
  data : List Int
  opened : List Int
  closed : List Int
  dataless : List PortId

def roleOf (o : Operation) : Except Fault Role := do
  let initial ← t.driving d o.go false
  let driven ← o.ports.mapM fun p => return (p, ← t.driving d p true)
  return {
    initial
    data := driven.foldl (fun acc p => addIds acc p.2) []
    opened := addIds [] (((t.tracked d).filter (·.isStart o.id)).map Region.id)
    closed := addIds [] (((t.tracked d).filter (·.isEnd o.id)).map Region.id)
    dataless := (driven.filter (·.2.isEmpty)).map Prod.fst }

/-- The regions that an operation runs in: those of its control without those it closes, or those
of its data if no control reaches it. -/
def Role.running (r : Role) : List Int :=
  let control := addIds r.initial r.opened
  if control.isEmpty then r.data else control.filter fun i => !r.closed.contains i

def takesTimedData (port : PortId) : Except Fault Bool := do
  let timed ← (← d.portDeps port).mapM fun v => return !(← d.isUntimed v.source)
  return timed.contains true

def reach (reached : List (PortId × List Int)) (port : PortId) (ps : List Int) :
    List (PortId × List Int) :=
  if reached.any (·.1 == port) then
    reached.map fun r => if r.1 == port then (port, addIds r.2 ps) else r
  else reached ++ [(port, ps)]

def drivenPorts (o : Operation) : List PortId :=
  (d.allBuses o).flatMap fun b =>
    match d.bus? b with
    | none => []
    | some b => (b.dependents.filterMap d.dep?).map Dependency.target

def stallAll (ids : List Int) (op : OpId) : Build Unit :=
  (ascending ids).forM fun i => changeRegion i (·.addStallSignal op)

def register (op : OpId) : Build Tracker := do
  let o ← ask (·.op op)
  let role ← ask fun d => t.roleOf d o
  let running := role.running
  let targets ← ask fun d => .ok (drivenPorts d o)
  let reached := targets.foldl (fun r p => reach r p running) t.reached
  let reached := reached.filter fun r => !(Design.allPorts o).contains r.1
  stallAll role.closed op
  stallAll role.data op
  let uncontrolled := role.initial.isEmpty && role.data.isEmpty
  let stallingRegions :=
    if uncontrolled then addIds t.stallingRegions role.opened else t.stallingRegions
  let exposed ← ask fun d => role.dataless.mapM fun p => takesTimedData d p
  let stallingOps :=
    if !running.isEmpty && exposed.contains true then addIds t.stallingOps [op] else t.stallingOps
  return { t with reached, stallingRegions, stallingOps }

/-- What stalls the module: the regions by ascending index, then the operations. -/
def moduleStalls : List Stall :=
  let byRegion := (ascending t.stallingRegions).filterMap fun i =>
    (at? d.regions i).map fun p => { region := i, components := p.stallPoints }
  byRegion ++ t.stallingOps.map fun op => { region := absent, components := [op] }

end Tracker

end Datapath.Region
