import Datapath.Loop.Conflict
import Datapath.Timing

/-!
# Analysis of loop registers

The registers of a loop can go if no resource is accessed both in the first and in the last cycle of
the loop body. The analysis walks the block that the body runs, finds the accesses in its first and
in its last cycle, and reports the pairs that collide. A nested loop counts as an access of itself,
since it can run only one iteration at a time.
-/

namespace Datapath.Loop

inductive Key where
  | resource (id : ResId)
  | loop (id : OpId)
deriving DecidableEq, Inhabited

def Key.text : Key → String
  | resource id => s!"resource#{id}"
  | loop id => s!"loop#{id}"

/-- Why the analysis of a loop body says that the registers stay. -/
inductive Cause where
  /-- A body without a clock in it needs the registers. -/
  | bodyLatency (l : Latency)
  | taskCall (op : Option Label)
  | unexpected (op : Option Label)
  | latencyOf (op : Option Label)
  | accessed (key : Key) (head tail : Option Label)
deriving DecidableEq

def Cause.text : Cause → String
  | bodyLatency l => "body latency " ++ l.text
  | taskCall op => "task call " ++ labelText op
  | unexpected op => "unexpected " ++ labelText op
  | latencyOf op => "latency of " ++ labelText op
  | accessed key head tail =>
    s!"{key.text} accessed first by {labelText head} and last by {labelText tail}"

structure FlopReport where
  body : OpId
  needed : Bool := false
  analyzable : Bool := false
  cause : Option Cause := none
  /-- The conflicts by what they are about, in the order of discovery. -/
  conflicts : List (Key × List Conflict) := []
deriving DecidableEq, Inhabited

namespace FlopReport

def removable (r : FlopReport) : Bool := !r.needed && r.analyzable && r.conflicts.isEmpty

def all (r : FlopReport) : List Conflict := r.conflicts.flatMap Prod.snd

def reason (r : FlopReport) : String := (r.cause.map Cause.text).getD ""

end FlopReport

/-! ## Sightings -/

structure Sighting where
  key : Key
  access : OpId
  path : List OpId
  first : Bool
  last : Bool
deriving DecidableEq, Inhabited

structure Found where
  sightings : List Sighting := []
  conflicts : List (Key × List Conflict) := []
deriving DecidableEq, Inhabited

def addConflict (conflicts : List (Key × List Conflict)) (key : Key) (c : Conflict) :
    List (Key × List Conflict) :=
  if conflicts.any (·.1 == key) then
    conflicts.map fun p => if p.1 == key then (key, p.2 ++ [c]) else p
  else conflicts ++ [(key, [c])]

inductive Stop where
  | notAnalyzable (why : Cause)
  | conflict (why : Cause)

abbrev FlopWalk (α : Type) := ExceptT Stop (StateT Found (Except Fault)) α

section
variable (d : Design) (t : Timing) (failFast : Bool)

def unknownLatency {α : Type} (op : OpId) : FlopWalk α := do
  throw (.notAnalyzable (.latencyOf (← d.label op)))

/-- The exits of an operation that take part in the ordinary flow. -/
def flowExits (o : Operation) : List Exit := (d.exitsOf o).filter (·.tag.kind != .sideband)

/-- Whether every exit of the owner of `comp` completes strictly after `late`. -/
def ownerCompletesAfter (comp : OpId) (late : Latency) : FlopWalk Bool := do
  let owner ← d.op (← d.op comp).owner
  let later ← (flowExits d owner).mapM fun x => do
    match t.input? x.peer with
    | some l => return l.exceeds late
    | none => unknownLatency d x.peer
  return later.all id

def completion (op : OpId) : FlopWalk Latency := do
  let o ← d.op op
  let dones ← (flowExits d o).mapM fun x => do
    match t.bus? x.done with
    | some l => return l
    | none => unknownLatency d op
  match dones with
  | [] => return .zero
  | l :: ls => return ls.foldl (fun a b => if b.exceeds a then b else a) l

/-- Whether `comp`, which completes at `late`, is in the last cycle, given the modules around it
from the innermost to the outermost. It is not if one of them completes strictly after what runs
in it. -/
def isLast : List OpId → OpId → Latency → FlopWalk Bool
  | [], _, _ => return true
  | m :: rest, comp, late => do
    if ← ownerCompletesAfter d t comp late then return false
    if rest.isEmpty then return true
    isLast rest m (← completion d t m)

def collide (head tail : Sighting) : FlopWalk Unit := do
  let c : Conflict := ⟨head.access, head.path, tail.access, tail.path⟩
  modify fun f => { f with conflicts := addConflict f.conflicts head.key c }
  if failFast then
    throw (.conflict (.accessed head.key (← d.label head.access) (← d.label tail.access)))

/-- Notes an access, which collides with the accesses seen before in the other cycle. -/
def meet (s : Sighting) : FlopWalk Unit := do
  ((← get).sightings.filter (·.key == s.key)).forM fun v => do
    if v.first && s.last then collide d failFast v s
    else if s.first && v.last then collide d failFast s v
  modify fun f => { f with sightings := f.sightings ++ [s] }

/-- Records an access that runs from `early` to `late` in a module that starts at `start`. It
collides with itself if it is in both cycles. -/
def mark (op : OpId) (key : Key) (early late start : Latency) (path : List OpId) :
    FlopWalk Unit := do
  let last ← isLast d t path.reverse op late
  let s : Sighting := { key, access := op, path, first := (early.after start).min == 0, last }
  if !s.first && !s.last then return
  if s.first && s.last then collide d failFast s s
  meet d failFast s

/-! ## The walk -/

def inputAt (op : OpId) : FlopWalk Latency :=
  match t.input? op with
  | some l => return l
  | none => unknownLatency d op

def doneAt (op : OpId) : FlopWalk Latency := do
  match ← t.done? d op with
  | some l => return l
  | none => unknownLatency d op

/-- A visit of an operation in a module that starts at a latency and lies inside a path. -/
abbrev FlopVisit := OpId → Latency → List OpId → FlopWalk Unit

def dive (visit : FlopVisit) (mod : OpId) (start : Latency) (path : List OpId) :
    FlopWalk Unit := do
  let m ← d.op mod
  if (← d.portDeps m.go).isEmpty then return
  let input ← inputAt d t mod
  m.children.forM fun c => visit c (input.after start) (path ++ [mod])

def flopComponent (visit : FlopVisit) (op : OpId) (start : Latency) (path : List OpId) :
    FlopWalk Unit := do
  let o ← d.op op
  match o.kind with
  | .memoryRead | .memoryWrite =>
    let l ← inputAt d t op
    mark d t failFast op (.resource o.resource) l l start path
  | .fifoRead | .fifoWrite | .pinRead | .pinWrite =>
    let early ← inputAt d t op
    mark d t failFast op (.resource o.resource) early (← doneAt d t op) start path
  | .registerRead | .registerWrite => return
  | .loop =>
    let early ← inputAt d t op
    mark d t failFast op (.loop op) early (← doneAt d t op) start path
    dive d t visit op start path
  | .taskCall => throw (.notAnalyzable (.taskCall (← d.label op)))
  | k =>
    if k.isModule then dive d t visit op start path
    else if k.isHardware then throw (.notAnalyzable (.unexpected (← d.label op)))

/-- Visits an operation and what is nested in it, over at most `n` levels. -/
def flopVisit : Nat → FlopVisit
  | 0, _, _, _ => throwThe Fault .endless
  | n + 1, op, start, path => flopComponent d t failFast (flopVisit n) op start path

end

/-- What a walk over a loop body found, and how it ended. -/
def reportOf (body : OpId) (found : Found) : Except Stop PUnit → FlopReport
  | .ok () => { body, conflicts := found.conflicts, analyzable := true }
  | .error (.conflict why) =>
    { body, conflicts := found.conflicts, analyzable := true, cause := some why }
  | .error (.notAnalyzable why) => { body, conflicts := found.conflicts, cause := some why }

/-- Analyzes a loop body. With `failFast` the analysis ends at the first conflict. -/
def analyze (d : Design) (body : OpId) (failFast : Bool) : Query FlopReport := do
  let bd ← d.op body
  if !bd.kind.isLoopBody || bd.body == absent then d.reject body .notLoopBody
  let block ← d.op bd.body
  match d.mainExit? block with
  | none => d.reject bd.body (.missingExit .done)
  | some x =>
    if x.latency.min ≤ 0 then
      return { body, needed := true, cause := some (.bodyLatency x.latency) }
    let (timed, t) ← (Timing.compute d bd.body .zero).run.run .relative
    if let .error e := timed then throw e
    let walk := block.children.forM fun c =>
      flopVisit d t failFast (d.ops.size + 1) c .zero [bd.body]
    let (ended, found) ← walk.run.run {}
    return reportOf body found ended

end Datapath.Loop
