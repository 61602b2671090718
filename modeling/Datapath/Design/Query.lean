import Datapath.Error

/-!
# Reading a design

Look-ups that check the index they are given, and the questions that are asked about one operation.
A question about an operation that does not exist is a fault.
-/

namespace Datapath

/-- A question that an error or a fault can answer. -/
abbrev Query (α : Type) := ExceptT Error (Except Fault) α

def require {α : Type} (f : Fault) : Option α → Except Fault α
  | some a => .ok a
  | none => .error f

def first {α : Type} (xs : List α) : Except Fault α := require .outOfRange xs.head?

def Operation.firstEntry (o : Operation) : Except Fault EntryId := first o.entries
def Operation.firstPort (o : Operation) : Except Fault PortId := first o.ports
def Operation.firstExit (o : Operation) : Except Fault ExitId := first o.exits
def Exit.firstBus (x : Exit) : Except Fault BusId := first x.buses

namespace Design

variable (d : Design)

def op (id : OpId) : Except Fault Operation := require (.dangling .operation id) (d.op? id)
def port (id : PortId) : Except Fault Port := require (.dangling .port id) (d.port? id)
def bus (id : BusId) : Except Fault Bus := require (.dangling .bus id) (d.bus? id)
def exit (id : ExitId) : Except Fault Exit := require (.dangling .exit id) (d.exit? id)
def entry (id : EntryId) : Except Fault Entry := require (.dangling .entry id) (d.entryAt? id)
def dep (id : DepId) : Except Fault Dependency := require (.dangling .dependency id) (d.dep? id)
def resource (id : ResId) : Except Fault Resource :=
  require (.dangling .resource id) (d.resource? id)
def task (index : Int) : Except Fault Task := require .outOfRange (at? d.tasks index)
def region (index : Int) : Except Fault Region := require .outOfRange (at? d.regions index)

/-! ## One operation -/

def busOwner (id : BusId) : Except Fault OpId := do
  let b ← d.bus id
  return (← d.exit b.exit).owner

def exitOf (id : OpId) (tag : ExitTag) : Except Fault ExitId := do
  let o ← d.op id
  return ((d.exitWith? o tag).map Exit.id).getD absent

/-- The ordinary exit of an operation, or its only exit, or `absent`. -/
def mainExit (id : OpId) : Except Fault ExitId := do
  let o ← d.op id
  return ((d.mainExit? o).map Exit.id).getD absent

def depsOn (entry : EntryId) (port : PortId) : Except Fault (List DepId) := do
  let e ← d.entry entry
  return ((d.depsOf e).filter (·.target == port)).map Dependency.id

def portDeps (port : PortId) : Except Fault (List Dependency) := do
  return d.depsOnPort (← d.port port)

def inBufExit (mod : OpId) : Except Fault Exit := do
  let m ← d.op mod
  let ib ← d.op m.inBuf
  d.exit (← ib.firstExit)

/-- The output buffer that completes the exit of a module with the tag, or `absent`. -/
def outBuf (mod : OpId) (tag : ExitTag) : Except Fault OpId := do
  let m ← d.op mod
  return ((d.exitWith? m tag).map Exit.peer).getD absent

def isUntimed (id : BusId) : Except Fault Bool := do
  let b ← d.bus id
  if b.constant then return true
  let o ← d.op (← d.busOwner id)
  return o.kind == .constant

/-- Whether a loop restarts its body: the feedback exit of the body must have an output buffer that
something drives. -/
def isIterative (loop : OpId) : Except Fault Bool := do
  let lp ← d.op loop
  if lp.kind != .loop || lp.body == absent then return false
  let bd ← d.op lp.body
  match d.exitWith? bd .feedback with
  | none => return false
  | some fb =>
    if fb.peer == absent then return false
    let ob ← d.op fb.peer
    return (d.entriesOf ob).any (!·.deps.isEmpty)

/-! ## Nesting -/

/-- The chain of owners that starts at `id`, the innermost first. -/
def ownersFrom : Nat → OpId → Except Fault (List OpId)
  | 0, _ => .error .endless
  | n + 1, id =>
    if id == absent then .ok []
    else do
      let o ← d.op id
      return id :: (← ownersFrom n o.owner)

/-- The owners of an operation, the innermost first. A chain without repetition is no longer than
the number of operations. -/
def owners (id : OpId) : Except Fault (List OpId) := do
  let o ← d.op id
  d.ownersFrom (d.ops.size + 1) o.owner

/-- Whether the module is met on the way up that starts at `id`. -/
def isMetFrom (mod : OpId) : Nat → OpId → Except Fault Bool
  | 0, _ => .error .endless
  | n + 1, id =>
    if id == absent then .ok false
    else if id == mod then .ok true
    else do isMetFrom mod n (← d.op id).owner

def isOwnedBy (id mod : OpId) : Except Fault Bool := do
  let o ← d.op id
  d.isMetFrom mod (d.ops.size + 1) o.owner

/-! ## Texts -/

def label (id : OpId) : Except Fault (Option Label) :=
  if id == absent then .ok none else return some (← d.op id).label

def ownerLabels (id : OpId) : Except Fault (List Label) := do
  (← d.owners id).mapM fun o => return (← d.op o).label

def site (id : OpId) : Except Fault Site := do
  return ⟨(← d.op id).label, ← d.ownerLabels id⟩

def malformed (id : OpId) (reason : Reason) : Except Fault Error :=
  if id == absent then .ok (.malformed none reason)
  else return .malformed (some (← d.site id)) reason

/-- Ends a query with the error that the structure at an operation is wrong. -/
def reject {α : Type} (id : OpId) (reason : Reason) : Query α := do
  throw (← d.malformed id reason)

def text : String :=
  s!"design {Text.quote d.name}: {d.ops.size} ops, {d.deps.size} deps, " ++
    s!"{d.resources.size} resources, {d.tasks.size} tasks"

end Design

end Datapath
