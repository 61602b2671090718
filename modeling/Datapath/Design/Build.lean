import Datapath.Design.Query

/-!
# Building a design

The steps that add elements to a design and link them to what is there: operations with their ports,
exits with their buses, entries, dependencies and resources. Each step gives the new element the
next free index.
-/

namespace Datapath

/-- A step that changes a design, unless it is a fault. -/
abbrev Build (α : Type) := StateT Design (Except Fault) α

def ask {α : Type} (q : Design → Except Fault α) : Build α := fun d => return (← q d, d)

def faulty {α : Type} (f : Fault) : Build α := fun _ => .error f

/-! ## Operations and ports -/

/-- Adds an operation with its go port, as the last child of its owner. -/
def addOp (kind : Kind) (owner : OpId) (name : String) : Build OpId := fun d => do
  let id : OpId := d.ops.size
  let go : PortId := d.ports.size
  let d := { d with
    ops := d.ops.push { id, kind, name, owner, go }
    ports := d.ports.push { id := go, owner := id, name := "go", isGo := true } }
  if owner == absent then return (id, d)
  let _ ← d.op owner
  return (id, d.editOp owner fun m => { m with children := m.children ++ [id] })

/-- Adds data ports to an operation, none if the count is negative. -/
def addPorts (op : OpId) (count : Int) : Build Unit := fun d => do
  let base := d.ports.size
  let new : List Port := (List.range count.toNat).map fun i =>
    { id := ((base + i : Nat) : Int), owner := op, name := s!"d{i}", isGo := false }
  let d := { d with ports := d.ports ++ new }
  return ((), d.editOp op fun o => { o with ports := o.ports ++ new.map Port.id })

/-! ## Exits and entries -/

def addExit (op : OpId) (tag : ExitTag) (latency : Latency) (count : Int) : Build ExitId :=
  fun d => do
    let id : ExitId := d.exits.size
    let base := d.buses.size
    let done : Bus := { id := base, exit := id, name := tag.text ++ ".done", isDone := true }
    let data : List Bus := (List.range count.toNat).map fun i =>
      { id := ((base + 1 + i : Nat) : Int), exit := id, name := s!"{tag.text}.q{i}",
        isDone := false }
    let d := { d with
      exits := d.exits.push
        { id, owner := op, tag, done := done.id, buses := data.map Bus.id, latency }
      buses := d.buses.push done ++ data }
    let _ ← d.op op
    return (id, d.editOp op fun o => { o with exits := o.exits ++ [id] })

def addEntry (op : OpId) (drive : ExitId) : Build EntryId := fun d => do
  let id : EntryId := d.entries.size
  let d := { d with entries := d.entries.push { id, owner := op, drive } }
  let _ ← d.op op
  return (id, d.editOp op fun o => { o with entries := o.entries ++ [id] })

/-! ## Dependencies -/

/-- Whether a dependency of the kind can take so many clocks: only resource dependencies delay. -/
def delayAllowed (kind : DepKind) (clocks : Int64) : Bool :=
  clocks == 0 || (decide (0 < clocks) && kind == .resource)

/-- Adds a dependency to an entry, from a bus to a port of the operation the entry belongs to. -/
def addDependency (entry : EntryId) (kind : DepKind) (source : BusId) (target : PortId)
    (minClocks : Int64) : Build DepId := fun d => do
  let e ← d.entry entry
  let p ← d.port target
  if p.owner != e.owner then throw (.foreignTarget target (← d.label e.owner))
  if !delayAllowed kind minClocks then throw (.invalidDelay kind minClocks)
  let _ ← d.bus source
  let id : DepId := d.deps.size
  let d := { d with deps := d.deps.push { id, kind, entry, source, target, minClocks } }
  let d := d.editEntry entry fun e => { e with deps := e.deps ++ [id] }
  return (id, d.editBus source fun b => { b with dependents := b.dependents ++ [id] })

/-- Adds a control dependency on a go port and a data dependency on any other port. -/
def connect (entry : EntryId) (source : BusId) (target : PortId) : Build DepId := do
  let p ← ask (·.port target)
  addDependency entry (if p.isGo then .control else .data) source target 0

def connectAll (entry : EntryId) (sources : List BusId) (targets : List PortId) : Build Unit :=
  (sources.zip targets).forM fun (b, p) => discard (connect entry b p)

def connectResource (entry : EntryId) (source : BusId) (target : PortId) (clocks : Int64) :
    Build DepId :=
  addDependency entry .resource source target clocks

def relocate (dep : DepId) (source : BusId) : Build Unit := fun d => do
  let v ← d.dep dep
  let _ ← d.bus v.source
  let d := d.editBus v.source fun b => { b with dependents := b.dependents.filter (· != dep) }
  let d := d.editDep dep fun v => { v with source }
  let _ ← d.bus source
  return ((), d.editBus source fun b => { b with dependents := b.dependents ++ [dep] })

/-! ## Changing elements -/

def setLatency (op : OpId) (latency : Latency) : Build Unit := fun d => do
  let x ← d.mainExit op
  if x == absent then throw (.noMainExit (← d.label op))
  return ((), d.editExit x fun x => { x with latency })

def changeOp (id : OpId) (f : Operation → Operation) : Build Unit := fun d => do
  let _ ← d.op id
  return ((), d.editOp id f)

def changeBus (id : BusId) (f : Bus → Bus) : Build Unit := fun d => do
  let _ ← d.bus id
  return ((), d.editBus id f)

def changeExit (id : ExitId) (f : Exit → Exit) : Build Unit := fun d => do
  let _ ← d.exit id
  return ((), d.editExit id f)

def changeEntry (id : EntryId) (f : Entry → Entry) : Build Unit := fun d => do
  let _ ← d.entry id
  return ((), d.editEntry id f)

def changeTask (index : Int) (f : Task → Task) : Build Unit := fun d => do
  let _ ← d.task index
  return ((), { d with tasks := editAt d.tasks index f })

def linkPeers (ports : List PortId) (buses : List BusId) : Build Unit := modify fun d =>
  (ports.zip buses).foldl (fun d (p, b) =>
    (d.editPort p fun q => { q with peer := b }).editBus b fun c => { c with peer := p }) d

/-! ## Primitives -/

/-- Adds an operation that owns nothing, with one ordinary exit. -/
def newPrimitive (kind : Kind) (owner : OpId) (name : String) (inputs outputs : Int)
    (latency : Latency) : Build OpId := do
  if kind.isModule then faulty (.notPrimitive kind)
  let id ← addOp kind owner name
  addPorts id inputs
  let _ ← addEntry id absent
  let _ ← addExit id .done latency outputs
  return id

/-- Adds a constant, whose one output is ready at once and never changes. -/
def newConstant (owner : OpId) (name : String) (value : Int64) : Build OpId := do
  let id ← newPrimitive .constant owner name 0 1 .zero
  changeOp id fun o => { o with value }
  let o ← ask (·.op id)
  let x ← ask fun d => do d.exit (← o.firstExit)
  let b ← ask fun _ => x.firstBus
  changeBus b fun b => { b with constant := true }
  return id

def newResource (kind : ResourceKind) (name : String) (parallelReads : Bool) : Build ResId :=
  fun d =>
    let id : ResId := d.resources.size
    .ok (id, { d with resources := d.resources.push { id, kind, name, parallelReads } })

/-- Adds a read or a write of a resource. Accesses of memories take an address, writes take a value
and reads produce one. -/
def newAccess (kind : Kind) (owner : OpId) (name : String) (resource : ResId)
    (latency : Latency) : Build OpId := do
  let r ← ask (·.resource resource)
  match r.kind.accessKinds? with
  | none => faulty (.invalidResourceKind r.kind)
  | some (read, write) =>
    if kind != read && kind != write then faulty (.cannotAccess kind r.kind r.name)
  let address : Int := if r.kind == .memory then 1 else 0
  let value : Int := if kind.isRead then 0 else 1
  let id ← newPrimitive kind owner name (address + value) (1 - value) latency
  changeOp id fun o => { o with resource }
  modify fun d => d.editResource resource fun r => { r with accesses := r.accesses ++ [id] }
  return id

/-! ## Starting and finishing -/

/-- Lets a bus start an operation through its first entry. -/
def start (op : OpId) (source : BusId) : Build DepId := do
  let o ← ask (·.op op)
  addDependency (← ask fun _ => o.firstEntry) .control source o.go 0

/-- Lets the completion of an operation complete the exit of a module with the tag. -/
def finish (mod : OpId) (tag : ExitTag) (op : OpId) : Build DepId := do
  let ob ← ask fun d => do d.op (← d.outBuf mod tag)
  let entry ← ask fun _ => ob.firstEntry
  let x ← ask fun d => do d.exit (← d.mainExit op)
  addDependency entry .control x.done ob.go 0

end Datapath
