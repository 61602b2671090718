import Datapath.Kind
import Datapath.Latency
import Datapath.Spacing

/-!
# Designs

A design is a graph of operations kept in one store. Operations take part in it through ports
(inputs) and exits (ways to complete), each exit carrying buses (outputs). An entry is a way into an
operation and holds the dependencies that lead from buses to its ports. Operations nest: a module
owns the operations that run inside it.

Every element is addressed by its index in the store and none is ever removed. An index of `absent`
stands for no element; an index may also dangle, which the reader of a link has to check.
-/

namespace Datapath

abbrev OpId := Int
abbrev PortId := Int
abbrev BusId := Int
abbrev ExitId := Int
abbrev EntryId := Int
abbrev DepId := Int
abbrev ResId := Int

/-- The index that stands for no element. -/
def absent : Int := -1

/-! ## Elements -/

structure Port where
  id : PortId
  owner : OpId
  name : String
  isGo : Bool
  /-- The bus that shows a port of a module on its inside, or that an output buffer drives. -/
  peer : BusId := absent
deriving DecidableEq, Inhabited

structure Bus where
  id : BusId
  exit : ExitId
  name : String
  isDone : Bool
  constant : Bool := false
  /-- The port that drives a bus of a module from its inside, or that an input buffer shows. -/
  peer : PortId := absent
  dependents : List DepId := []
deriving DecidableEq, Inhabited

structure Exit where
  id : ExitId
  owner : OpId
  tag : ExitTag
  done : BusId
  buses : List BusId
  latency : Latency
  /-- The output buffer that completes an exit of a module. -/
  peer : OpId := absent
deriving DecidableEq, Inhabited

/-- A way into an operation, with the dependencies that drive its ports along that way. -/
structure Entry where
  id : EntryId
  owner : OpId
  drive : ExitId
  feedback : Bool := false
  deps : List DepId := []
deriving DecidableEq, Inhabited

/-- An edge from a bus to a port, which takes at least `minClocks` clocks. -/
structure Dependency where
  id : DepId
  kind : DepKind
  entry : EntryId
  source : BusId
  target : PortId
  minClocks : Int64
deriving DecidableEq, Inhabited

structure Resource where
  id : ResId
  kind : ResourceKind
  name : String
  parallelReads : Bool
  accesses : List OpId := []
deriving DecidableEq, Inhabited

/-- A source of back-pressure on a module: the start points of a region, or one component, in
which case the region is `absent`. -/
structure Stall where
  region : Int
  components : List OpId
deriving DecidableEq, Inhabited

structure Operation where
  id : OpId
  kind : Kind
  name : String
  owner : OpId
  go : PortId
  ports : List PortId := []
  exits : List ExitId := []
  entries : List EntryId := []
  /-- The operations that a module owns, in the order of their creation. -/
  children : List OpId := []
  inBuf : OpId := absent
  decision : OpId := absent
  trueSide : OpId := absent
  falseSide : OpId := absent
  /-- What a call, a loop or a loop body runs. -/
  body : OpId := absent
  update : OpId := absent
  /-- The register that restarts the body of a loop. -/
  control : OpId := absent
  /-- Whether a loop still needs the registers between two iterations. -/
  flopNeeded : Bool := false
  resource : ResId := absent
  value : Int64 := 0
  stalls : List Stall := []
deriving DecidableEq, Inhabited

/-- A unit that can be started from outside, around a call. -/
structure Task where
  id : Int
  name : String
  call : OpId
  balanced : Bool
  goSpacing : Spacing := .zero
deriving DecidableEq, Inhabited

/-! ## Regions -/

/-- One end of a region: components of which only one runs at a time, and the child of the
context of the region that contains all of them. -/
structure RegionPoint where
  candidates : List OpId
  context : OpId
  critical : OpId
deriving DecidableEq, Inhabited

/-- A point at which a region starts, and the components that can hold it back. -/
structure StartPoint where
  point : RegionPoint
  stallSignals : List OpId := []
deriving DecidableEq, Inhabited

/-- A region from the first to the last accesses of a resource, no two runs of which may
overlap. -/
structure Region where
  id : Int
  resource : ResId
  context : OpId
  starts : List StartPoint
  finish : RegionPoint
deriving DecidableEq, Inhabited

/-! ## The store -/

structure Design where
  name : String
  ops : Array Operation := #[]
  ports : Array Port := #[]
  buses : Array Bus := #[]
  exits : Array Exit := #[]
  entries : Array Entry := #[]
  deps : Array Dependency := #[]
  resources : Array Resource := #[]
  tasks : Array Task := #[]
  regions : Array Region := #[]
deriving DecidableEq, Inhabited

def at? {α : Type} (xs : Array α) (id : Int) : Option α :=
  if 0 ≤ id then xs[id.toNat]? else none

def editAt {α : Type} (xs : Array α) (id : Int) (f : α → α) : Array α :=
  if 0 ≤ id then xs.modify id.toNat f else xs

namespace Design

variable (d : Design)

def op? (id : OpId) : Option Operation := at? d.ops id
def port? (id : PortId) : Option Port := at? d.ports id
def bus? (id : BusId) : Option Bus := at? d.buses id
def exit? (id : ExitId) : Option Exit := at? d.exits id
def entryAt? (id : EntryId) : Option Entry := at? d.entries id
def dep? (id : DepId) : Option Dependency := at? d.deps id
def resource? (id : ResId) : Option Resource := at? d.resources id

def editOp (id : OpId) (f : Operation → Operation) : Design :=
  { d with ops := editAt d.ops id f }

def editPort (id : PortId) (f : Port → Port) : Design :=
  { d with ports := editAt d.ports id f }

def editBus (id : BusId) (f : Bus → Bus) : Design :=
  { d with buses := editAt d.buses id f }

def editExit (id : ExitId) (f : Exit → Exit) : Design :=
  { d with exits := editAt d.exits id f }

def editEntry (id : EntryId) (f : Entry → Entry) : Design :=
  { d with entries := editAt d.entries id f }

def editDep (id : DepId) (f : Dependency → Dependency) : Design :=
  { d with deps := editAt d.deps id f }

def editResource (id : ResId) (f : Resource → Resource) : Design :=
  { d with resources := editAt d.resources id f }

/-! ## Following links -/

def entriesOf (o : Operation) : List Entry := o.entries.filterMap d.entryAt?

def exitsOf (o : Operation) : List Exit := o.exits.filterMap d.exit?

def depsOf (e : Entry) : List Dependency := e.deps.filterMap d.dep?

def busOwner? (id : BusId) : Option OpId := do
  let b ← d.bus? id
  let x ← d.exit? b.exit
  return x.owner

def depsOnPort (p : Port) : List Dependency :=
  match d.op? p.owner with
  | none => []
  | some o => (d.entriesOf o).flatMap fun e => (d.depsOf e).filter (·.target == p.id)

def exitWith? (o : Operation) (tag : ExitTag) : Option Exit := (d.exitsOf o).find? (·.tag == tag)

/-- The ordinary exit of an operation, or its only exit if it has no ordinary one. -/
def mainExit? (o : Operation) : Option Exit :=
  match d.exitWith? o .done with
  | some x => some x
  | none =>
    match d.exitsOf o with
    | [x] => some x
    | _ => none

def allPorts (o : Operation) : List PortId := o.go :: o.ports

def allBuses (o : Operation) : List BusId := (d.exitsOf o).flatMap fun x => x.done :: x.buses

end Design

end Datapath
