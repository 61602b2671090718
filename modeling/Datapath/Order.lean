import Datapath.Design.Query

/-!
# Schedule order

The children of a module in the order in which they can run: every child comes after the siblings
that drive it, feedback aside. Among the children that are ready the one created first goes next.
-/

namespace Datapath

/-! ## Graphs -/

/-- A directed graph of operations. There is at most one edge from one operation to another. -/
structure Graph where
  nodes : List OpId
  edges : List (OpId × OpId) := []
deriving DecidableEq

namespace Graph

variable (g : Graph)

/-- Adds an edge, unless it is there already. -/
def connect (src dst : OpId) : Graph :=
  if g.edges.contains (src, dst) then g else { g with edges := g.edges ++ [(src, dst)] }

def sources (c : OpId) : List OpId := (g.edges.filter (·.2 == c)).map Prod.fst

def targets (c : OpId) : List OpId := (g.edges.filter (·.1 == c)).map Prod.snd

end Graph

namespace Design

variable (d : Design) (mod : OpId)

/-- The siblings that drive a child of the module outside the feedback path. -/
def drivers (child : OpId) : List OpId :=
  match d.op? child with
  | none => []
  | some o =>
    let deps := ((d.entriesOf o).filter (!·.feedback)).flatMap d.depsOf
    (deps.filterMap fun v => d.busOwner? v.source).filter fun src =>
      src != child && (d.op? src).any (·.owner == mod)

/-- The children of the module with an edge from every driver to what it drives. -/
def graph (children : List OpId) : Graph :=
  children.foldl (fun g c => (d.drivers mod c).foldl (·.connect · c) g) { nodes := children }

end Design

/-! ## Sorting -/

/-- A topological sort gives an order of the nodes, or the groups of nodes that keep it from one. -/
abbrev Sorter := Graph → Except (List (List OpId)) (List OpId)

/-- Places the pending operations one after the other, each time the first one whose drivers have
all been placed; gives up when there is none. -/
def arrange (drivers : OpId → List OpId) : Nat → List OpId → List OpId → Option (List OpId)
  | _, _, [] => some []
  | 0, _, _ :: _ => none
  | n + 1, placed, pending =>
    match pending.find? fun c => (drivers c).all placed.contains with
    | none => none
    | some c => (arrange drivers n (c :: placed) (pending.erase c)).map (c :: ·)

/-- The operations that drive a member of the set over at most `n` more steps, and the set. -/
def driversWithin (drivers : OpId → List OpId) : Nat → List OpId → List OpId
  | 0, set => set
  | n + 1, set => driversWithin drivers n (set ++ set.flatMap drivers).eraseDups

def cyclicComponents (drivers : OpId → List OpId) (ops : List OpId) : List (List OpId) :=
  let above := ops.map fun c => (c, driversWithin drivers ops.length (drivers c).eraseDups)
  let drives (a b : OpId) : Bool := ((above.lookup b).getD []).contains a
  let component (c : OpId) : List OpId := ops.filter fun b => drives b c && drives c b
  ops.filterMap fun c =>
    let group := component c
    if group.head? == some c then some group else none

def topoSort : Sorter := fun g =>
  match arrange g.sources g.nodes.length [] g.nodes with
  | some ids => .ok ids
  | none => .error (cyclicComponents g.sources g.nodes)

/-! ## Counting drivers -/

/-- How far the children have been placed. The degree of a child is the number of its drivers that have
not been placed; it is negative once the child itself has been. -/
structure Placement where
  degree : OpId → Int
  placed : List OpId

namespace Placement

def start (g : Graph) : Placement where
  degree c := (g.sources c).length
  placed := []

def lower (degree : OpId → Int) (c : OpId) : OpId → Int := fun k => if k == c then degree k - 1 else degree k

section
variable (g : Graph) (children : List OpId)

/-- One scan of the children from the start, up to the first that is ready. -/
def scan (s : Placement) : Placement :=
  match children.find? (s.degree · == 0) with
  | none => s
  | some c =>
    let marked := fun k => if k == c then -1 else s.degree k
    { degree := (g.targets c).foldl lower marked, placed := s.placed ++ [c] }

/-- Scans the children until all have been placed, at most `n` times. -/
def run (n : Nat) (s : Placement) : Except Fault (List OpId) :=
  if children.length ≤ s.placed.length then return s.placed
  else match n with
    | 0 => throw .endless
    | n + 1 => run n (s.scan g children)

end

end Placement

/-- The schedule order of a module, with a topological sort that tells whether there is one. -/
def Design.orderBy (sort : Sorter) (d : Design) (mod : OpId) : Query (List OpId) := do
  let m ← d.op mod
  let g := d.graph mod m.children
  match sort g with
  | .error groups => d.reject mod (.cycle groups)
  | .ok _ => (Placement.start g).run g m.children m.children.length

def Design.order : Design → OpId → Query (List OpId) := Design.orderBy topoSort

end Datapath
