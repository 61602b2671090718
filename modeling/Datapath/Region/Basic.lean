import Datapath.Ids
import Datapath.Pass

/-!
# Regions

A region spans the first and the last accesses of a resource inside the deepest block that owns all
of them, its context. Its ends are children of the context.
-/

namespace Datapath

namespace Design

variable (d : Design)

/-! ## Contexts -/

def commonPath : List OpId → List OpId → List OpId
  | x :: xs, y :: ys => if x == y then x :: commonPath xs ys else []
  | _, _ => []

def sharedOwners (ops : List OpId) : Except Fault (List OpId) := do
  match ← ops.mapM fun op => return (← d.owners op).reverse with
  | [] => return []
  | path :: paths => return paths.foldl commonPath path

/-- The deepest block that owns all of the operations. -/
def regionContext (ops : List OpId) : Query OpId := do
  match ops with
  | [] => d.reject absent .noAccessors
  | op :: _ =>
    let blocks := (← d.sharedOwners ops).filter fun o => (d.op? o).any (·.kind == .block)
    match blocks.getLast? with
    | some ctx => return ctx
    | none => d.reject op .noCommonBlock

/-- The first operation on the way up from `id` that the context owns. -/
def childToward (context : OpId) : Nat → OpId → Except Fault (Option OpId)
  | 0, _ => .error .endless
  | n + 1, id =>
    if id == absent then .ok none
    else do
      let o ← d.op id
      if o.owner == context then return some id
      childToward context n o.owner

/-- The child of the context that is the operation or contains it. -/
def criticalContext (op context : OpId) : Query OpId := do
  match ← d.childToward context (d.ops.size + 1) op with
  | some c => return c
  | none => d.reject op (.outsideContext (← d.label context))

/-! ## Points -/

/-- Checks that all candidates of a point lie under the same child of the context, which is found so
far to be `critical`. -/
def checkPoint (context : OpId) : OpId → List OpId → Query OpId
  | critical, [] => return critical
  | critical, op :: rest => do
    let c ← d.criticalContext op context
    if critical == absent then checkPoint context c rest
    else if critical == c then checkPoint context critical rest
    else
      let one ← d.label critical
      d.reject op (.pointSpans one (← d.label c))

def regionPoint (ops : List OpId) (context : OpId) : Query RegionPoint := do
  let candidates := ascending ops
  return { candidates, context, critical := ← d.checkPoint context absent candidates }

/-- Operations by the child of the context that contains them, in the order in which these children
are met. -/
def groupByCritical (context : OpId) (groups : List (OpId × List OpId)) :
    List OpId → Query (List (OpId × List OpId))
  | [] => return groups
  | op :: rest => do
    let c ← d.criticalContext op context
    let groups :=
      if groups.any (·.1 == c) then
        groups.map fun g => if g.1 == c then (c, g.2 ++ [op]) else g
      else groups ++ [(c, [op])]
    groupByCritical context groups rest

end Design

namespace Region

/-- The region of a resource between its first and its last accessors. -/
def describe (d : Design) (resource : ResId) (start finish : List OpId) : Query Region := do
  let context ← d.regionContext (start ++ finish)
  let groups ← d.groupByCritical context [] (ascending start)
  let starts ← groups.mapM fun g => return { point := ← d.regionPoint g.2 context }
  let finish ← d.regionPoint finish context
  return { id := d.regions.size, resource, context, starts, finish }

def create (resource : ResId) (start finish : List OpId) : Pass Region := do
  let p ← Pass.query fun d => describe d resource start finish
  modify fun d => { d with regions := d.regions.push p }
  return p

variable (p : Region)

def isStart (op : OpId) : Bool := p.starts.any (·.point.critical == op)

def isEnd (op : OpId) : Bool := p.finish.critical == op

def addStallSignal (op : OpId) : Region :=
  { p with starts := p.starts.map fun s =>
      if s.stallSignals.contains op then s else { s with stallSignals := s.stallSignals ++ [op] } }

def stallPoints : List OpId := p.starts.map (·.point.critical)

end Region

def changeRegion (index : Int) (f : Region → Region) : Build Unit := fun d => do
  let _ ← d.region index
  return ((), { d with regions := editAt d.regions index f })

end Datapath
