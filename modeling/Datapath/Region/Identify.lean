import Datapath.Order
import Datapath.Region.Basic

/-!
# Identifying the regions of a task

A walk over a task in schedule order notes who accesses each resource first and who last. The two
sides of a branch count as one accessor, and so does a call of a task for all that the task accesses.
Reads of a register that come before anything else may all be first; any other access ends this.
-/

namespace Datapath.Region

structure Accessors where
  resource : ResId
  first : List OpId
  last : List OpId
deriving DecidableEq, Inhabited

/-- What a walk has noted: the accessors of each resource, and the resources whose first accessors
are settled. -/
structure Log where
  accessors : List Accessors := []
  settled : List ResId := []
deriving DecidableEq, Inhabited

namespace Log

def unite (a b : List OpId) : List OpId := ascending (addIds a b)

def find? (log : Log) (r : ResId) : Option Accessors :=
  log.accessors.find? (·.resource == r)

def resources (log : Log) : List ResId := ascendingSet (log.accessors.map Accessors.resource)

def settle (log : Log) (rs : List ResId) : Log := { log with settled := addIds log.settled rs }

def note (log : Log) (r : ResId) (ops : List OpId) : Log :=
  match log.find? r with
  | none =>
    let first := if log.settled.contains r then ops else unite [] ops
    { log with accessors := log.accessors ++ [{ resource := r, first, last := ops }] }
  | some a =>
    let first := if log.settled.contains r then a.first else unite a.first ops
    { log with accessors := log.accessors.map fun b =>
        if b.resource == r then { a with first, last := ops } else b }

def ends (log : Log) (r : ResId) : List OpId :=
  match log.find? r with
  | none => []
  | some a => unite (unite [] a.first) a.last

/-- Notes what two alternatives access, as one access of each resource. -/
def noteEither (log one other : Log) : Log :=
  let rs := ascendingSet (one.resources ++ other.resources)
  let log := rs.foldl (fun log r => log.note r (unite (one.ends r) (other.ends r))) log
  (log.settle one.settled).settle other.settled

end Log

abbrev Walk (α : Type) := StateT Log (ExceptT Error (Except Fault)) α

section
variable (d : Design)

abbrev Visit := OpId → Walk Unit

variable (visit : Visit)

def children (mod : OpId) : Walk Unit := do (← d.order mod).forM visit

def access (o : Operation) (settles : Bool) : Walk Unit := do
  if o.resource == absent then d.reject o.id .accessWithoutResource
  if settles then modify (·.settle [o.resource])
  modify (·.note o.resource [o.id])

/-- Both sides of a branch may run, so they are noted together, after the decision. -/
def branch (o : Operation) : Walk Unit := do
  visit o.decision
  let ((), one) ← (children d visit o.trueSide).run {}
  let ((), other) ← (children d visit o.falseSide).run {}
  modify (·.noteEither one other)

/-- A call accesses all that the called task accesses. -/
def taskCall (o : Operation) : Walk Unit := do
  if o.body == absent then d.reject o.id .callWithoutBody
  let ((), called) ← (children d visit o.body).run {}
  modify (·.settle called.settled)
  modify fun log => called.resources.foldl (fun log r => log.note r [o.id]) log

def component (op : OpId) : Walk Unit := do
  let o ← d.op op
  match o.kind with
  | .registerRead => access d o false
  | .branch => branch d visit o
  | .taskCall => taskCall d visit o
  | k =>
    if k.isAccess then access d o true
    else if k.isModule then children d visit op

end

/-- Visits an operation and what it runs, over at most `n` levels. -/
def visit (d : Design) : Nat → Visit
  | 0, _ => throwThe Fault .endless
  | n + 1, op => component d (visit d n) op

/-- Whether two lists name the same operations, given that neither repeats one. -/
def sameOps (a b : List OpId) : Bool := a.length == b.length && a.all b.contains

/-- Adds a region for a resource whose first and last accessors differ. -/
def identifyOne (log : Log) (r : ResId) : Pass (Option Region) := do
  match log.find? r with
  | none => return none
  | some a =>
    if sameOps a.first a.last then return none
    let p ← create r a.first a.last
    let _ ← Pass.look (·.resource r)
    return some p

/-- Adds the regions of a task. -/
def identify (task : Task) : Pass (List Region) := do
  let ((), log) ← Pass.query fun d =>
    (children d (visit d (d.ops.size + 1)) task.call).run {}
  let found ← log.resources.mapM (identifyOne log)
  return found.filterMap fun p => p

end Datapath.Region
