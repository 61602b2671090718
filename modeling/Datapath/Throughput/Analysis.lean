import Datapath.Pass
import Datapath.Throughput.Limit
import Datapath.Timing

/-!
# Throughput of tasks

The spacing of a balanced task is the largest of its limits: one for every loop that iterates and
one or two for every resource it accesses. Inside such a loop any iteration may access a resource, so
the outermost loop stands for the access. A task that is not balanced starts again when it is done.
-/

namespace Datapath.Throughput

structure Result where
  task : String
  balanced : Bool
  limits : List Limit
  spacing : Spacing
deriving DecidableEq, Inhabited

/-- The limits found so far in a task, the resources in the order of their first access. -/
structure Found where
  loops : List Limit := []
  usages : List Usage := []
deriving DecidableEq, Inhabited

def Found.addAccess (f : Found) (r : Resource) (isWrite : Bool) (head tail : Latency) : Found :=
  if f.usages.any (·.resource.id == r.id) then
    { f with usages := f.usages.map fun u =>
        if u.resource.id == r.id then u.add isWrite head tail else u }
  else { f with usages := f.usages ++ [({ resource := r } : Usage).add isWrite head tail] }

/-- All limits: those of the loops, then those of the resources, the address of a memory first. -/
def Found.limits (f : Found) : List Limit :=
  f.loops ++ f.usages.flatMap fun u =>
    if u.resource.kind == .memory then [.address u, .resource u] else [.resource u]

abbrev Walk (α : Type) := StateT Found (ExceptT Error (Except Fault)) α

section
variable (d : Design) (t : Timing)

/-- When an access starts and ends; inside a loop that iterates, when the outermost one does. -/
def span (op : OpId) : Option OpId → Query (Latency × Latency)
  | none =>
    match t.input? op with
    | some l => return (l, l)
    | none => d.reject op .accessNotScheduled
  | some outer => do
    match t.input? outer with
    | none => d.reject outer .loopNotScheduled
    | some head =>
      match ← t.done? d outer with
      | some tail => return (head, tail)
      | none => d.reject outer (.missingExit .done)

def access (o : Operation) (outer : Option OpId) : Walk Unit := do
  let (head, tail) ← span d t o.id outer
  let r ← d.resource o.resource
  modify (·.addAccess r o.kind.isWrite head tail)

/-- A visit of a module inside the outermost loop that iterates, if there is one. -/
abbrev Visit := OpId → Option OpId → Walk Unit

/-- A loop that iterates has to drain, and it is the outermost one if there is none around it. -/
def loop (visit : Visit) (o : Operation) (outer : Option OpId) : Walk Unit := do
  if ← d.isIterative o.id then
    match d.mainExit? o with
    | none => d.reject o.id (.missingExit .done)
    | some x =>
      modify fun f => { f with loops := f.loops ++ [.loop o.name x.latency] }
      visit o.id (some (outer.getD o.id))
  else visit o.id outer

def visitOne (visit : Visit) (outer : Option OpId) (c : OpId) : Walk Unit := do
  let o ← d.op c
  match o.kind with
  | .loop => loop d visit o outer
  | .taskCall => return
  | k =>
    if k.isModule then visit c outer
    else if k.isAccess then access d t o outer

/-- Visits the inside of a module, over at most `n` levels. -/
def visit : Nat → Visit
  | 0, _, _ => throwThe Fault .endless
  | n + 1, mod, outer => do (← d.order mod).forM (visitOne d t (visit n) outer)

end

def analyzeTask (d : Design) (task : Task) : Query Result := do
  if task.balanced then
    let (timed, t) ← (Timing.compute d task.call .zero).run.run .absolute
    if let .error e := timed then throw e
    let ((), found) ← (visit d t (d.ops.size + 1) task.call none).run {}
    let limits := found.limits
    let spacing := limits.foldl (fun s l => s.max l.spacing) .zero
    return { task := task.name, balanced := true, limits, spacing }
  else
    let call ← d.op task.call
    match d.mainExit? call with
    | none => d.reject task.call (.missingExit .done)
    | some x =>
      return { task := task.name, balanced := false, limits := [],
               spacing := Limit.draining x.latency }

/-- Finds the spacing of a task and records it. -/
def record (task : Task) : Pass Result := do
  let r ← Pass.within s!"task {task.name}" (Pass.query (analyzeTask · task))
  Pass.ofBuild (changeTask task.id fun t => { t with goSpacing := r.spacing })
  return r

def analyze : Pass (List Result) := do
  let d ← get
  d.tasks.toList.mapM record

end Datapath.Throughput
