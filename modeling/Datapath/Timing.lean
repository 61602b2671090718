import Datapath.Order

/-!
# Timing

When the operations inside a module start and when their buses become valid. An operation starts
once the buses that drive it are valid, a mux with the first of them and any other operation with
the last; an operation that nothing drives starts with its module. A timing counts either from the
start of the module it was computed for, or separately in every module from its own start.

A timing grows with every computation, and a computation that fails leaves what it had found.
-/

namespace Datapath

structure Timing where
  /-- Whether every module counts from its own start. -/
  perModule : Bool
  inputs : List (OpId × Latency) := []
  buses : List (BusId × Latency) := []
deriving DecidableEq, Inhabited

namespace Timing

/-- A computation that extends a timing. -/
abbrev Step (α : Type) := ExceptT Error (StateT Timing (Except Fault)) α

def fromQuery {α : Type} (q : Query α) : Step α := fun t => return (← q.run, t)

def input? (t : Timing) (op : OpId) : Option Latency := t.inputs.lookup op

def bus? (t : Timing) (bus : BusId) : Option Latency := t.buses.lookup bus

def done? (t : Timing) (d : Design) (op : OpId) : Except Fault (Option Latency) := do
  let o ← d.op op
  return (d.mainExit? o).bind fun x => t.bus? x.done

/-- The latency of a dependency whose source becomes valid at `source`. -/
def arrival (v : Dependency) (source : Latency) : Latency :=
  if 0 < v.minClocks then (⟨v.minClocks, v.minClocks, 0⟩ : Latency).after source else source

/-- When an operation starts, given its arrivals and the start of its module. -/
def startOf (kind : Kind) (base : Latency) : List Latency → Latency
  | [] => base
  | ls =>
    match kind with
    | .mux => .anyOf ls
    | .scoreboard => .allOf ls
    | _ => .allOf (Latency.latest ls)

/-- The dependencies of an operation outside the feedback path. -/
def forwardDeps (d : Design) (o : Operation) : List Dependency :=
  ((d.entriesOf o).filter (!·.feedback)).flatMap d.depsOf

def inputOf (t : Timing) (d : Design) (o : Operation) (base : Latency) : Query Latency := do
  let arrivals ← (forwardDeps d o).mapM fun v => do
    match t.bus? v.source with
    | some l => return arrival v l
    | none => d.reject o.id (.latencyUnknown (← d.bus v.source).name)
  return startOf o.kind base arrivals

/-- The buses of an operation that starts at `input`. Exits outside the ordinary flow have no
timing. -/
def busesOf (d : Design) (o : Operation) (input : Latency) : List (BusId × Latency) :=
  ((d.exitsOf o).filter (·.tag.kind != .sideband)).flatMap fun x =>
    (x.done :: x.buses).map fun b => (b, x.latency.after input)

/-- Times an operation of a module that starts at `base`, and with `inside` what runs in it. -/
def timeOne (d : Design) (inside : OpId → Latency → Step Unit) (base : Latency) (c : OpId) :
    Step Unit := do
  let o ← d.op c
  let t ← get
  let input ← fromQuery (t.inputOf d o base)
  modify fun t => { t with inputs := (c, input) :: t.inputs }
  if o.kind.isInlineModule then inside c (if t.perModule then .zero else input)
  modify fun t => { t with buses := busesOf d o input ++ t.buses }

/-- Times the inside of a module, nested modules included. -/
def inside (d : Design) : Nat → OpId → Latency → Step Unit
  | 0, _, _ => throwThe Fault .endless
  | n + 1, mod, base => do
    (← fromQuery (d.order mod)).forM (timeOne d (inside d n) base)

def compute (d : Design) (mod : OpId) (base : Latency) : Step Unit := do
  modify fun t => { t with inputs := (mod, base) :: t.inputs }
  inside d (d.ops.size + 1) mod (if (← get).perModule then .zero else base)

def absolute : Timing := { perModule := false }

def relative : Timing := { perModule := true }

end Timing

end Datapath
