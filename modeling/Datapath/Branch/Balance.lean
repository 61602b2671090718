import Datapath.Options
import Datapath.Pass

/-!
# Balancing branches

Inside a loop the two sides of a branch must not complete one at once and the other after a clock.
Where they would, the faster side is delayed by a clock; a branch whose sides are neither clearly
fast nor clearly slow is delayed as a whole. A side is judged by the latencies of everything that
runs in it, called tasks included.
-/

namespace Datapath.Branch

inductive Action where
  | balanced
  | delayTrue
  | delayFalse
  | delayBranch
deriving DecidableEq, Inhabited

def Action.name : Action → String
  | balanced => "balanced"
  | delayTrue => "delay_true"
  | delayFalse => "delay_false"
  | delayBranch => "delay_branch"

def Action.ofCode? : Nat → Option Action
  | 0 => some balanced
  | 1 => some delayTrue
  | 2 => some delayFalse
  | 3 => some delayBranch
  | _ => none

def Action.nameOfCode (code : Nat) : String :=
  match ofCode? code with
  | some a => a.name
  | none => "invalid"

/-- A branch that was seen inside a loop: the latencies of its sides and of the whole, and what was
done to it. -/
structure Record where
  branch : OpId
  trueSide : List Latency
  falseSide : List Latency
  action : Action
  latencies : List Latency
deriving DecidableEq, Inhabited

/-! ## Judging -/

def isCombinational (ls : List Latency) : Bool := ls.all (· == .zero)

def isSequential (ls : List Latency) : Bool := ls.any fun l => decide (0 < l.min)

/-- What to do to a branch with sides of these latencies. -/
def judge (ts fs : List Latency) : Action :=
  match isCombinational ts, isSequential ts, isCombinational fs, isSequential fs with
  | true, false, true, false => .balanced
  | false, true, false, true => .balanced
  | true, _, _, true => .delayTrue
  | _, true, true, _ => .delayFalse
  | _, _, _, _ => .delayBranch

/-- Whether a resource dependency makes its target wait for a clock. -/
def delays (v : Dependency) : Bool := v.kind == .resource && decide (0 < v.minClocks)

def hasDelayedChild (d : Design) (o : Operation) : Bool :=
  o.children.any fun c =>
    (d.op? c).any fun k => (d.port? k.go).any fun p => (d.depsOnPort p).any delays

/-- Makes a module complete at least one clock after it starts, unless it does already. -/
def delay (mod : OpId) : Pass Unit := do
  let o ← Pass.look (·.op mod)
  match o.exits with
  | [x] =>
    let go ← Pass.look (·.port o.go)
    let ob ← Pass.look fun d => do d.op (← d.exit x).peer
    let deps ← Pass.look (·.portDeps ob.go)
    if !deps.any (fun v => delays v && v.source == go.peer) then
      let entry ← Pass.look fun _ => ob.firstEntry
      discard (Pass.ofBuild (connectResource entry go.peer ob.go 1))
  | xs => Pass.reject mod (.cannotDelay xs.length)

/-! ## The walk -/

abbrev Walk (α : Type) := StateT (List Record) (ExceptT Error (StateT Design (Except Fault))) α

/-- A visit of an operation, inside a loop or not, gives the latencies of what runs in it. -/
abbrev Visit := OpId → Bool → Walk (List Latency)

section
variable (visit : Visit)

def children (op : OpId) (inLoop : Bool) (skip : List OpId) : Walk (List Latency) := do
  let o ← Pass.look (·.op op)
  let parts ← (o.children.filter fun c => !skip.contains c).mapM (visit · inLoop)
  return parts.flatten

/-- The latest of the latencies seen inside an operation, and one clock if a child is delayed. -/
def leaving (op : OpId) (ls : List Latency) : Walk (List Latency) := do
  let late ← Pass.look fun d => return hasDelayedChild d (← d.op op)
  return Latency.latest (if late then ls ++ [.one] else ls)

def contents (op : OpId) (inLoop : Bool) : Walk (List Latency) := do
  leaving op (← children visit op inLoop [])

/-- A call of a task takes what runs in it and in the body of the task. -/
def taskCall (op : OpId) (inLoop : Bool) : Walk (List Latency) := do
  let own ← children visit op inLoop []
  let o ← Pass.look (·.op op)
  let called ← if o.body == absent then pure [] else contents visit o.body inLoop
  leaving op (own ++ called)

def branch (op : OpId) (inLoop : Bool) : Walk (List Latency) := do
  if !inLoop then contents visit op inLoop
  else
    let o ← Pass.look (·.op op)
    let ts ← contents visit o.trueSide true
    let fs ← contents visit o.falseSide true
    let rest ← children visit op true [o.trueSide, o.falseSide]
    let action := judge ts fs
    match action with
    | .balanced => pure ()
    | .delayTrue => delay o.trueSide
    | .delayFalse => delay o.falseSide
    | .delayBranch => delay op
    let sides := rest ++ ts ++ fs
    let latencies := if action == .balanced then sides else sides ++ [.one]
    modify (· ++ [{ branch := op, trueSide := ts, falseSide := fs, action, latencies }])
    leaving op latencies

def component (op : OpId) (inLoop : Bool) : Walk (List Latency) := do
  let o ← Pass.look (·.op op)
  match o.kind with
  | .loop => contents visit op true
  | .branch => branch visit op inLoop
  | .taskCall => taskCall visit op inLoop
  | k =>
    if k.isModule then contents visit op inLoop
    else if k.isHardware || k == .invalid then
      throw (.unsupported (← Pass.look (·.site op)) "branch balancing")
    else Pass.look fun d => return (d.exitsOf o).map Exit.latency

end

/-- Visits an operation and what it runs, over at most `n` levels. -/
def visit : Nat → Visit
  | 0, _, _ => throwThe Fault .endless
  | n + 1, op, inLoop => component (visit n) op inLoop

/-- Balances the branches inside the loops of every task; the branches seen are returned. -/
def balance (o : Options) : Pass (List Record) := do
  if !o.balance then return []
  let d ← get
  d.tasks.toList.foldlM (fun records t => do
    let walk := visit (d.ops.size + 1) t.call false
    return (← Pass.within s!"task {t.name}" (walk.run records)).2) []

end Datapath.Branch
