import Datapath.Ids
import Datapath.Options
import Datapath.Pass

/-!
# Conflicts between iterations

Without the registers between two iterations, the last cycle of one iteration is the first cycle of
the next. An access in the first cycle of a loop body and one in its last cycle then collide if they
need the same resource. A conflict is resolved by delaying one of the two by a clock: the first one
against the start of its owner, or the completion of the owner against the last one.
-/

namespace Datapath.Loop

/-- An access in the first cycle and one in the last cycle, with the modules around them. -/
structure Conflict where
  headAccess : OpId
  headPath : List OpId
  tailAccess : OpId
  tailPath : List OpId
deriving DecidableEq, Inhabited

/-- The conflicts of one loop and the side on which they are resolved. -/
structure ConflictSet where
  policy : Policy
  delaysHeads : Bool
  conflicts : List Conflict
deriving DecidableEq, Inhabited

namespace ConflictSet

def countDistinct (ids : List OpId) : Nat := ids.eraseDups.length

def make (policy : Policy) (conflicts : List Conflict) : Except Error ConflictSet :=
  let heads := countDistinct (conflicts.map Conflict.headAccess)
  let tails := countDistinct (conflicts.map Conflict.tailAccess)
  match policy with
  | .fixNone => .ok ⟨policy, false, conflicts⟩
  | .firstAlways => .ok ⟨policy, true, conflicts⟩
  | .lastAlways => .ok ⟨policy, false, conflicts⟩
  | .fixFewest => .ok ⟨policy, decide (heads ≤ tails), conflicts⟩
  | .fixMost => .ok ⟨policy, decide (tails < heads), conflicts⟩
  | .unnamed code => .error (.illegalPolicy code)

variable (cs : ConflictSet)

def resolves : Bool := cs.policy != .fixNone

def fixesFirst : Bool := cs.resolves && cs.delaysHeads

def side (c : Conflict) : OpId := if cs.delaysHeads then c.headAccess else c.tailAccess

def sidePath (c : Conflict) : List OpId := if cs.delaysHeads then c.headPath else c.tailPath

def fixable : List OpId :=
  if cs.resolves then ascendingSet (cs.conflicts.flatMap cs.sidePath) else []

/-- The accesses that are delayed, each once, in the order of the conflicts. -/
def delayed : List OpId :=
  if cs.resolves then (cs.conflicts.map cs.side).eraseDups else []

end ConflictSet

/-! ## Resolution -/

/-- Makes an access start at least one clock after its owner. -/
def delayFirst (access : OpId) : Pass Unit := do
  let o ← Pass.look (·.op access)
  if o.owner == absent then Pass.reject access .accessWithoutOwner
  let source ← Pass.look fun d => return (← d.port (← d.op o.owner).go).peer
  let entry ← Pass.look fun _ => o.firstEntry
  discard (Pass.ofBuild (connectResource entry source o.go 1))

/-- Makes the owner of an access complete at least one clock after the access. -/
def delayLast (access : OpId) : Pass Unit := do
  let o ← Pass.look (·.op access)
  if o.owner == absent then Pass.reject access .accessWithoutOwner
  let mx ← Pass.look (·.mainExit o.owner)
  let ax ← Pass.look (·.mainExit access)
  if mx == absent then Pass.reject o.owner (.missingExit .done)
  if ax == absent then Pass.reject access (.missingExit .done)
  let ob ← Pass.look fun d => do d.op (← d.exit mx).peer
  let entry ← Pass.look fun _ => ob.firstEntry
  let source ← Pass.look fun d => return (← d.exit ax).done
  discard (Pass.ofBuild (connectResource entry source ob.go 1))

/-- The operations of the design that stand for those an analysis saw. -/
abbrev Correlation := OpId → Option OpId

def identity (d : Design) : Correlation := fun id => (d.op? id).map fun _ => id

/-- Delays accesses one after the other, up to the first that cannot be delayed; `count` of them
have been delayed before. -/
def delayAll (heads : Bool) (corr : Correlation) : Nat → List OpId → Build (Nat × Option Error)
  | count, [] => return (count, none)
  | count, a :: rest => do
    match corr a with
    | none => return (count, some (← ask (·.malformed a .noCorrelation)))
    | some live =>
      match ← (if heads then delayFirst live else delayLast live).run with
      | .ok () => delayAll heads corr (count + 1) rest
      | .error e => return (count, some e)

/-- Resolves a set of conflicts. The number of accesses that were delayed is returned, and the error
that kept others from being delayed. -/
def ConflictSet.resolve (cs : ConflictSet) (corr : Correlation) : Build (Nat × Option Error) :=
  delayAll cs.delaysHeads corr 0 cs.delayed

end Datapath.Loop
