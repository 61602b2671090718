import Datapath.Design.Basic

/-!
# Limits on the spacing of a task

A limit is a reason why a task cannot start again too soon: a loop has to drain first, or accesses of
one resource must not overtake those of the run before.
-/

namespace Datapath.Throughput

/-- Accesses that come first in a run, and accesses that must be over when these come in the next
run. -/
structure Mark where
  heads : List Latency := []
  tails : List Latency := []
deriving DecidableEq, Inhabited

namespace Mark

def allHeadsAfter (m : Mark) (l : Latency) : Bool := m.heads.all (·.exceeds l)

/-- Whether some tail has no bound and may last until a head starts. -/
def isUnbounded (m : Mark) : Bool := m.tails.any fun l => l.isOpen && !m.allHeadsAfter l

/-- The clocks from the earliest head to the latest tail. -/
def spacing (m : Mark) : Spacing :=
  if m.heads.isEmpty then .zero
  else if m.isUnbounded then .indeterminate
  else
    let base := (Latency.earliest m.heads).min
    let spans := (m.tails.filter (!·.isOpen)).map fun l => l.max - base
    ⟨spans.foldl (fun a b => if a < b then b else a) 0⟩

def addHead (m : Mark) (l : Latency) : Mark := { m with heads := m.heads ++ [l] }

def addTail (m : Mark) (l : Latency) : Mark := { m with tails := m.tails ++ [l] }

end Mark

/-- The accesses of a resource in one task. Reads go with the writes that follow and writes with the
reads that follow; the address is what all accesses of a memory share. -/
structure Usage where
  resource : Resource
  reads : Mark := {}
  writes : Mark := {}
  address : Mark := {}
deriving DecidableEq, Inhabited

/-- Adds an access that runs from `head` to `tail`. Reads that cannot run in parallel also limit
each other. -/
def Usage.add (u : Usage) (isWrite : Bool) (head tail : Latency) : Usage :=
  let address := (u.address.addHead head).addTail tail
  if isWrite then
    { u with address, writes := u.writes.addHead head, reads := u.reads.addTail tail }
  else
    let reads := u.reads.addHead head
    { u with
      address
      writes := u.writes.addTail tail
      reads := if u.resource.parallelReads then reads else reads.addTail tail }

inductive Limit where
  /-- A loop must not be entered again before it has drained. -/
  | loop (name : String) (latency : Latency)
  /-- Accesses of a resource must not overtake each other. -/
  | resource (usage : Usage)
  /-- All accesses of a memory share its address. -/
  | address (usage : Usage)
deriving DecidableEq, Inhabited

namespace Limit

/-- The spacing that a latency forces on what has to wait for its end. -/
def draining (l : Latency) : Spacing := if l.isOpen then .indeterminate else ⟨l.max⟩

def spacing : Limit → Spacing
  | loop _ l => draining l
  | resource u => u.reads.spacing.max u.writes.spacing
  | address u => u.address.spacing

def text (l : Limit) : String :=
  match l with
  | loop name _ => s!"loop {name}: {l.spacing.text}"
  | resource u => s!"{u.resource.kind.name} {u.resource.name}: {l.spacing.text}"
  | address u => s!"memory address {u.resource.name}: {l.spacing.text}"

end Limit

end Datapath.Throughput
