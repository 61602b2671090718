import Datapath.Loop.Flop

/-!
# Removing loop registers

The registers between two iterations of a loop are bypassed where the analysis of its body finds no
conflict, or where the policy says how to resolve those it finds.
-/

namespace Datapath.Loop

/-- The loops whose registers were removed, and how many accesses were delayed for that. -/
structure Removal where
  removed : List OpId := []
  fixed : Nat := 0
deriving DecidableEq, Inhabited

/-- Lets the readers of a register read what it captures, if that is one value. -/
def bypass (reg : Operation) : Build Unit := do
  match ← ask fun d => do d.portDeps (← reg.firstPort) with
  | [v] =>
    let out ← ask fun d => do (← d.exit (← reg.firstExit)).firstBus
    let readers ← ask fun d => return (← d.bus out).dependents
    readers.forM (relocate · v.source)
  | _ => return

/-- Bypasses the registers of a loop: the one that restarts the body and those that carry values
from one iteration to the next. -/
def removeRegisters (loop : OpId) : Build Unit := do
  let lp ← ask (·.op loop)
  changeOp loop fun o => { o with flopNeeded := false }
  lp.children.forM fun c => do
    let o ← ask (·.op c)
    if o.kind == .reg then bypass o

def carriesFlop (d : Design) (id : OpId) : Except Fault Bool := do
  let o ← d.op id
  if o.kind != .loop || !o.flopNeeded then return false
  d.isIterative id

/-- Removes the registers of a loop if nothing in the report of its body keeps them. The number of
accesses that were delayed is returned, or nothing if the registers stay. -/
def decideOn (o : Options) (loop : OpId) (report : FlopReport) : Pass (Option Nat) := do
  if report.needed || !report.analyzable then return none
  if report.conflicts.isEmpty then
    Pass.ofBuild (removeRegisters loop)
    return some 0
  if o.failFast then return none
  let cs ← Pass.ofExcept (ConflictSet.make o.policy report.all)
  if !cs.resolves then return none
  let d ← get
  match ← Pass.ofBuild (cs.resolve (identity d)) with
  | (_, some e) => throw e
  | (count, none) =>
    Pass.ofBuild (removeRegisters loop)
    return some count

def removeFrom (o : Options) (loop : OpId) : Pass (Option Nat) := do
  let lp ← Pass.look (·.op loop)
  let report ← Pass.query fun d => analyze d lp.body o.failFast
  decideOn o loop report

def removeNext (o : Options) (r : Removal) (id : OpId) : Pass Removal := do
  if ← Pass.look (carriesFlop · id) then
    match ← removeFrom o id with
    | some count => return { removed := r.removed ++ [id], fixed := r.fixed + count }
    | none => return r
  else return r

/-- Removes the registers of every loop that does not need them. -/
def removeFlops (o : Options) : Pass Removal := do
  if !o.removeFlop then return {}
  let d ← get
  (d.ops.toList.map Operation.id).foldlM (removeNext o) {}

end Datapath.Loop
