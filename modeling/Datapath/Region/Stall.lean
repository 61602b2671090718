import Datapath.Region.Identify
import Datapath.Region.Tracker

/-!
# Stalls

The regions of every task are found and tracked through all its modules. What stalls a module is
recorded with it.
-/

namespace Datapath.Region

def reset (d : Design) : Design :=
  { d with regions := #[], ops := d.ops.map fun o => { o with stalls := [] } }

/-- Tracks regions through a module, the input buffer first and nested modules before they
register with their owner, over at most `n` levels. -/
def track (regions : List Int) : Nat → OpId → Pass Unit
  | 0, _ => throwThe Fault .endless
  | n + 1, mod => do
    let m ← Pass.look (·.op mod)
    let order ← Pass.query (·.order mod)
    let t : Tracker := { mod, regions }
    let t ← Pass.ofBuild (t.register m.inBuf)
    let t ← (order.filter (· != m.inBuf)).foldlM (fun t c => do
      let o ← Pass.look (·.op c)
      if o.kind.isInlineModule then track regions n c
      Pass.ofBuild (t.register c)) t
    let stalls ← Pass.look fun d => .ok (t.moduleStalls d)
    Pass.ofBuild (changeOp mod fun o => { o with stalls })

/-- Finds the regions of every task and what they stall; their number is returned. -/
def trackStalls : Pass Nat := do
  modify reset
  let d ← get
  d.tasks.toList.forM fun task => Pass.within s!"task {task.name}" do
    let ps ← identify task
    track (ps.map Region.id) (d.ops.size + 1) task.call
  return (← get).regions.size

end Datapath.Region
