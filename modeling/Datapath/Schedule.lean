import Datapath.Branch.Balance
import Datapath.Loop.Removal
import Datapath.Region.Stall
import Datapath.Throughput.Analysis

/-!
# Scheduling

All passes over a design, each of which relies on what the ones before have left: branches are
balanced, loop registers removed, the spacing of the tasks found and stalls tracked.
-/

namespace Datapath

/-- Runs all passes. The first error ends the run. -/
def schedule (o : Options) : Pass Unit := do
  let _ ← Pass.within "Branch Balancing" (Branch.balance o)
  let _ ← Pass.within "Loop Flop Removal" (Loop.removeFlops o)
  let _ ← Pass.within "Throughput Analysis" Throughput.analyze
  let _ ← Pass.within "Stall Tracking" Region.trackStalls
  return ()

end Datapath
