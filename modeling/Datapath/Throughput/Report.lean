import Datapath.Text.Columns
import Datapath.Throughput.Analysis

/-!
# Throughput report

One section per task: its name, whether it is balanced and its spacing, and a line per limit below.
-/

namespace Datapath.Throughput

def Result.lines (r : Result) : String :=
  s!"task {r.task}\tbalanced={r.balanced}\tgo_spacing={r.spacing.text}\n" ++
    String.join (r.limits.map fun l => "\t" ++ l.text ++ "\t\n")

def report (results : List Result) : String :=
  Text.align (String.join (results.map Result.lines))

end Datapath.Throughput
