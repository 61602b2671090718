/-!
# Spacings

The spacing of a task is the least number of clocks between two of its starts. A negative count is
indeterminate: the caller has to wait for the task to complete before it starts the task again.
-/

namespace Datapath

structure Spacing where
  clocks : Int64
deriving DecidableEq, Inhabited

namespace Spacing

def zero : Spacing := ⟨0⟩

def indeterminate : Spacing := ⟨-1⟩

def isIndeterminate (s : Spacing) : Bool := decide (s.clocks < 0)

/-- The larger spacing; an indeterminate one is above all others. -/
def max (a b : Spacing) : Spacing :=
  if a.isIndeterminate || b.isIndeterminate then indeterminate
  else if a.clocks < b.clocks then b else a

def text (s : Spacing) : String :=
  if s.isIndeterminate then "indeterminate" else s!"{s.clocks}"

end Spacing

end Datapath
