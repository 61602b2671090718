import Datapath.Design.Basic

/-!
# Statistics

How many elements of every sort a design has.
-/

namespace Datapath

structure Stats where
  modules : Nat
  primitives : Nat
  accesses : Nat
  data : Nat
  control : Nat
  resource : Nat
  regions : Nat
  stalled : Nat
deriving DecidableEq, Inhabited

def Design.stats (d : Design) : Stats :=
  let ops (p : Operation → Bool) := d.ops.toList.countP p
  let deps (k : DepKind) := d.deps.toList.countP (·.kind == k)
  { modules := ops (·.kind.isModule)
    primitives := ops fun o => !o.kind.isModule && !o.kind.isAccess
    accesses := ops (·.kind.isAccess)
    data := deps .data
    control := deps .control
    resource := deps .resource
    regions := d.regions.size
    stalled := ops (!·.stalls.isEmpty) }

end Datapath
