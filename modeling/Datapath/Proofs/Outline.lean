import Datapath.Proofs.SafeSpacing
import Datapath.Proofs.Rebalancing

/-!
# What the analyses read

The outline of a design leaves out what passes note in it, and where the feedback path starts. Schedule
order, timing, throughput and the analysis of loop registers find the same in a design as in its outline,
errors included.
-/

namespace Datapath

open List

def Design.cut (d : Design) (v : Dependency) : Dependency :=
  if (d.entryAt? v.entry).any Entry.feedback then { v with source := absent } else v

def Design.outline (d : Design) : Design where
  name := d.name
  ops := d.ops.map Operation.still
  ports := d.ports
  buses := d.buses.map Bus.bare
  exits := d.exits
  entries := d.entries
  deps := d.deps.map d.cut
  resources := d.resources

section
variable {d : Design}

theorem require_map {α β : Type} (e : Fault) (x : Option α) (f : α → β) :
    require e (x.map f) = f <$> require e x := by
  cases x <;> rfl

theorem outline_op? (i : OpId) : d.outline.op? i = (d.op? i).map Operation.still := at?_map ..

theorem outline_op (i : OpId) : d.outline.op i = Operation.still <$> d.op i := by
  unfold Design.op
  rw [outline_op?, require_map]

theorem outline_bus (i : BusId) : d.outline.bus i = Bus.bare <$> d.bus i := by
  unfold Design.bus Design.bus?
  rw [show d.outline.buses = d.buses.map Bus.bare from rfl, at?_map, require_map]

theorem outline_dep? (i : DepId) : d.outline.dep? i = (d.dep? i).map d.cut := at?_map ..

theorem outline_label (i : OpId) : d.outline.label i = d.label i := by
  simp only [Design.label, outline_op, bind_map_left]
  rfl

theorem outline_ownersFrom (n : Nat) (i : OpId) : d.outline.ownersFrom n i = d.ownersFrom n i := by
  induction n generalizing i with
  | zero => rfl
  | succ n ih =>
    simp only [Design.ownersFrom, outline_op, bind_map_left, ih]
    rfl

theorem outline_malformed (i : OpId) (reason : Reason) : d.outline.malformed i reason = d.malformed i reason := by
  simp only [Design.malformed, Design.site, Design.ownerLabels, Design.owners, outline_op, bind_map_left,
    outline_ownersFrom, show d.outline.ops.size = d.ops.size from Array.size_map ..]
  rfl

theorem outline_reject {α : Type} (i : OpId) (reason : Reason) :
    (d.outline.reject i reason : Query α) = d.reject i reason := by
  simp only [Design.reject, outline_malformed]

theorem outline_busOwner? (i : BusId) : d.outline.busOwner? i = d.busOwner? i := by
  unfold Design.busOwner? Design.bus?
  rw [show d.outline.buses = d.buses.map Bus.bare from rfl, at?_map]
  cases at? d.buses i <;> rfl

/-! ## Dependencies -/

theorem outline_depsOf (e : Entry) : d.outline.depsOf e = (d.depsOf e).map d.cut := by
  unfold Design.depsOf
  rw [map_filterMap]
  simp only [outline_dep?]

theorem outline_depsOnPort (p : Port) : d.outline.depsOnPort p = (d.depsOnPort p).map d.cut := by
  have target : ∀ v, (d.cut v).target = v.target := by
    intro v
    unfold Design.cut
    split <;> rfl
  unfold Design.depsOnPort
  rw [outline_op?]
  cases d.op? p.owner with
  | none => rfl
  | some o =>
    change ((d.entriesOf o).flatMap fun e => (d.outline.depsOf e).filter (·.target == p.id)) = _
    simp only [outline_depsOf, map_flatMap, filter_map, Function.comp_def, target]

section
variable (hd : WellFormed d)
include hd

theorem outline_forwardDeps (o : Operation) : Timing.forwardDeps d.outline o = Timing.forwardDeps d o := by
  change (((d.entriesOf o).filter (!·.feedback)).flatMap d.outline.depsOf) = _
  apply flatMap_congr
  intro e he
  simp only [mem_filter, Bool.not_eq_true'] at he
  obtain ⟨i, -, hi⟩ := mem_filterMap.mp he.1
  rw [outline_depsOf]
  refine (map_congr_left fun v hv => ?_).trans (map_id _)
  obtain ⟨j, hj, hv⟩ := mem_filterMap.mp hv
  obtain ⟨w, hw, entry⟩ := hd.deps.holds hi j hj
  rw [show at? d.deps j = some v from hv] at hw
  cases hw
  unfold Design.cut
  rw [Option.some.inj entry, hi, Option.any_some, he.2]
  rfl

theorem outline_drivers (mod : OpId) : d.outline.drivers mod = d.drivers mod := by
  funext c
  unfold Design.drivers
  rw [outline_op?]
  cases d.op? c with
  | none => rfl
  | some o =>
    change ((Timing.forwardDeps d.outline o).filterMap _).filter _ = ((Timing.forwardDeps d o).filterMap _).filter _
    simp only [outline_forwardDeps hd, outline_busOwner?, outline_op?, Option.any_map]
    rfl

theorem outline_order (mod : OpId) : d.outline.order mod = d.order mod := by
  have graph : d.outline.graph mod = d.graph mod := by
    funext children
    simp only [Design.graph, outline_drivers hd]
  simp only [Design.order, Design.orderBy, outline_op, liftM_map, bind_map_left, outline_reject, graph]
  rfl

/-! ## Timing -/

theorem outline_timeOne (ih : Timing.inside d.outline n = Timing.inside d n) (base : Latency) :
    Timing.timeOne d.outline (Timing.inside d.outline n) base = Timing.timeOne d (Timing.inside d n) base := by
  funext c
  have forward : ∀ o : Operation, Timing.forwardDeps d.outline o.still = Timing.forwardDeps d o :=
    fun o => outline_forwardDeps hd o
  simp only [Timing.timeOne, Timing.inputOf, outline_op, outline_bus, liftM_map, bind_map_left, outline_reject,
    forward, ih]
  rfl

theorem outline_inside (n : Nat) : Timing.inside d.outline n = Timing.inside d n := by
  induction n with
  | zero => rfl
  | succ n ih =>
    funext mod base
    rw [Timing.inside_succ, Timing.inside_succ, outline_order hd, outline_timeOne hd ih]

theorem outline_compute (mod : OpId) (base : Latency) :
    Timing.compute d.outline mod base = Timing.compute d mod base := by
  simp only [Timing.compute, outline_inside hd, show d.outline.ops.size = d.ops.size from Array.size_map ..]

end

theorem outline_done? (t : Timing) (c : OpId) : t.done? d.outline c = t.done? d c := by
  simp only [Timing.done?, outline_op, bind_map_left]
  rfl

theorem outline_isIterative (l : OpId) : d.outline.isIterative l = d.isIterative l := by
  simp only [Design.isIterative, outline_op, bind_map_left]
  rfl

theorem outline_portDeps (p : PortId) : d.outline.portDeps p = List.map d.cut <$> d.portDeps p := by
  simp only [Design.portDeps, outline_depsOnPort, map_bind]
  rfl

/-! ## Loop registers -/

namespace Loop

theorem outline_unknownLatency {α : Type} (c : OpId) :
    (unknownLatency d.outline c : FlopWalk α) = unknownLatency d c := by
  simp only [unknownLatency, outline_label]

theorem outline_completion (t : Timing) (c : OpId) : completion d.outline t c = completion d t c := by
  simp only [completion, outline_op, liftM_map, bind_map_left, outline_unknownLatency]
  rfl

theorem outline_ownerCompletesAfter (t : Timing) (c : OpId) (late : Latency) :
    ownerCompletesAfter d.outline t c late = ownerCompletesAfter d t c late := by
  simp only [ownerCompletesAfter, outline_op, liftM_map, bind_map_left, outline_unknownLatency]
  rfl

theorem outline_isLast (t : Timing) (path : List OpId) (c : OpId) (late : Latency) :
    isLast d.outline t path c late = isLast d t path c late := by
  induction path generalizing c late with
  | nil => rfl
  | cons m rest ih => simp only [isLast, outline_ownerCompletesAfter, outline_completion, ih]

theorem outline_mark (t : Timing) (failFast : Bool) (c : OpId) (key : Key) (early late start : Latency)
    (path : List OpId) :
    mark d.outline t failFast c key early late start path = mark d t failFast c key early late start path := by
  simp only [mark, meet, collide, outline_isLast, outline_label]

theorem outline_dive (t : Timing) (visit : FlopVisit) (mod : OpId) (start : Latency) (path : List OpId) :
    dive d.outline t visit mod start path = dive d t visit mod start path := by
  simp only [dive, inputAt, outline_op, outline_portDeps, outline_unknownLatency, liftM_map, bind_map_left,
    isEmpty_map]
  rfl

theorem outline_flopVisit (t : Timing) (failFast : Bool) (n : Nat) :
    flopVisit d.outline t failFast n = flopVisit d t failFast n := by
  induction n with
  | zero => rfl
  | succ n ih =>
    simp only [flopVisit, flopComponent, inputAt, doneAt, outline_op, outline_mark, outline_dive, outline_done?,
      outline_unknownLatency, outline_label, liftM_map, bind_map_left, ih]
    rfl

theorem outline_analyze (hd : WellFormed d) (body : OpId) (failFast : Bool) :
    analyze d.outline body failFast = analyze d body failFast := by
  simp only [analyze, outline_op, outline_reject, outline_compute hd, outline_flopVisit, liftM_map, bind_map_left,
    show d.outline.ops.size = d.ops.size from Array.size_map ..]
  rfl

end Loop

/-! ## Throughput -/

namespace Throughput

theorem outline_span (t : Timing) (c : OpId) (outer : Option OpId) :
    span d.outline t c outer = span d t c outer := by
  cases outer with
  | none => simp only [span, outline_reject]
  | some l => simp only [span, outline_reject, outline_done?]

theorem outline_visitOne (ih : visit d.outline t n = visit d t n) (outer : Option OpId) :
    visitOne d.outline t (visit d.outline t n) outer = visitOne d t (visit d t n) outer := by
  funext c
  simp only [visitOne, loop, access, outline_op, outline_span, outline_isIterative, outline_reject, liftM_map,
    bind_map_left, ih]
  rfl

theorem outline_visit (hd : WellFormed d) (t : Timing) (n : Nat) : visit d.outline t n = visit d t n := by
  induction n with
  | zero => rfl
  | succ n ih =>
    funext mod outer
    rw [visit_succ, visit_succ, outline_order hd, outline_visitOne ih]

theorem outline_analyzeTask (hd : WellFormed d) (task : Task) :
    analyzeTask d.outline task = analyzeTask d task := by
  simp only [analyzeTask, outline_compute hd, outline_visit hd, outline_op, outline_reject, liftM_map,
    bind_map_left, show d.outline.ops.size = d.ops.size from Array.size_map ..]
  rfl

end Throughput

end

end Datapath
