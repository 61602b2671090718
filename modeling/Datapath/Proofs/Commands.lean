import Datapath.Proofs.Steps

/-!
# Designs that can be built

What a user of a design can do to it: calls that add and change elements, the wiring of loops, and
the passes. Every design that comes about in this way is well-formed.
-/

namespace Datapath

inductive Command where
  -- modules
  | newTask (name : String) (inputs outputs : Int) (latency : Latency) (balanced : Bool)
  | newModule (kind : Kind) (owner : OpId) (name : String) (inputs outputs : Int) (latency : Latency)
  | newBlock (owner : OpId) (name : String) (inputs outputs : Int) (latency : Latency)
  | newBranch (owner : OpId) (name : String) (inputs outputs : Int) (latency : Latency)
  | newLoop (owner : OpId) (name : String) (inputs outputs : Int) (latency : Latency)
  | newTaskCall (owner : OpId) (name : String) (task : Int)
  -- primitives
  | newPrimitive (kind : Kind) (owner : OpId) (name : String) (inputs outputs : Int) (latency : Latency)
  | newConstant (owner : OpId) (name : String) (value : Int64)
  | newResource (kind : ResourceKind) (name : String) (parallelReads : Bool)
  | newAccess (kind : Kind) (owner : OpId) (name : String) (resource : ResId) (latency : Latency)
  -- parts of an operation
  | addExit (op : OpId) (tag : ExitTag) (latency : Latency) (count : Int)
  | addModuleExit (mod : OpId) (tag : ExitTag) (latency : Latency) (outputs : Int)
  | addEntry (op : OpId) (drive : ExitId)
  | setLatency (op : OpId) (latency : Latency)
  -- dependencies
  | addDependency (entry : EntryId) (kind : DepKind) (source : BusId) (target : PortId) (minClocks : Int64)
  | connect (entry : EntryId) (source : BusId) (target : PortId)
  | connectResource (entry : EntryId) (source : BusId) (target : PortId) (clocks : Int64)
  | relocate (dep : DepId) (source : BusId)
  | start (op : OpId) (source : BusId)
  | finish (mod : OpId) (tag : ExitTag) (op : OpId)
  -- passes
  | wireLoop (loop : OpId) (feeds : List Loop.Feed)
  | balanceBranches (o : Options)
  | removeFlops (o : Options)
  | analyzeThroughput
  | trackStalls

namespace Command

def owner? : Command → Option OpId
  | newModule _ owner .. | newBlock owner .. | newBranch owner .. | newLoop owner .. | newTaskCall owner ..
  | newPrimitive _ owner .. | newConstant owner .. | newAccess _ owner .. => some owner
  | _ => none

def isPlaced (c : Command) (d : Design) : Bool :=
  c.owner?.all fun owner => owner == absent || (d.op? owner).isSome

def ofPass {α : Type} (p : Pass α) : Build Unit := discard p.run

def run : Command → Build Unit
  | newTask name inputs outputs latency balanced =>
    discard (Datapath.newTask name inputs outputs latency balanced)
  | newModule kind owner name inputs outputs latency =>
    discard (Datapath.newModule kind owner name inputs outputs latency)
  | newBlock owner name inputs outputs latency => discard (Datapath.newBlock owner name inputs outputs latency)
  | newBranch owner name inputs outputs latency => discard (Datapath.newBranch owner name inputs outputs latency)
  | newLoop owner name inputs outputs latency => discard (Datapath.newLoop owner name inputs outputs latency)
  | newTaskCall owner name task => discard (Datapath.newTaskCall owner name task)
  | newPrimitive kind owner name inputs outputs latency =>
    discard (Datapath.newPrimitive kind owner name inputs outputs latency)
  | newConstant owner name value => discard (Datapath.newConstant owner name value)
  | newResource kind name parallelReads => discard (Datapath.newResource kind name parallelReads)
  | newAccess kind owner name resource latency => discard (Datapath.newAccess kind owner name resource latency)
  | addExit op tag latency count => discard (Datapath.addExit op tag latency count)
  | addModuleExit mod tag latency outputs => discard (Datapath.addModuleExit mod tag latency outputs)
  | addEntry op drive => discard (Datapath.addEntry op drive)
  | setLatency op latency => Datapath.setLatency op latency
  | addDependency entry kind source target clocks =>
    discard (Datapath.addDependency entry kind source target clocks)
  | connect entry source target => discard (Datapath.connect entry source target)
  | connectResource entry source target clocks => discard (Datapath.connectResource entry source target clocks)
  | relocate dep source => Datapath.relocate dep source
  | start op source => discard (Datapath.start op source)
  | finish mod tag op => discard (Datapath.finish mod tag op)
  | wireLoop loop feeds => ofPass (Loop.wire loop feeds)
  | balanceBranches o => ofPass (Branch.balance o)
  | removeFlops o => ofPass (Loop.removeFlops o)
  | analyzeThroughput => ofPass Throughput.analyze
  | trackStalls => ofPass Region.trackStalls

end Command

variable {d e : Design}

theorem discard_run {α : Type} {m : Build α} {a : α} (h : m d = .ok (a, e)) :
    (discard m : Build Unit) d = .ok ((), e) :=
  (build_bind_ok (m := m) (f := fun _ => pure ())).mpr ⟨a, e, h, rfl⟩

theorem run_of_discard {α : Type} {m : Build α} (h : (discard m : Build Unit) d = .ok ((), e)) :
    ∃ a, m d = .ok (a, e) := by
  obtain ⟨a, _, ran, h⟩ := (build_bind_ok (m := m) (f := fun _ => pure ())).mp h
  cases h
  exact ⟨a, ran⟩

/-- The designs that commands build. A command may answer with an error but does not fault. -/
inductive Built : Design → Prop where
  | empty (name : String) : Built { name }
  | step {d d' : Design} (c : Command) (h : Built d) (placed : c.isPlaced d = true)
      (ran : c.run d = .ok ((), d')) : Built d'

/-- The design that commands build, unless one of them faults or is not placed. -/
def runAll : List Command → Design → Option Design
  | [], d => some d
  | c :: cs, d =>
    if c.isPlaced d then
      match c.run d with
      | .ok (_, e) => runAll cs e
      | .error _ => none
    else none

theorem Built.runAll {d' : Design} (hd : Built d) (h : runAll cs d = some d') : Built d' := by
  induction cs generalizing d with
  | nil => cases h; exact hd
  | cons c cs ih =>
    unfold Datapath.runAll at h
    split at h
    case isTrue placed =>
      split at h
      case h_1 e ran => exact ih (hd.step c placed ran) h
      case h_2 => cases h
    case isFalse => cases h

theorem Sound.discard {α : Type} {m : Build α} {Q : α → Int → Prop} (h : Sound n m Q) : Keeps n (discard m) :=
  h.seq fun _ => .pure fun _ _ => trivial

theorem Command.keeps_run {c : Command} (h0 : 0 ≤ n) (hc : ∀ owner, c.owner? = some owner → owner < n) :
    Keeps n c.run := by
  cases c with
  | newTask => exact (keeps_newTask _ _ _ _ _ h0).discard
  | newModule => exact (makes_newModule (hc _ rfl)).discard
  | newBlock => exact (makes_newModule (hc _ rfl)).discard
  | newBranch => exact (makes_newBranch (hc _ rfl)).discard
  | newLoop => exact (makes_newLoop (hc _ rfl)).discard
  | newTaskCall => exact (makes_newTaskCall (hc _ rfl)).discard
  | newPrimitive => exact (makes_newPrimitive (hc _ rfl)).discard
  | newConstant => exact (makes_newConstant (hc _ rfl)).discard
  | newResource => exact (keeps_newResource ..).discard
  | newAccess => exact (makes_newAccess (hc _ rfl)).discard
  | addExit => exact (keeps_addExit ..).discard
  | addModuleExit => exact (keeps_addModuleExit ..).discard
  | addEntry => exact (keeps_addEntry ..).discard
  | setLatency => exact keeps_setLatency ..
  | addDependency => exact (keeps_addDependency ..).discard
  | connect => exact (keeps_connect ..).discard
  | connectResource => exact (keeps_addDependency ..).discard
  | relocate => exact keeps_relocate ..
  | start => exact (keeps_start ..).discard
  | finish => exact (keeps_finish ..).discard
  | wireLoop => exact (Loop.keeps_wire ..).discard
  | balanceBranches => exact (Branch.keeps_balance _).discard
  | removeFlops => exact (Loop.keeps_removeFlops _).discard
  | analyzeThroughput => exact Throughput.keeps_analyze.discard
  | trackStalls => exact Region.keeps_trackStalls.discard

theorem Command.owner_lt {c : Command} (placed : c.isPlaced d = true) (ho : c.owner? = some owner) :
    owner < d.ops.size := by
  simp only [Command.isPlaced, ho, Option.all_some, Bool.or_eq_true, beq_iff_eq] at placed
  rcases placed with rfl | there
  · exact Int.lt_of_lt_of_le (by decide) (Int.natCast_nonneg _)
  · obtain ⟨o, ho⟩ := Option.isSome_iff_exists.mp there
    exact (at?_lt ho).2

theorem Built.wellFormed (h : Built d) : WellFormed d := by
  induction h with
  | empty name => exact wellFormed_empty name
  | @step d d' c _ placed ran ih =>
    have hc : ∀ owner, c.owner? = some owner → owner < d.ops.size := fun _ => Command.owner_lt placed
    exact (Command.keeps_run (Int.natCast_nonneg _) hc).kept ih ran

/-! ## What the links say -/

/-- The element `k` of a store lists `j` exactly once, and no other element lists it. -/
def HeldOnce {α : Type} (xs : Array α) (list : α → List Int) (k j : Int) : Prop :=
  (∃ x, at? xs k = some x ∧ (list x).count j = 1) ∧ ∀ i x, at? xs i = some x → j ∈ list x → i = k

section
variable {α β : Type} {xs : Array α} {ys : Array β} {list : α → List Int} {holder : β → Option Int}

theorem Linked.heldOnce (h : Linked (view xs list) (view ys holder)) {y : β} (hy : at? ys j = some y)
    (hk : holder y = some k) : HeldOnce xs list k j := by
  have hj : view ys holder j = some (some k) := by rw [← hk]; exact view_of _ hy
  constructor
  · obtain ⟨l, hl, hc⟩ := h.once hj
    obtain ⟨x, hx, rfl⟩ := view_some.mp hl
    exact ⟨x, hx, hc⟩
  · intro i x hx hm
    have := h.listed (view_of _ hx) hm
    rw [hj] at this
    cases this
    rfl

end

theorem Operation.accessed?_eq_some {o : Operation} (h : o.accessed? = some r) : o.resource = r := by
  unfold accessed? at h
  split at h
  · cases h
  · exact Option.some.inj h

theorem Operation.place_eq {o : Operation} (h : o.place = (k, m)) : o.kind = k ∧ o.owner = m := Prod.mk.inj h

/-- Every element of a design that can be built carries its own index, stands exactly once in the
list of what holds it, and lists only what it holds. -/
theorem built_links_agree (h : Built d) :
    (∀ i o, d.op? i = some o → o.id = i ∧
      (o.owner ≠ absent → o.owner < i ∧ HeldOnce d.ops Operation.children o.owner i) ∧
      (o.resource ≠ absent → HeldOnce d.resources Resource.accesses o.resource i) ∧
      (o.inBuf ≠ absent → ∃ b, d.op? o.inBuf = some b ∧ b.kind = .inBuf ∧ b.owner = i) ∧
      (∀ c ∈ o.children, ∃ k, d.op? c = some k ∧ k.owner = i) ∧
      (∀ p ∈ Design.allPorts o, ∃ q, d.port? p = some q ∧ q.owner = i) ∧
      (∀ x ∈ o.exits, ∃ y, d.exit? x = some y ∧ y.owner = i) ∧
      (∀ e ∈ o.entries, ∃ y, d.entryAt? e = some y ∧ y.owner = i)) ∧
    (∀ i p, d.port? i = some p → p.id = i ∧ HeldOnce d.ops Design.allPorts p.owner i ∧
      (p.peer ≠ absent → ∃ b, d.bus? p.peer = some b ∧ b.peer = i)) ∧
    (∀ i x, d.exit? i = some x → x.id = i ∧ HeldOnce d.ops Operation.exits x.owner i ∧
      (x.peer ≠ absent → ∃ b, d.op? x.peer = some b ∧ b.kind = .outBuf ∧ b.owner = x.owner) ∧
      (∀ b ∈ x.done :: x.buses, ∃ y, d.bus? b = some y ∧ y.exit = i)) ∧
    (∀ i b, d.bus? i = some b → b.id = i ∧ HeldOnce d.exits (fun x => x.done :: x.buses) b.exit i ∧
      (b.peer ≠ absent → ∃ p, d.port? b.peer = some p ∧ p.peer = i) ∧
      (∀ v ∈ b.dependents, ∃ y, d.dep? v = some y ∧ y.source = i)) ∧
    (∀ i e, d.entryAt? i = some e → e.id = i ∧ HeldOnce d.ops Operation.entries e.owner i ∧
      (∀ v ∈ e.deps, ∃ y, d.dep? v = some y ∧ y.entry = i)) ∧
    (∀ i v, d.dep? i = some v → v.id = i ∧ HeldOnce d.entries Entry.deps v.entry i ∧
      HeldOnce d.buses Bus.dependents v.source i ∧ delayAllowed v.kind v.minClocks = true ∧
      ∃ e p, d.entryAt? v.entry = some e ∧ d.port? v.target = some p ∧ p.owner = e.owner) ∧
    (∀ i r, d.resource? i = some r → r.id = i ∧ ∀ a ∈ r.accesses, ∃ o, d.op? a = some o ∧ o.resource = i) ∧
    (∀ i t, at? d.tasks i = some t → t.id = i) ∧
    ∀ i p, at? d.regions i = some p → p.id = i := by
  have w := h.wellFormed
  refine ⟨?_, ?_, ?_, ?_, ?_, ?_, ?_, w.taskIds, w.regionIds⟩
  · intro i o ho
    refine ⟨w.nesting.ids i o ho, ?_, ?_, ?_, ?_, ?_, ?_, ?_⟩
    · exact fun hne => ⟨w.nesting.older ho, w.nesting.children.heldOnce ho (if_neg hne)⟩
    · exact fun hne => w.accesses.heldOnce ho (if_neg hne)
    · intro hne
      obtain ⟨b, hb, hp⟩ := view_some.mp (w.nesting.inBufs (view_of _ ho) hne)
      exact ⟨b, hb, Operation.place_eq hp⟩
    · intro c hc
      obtain ⟨k, hk, hh⟩ := w.nesting.children.holds ho c hc
      exact ⟨k, hk, Operation.holder?_eq_some hh⟩
    · intro p hp
      obtain ⟨q, hq, hh⟩ := w.ports.holds ho p hp
      exact ⟨q, hq, Option.some.inj hh⟩
    · intro x hx
      obtain ⟨y, hy, hh⟩ := w.exits.holds ho x hx
      exact ⟨y, hy, Option.some.inj hh⟩
    · intro e he
      obtain ⟨y, hy, hh⟩ := w.entries.holds ho e he
      exact ⟨y, hy, Option.some.inj hh⟩
  · intro i p hp
    exact ⟨w.portIds i p hp, w.ports.heldOnce hp rfl, fun hne => view_some.mp (w.peers.left (view_of _ hp) hne)⟩
  · intro i x hx
    refine ⟨w.exitIds i x hx, w.exits.heldOnce hx rfl, ?_, ?_⟩
    · intro hne
      obtain ⟨b, hb, hp⟩ := view_some.mp (w.outBufs hx hne)
      exact ⟨b, hb, Operation.place_eq hp⟩
    · intro b hb
      obtain ⟨y, hy, hh⟩ := w.buses.holds hx b hb
      exact ⟨y, hy, Option.some.inj hh⟩
  · intro i b hb
    refine ⟨w.busIds i b hb, w.buses.heldOnce hb rfl, ?_, ?_⟩
    · exact fun hne => view_some.mp (w.peers.right (view_of _ hb) hne)
    · intro v hv
      obtain ⟨y, hy, hh⟩ := w.readers.holds hb v hv
      exact ⟨y, hy, Option.some.inj hh⟩
  · intro i e he
    refine ⟨w.entryIds i e he, w.entries.heldOnce he rfl, ?_⟩
    intro v hv
    obtain ⟨y, hy, hh⟩ := w.deps.holds he v hv
    exact ⟨y, hy, Option.some.inj hh⟩
  · intro i v hv
    refine ⟨w.depIds i v hv, w.deps.heldOnce hv rfl, w.readers.heldOnce hv rfl, w.aimed.delay hv, ?_⟩
    obtain ⟨o, he, hp⟩ := w.aimed.target hv
    obtain ⟨e, he', rfl⟩ := view_some.mp he
    obtain ⟨p, hp', hpe⟩ := view_some.mp hp
    exact ⟨e, p, he', hp', hpe⟩
  · intro i r hr
    refine ⟨w.resourceIds i r hr, ?_⟩
    intro a ha
    obtain ⟨o, ho, hh⟩ := w.accesses.holds hr a ha
    exact ⟨o, ho, Operation.accessed?_eq_some hh⟩

/-- A task with a loop that reads and writes a memory, after three passes. -/
def loopCommands : List Command :=
  [.newResource .memory "m" false, .newTask "t" 1 1 .one true, .newLoop 3 "l" 1 1 .one,
   .newAccess .memoryRead 17 "r" 0 .one, .newAccess .memoryWrite 17 "w" 0 .one, .setLatency 17 .one,
   .removeFlops { policy := .firstAlways }, .analyzeThroughput, .trackStalls]

theorem loop_links_agree :
    ∃ d, runAll loopCommands { name := "x" } = some d ∧ d.ops.size = 23 ∧ ∀ i v, d.dep? i = some v →
      HeldOnce d.entries Entry.deps v.entry i ∧ HeldOnce d.buses Bus.dependents v.source i := by
  have size : (runAll loopCommands { name := "x" }).map (·.ops.size) = some 23 := by decide +kernel
  obtain ⟨d, hd, hs⟩ := Option.map_eq_some_iff.mp size
  obtain ⟨-, -, -, -, -, deps, -⟩ := built_links_agree ((Built.empty "x").runAll hd)
  exact ⟨d, hd, hs, fun i v hv => ⟨(deps i v hv).2.1, (deps i v hv).2.2.1⟩⟩

end Datapath
