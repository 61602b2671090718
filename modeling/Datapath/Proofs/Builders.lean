import Datapath.Proofs.Additions
import Datapath.Proofs.Commands

/-!
# What commands do to a design, step by step

The calls that make operations, branches, loops and tasks are made of a few kinds of steps. A relation
between designs that allows each of them, and that one may chain, relates the designs before and after
any command.
-/

namespace Datapath

variable {R : Design → Design → Prop} {d d' : Design}

def Operation.base (o : Operation) : Operation :=
  { o with control := absent, flopNeeded := false, value := 0, stalls := [] }

def Operation.core (o : Operation) : Operation :=
  { o with
    decision := absent
    trueSide := absent
    falseSide := absent
    body := absent
    control := absent
    flopNeeded := false
    value := 0
    stalls := [] }

theorem Operation.core_of_base {o p : Operation} (h : o.base = p.base) : o.core = p.core :=
  show o.base.core = p.base.core by rw [h]

/-! ## Operations -/

/-- The relation holds along the small steps that operations are made of. Ports are linked that show
nothing yet. -/
structure Assembles (R : Design → Design → Prop) : Prop extends Chains R where
  op : ∀ {kind owner name}, Along R (addOp kind owner name)
  ports : ∀ {op count}, Along R (addPorts op count)
  exit : ∀ {op tag latency count}, Along R (addExit op tag latency count)
  entry : ∀ {op drive}, Along R (addEntry op drive)
  front : ∀ {id inBuf}, Along R (changeOp id fun o => { o with inBuf })
  peers : ∀ {ports buses d u d'}, (∀ p ∈ ports, view d.ports Port.peer p = some absent) →
    linkPeers ports buses d = .ok (u, d') → R d d'
  complete : ∀ {id peer}, Along R (changeExit id fun x => { x with peer })

namespace Assembles

variable (hR : Assembles R)
include hR

theorem newPrimitive : Along R (newPrimitive kind owner name inputs outputs latency) := by
  unfold Datapath.newPrimitive
  split
  · exact ⟨fun h => nomatch h⟩
  · refine hR.bind hR.op fun _ => hR.bind hR.ports fun _ => ?_
    exact hR.bind hR.entry fun _ => hR.bind hR.exit fun _ => hR.pure _

theorem newFrame : Along R (newFrame kind owner name inputs) := by
  constructor
  intro d id d' h
  simp only [Datapath.newFrame, build_bind_ok, ask_ok] at h
  obtain ⟨_, d1, h1, u1, d2, h2, e1, d3, h3, ib, d4, h4, x, d5, h5, e2, d6, h6, u2, _, h7, o, _, ⟨ho, rfl⟩, y, d7,
    ⟨hy, rfl⟩, u3, _, h8, rfl, rfl⟩ := h
  -- its ports show nothing before they are linked
  have fresh : ∀ p ∈ Design.allPorts o, view d7.ports Port.peer p = some absent := by
    have x := ((((addPorts_extends h2).trans (addEntry_extends h3)).trans (addOp_extends h4).1).trans
      (addExit_extends h5).1).trans (addEntry_extends h6) |>.trans (changeOp_extends h7)
    obtain ⟨o', ho', -, hs⟩ := x.freshOp (addOp_extends h1).2
    cases (op_ok ho).symm.trans ho'
    exact hs
  have r3 := hR.trans (hR.trans (hR.op.run h1) (hR.ports.run h2)) (hR.entry.run h3)
  have r6 := hR.trans (hR.trans (hR.trans r3 (hR.op.run h4)) (hR.exit.run h5)) (hR.entry.run h6)
  exact hR.trans (hR.trans r6 (hR.front.run h7)) (hR.peers fresh h8)

theorem addModuleExit : Along R (addModuleExit mod tag latency outputs) := by
  constructor
  intro d id d' h
  simp only [Datapath.addModuleExit, build_bind_ok, ask_ok] at h
  obtain ⟨_, _, h1, m, d1, ⟨hm, rfl⟩, ob, d2, h2, u3, d3, h3, e, _, h4, x, _, ⟨hx, rfl⟩, o, d4, ⟨ho, rfl⟩, u5, d5,
    h5, u6, _, h6, rfl, rfl⟩ := h
  have fresh : ∀ p ∈ Design.allPorts o, view d4.ports Port.peer p = some absent := by
    obtain ⟨o', ho', -, hs⟩ := ((addPorts_extends h3).trans (addEntry_extends h4)).freshOp (addOp_extends h2).2
    cases (op_ok ho).symm.trans ho'
    exact hs
  have r3 := hR.trans (hR.trans (hR.exit.run h1) (hR.op.run h2)) (hR.ports.run h3)
  exact hR.trans (hR.trans (hR.trans r3 (hR.entry.run h4)) (hR.peers fresh h5)) (hR.complete.run h6)

theorem newModule : Along R (newModule kind owner name inputs outputs latency) := by
  unfold Datapath.newModule
  split
  · exact ⟨fun h => nomatch h⟩
  · exact hR.bind hR.newFrame fun _ => hR.bind hR.addModuleExit fun _ => hR.pure _

end Assembles

/-! ## Modules -/

structure Moves (R : Design → Design → Prop) : Prop extends Chains R where
  depend : ∀ {entry kind source target clocks}, Along R (addDependency entry kind source target clocks)
  drive : ∀ {id drive}, Along R (changeEntry id fun e => { e with drive })
  mark : ∀ {id}, Along R (changeBus id fun b => { b with constant := true })
  relocate : ∀ {dep source}, Along R (relocate dep source)
  space : ∀ {index goSpacing}, Along R (changeTask index fun t => { t with goSpacing })
  resources : ∀ {d : Design} {resources}, R d { d with resources }
  regions : ∀ {d : Design} {regions}, R d { d with regions }

namespace Moves

variable (hR : Moves R)
include hR

theorem connect : Along R (connect entry source target) := hR.ask_bind fun _ => hR.depend

theorem connectAll : Along R (connectAll entry sources targets) :=
  hR.closed.forM (fun _ => hR.discard hR.connect) _

theorem start : Along R (start op source) := hR.ask_bind fun _ => hR.ask_bind fun _ => hR.depend

theorem finish : Along R (finish mod tag op) :=
  hR.ask_bind fun _ => hR.ask_bind fun _ => hR.ask_bind fun _ => hR.depend

theorem startSide : Along R (startSide decision tag side buses) :=
  hR.ask_bind fun _ => hR.bind hR.start fun _ => hR.ask_bind fun _ => hR.ask_bind fun _ => hR.connectAll

theorem finishSide : Along R (finishSide side ob entry) :=
  hR.ask_bind fun _ => hR.ask_bind fun _ => hR.bind hR.depend fun _ => hR.connectAll

theorem wireBlock : Along R (Loop.wireBlock b decision block) := by
  refine hR.bind hR.start fun _ => hR.ask_bind fun _ => hR.bind hR.start fun _ => hR.ask_bind fun _ => ?_
  refine hR.ask_bind fun _ => hR.bind hR.connectAll fun _ => hR.ask_bind fun _ => hR.bind hR.finish fun _ => ?_
  refine hR.ask_bind fun _ => hR.ask_bind fun _ => hR.bind hR.connectAll fun _ => hR.ask_bind fun _ => ?_
  exact hR.ask_bind fun _ => hR.ask_bind fun _ => hR.discard hR.depend

theorem balances : Balances R := { hR.toChains with depend := hR.depend }

end Moves

/-- The relation also holds along the steps that make operations, whatever these steps are applied to. -/
structure Forms (R : Design → Design → Prop) : Prop extends Moves R where
  primitive : ∀ {kind owner name inputs outputs latency}, kind ≠ .outBuf →
    Along R (newPrimitive kind owner name inputs outputs latency)
  newModule : ∀ {kind owner name inputs outputs latency}, Along R (newModule kind owner name inputs outputs latency)
  /-- A decision and the body of a loop have two exits. -/
  fork : ∀ {kind owner name inputs tag outputs tag' outputs'}, kind = .decision ∨ kind = .whileBody →
    tag.kind = .done ∧ tag'.kind = .done → Along R (newFrame kind owner name inputs >>= fun id =>
      addModuleExit id tag .zero outputs >>= fun _ => addModuleExit id tag' .zero outputs')
  note : ∀ {id f}, (∀ o, (f o).base = o.base) → Along R (changeOp id f)

structure Connects (R : Design → Design → Prop) : Prop extends Forms R where
  enter : ∀ {op drive}, Along R (addEntry op drive)
  assign : ∀ {d : Design} {id resource resources}, resource ≠ absent →
    R d { d with ops := editAt d.ops id fun o => { o with resource }, resources }

namespace Forms

variable (hR : Forms R)
include hR

theorem newConstant : Along R (newConstant owner name value) := by
  refine hR.bind (hR.primitive nofun) fun _ => hR.bind (hR.note fun _ => rfl) fun _ => hR.ask_bind fun _ => ?_
  exact hR.ask_bind fun _ => hR.ask_bind fun _ => hR.bind hR.mark fun _ => hR.pure _

theorem newDecision : Along R (newDecision owner name) := by
  constructor
  intro d id d' h
  obtain ⟨_, e, framed, h⟩ := build_bind_ok.mp h
  obtain ⟨x, e1, left, h⟩ := build_bind_ok.mp h
  obtain ⟨y, e2, right, h⟩ := build_bind_ok.mp h
  refine hR.trans
    ((hR.fork (.inl rfl) ⟨rfl, rfl⟩).run (build_bind_ok.mpr ⟨_, e, framed, build_bind_ok.mpr ⟨x, e1, left, right⟩⟩))
    (Along.run (hR.ask_bind fun _ => ?_) h)
  exact hR.bind hR.finish fun _ => hR.bind hR.finish fun _ => hR.pure _

theorem fillBody (refer : ∀ {decision block}, Along R (changeOp body fun o => { o with decision, body := block })) :
    Along R (Loop.fillBody body name inputs) :=
  hR.bind hR.newDecision fun _ => hR.bind hR.newModule fun _ => hR.bind refer fun _ => hR.pure _

theorem startBody (refer : Along R (changeOp loop fun o => { o with body := b.body, flopNeeded := true })) :
    Along R (Loop.startBody b loop source name) := by
  refine hR.bind refer fun _ => hR.bind hR.start fun _ => hR.bind (hR.primitive nofun) fun _ => ?_
  refine hR.bind (hR.note fun _ => rfl) fun _ => hR.ask_bind fun _ => hR.ask_bind fun _ =>
    hR.bind hR.drive fun _ => ?_
  refine hR.ask_bind fun _ => hR.ask_bind fun _ => hR.bind hR.connect fun _ => hR.ask_bind fun _ => ?_
  exact hR.ask_bind fun _ => hR.bind hR.depend fun _ => hR.discard hR.finish

theorem wires : Wires (fun _ => True) R :=
  { hR.toChains with
    depend := hR.depend
    drive := hR.drive
    hold := fun _ h => hR.primitive (by rcases h with rfl | rfl <;> exact nofun) }

end Forms

theorem Connects.newAccess (hR : Connects R) : Along R (newAccess kind owner name resource latency) := by
  constructor
  intro d id d' h
  obtain ⟨r, _, _, e, hr, access, made, rfl⟩ := newAccess_ok h
  refine hR.trans ((hR.primitive ?_).run made) (hR.assign (ne_absent hr))
  rintro rfl
  cases access

/-- The relation also holds along the steps by which operations get to refer to their parts. -/
structure Builds (R : Design → Design → Prop) : Prop extends Connects R where
  refer : ∀ {id f}, (∀ o, (f o).core = o.core) → Along R (changeOp id f)

/-- A loop is a module with a body that feeds back, which gets a block, and comes to refer to its body. In between
parts are made and connected. -/
theorem newLoop_split {id : OpId} (h : newLoop owner name inputs outputs latency d = .ok (id, d')) :
    ∃ e bd e1 fb e2 x e3 fe e4 e5 decision e6 block e7 e8 e9 e10,
      newModule .loop owner name inputs outputs latency d = .ok (id, e) ∧
      newFrame .whileBody id (name ++ ".body") inputs e = .ok (bd, e1) ∧
      addModuleExit bd .feedback .zero inputs e1 = .ok (fb, e2) ∧
      addModuleExit bd .done .zero outputs e2 = .ok (x, e3) ∧ addEntry bd fb e3 = .ok (fe, e4) ∧
      changeEntry fe (fun e => { e with feedback := true }) e4 = .ok ((), e5) ∧
      newBlock bd (name ++ ".block") inputs inputs .zero e6 = .ok (block, e7) ∧
      changeOp bd (fun o => { o with decision, body := block }) e7 = .ok ((), e8) ∧
      changeOp id (fun o => { o with body := bd, flopNeeded := true }) e9 = .ok ((), e10) ∧ ∀ {R}, Connects R →
      R e5 e6 ∧ R e8 e9 ∧ R e10 d' := by
  obtain ⟨_, lx, y, e, b, _, p, e8, e9, framed, -, left, made, filled, wired, h⟩ := newLoop_ok h
  simp only [Loop.makeBody, ↓ask_bind_ok, build_bind_ok, build_pure_ok] at made
  obtain ⟨bd, e1, h1, _, -, fb, e2, h2, x, e3, h3, fe, e4, h4, _, e5, h5, _, -, _, _, driven, rfl, rfl⟩ := made
  obtain ⟨decision, e6, decided, filled⟩ := build_bind_ok.mp filled
  obtain ⟨block, e7, h7, filled⟩ := build_bind_ok.mp filled
  obtain ⟨_, _, h8, filled⟩ := build_bind_ok.mp filled
  cases filled
  obtain ⟨_, e10, h10, h⟩ := build_bind_ok.mp h
  have whole : newModule .loop owner name inputs outputs latency d = .ok (id, e) :=
    build_bind_ok.mpr ⟨id, _, framed, build_bind_ok.mpr ⟨y, e, left, rfl⟩⟩
  refine ⟨e, bd, e1, fb, e2, x, e3, fe, e4, e5, decision, e6, block, e7, e8, e9, e10, whole, h1, h2, h3, h4, h5, h7,
    h8, h10, fun {R} hR => ⟨hR.trans (hR.drive.run driven) (hR.newDecision.run decided), hR.wireBlock.run wired,
    Along.run ?_ h⟩⟩
  refine hR.bind hR.start fun _ => hR.bind (hR.primitive (by decide)) fun _ => hR.bind (hR.note fun _ => rfl)
    fun _ => ?_
  refine hR.ask_bind fun _ => hR.ask_bind fun _ => hR.bind hR.drive fun _ => ?_
  refine hR.ask_bind fun _ => hR.ask_bind fun _ => hR.bind hR.connect fun _ => hR.ask_bind fun _ => ?_
  exact hR.ask_bind fun _ => hR.bind hR.depend fun _ => hR.discard hR.finish

/-- A branch is a module that comes to refer to a decision and to two sides. Then these are connected. -/
theorem newBranch_split {id : OpId} (h : newBranch owner name inputs outputs latency d = .ok (id, d')) :
    ∃ branch e decision e1 e2 source v e3 trueSide e4 falseSide e5 e6,
      newModule .branch owner name inputs outputs latency d = .ok (branch, e) ∧
      newDecision branch (name ++ ".decision") e = .ok (decision, e1) ∧
      changeOp branch (fun o => { o with decision }) e1 = .ok ((), e2) ∧ start decision source e2 = .ok (v, e3) ∧
      newBlock branch (name ++ ".true") inputs outputs .zero e3 = .ok (trueSide, e4) ∧
      newBlock branch (name ++ ".false") inputs outputs .zero e4 = .ok (falseSide, e5) ∧
      changeOp branch (fun o => { o with trueSide, falseSide }) e5 = .ok ((), e6) ∧ ∀ {R}, Connects R →
        R e6 d' := by
  obtain ⟨branch, _, framed, h⟩ := build_bind_ok.mp h
  obtain ⟨ix, -, h⟩ := ask_bind_ok.mp h
  obtain ⟨x, e, left, h⟩ := build_bind_ok.mp h
  obtain ⟨decision, e1, h1, h⟩ := build_bind_ok.mp h
  obtain ⟨_, e2, h2, h⟩ := build_bind_ok.mp h
  obtain ⟨v, e3, h3, h⟩ := build_bind_ok.mp h
  obtain ⟨trueSide, e4, h4, h⟩ := build_bind_ok.mp h
  obtain ⟨falseSide, e5, h5, h⟩ := build_bind_ok.mp h
  obtain ⟨_, e6, h6, h⟩ := build_bind_ok.mp h
  have made : newModule .branch owner name inputs outputs latency d = .ok (branch, e) :=
    build_bind_ok.mpr ⟨branch, _, framed, build_bind_ok.mpr ⟨x, e, left, rfl⟩⟩
  refine ⟨branch, e, decision, e1, e2, ix.done, v, e3, trueSide, e4, falseSide, e5, e6, made, h1, h2, h3, h4, h5,
    h6, fun {R} hR => Along.run ?_ h⟩
  refine hR.bind hR.startSide fun _ => hR.bind hR.startSide fun _ => hR.ask_bind fun _ => hR.ask_bind fun _ => ?_
  refine hR.ask_bind fun _ => hR.bind hR.drive fun _ => hR.ask_bind fun _ => hR.bind hR.enter fun _ => ?_
  exact hR.bind hR.finishSide fun _ => hR.bind hR.finishSide fun _ => hR.pure _

namespace Builds

variable (hR : Builds R)
include hR

theorem branch_first {id : OpId} (h : Datapath.newBranch owner name inputs outputs latency d = .ok (id, d')) :
    ∃ branch e, Datapath.newModule .branch owner name inputs outputs latency d = .ok (branch, e) ∧ R e d' := by
  obtain ⟨branch, e, _, _, _, _, _, _, _, _, _, _, _, made, h1, h2, h3, h4, h5, h6, rest⟩ := newBranch_split h
  have r2 := hR.trans (hR.newDecision.run h1) ((hR.refer fun _ => by rfl).run h2)
  have r4 := hR.trans (hR.trans r2 (hR.start.run h3)) (hR.newModule.run h4)
  have r6 := hR.trans (hR.trans r4 (hR.newModule.run h5)) ((hR.refer fun _ => by rfl).run h6)
  exact ⟨branch, e, made, hR.trans r6 (rest hR.toConnects)⟩

theorem newBranch : Along R (newBranch owner name inputs outputs latency) := by
  constructor
  intro d id d' h
  obtain ⟨_, e, made, r⟩ := hR.branch_first h
  exact hR.trans (hR.newModule.run made) r

theorem startBody : Along R (Loop.startBody b loop source name) :=
  hR.toForms.startBody (hR.refer fun _ => rfl)

theorem fillBody : Along R (Loop.fillBody body name inputs) := hR.toForms.fillBody (hR.refer fun _ => rfl)

section
variable (feed : ∀ {op drive},
  Along R (addEntry op drive >>= fun id => changeEntry id fun e => { e with feedback := true }))
include feed

theorem makeBody : Along R (Loop.makeBody loop name inputs outputs drive) := by
  constructor
  intro d b d' h
  obtain ⟨bd, e1, h1, h⟩ := build_bind_ok.mp h
  obtain ⟨_, -, h⟩ := ask_bind_ok.mp h
  obtain ⟨fb, e2, h2, h⟩ := build_bind_ok.mp h
  obtain ⟨x, e3, h3, h⟩ := build_bind_ok.mp h
  obtain ⟨fe, e4, h4, h⟩ := build_bind_ok.mp h
  obtain ⟨_, e5, h5, h⟩ := build_bind_ok.mp h
  have r3 := (hR.fork (.inr rfl) ⟨rfl, rfl⟩).run (build_bind_ok.mpr ⟨_, _, h1, build_bind_ok.mpr ⟨_, _, h2, h3⟩⟩)
  refine hR.trans (hR.trans r3 (feed.run (build_bind_ok.mpr ⟨_, _, h4, h5⟩))) (Along.run ?_ h)
  exact hR.ask_bind fun _ => hR.bind hR.drive fun _ => hR.pure _

theorem loop_first {id : OpId} (h : Datapath.newLoop owner name inputs outputs latency d = .ok (id, d')) :
    ∃ e, Datapath.newModule .loop owner name inputs outputs latency d = .ok (id, e) ∧ R e d' := by
  obtain ⟨_, lx, y, e, b, _, p, _, _, framed, -, left, made, filled, wired, h⟩ := newLoop_ok h
  have r := hR.trans (hR.fillBody.run filled) (hR.trans (hR.wireBlock.run wired) (hR.startBody.run h))
  exact ⟨e, build_bind_ok.mpr ⟨id, _, framed, build_bind_ok.mpr ⟨y, e, left, rfl⟩⟩,
    hR.trans ((hR.makeBody feed).run made) r⟩

theorem newLoop : Along R (newLoop owner name inputs outputs latency) := by
  constructor
  intro d id d' h
  obtain ⟨e, made, r⟩ := hR.loop_first feed h
  exact hR.trans (hR.newModule.run made) r

end

theorem newTask (task : ∀ {d : Design} {tasks}, R d { d with tasks }) :
    Along R (newTask name inputs outputs latency balanced) := by
  refine hR.bind hR.newModule fun _ => hR.ask_bind fun _ => hR.bind hR.newModule fun _ => ?_
  refine hR.bind (hR.refer fun _ => rfl) fun _ => hR.bind hR.start fun _ => hR.ask_bind fun _ => ?_
  refine hR.ask_bind fun _ => hR.bind hR.connectAll fun _ => hR.ask_bind fun _ => ?_
  refine hR.bind hR.finish fun _ => hR.ask_bind fun _ => hR.ask_bind fun _ => ?_
  refine hR.bind hR.connectAll fun _ => hR.bind ⟨fun h => ?_⟩ fun _ => hR.bind ⟨fun h => ?_⟩ fun _ => hR.pure _
  · cases h
    exact hR.refl _
  · cases h
    exact task

theorem newTaskCall : Along R (newTaskCall owner name task) := by
  refine hR.ask_bind fun _ => hR.ask_bind fun _ => hR.ask_bind fun _ => ?_
  exact hR.bind hR.newModule fun _ => hR.bind (hR.refer fun _ => rfl) fun _ => hR.pure _

end Builds

/-! ## Commands -/

/-- The relation holds along all commands, those that make tasks and call them excepted. -/
structure Obeys (R : Design → Design → Prop) : Prop extends Connects R where
  newPrimitive : ∀ {kind owner name inputs outputs latency},
    Along R (newPrimitive kind owner name inputs outputs latency)
  leave : ∀ {mod tag latency outputs}, Along R (addModuleExit mod tag latency outputs)
  newBranch : ∀ {owner name inputs outputs latency}, Along R (newBranch owner name inputs outputs latency)
  newLoop : ∀ {owner name inputs outputs latency}, Along R (newLoop owner name inputs outputs latency)
  addExit : ∀ {op tag latency count}, Along R (addExit op tag latency count)
  setLatency : ∀ {op latency}, Along R (setLatency op latency)
  reset : ∀ {d : Design}, R d (Region.reset d)

theorem Obeys.spaces (hR : Obeys R) : Spaces R := { hR.toChains with space := hR.space }

theorem Obeys.tracks (hR : Obeys R) : Tracks R := .of_regions hR.toChains (hR.note fun _ => rfl) hR.regions hR.reset

theorem Obeys.run (hR : Obeys R) (c : Command)
    (task : ∀ {name inputs outputs latency balanced}, c = .newTask name inputs outputs latency balanced →
        Along R (newTask name inputs outputs latency balanced))
    (call : ∀ {owner name task}, c = .newTaskCall owner name task → Along R (newTaskCall owner name task)) :
    Along R c.run := by
  cases c with
  | newTask => exact hR.discard (task rfl)
  | newTaskCall => exact hR.discard (call rfl)
  | newModule => exact hR.discard hR.newModule
  | newBlock => exact hR.discard hR.newModule
  | newBranch => exact hR.discard hR.newBranch
  | newLoop => exact hR.discard hR.newLoop
  | newPrimitive => exact hR.discard hR.newPrimitive
  | newConstant => exact hR.discard hR.newConstant
  | newResource => exact hR.discard (m := newResource _ _ _) ⟨fun h => by cases h; exact hR.resources⟩
  | newAccess => exact hR.discard hR.newAccess
  | addExit => exact hR.discard hR.addExit
  | addModuleExit => exact hR.discard hR.leave
  | addEntry => exact hR.discard hR.enter
  | setLatency => exact hR.setLatency
  | addDependency => exact hR.discard hR.depend
  | connect => exact hR.discard hR.connect
  | connectResource => exact hR.discard hR.depend
  | relocate => exact hR.relocate
  | start => exact hR.discard hR.start
  | finish => exact hR.discard hR.finish
  | wireLoop => exact hR.discard (hR.wires.wire ..)
  | balanceBranches => exact hR.discard (hR.balances.balance _)
  | removeFlops =>
    refine hR.discard
      (Bypasses.removeFlops { hR.toChains with depend := hR.depend, reroute := hR.relocate, release := ?_ } _)
    exact hR.note fun _ => rfl
  | analyzeThroughput => exact hR.discard hR.spaces.analyze
  | trackStalls => exact hR.discard hR.tracks.trackStalls

/-! ## Steps that few relations see -/

/-- The designs have the same operations, ports and exits, and buses, entries and tasks that belong to the same. -/
structure Aside (d d' : Design) : Prop where
  ops : d'.ops = d.ops
  ports : d'.ports = d.ports
  exits : d'.exits = d.exits
  buses : view d'.buses Bus.exit = view d.buses Bus.exit
  entries : view d'.entries Entry.face = view d.entries Entry.face
  tasks : view d'.tasks Task.call = view d.tasks Task.call

namespace Aside

theorem depend {kind : DepKind} : Along Aside (addDependency entry kind source target clocks) := by
  constructor
  intro d id d' h
  obtain ⟨-, -, _, _, _, -, -, -, -, rfl⟩ := addDependency_ok h
  exact ⟨rfl, rfl, rfl, view_edit_same _ _ fun _ => rfl, view_edit_same _ _ fun _ => rfl, rfl⟩

theorem drive {id : EntryId} {drive : ExitId} : Along Aside (changeEntry id fun e => { e with drive }) := by
  constructor
  intro d u d' h
  obtain ⟨-, rfl⟩ := changeEntry_ok h
  exact ⟨rfl, rfl, rfl, rfl, view_edit_same _ _ fun _ => rfl, rfl⟩

theorem mark {id : BusId} : Along Aside (changeBus id fun b => { b with constant := true }) := by
  constructor
  intro d u d' h
  obtain ⟨_, -, h⟩ := bind_ok.mp h
  cases h
  exact ⟨rfl, rfl, rfl, view_edit_same _ _ fun _ => rfl, rfl, rfl⟩

theorem relocate : Along Aside (relocate dep source) := by
  constructor
  intro d u d' h
  obtain ⟨_, _, _, -, -, -, rfl⟩ := relocate_ok h
  refine ⟨rfl, rfl, rfl, ?_, rfl, rfl⟩
  rw [view_edit_same _ _ fun _ => by rfl, view_edit_same _ _ fun _ => by rfl]

theorem space : Along Aside (changeTask index fun t => { t with goSpacing }) := by
  constructor
  intro d u d' h
  obtain ⟨_, -, h⟩ := bind_ok.mp h
  cases h
  exact ⟨rfl, rfl, rfl, rfl, rfl, view_edit_same _ _ fun _ => rfl⟩

variable (aside : ∀ {d d'}, Aside d d' → R d d')
include aside

theorem moves (chains : Chains R) : Moves R :=
  { chains with
    depend := ⟨fun h => aside (depend.run h)⟩
    drive := ⟨fun h => aside (drive.run h)⟩
    mark := ⟨fun h => aside (mark.run h)⟩
    relocate := ⟨fun h => aside (relocate.run h)⟩
    space := ⟨fun h => aside (space.run h)⟩
    resources := aside ⟨rfl, rfl, rfl, rfl, rfl, rfl⟩
    regions := aside ⟨rfl, rfl, rfl, rfl, rfl, rfl⟩ }

theorem connects (assembles : Assembles R) (note : ∀ {id f}, (∀ o, (f o).base = o.base) → Along R (changeOp id f))
    (assign : ∀ {d : Design} {id resource resources}, resource ≠ absent →
      R d { d with ops := editAt d.ops id fun o => { o with resource }, resources }) : Connects R :=
  { moves aside assembles.toChains with
    primitive := fun _ => assembles.newPrimitive
    newModule := assembles.newModule
    fork := fun _ _ => assembles.bind assembles.newFrame fun _ =>
      assembles.bind assembles.addModuleExit fun _ => assembles.addModuleExit
    enter := assembles.entry
    note, assign }

end Aside

/-! ## Relations that see how operations are nested -/

def Operation.nest (o : Operation) : OpId × List OpId := (o.owner, o.children)

/-- The relation sees of operations only what they own and what owns them. -/
structure Nests (R : Design → Design → Prop) : Prop extends Chains R where
  same : ∀ {d d' : Design}, view d'.ops Operation.nest = view d.ops Operation.nest → d'.ops.size = d.ops.size →
    R d d'
  op : ∀ {kind owner name}, Along R (addOp kind owner name)

namespace Nests

variable (hR : Nests R)
include hR

theorem edited
    (hf : ∀ o, (f o).nest = o.nest) : R d { d with ops := editAt d.ops k f, ports, buses, exits, entries } :=
  hR.same (view_edit_same _ _ hf) (size_editAt ..)

theorem changeOp (hf : ∀ o, (f o).nest = o.nest) : Along R (changeOp k f) := by
  constructor
  intro d u d' h
  obtain ⟨-, rfl⟩ := changeOp_ok h
  exact hR.edited hf

theorem assembles : Assembles R :=
  { hR.toChains with
    op := hR.op
    ports := ⟨fun h => by rw [addPorts_ok h]; exact hR.edited fun _ => rfl⟩
    exit := ⟨fun h => by obtain ⟨-, -, rfl⟩ := addExit_ok h; exact hR.edited fun _ => rfl⟩
    entry := ⟨fun h => by obtain ⟨-, -, rfl⟩ := addEntry_ok h; exact hR.edited fun _ => rfl⟩
    front := hR.changeOp fun _ => rfl
    peers := fun _ h => hR.same (by rw [(linkPeers_ops h).1]) (by rw [(linkPeers_ops h).1])
    complete := ⟨fun h => by obtain ⟨-, rfl⟩ := changeExit_ok h; exact hR.same rfl rfl⟩ }

theorem aside (h : Aside d d') : R d d' := hR.same (by rw [h.ops]) (by rw [h.ops])

theorem builds : Builds R :=
  { Aside.connects hR.aside hR.assembles
      (fun hf => hR.changeOp fun o => (congrArg Operation.nest (hf o) :)) fun _ =>
      hR.same (view_edit_same _ _ fun _ => rfl) (size_editAt ..) with
    refer := fun hf => hR.changeOp fun o => (congrArg Operation.nest (hf o) :) }

theorem run (c : Command) : Along R c.run := by
  have a := hR.assembles
  have b := hR.builds
  have feed {id} : Along R (changeEntry id fun e => { e with feedback := true }) :=
    ⟨fun h => by obtain ⟨-, rfl⟩ := changeEntry_ok h; exact hR.same rfl rfl⟩
  have obeys : Obeys R :=
    { b.toConnects with
      newPrimitive := a.newPrimitive
      leave := a.addModuleExit
      newBranch := b.newBranch
      newLoop := b.newLoop (a.bind a.entry fun _ => feed)
      addExit := a.exit
      setLatency := ⟨fun h => by obtain ⟨_, rfl⟩ := setLatency_ok h; exact hR.same rfl rfl⟩
      reset := hR.same (view_map_same _ fun _ => rfl) (Array.size_map ..) }
  exact obeys.run c (fun _ => b.newTask (hR.same rfl rfl)) fun _ => b.newTaskCall

end Nests

end Datapath
