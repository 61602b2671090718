import Datapath.Design.Structure
import Datapath.Proofs.WellFormed

/-!
# Building keeps designs well-formed

Modules are built from many small steps. Two of them need to know what came before: ports and buses
are made to show each other, which is fine as long as they show nothing yet, and buffers are
recorded with their module. `Extends` says what all other steps leave alone.
-/

namespace Datapath

open List

variable {d d' : Design}

section
variable {α β : Type}

theorem build_bind_ok {m : Build α} {f : α → Build β} {b : β} :
    (m >>= f) d = .ok (b, d') ↔ ∃ a e, m d = .ok (a, e) ∧ f a e = .ok (b, d') := by
  change (m d >>= fun p => f p.1 p.2) = _ ↔ _
  rw [bind_ok]
  exact ⟨fun ⟨p, h, h'⟩ => ⟨p.1, p.2, h, h'⟩, fun ⟨a, e, h, h'⟩ => ⟨(a, e), h, h'⟩⟩

theorem ask_ok {q : Design → Except Fault α} {a : α} : ask q d = .ok (a, d') ↔ q d = .ok a ∧ d' = d := by
  unfold ask
  rw [bind_ok]
  constructor
  · rintro ⟨b, hb, h⟩; cases h; exact ⟨hb, rfl⟩
  · rintro ⟨h, rfl⟩; exact ⟨a, h, rfl⟩

theorem ask_bind_ok {q : Design → Except Fault α} {f : α → Build β} {b : β} :
    (ask q >>= f) d = .ok (b, d') ↔ ∃ a, q d = .ok a ∧ f a d = .ok (b, d') := by
  rw [build_bind_ok]
  constructor
  · rintro ⟨a, e, h, h'⟩
    obtain ⟨hq, rfl⟩ := ask_ok.mp h
    exact ⟨a, hq, h'⟩
  · rintro ⟨a, hq, h⟩
    exact ⟨a, d, ask_ok.mpr ⟨hq, rfl⟩, h⟩

theorem build_pure_ok {a b : α} : (pure a : Build α) d = .ok (b, d') ↔ b = a ∧ d' = d := by
  constructor
  · intro h; cases h; exact ⟨rfl, rfl⟩
  · rintro ⟨rfl, rfl⟩; rfl

theorem modify_ok {u : PUnit} : (modify f : Build PUnit) d = .ok (u, d') ↔ d' = f d :=
  ⟨fun h => by cases h; rfl, fun h => by rw [h]; rfl⟩

end

section
variable {id : Int}

theorem newPrimitive_ok (h : newPrimitive kind owner name inputs outputs latency d = .ok (id, d')) :
    kind.isModule = false ∧ ∃ d1 d2 d3 e x, addOp kind owner name d = .ok (id, d1) ∧
      addPorts id inputs d1 = .ok ((), d2) ∧ addEntry id absent d2 = .ok (e, d3) ∧
      addExit id .done latency outputs d3 = .ok (x, d') := by
  unfold newPrimitive at h
  split at h
  · cases h
  next plain =>
    simp only [build_bind_ok] at h
    obtain ⟨_, d1, h1, _, d2, h2, e, d3, h3, x, _, h4, rfl, rfl⟩ := h
    exact ⟨by simpa using plain, d1, d2, d3, e, x, h1, h2, h3, h4⟩

theorem newModule_ok (h : newModule kind owner name inputs outputs latency d = .ok (id, d')) :
    kind.isModule = true ∧ ∃ e x, newFrame kind owner name inputs d = .ok (id, e) ∧
      addModuleExit id .done latency outputs e = .ok (x, d') := by
  unfold newModule at h
  split at h
  · cases h
  next module =>
    simp only [build_bind_ok] at h
    obtain ⟨_, e, framed, x, _, left, rfl, rfl⟩ := h
    exact ⟨by simpa using module, e, x, framed, left⟩

end

/-! ## Extensions -/

/-- From one design to the next, elements are only added, new ports and buses show nothing, and
what is there keeps its place. -/
structure Extends (d d' : Design) : Prop where
  size : d.ops.size ≤ d'.ops.size
  op : ∀ {k o}, at? d.ops k = some o → ∃ o', at? d'.ops k = some o' ∧ o'.place = o.place ∧
    ∀ p ∈ Design.allPorts o', p ∈ Design.allPorts o ∨ view d'.ports Port.peer p = some absent
  port : ∀ {p v}, view d.ports Port.peer p = some v → view d'.ports Port.peer p = some v
  exit : ∀ {k x}, at? d.exits k = some x → at? d'.exits k = some x
  bus : ∀ {b v}, view d.buses Bus.peer b = some v → view d'.buses Bus.peer b = some v

section
variable {id count : Int} {e : Design}

theorem Extends.trans (h : Extends d e) (h' : Extends e d') : Extends d d' where
  size := Nat.le_trans h.size h'.size
  op := by
    intro k o ho
    obtain ⟨o1, h1, hp1, hs1⟩ := h.op ho
    obtain ⟨o2, h2, hp2, hs2⟩ := h'.op h1
    refine ⟨o2, h2, hp2.trans hp1, ?_⟩
    intro p hp
    rcases hs2 p hp with hp | hp
    · exact (hs1 p hp).imp_right h'.port
    · exact .inr hp
  port hp := h'.port (h.port hp)
  exit hx := h'.exit (h.exit hx)
  bus hb := h'.bus (h.bus hb)

def FreshOp (d : Design) (k : Int) (place : Kind × OpId) : Prop :=
  ∃ o, at? d.ops k = some o ∧ o.place = place ∧ ∀ p ∈ Design.allPorts o, view d.ports Port.peer p = some absent

def FreshExit (d : Design) (k owner : Int) : Prop :=
  ∃ x, at? d.exits k = some x ∧ x.owner = owner ∧ ∀ b ∈ x.done :: x.buses, view d.buses Bus.peer b = some absent

theorem Extends.freshOp (h : Extends d d') (hk : FreshOp d k place) : FreshOp d' k place := by
  obtain ⟨o, ho, hpl, hs⟩ := hk
  obtain ⟨o', ho', hpl', hs'⟩ := h.op ho
  refine ⟨o', ho', hpl'.trans hpl, ?_⟩
  intro p hp
  rcases hs' p hp with hp | hp
  · exact h.port (hs p hp)
  · exact hp

theorem Extends.freshExit (h : Extends d d') (hk : FreshExit d k owner) : FreshExit d' k owner := by
  obtain ⟨x, hx, ho, hs⟩ := hk
  exact ⟨x, h.exit hx, ho, fun b hb => h.bus (hs b hb)⟩

theorem edit_op
    (hf : ∀ o, (f o).place = o.place ∧ Design.allPorts (f o) = Design.allPorts o) (ho : at? ops k = some o) :
    ∃ o', at? (editAt ops i f) k = some o' ∧ o'.place = o.place ∧
      ∀ p ∈ Design.allPorts o', p ∈ Design.allPorts o ∨ view ports Port.peer p = some absent := by
  simp only [at?_editAt, ho]
  split
  · exact ⟨_, rfl, (hf o).1, fun p hp => .inl ((hf o).2 ▸ hp)⟩
  · exact ⟨o, rfl, rfl, fun p hp => .inl hp⟩

theorem addOp_extends (h : addOp kind owner name d = .ok (id, d')) :
    Extends d d' ∧ FreshOp d' id (kind, owner) := by
  obtain ⟨rfl, hown, rfl⟩ := addOp_ok h
  constructor
  · exact ⟨by simp [size_editAt], edit_op (fun _ => ⟨rfl, rfl⟩) ∘ at?_push_of _, view_push_of _, fun h => h,
      fun h => h⟩
  · have go : view (d.ports.push { id := d.ports.size, owner := d.ops.size, name := "go", isGo := true }) Port.peer
        d.ports.size = some absent := by rw [view_push, put_self]
    simp only [FreshOp, at?_editAt, at?_push]
    split
    · exact ⟨_, rfl, rfl, fun p hp => by rw [mem_singleton.mp hp]; exact go⟩
    · exact ⟨_, rfl, rfl, fun p hp => by rw [mem_singleton.mp hp]; exact go⟩

theorem addPorts_extends (h : addPorts op count d = .ok (u, d')) : Extends d d' := by
  rw [addPorts_ok h]
  constructor
  · simp [size_editAt]
  · intro k o ho
    simp only [at?_editAt, ho]
    split
    · refine ⟨_, rfl, rfl, ?_⟩
      intro p hp
      simp only [Design.allPorts, mem_cons, mem_append] at hp ⊢
      rcases hp with hp | hp | hp
      · exact .inl (.inl hp)
      · exact .inl (.inr hp)
      · rw [view_append, putRange, if_pos (mem_idsFrom.mp hp)]
        exact .inr rfl
    · exact ⟨o, rfl, rfl, fun p hp => .inl hp⟩
  · exact fun hp => view_append_of _ _ hp
  · exact fun hx => hx
  · exact fun hb => hb

theorem addExit_extends (h : addExit op tag latency count d = .ok (id, d')) :
    Extends d d' ∧ FreshExit d' id op := by
  obtain ⟨rfl, -, rfl⟩ := addExit_ok h
  constructor
  · exact ⟨by simp [size_editAt], edit_op fun _ => ⟨rfl, rfl⟩, fun h => h, at?_push_of _,
      fun hb => view_append_of _ _ (view_push_of _ hb)⟩
  · simp only [FreshExit, at?_push]
    refine ⟨_, rfl, rfl, ?_⟩
    intro b hb
    rw [view_append, view_push, Array.size_push, putRange]
    dsimp only at hb
    rcases mem_cons.mp hb with rfl | hb
    · rw [if_neg (by omega), put_self]
    · rw [if_pos (mem_idsFrom.mp hb)]

theorem addEntry_extends (h : addEntry op drive d = .ok (id, d')) : Extends d d' := by
  obtain ⟨-, -, rfl⟩ := addEntry_ok h
  exact ⟨by simp [size_editAt], edit_op fun _ => ⟨rfl, rfl⟩, fun h => h, fun h => h, fun h => h⟩

/-! ## Peers -/

section
variable (hd : WellFormed d)
include hd

theorem WellFormed.setPeers {ports : Array Port} {buses : Array Bus}
    (hp : ∀ {β : Type} {g : Port → β}, (∀ p b, g { p with peer := b } = g p) → view ports g = view d.ports g)
    (hb : ∀ {β : Type} {g : Bus → β}, (∀ b p, g { b with peer := p } = g b) → view buses g = view d.buses g)
    (h : Paired (view ports Port.peer) (view buses Bus.peer)) : WellFormed { d with ports, buses } := by
  have portIds : Indexed ports Port.id := by
    intro i p hi
    have := view_of Port.id hi
    rw [hp fun _ _ => rfl] at this
    obtain ⟨q, hq, e⟩ := view_some.mp this
    exact e ▸ hd.portIds i q hq
  have busIds : Indexed buses Bus.id := by
    intro i b hi
    have := view_of Bus.id hi
    rw [hb fun _ _ => rfl] at this
    obtain ⟨c, hc, e⟩ := view_some.mp this
    exact e ▸ hd.busIds i c hc
  exact
    { hd with
      portIds
      busIds
      ports := by rw [hp fun _ _ => rfl]; exact hd.ports
      buses := by rw [hb fun _ _ => rfl]; exact hd.buses
      readers := by rw [hb fun _ _ => rfl]; exact hd.readers
      aimed := by rw [hp fun _ _ => rfl]; exact hd.aimed
      peers := h }

theorem WellFormed.linkPeer (hp : view d.ports Port.peer p = some absent)
    (hb : view d.buses Bus.peer b = some absent) :
    WellFormed ((d.editPort p fun q => { q with peer := b }).editBus b fun c => { c with peer := p }) := by
  obtain ⟨q, hq, -⟩ := view_some.mp hp
  obtain ⟨c, hc, -⟩ := view_some.mp hb
  refine hd.setPeers (fun hg => view_edit_same _ _ fun x => hg x b) (fun hg => view_edit_same _ _ fun x => hg x p)
    ?_
  change Paired (view (editAt d.ports p _) _) (view (editAt d.buses b _) _)
  rw [view_edit hq, view_edit hc]
  exact hd.peers.link (view_absent ..) (view_absent ..) hp hb

theorem WellFormed.linkPeers (hps : ps.Nodup) (hbs : bs.Nodup)
    (hp : ∀ p ∈ ps, view d.ports Port.peer p = some absent) (hb : ∀ b ∈ bs, view d.buses Bus.peer b = some absent)
    (h : linkPeers ps bs d = .ok (u, d')) : WellFormed d' := by
  cases h
  induction ps generalizing bs d with
  | nil => exact hd
  | cons p ps ih =>
    cases bs with
    | nil => exact hd
    | cons b bs =>
      have hp0 := hp p mem_cons_self
      have hb0 := hb b mem_cons_self
      obtain ⟨q, hq, -⟩ := view_some.mp hp0
      obtain ⟨c, hc, -⟩ := view_some.mp hb0
      refine ih (hd.linkPeer hp0 hb0) (nodup_cons.mp hps).2 (nodup_cons.mp hbs).2 ?_ ?_
      · intro x hx
        have hne : x ≠ p := fun e => (nodup_cons.mp hps).1 (e ▸ hx)
        change view (editAt d.ports p _) Port.peer x = _
        rw [view_edit hq, put_ne _ hne]
        exact hp x (mem_cons_of_mem _ hx)
      · intro x hx
        have hne : x ≠ b := fun e => (nodup_cons.mp hbs).1 (e ▸ hx)
        change view (editAt d.buses b _) Bus.peer x = _
        rw [view_edit hc, put_ne _ hne]
        exact hb x (mem_cons_of_mem _ hx)

theorem WellFormed.linkFresh (ho : FreshOp d op place)
    (hx : FreshExit d exit owner) (ho' : at? d.ops op = some o) (hx' : at? d.exits exit = some x)
    (h : Datapath.linkPeers (Design.allPorts o) (x.done :: x.buses) d = .ok (u, d')) : WellFormed d' := by
  obtain ⟨o1, h1, -, hps⟩ := ho
  obtain ⟨x1, h2, -, hbs⟩ := hx
  rw [ho'] at h1; cases h1
  rw [hx'] at h2; cases h2
  exact hd.linkPeers (hd.ports.nodup (view_of _ ho')) (hd.buses.nodup (view_of _ hx')) hps hbs h

end

/-! ## Frames -/

theorem changeOp_ok (h : changeOp k f d = .ok (u, d')) :
    (∃ o, at? d.ops k = some o) ∧ d' = { d with ops := editAt d.ops k f } := by
  obtain ⟨o, ho, h⟩ := bind_ok.mp h
  cases h
  exact ⟨⟨o, op_ok ho⟩, rfl⟩

theorem Nesting.setInBuf (h : Nesting ops) (ho : at? ops k = some o)
    (hib : view ops Operation.place ib = some (.inBuf, k)) :
    Nesting (editAt ops k fun o => { o with inBuf := ib }) where
  ids := h.ids.edit k fun _ => rfl
  older := by
    intro i m hi
    rw [at?_editAt] at hi
    split at hi
    · obtain ⟨x, hx, rfl⟩ := Option.map_eq_some_iff.mp hi
      exact h.older (o := x) hx
    · exact h.older hi
  children := by
    refine Linked.editHolders (Linked.editLists h.children ?_) ?_
    · exact fun _ => rfl
    · exact fun _ => rfl
  inBufs := by
    intro i b hb hne
    rw [view_edit_same (g := Operation.place)]
    · rw [view_edit ho] at hb
      by_cases hi : i = k
      · subst hi; rw [put_self] at hb; cases hb; exact hib
      · rw [put_ne _ hi] at hb; exact h.inBufs hb hne
    · exact fun _ => rfl

theorem FreshOp.place {place : Kind × OpId} (h : FreshOp d k place) :
    view d.ops Operation.place k = some place := by
  obtain ⟨o, ho, hp, -⟩ := h
  rw [← hp]; exact view_of _ ho

theorem changeOp_extends (h : changeOp k (fun o => { o with inBuf := ib }) d = .ok (u, d')) : Extends d d' := by
  obtain ⟨-, rfl⟩ := changeOp_ok h
  exact ⟨by simp [size_editAt], edit_op fun _ => ⟨rfl, rfl⟩, fun h => h, fun h => h, fun h => h⟩

theorem linkPeers_ops (h : linkPeers ps bs d = .ok (u, d')) :
    d'.ops = d.ops ∧ d'.exits = d.exits ∧ d'.entries = d.entries ∧ d'.deps = d.deps := by
  cases h
  induction ps.zip bs generalizing d with
  | nil => exact ⟨rfl, rfl, rfl, rfl⟩
  | cons p l ih => exact ih

theorem newFrame_ok {owner : Int} (hd : WellFormed d) (ho : owner < d.ops.size)
    (h : newFrame kind owner name inputs d = .ok (id, d')) :
    WellFormed d' ∧ d.ops.size ≤ id ∧ id < d'.ops.size := by
  simp only [newFrame, build_bind_ok, ask_ok] at h
  obtain ⟨_, d1, h1, u1, d2, h2, e1, d3, h3, ib, d4, h4, x, d5, h5, e2, d6, h6, u2, _, h7, o, _, ⟨ho', rfl⟩, y, d7,
    ⟨hy, rfl⟩, u3, _, h8, rfl, rfl⟩ := h
  -- the module and its ports
  obtain ⟨x1, f1⟩ := addOp_extends h1
  have hid : id = d.ops.size := (addOp_ok h1).1
  have lt1 : id < d1.ops.size := (view_lt f1.place).2
  obtain ⟨o1, ho1, -⟩ := f1
  have w1 := hd.addOp ho h1
  have w2 := w1.addPorts ho1 h2
  have w3 := w2.addEntry h3
  have x2 := addPorts_extends h2
  have x3 := addEntry_extends h3
  -- the input buffer and its exit
  have lt3 : id < d3.ops.size := by have := x2.size; have := x3.size; omega
  obtain ⟨x4, f4⟩ := addOp_extends h4
  have w4 := w3.addOp lt3 h4
  obtain ⟨x5, f5⟩ := addExit_extends h5
  have w5 := w4.addExit h5
  have x6 := addEntry_extends h6
  have w6 := w5.addEntry h6
  -- both know of each other
  have x7 := changeOp_extends h7
  obtain ⟨⟨o6, ho6⟩, e7⟩ := changeOp_ok h7
  have w7 : WellFormed d7 := by
    rw [e7]
    exact w6.editOp (w6.nesting.setInBuf ho6 (x6.freshOp (x5.freshOp f4)).place) fun _ => ⟨rfl, rfl, rfl, rfl, rfl⟩
  have f7 := ((((x2.trans x3).trans x4).trans x5).trans x6).trans x7 |>.freshOp (addOp_extends h1).2
  have w8 := w7.linkFresh f7 ((x6.trans x7).freshExit f5) (op_ok ho') (exit_ok hy) h8
  refine ⟨w8, by omega, ?_⟩
  have := (((x4.trans x5).trans x6).trans x7).size
  rw [(linkPeers_ops h8).1]
  omega

/-! ## Exits of modules -/

theorem changeExit_ok (h : changeExit k f d = .ok (u, d')) :
    (∃ x, at? d.exits k = some x) ∧ d' = { d with exits := editAt d.exits k f } := by
  obtain ⟨x, hx, h⟩ := bind_ok.mp h
  cases h
  exact ⟨⟨x, exit_ok hx⟩, rfl⟩

theorem WellFormed.setOutBuf (hd : WellFormed d) (hx : at? d.exits k = some x)
    (hob : view d.ops Operation.place ob = some (.outBuf, x.owner)) :
    WellFormed { d with exits := editAt d.exits k fun x => { x with peer := ob } } :=
  { hd with
    exitIds := hd.exitIds.edit _ fun _ => rfl
    exits := hd.exits.editHolders fun _ => rfl
    buses := hd.buses.editLists fun _ => rfl
    outBufs := by
      intro i y hy hne
      rw [at?_editAt] at hy
      split at hy
      next hi =>
        subst hi
        rw [hx] at hy; cases hy
        exact hob
      next => exact hd.outBufs hy hne }

theorem addModuleExit_ok (hd : WellFormed d)
    (h : addModuleExit mod tag latency outputs d = .ok (id, d')) : WellFormed d' ∧ d.ops.size ≤ d'.ops.size := by
  simp only [addModuleExit, build_bind_ok, ask_ok] at h
  obtain ⟨_, _, h1, m, d1, ⟨hm, rfl⟩, ob, d2, h2, u3, d3, h3, e, _, h4, x, _, ⟨hx, rfl⟩, o, d4, ⟨ho, rfl⟩, u5, d5,
    h5, u6, _, h6, rfl, rfl⟩ := h
  obtain ⟨x1, f1⟩ := addExit_extends h1
  have w1 := hd.addExit h1
  -- the output buffer
  obtain ⟨x2, f2⟩ := addOp_extends h2
  have w2 := w1.addOp (at?_lt (op_ok hm)).2 h2
  obtain ⟨o2, ho2, -⟩ := f2
  have w3 := w2.addPorts ho2 h3
  have x3 := addPorts_extends h3
  have w4 := w3.addEntry h4
  have x4 := addEntry_extends h4
  -- it completes the exit
  have f4 := (x3.trans x4).freshOp (addOp_extends h2).2
  have g4 := ((x2.trans x3).trans x4).freshExit f1
  have w5 := w4.linkFresh f4 g4 (op_ok ho) (exit_ok hx) h5
  obtain ⟨eo, ex, -⟩ := linkPeers_ops h5
  obtain ⟨-, rfl⟩ := changeExit_ok h6
  obtain ⟨y, hy, hown, -⟩ := g4
  refine ⟨w5.setOutBuf (x := y) (ex ▸ hy) ?_, ?_⟩
  · rw [eo, hown]; exact f4.place
  · rw [eo]
    exact (((x1.trans x2).trans x3).trans x4).size

end

end Datapath
