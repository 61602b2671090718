import Datapath.Proofs.SturdyRemoval
import Datapath.Proofs.Cells

/-!
# Reading past registers

Removing the registers of a loop changes one thing: what read the output of a register reads what
the register captures. So each dependency starts where it did or, if it started at a register, at
the source of that register.
-/

namespace Datapath

open List

variable {d e f : Design}

/-! ## Other sources -/

/-- The second design is the first one, except that a dependency on a bus `b` is one on `σ b`. -/
structure Reads (σ : BusId → BusId) (d e : Design) : Prop where
  ops : view e.ops Operation.bare = view d.ops Operation.bare
  ports : e.ports = d.ports
  exits : e.exits = d.exits
  entries : e.entries = d.entries
  buses : view e.buses Bus.exit = view d.buses Bus.exit
  dep : ∀ i, e.dep? i = (d.dep? i).map fun v => { v with source := σ v.source }

section
variable (h : Reads σ d e)
include h

theorem Reads.trans (h' : Reads τ e f) : Reads (fun b => τ (σ b)) d f where
  ops := h'.ops.trans h.ops
  ports := h'.ports.trans h.ports
  exits := h'.exits.trans h.exits
  entries := h'.entries.trans h.entries
  buses := h'.buses.trans h.buses
  dep i := by rw [h'.dep, h.dep, Option.map_map]; rfl

theorem Reads.op (ho : d.op? k = some o) : ∃ b, e.op? k = some { o with flopNeeded := b } := op_of_bare h.ops ho

theorem Reads.opBack (ho : e.op? k = some o) : ∃ b, d.op? k = some { o with flopNeeded := b } :=
  op_of_bare h.ops.symm ho

theorem Reads.depsIn (i : EntryId) : e.depsIn i = (d.depsIn i).map fun v => { v with source := σ v.source } := by
  rw [depsIn_eq, depsIn_eq, h.entries, map_filterMap]
  congr 1
  funext j
  exact h.dep j

theorem Reads.driving (i : EntryId) (p : PortId) :
    e.driving i p = (d.driving i p).map fun v => (v.1, σ v.2.1, v.2.2) := by
  unfold Design.driving
  rw [h.depsIn, filter_map, map_map, map_map]
  rfl

theorem Reads.same (stay : ∀ v ∈ d.depsIn i, σ v.source = v.source) : e.depsIn i = d.depsIn i := by
  rw [h.depsIn]
  calc (d.depsIn i).map (fun v => { v with source := σ v.source }) = (d.depsIn i).map id :=
        map_congr_left fun v hv => by rw [stay v hv]; rfl
    _ = d.depsIn i := map_id _

theorem Reads.order (hd : WellFormed d) (ho : d.op? m = some o)
    (stay : ∀ c ∈ o.children, ∀ {i v}, view d.entries Entry.face i = some (c, false) → v ∈ d.depsIn i →
      σ v.source = v.source) (run : (d.order m).run = .ok (.ok ids)) : (e.order m).run = .ok (.ok ids) := by
  obtain ⟨b, ho'⟩ := h.op ho
  have owned : ∀ k, ((e.op? k).any fun q => q.owner == m) = (d.op? k).any fun q => q.owner == m := by
    intro k
    cases hk : d.op? k with
    | some q =>
      obtain ⟨b, hk'⟩ := h.op hk
      rw [hk']
      rfl
    | none =>
      cases hk' : e.op? k with
      | none => rfl
      | some q =>
        obtain ⟨b, hq⟩ := h.opBack hk'
        rw [hk] at hq
        cases hq
  have owner : e.busOwner? = d.busOwner? := by
    funext b
    rw [busOwner?_eq, busOwner?_eq, h.buses, h.exits]
  have drivers : ∀ c ∈ o.children, e.drivers m c = d.drivers m c := by
    intro c hc
    obtain ⟨q, hq, -⟩ := hd.child ho hc
    obtain ⟨b, hq'⟩ := h.op hq
    have entriesOf : e.entriesOf { q with flopNeeded := b } = d.entriesOf q := by
      have : e.entryAt? = d.entryAt? := by
        funext i
        rw [Design.entryAt?, h.entries]
        rfl
      rw [Design.entriesOf, this]
      rfl
    have deps : ∀ n ∈ (d.entriesOf q).filter (!·.feedback), e.depsOf n = d.depsOf n := by
      intro n hn
      obtain ⟨hn, forward⟩ := mem_filter.mp hn
      obtain ⟨i, hi, hin⟩ := mem_filterMap.mp hn
      obtain ⟨b, face⟩ := entry_face hd hq hi
      rw [view_of _ hin, Option.some.injEq] at face
      have forward : n.feedback = false := by simpa using forward
      have face : view d.entries Entry.face i = some (c, false) :=
        view_some.mpr ⟨n, hin, Prod.ext (show n.owner = c from congrArg Prod.fst face) forward⟩
      rw [← depsIn_of (show at? e.entries i = some n by rw [h.entries]; exact hin), ← depsIn_of hin]
      exact h.same fun v hv => stay c hc face hv
    unfold Design.drivers
    rw [hq, hq']
    simp only [entriesOf, flatMap_congr deps, owner, owned]
  obtain ⟨q, hq, nodup, arranged⟩ := order_ok_iff.mp run
  cases ho.symm.trans hq
  exact order_ok_iff.mpr ⟨_, ho', nodup, arranged ▸ arrange_congr fun c hc k => by rw [drivers c hc]⟩

end

/-! ## Relocating -/

theorem relocated (h : relocate i s e = .ok (u, f)) : f.ports = e.ports ∧
    ∀ j, f.dep? j = if j = i then (e.dep? j).map fun v => { v with source := s } else e.dep? j := by
  obtain ⟨v, b, c, -, -, -, rfl⟩ := relocate_ok h
  exact ⟨rfl, fun j => at?_editAt ..⟩

theorem relocateAll_run {readers : List DepId} (we : WellFormed e) (hs : view e.buses Bus.exit s = some x)
    (known : ∀ i ∈ readers, ∃ w, e.dep? i = some w) :
    ∃ f, readers.forM (relocate · s) e = .ok ((), f) ∧ WellFormed f ∧ f.ops = e.ops ∧ f.ports = e.ports ∧
      f.exits = e.exits ∧ f.entries = e.entries ∧ view f.buses Bus.exit = view e.buses Bus.exit ∧
      ∀ j, f.dep? j = (e.dep? j).map fun v => if j ∈ readers then { v with source := s } else v := by
  induction readers generalizing e with
  | nil => exact ⟨e, rfl, we, rfl, rfl, rfl, rfl, rfl, fun j => by simp⟩
  | cons i readers ih =>
    obtain ⟨w, hw⟩ := known i mem_cons_self
    obtain ⟨e1, h1⟩ := relocate_run we hw hs
    obtain ⟨ops, exits, entries, buses, -⟩ := relocate_rest h1
    obtain ⟨ports, deps⟩ := relocated h1
    have known1 : ∀ j ∈ readers, ∃ w, e1.dep? j = some w := by
      intro j hj
      obtain ⟨w, hw⟩ := known j (mem_cons_of_mem _ hj)
      rw [deps, hw]
      by_cases e : j = i
      · exact ⟨_, if_pos e⟩
      · exact ⟨w, if_neg e⟩
    obtain ⟨f, h, wf, ops', ports', exits', entries', buses', deps'⟩ := ih (we.relocate h1) (buses ▸ hs) known1
    refine ⟨f, build_bind_ok.mpr ⟨(), e1, h1, h⟩, wf, ops'.trans ops, ports'.trans ports, exits'.trans exits,
      entries'.trans entries, buses'.trans buses, fun j => ?_⟩
    rw [deps', deps]
    by_cases e : j = i
    · subst e
      simp only [if_true, Option.map_map]
      congr 1
      funext v
      by_cases hj : j ∈ readers
      · simp [hj]
      · simp [hj]
    · simp [e]

def past (q s b : BusId) : BusId := if b = q then s else b

theorem readers_run (we : WellFormed e) (hq : at? e.buses q = some bus)
    (hs : view e.buses Bus.exit s = some x) :
    ∃ f, bus.dependents.forM (relocate · s) e = .ok ((), f) ∧ WellFormed f ∧ f.ops = e.ops ∧
      Reads (past q s) e f := by
  have known : ∀ i ∈ bus.dependents, ∃ w, e.dep? i = some w ∧ w.source = q := by
    intro i hi
    obtain ⟨w, hw, source⟩ := we.readers.holds hq i hi
    exact ⟨w, hw, Option.some.inj source⟩
  obtain ⟨f, h, wf, ops, ports, exits, entries, buses, deps⟩ :=
    relocateAll_run we hs fun i hi => (known i hi).imp fun _ => And.left
  refine ⟨f, h, wf, ops, by rw [ops], ports, exits, entries, buses, fun i => ?_⟩
  rw [deps]
  cases hw : e.dep? i with
  | none => rfl
  | some w =>
    by_cases source : w.source = q
    · obtain ⟨_, hb, mem⟩ := we.readers.held hw rfl
      cases hq.symm.trans (source ▸ hb)
      simp [past, mem, source]
    · have out : i ∉ bus.dependents := by
        intro mem
        obtain ⟨w', hw', e⟩ := known i mem
        cases hw.symm.trans hw'
        exact source e
      simp [past, out, source]

namespace Loop

/-! ## Registers -/

theorem Cell.carried (we : WellFormed e) (h : Cell e loop c kind inputs q) : Carried e q c := by
  obtain ⟨o, i, x, y, ho, -, -, -, -, exits, hy, buses⟩ := h.shape
  obtain ⟨z, hz, own⟩ := we.exits.holds ho x (by rw [exits]; exact mem_singleton_self x)
  cases hy.symm.trans hz
  exact Option.some.inj own ▸ carried_exit we hy (by rw [buses]; simp)

theorem Cell.reads (h : Cell d loop c kind inputs q) (r : Reads σ d e) :
    Cell e loop c kind (inputs.map fun l => l.map fun v => (v.1, σ v.2.1, v.2.2)) q := by
  obtain ⟨o, i, x, y, ho, place, entries, go, ports, exits, hy, buses⟩ := h.shape
  obtain ⟨b, ho'⟩ := r.op ho
  refine ⟨_, i, x, y, ho', place, entries, ?_, ?_, exits, by rw [r.exits]; exact hy, buses⟩
  · rw [r.driving, show d.driving i o.go = [] from go]
    rfl
  · rw [← ports, map_map]
    apply map_congr_left
    intro p _
    exact r.driving i p

theorem bypass_reads (we : WellFormed e) (ho : e.op? c = some reg) (h : Cell e loop c kind [[(dk, s, clocks)]] q) :
    ∃ f, bypass reg e = .ok ((), f) ∧ WellFormed f ∧ f.ops = e.ops ∧ Reads (past q s) e f := by
  obtain ⟨o, i, x, y, ho', -, entries, -, inputs, exits, hy, buses⟩ := h.shape
  cases ho.symm.trans ho'
  obtain ⟨p, hp, drives⟩ : ∃ p, reg.ports = [p] ∧ e.driving i p = [(dk, s, clocks)] := by
    match hr : reg.ports, inputs with
    | [p], inputs => exact ⟨p, rfl, by simpa [hr] using inputs⟩
    | [], inputs => simp at inputs
    | _ :: _ :: _, inputs => simp at inputs
  obtain ⟨port, hport, own⟩ := we.ports.holds ho p (mem_cons_of_mem _ (hp ▸ mem_cons_self))
  obtain ⟨n, hn, -⟩ := we.entries.holds ho i (entries ▸ mem_cons_self)
  obtain ⟨v, hv, drive⟩ := map_eq_singleton_iff.mp drives
  have source : v.source = s := congrArg (fun t : Drive => t.2.1) drive
  -- what it captures
  have captured : (do e.portDeps (← reg.firstPort)) = Except.ok [v] := by
    rw [Operation.firstPort, hp]
    show (do return e.depsOnPort (← e.port p)) = _
    rw [show e.port p = .ok port from require_ok.mpr hport, ok_bind]
    unfold Design.depsOnPort
    rw [show port.owner = c from Option.some.inj own, ho]
    show Except.ok ((e.entriesOf reg).flatMap _) = _
    rw [Design.entriesOf, entries, filterMap_cons_some (show e.entryAt? i = some n from hn), filterMap_nil,
      flatMap_singleton, ← depsIn_of hn, we.portIds _ _ hport, hv]
  have out : (do (← e.exit (← reg.firstExit)).firstBus) = Except.ok q := by
    rw [Operation.firstExit, exits]
    show (do (← e.exit x).firstBus) = _
    rw [show e.exit x = .ok y from require_ok.mpr hy, ok_bind, Exit.firstBus, buses]
    rfl
  obtain ⟨bus, hbus, -⟩ := we.buses.holds hy q (by rw [buses]; simp)
  have there : ∃ x, view e.buses Bus.exit v.source = some x := by
    have mem : v ∈ e.depsIn i := (mem_filter.mp (hv ▸ mem_singleton_self v)).1
    obtain ⟨b, hb, -⟩ := we.readers.held (dep_in we mem) rfl
    exact ⟨_, view_of _ hb⟩
  obtain ⟨_, hs⟩ := there
  obtain ⟨f, run, rest⟩ := readers_run we hbus hs
  refine ⟨f, ?_, source ▸ rest⟩
  refine ask_bind_ok.mpr ⟨_, captured, ask_bind_ok.mpr ⟨q, out, ask_bind_ok.mpr ⟨bus.dependents, ?_, run⟩⟩⟩
  rw [show e.bus q = .ok bus from require_ok.mpr hbus]
  rfl

theorem Cell.unique (h : Cell e loop c kind inputs q)
    (h' : Cell e loop c kind inputs' q') : inputs = inputs' ∧ q = q' := by
  obtain ⟨o, i, x, y, ho, -, entries, -, ports, exits, hy, buses⟩ := h.shape
  obtain ⟨o', i', x', y', ho', -, entries', -, ports', exits', hy', buses'⟩ := h'.shape
  cases ho.symm.trans ho'
  cases entries.symm.trans entries'
  cases exits.symm.trans exits'
  cases hy.symm.trans hy'
  cases buses.symm.trans buses'
  exact ⟨ports.symm.trans ports', rfl⟩

/-! ## All registers of a loop -/

structure Captures (e : Design) (loop k c : OpId) (o : Operation) : Prop where
  op : e.op? c = some o
  cell : o.kind = .reg → ∃ s q, Cell e loop c .reg [[(.data, s, 0)]] q ∧ Carried e s k

structure Bypassed (e : Design) (loop : OpId) (cs : List OpId) (σ : BusId → BusId) : Prop where
  register : ∀ {c s q}, c ∈ cs → Cell e loop c .reg [[(.data, s, 0)]] q → σ q = s
  other : ∀ {b}, (∀ c ∈ cs, ∀ s q, Cell e loop c .reg [[(.data, s, 0)]] q → b ≠ q) → σ b = b

theorem Bypassed.register_step (we : WellFormed e) (h : Bypassed e loop done σ) (hk : e.op? k = some r)
    (rk : r.kind ≠ .reg) (from_k : ∀ c ∈ done, ∃ o, Captures e loop k c o) (fresh : c ∉ done)
    (cell : Cell e loop c .reg [[(.data, s, 0)]] q) (hs : Carried e s k) :
    σ s = s ∧ Bypassed e loop (done ++ [c]) fun b => past q s (σ b) := by
  -- what comes from `k` is not the output of a register
  have apart : ∀ {b q' : BusId} {c' : OpId} {l : List (List Drive)}, Carried e b k → Cell e loop c' .reg l q' →
    b ≠ q' := by
    rintro b q' c' l hb cell' rfl
    cases hb.unique (cell'.carried we)
    obtain ⟨_, _, _, _, ho', place, -⟩ := cell'.shape
    cases hk.symm.trans ho'
    exact rk (congrArg Prod.fst place)
  refine ⟨h.other fun c' _ s' q' cell' => apart hs cell', ?_, ?_⟩
  · intro c' s' q' hc cell'
    rcases mem_append.mp hc with hc | hc
    · obtain ⟨o', captures⟩ := from_k c' hc
      obtain ⟨_, _, _, _, ho', place, -⟩ := cell'.shape
      cases captures.op.symm.trans ho'
      obtain ⟨s'', q'', cell'', hs''⟩ := captures.cell (congrArg Prod.fst place)
      obtain ⟨same, -⟩ := cell'.unique cell''
      simp only [cons.injEq, Prod.mk.injEq, and_true, true_and] at same
      subst same
      rw [h.register hc cell', past, if_neg (apart hs'' cell)]
    · cases mem_singleton.mp hc
      obtain ⟨same, rfl⟩ := cell'.unique cell
      simp only [cons.injEq, Prod.mk.injEq, and_true, true_and] at same
      subst same
      have stay : σ q' = q' := by
        apply h.other
        rintro c'' hc'' s'' q'' cell'' rfl
        cases (cell''.carried we).unique (cell'.carried we)
        exact fresh hc''
      rw [stay, past, if_pos rfl]
  · intro b hb
    rw [h.other fun c' hc' => hb c' (mem_append_left _ hc'), past, if_neg (hb c (by simp) s q cell)]

theorem bypassAll_reads {e0 : Design} (done cs : List OpId) (we0 : WellFormed e0) (hk : e0.op? k = some r)
    (rk : r.kind ≠ .reg) (once : (done ++ cs).Nodup) (captures : ∀ c ∈ done ++ cs, ∃ o, Captures e0 loop k c o)
    (we : WellFormed e) (h : Reads σ e0 e) (hσ : Bypassed e0 loop done σ) : ∃ f τ, (cs.forM fun c => do
      let o ← ask (·.op c) if o.kind == Kind.reg then bypass o) e = .ok ((), f) ∧ WellFormed f ∧ Reads τ e0 f ∧
        Bypassed e0 loop (done ++ cs) τ := by
  induction cs generalizing e σ done with
  | nil => exact ⟨e, σ, rfl, we, h, by simpa using hσ⟩
  | cons c cs ih =>
    obtain ⟨o, op, cell⟩ := captures c (by simp)
    obtain ⟨b, op'⟩ := h.op op
    have next : ∃ f τ, (do
        let o ← ask (·.op c)
        if o.kind == Kind.reg then bypass o) e = .ok ((), f) ∧ WellFormed f ∧ Reads τ e0 f ∧
          Bypassed e0 loop (done ++ [c]) τ := by
      by_cases reg : o.kind = .reg
      · obtain ⟨s, q, cell, hs⟩ := cell reg
        obtain ⟨stay, hτ⟩ := hσ.register_step we0 hk rk (fun c hc => captures c (mem_append_left _ hc))
          (fun hc => (nodup_append.mp once).2.2 c hc c mem_cons_self rfl) cell hs
        have cell' : Cell e loop c .reg [[(.data, s, 0)]] q := by simpa [stay] using cell.reads h
        obtain ⟨f, run, wf, -, reads⟩ := bypass_reads we op' cell'
        refine ⟨f, _, ask_bind_ok.mpr ⟨_, require_ok.mpr op', ?_⟩, wf, h.trans reads, hτ⟩
        rw [if_pos (by simp [reg])]
        exact run
      · refine ⟨e, σ, ask_bind_ok.mpr ⟨_, require_ok.mpr op', ?_⟩, we, h, ?_, ?_⟩
        · rw [if_neg (by simp [reg])]
          rfl
        · intro c' s q hc cell
          rcases mem_append.mp hc with hc | hc
          · exact hσ.register hc cell
          · cases mem_singleton.mp hc
            obtain ⟨_, _, _, _, ho', place, -⟩ := cell.shape
            cases op.symm.trans ho'
            exact absurd (congrArg Prod.fst place) reg
        · exact fun hb => hσ.other fun c' hc' => hb c' (mem_append_left _ hc')
    obtain ⟨e1, τ, run, we1, h1, hτ⟩ := next
    obtain ⟨f, τ', run', wf, h', hτ'⟩ := ih (done ++ [c]) (by simpa using once) (by simpa using captures) we1 h1 hτ
    exact ⟨f, τ', build_bind_ok.mpr ⟨(), e1, run, run'⟩, wf, h', by simpa using hτ'⟩

theorem removeRegisters_reads {lp : Operation} (we : WellFormed e) (hl : e.op? loop = some lp)
  (hk : e.op? k = some r)
    (rk : r.kind ≠ .reg) (captures : ∀ c ∈ lp.children, ∃ o, Captures e loop k c o) :
    ∃ f τ, removeRegisters loop e = .ok ((), f) ∧ WellFormed f ∧ Reads τ e f ∧ Bypassed e loop lp.children τ := by
  have run : changeOp loop (fun o => { o with flopNeeded := false }) e =
      .ok ((), e.editOp loop fun o => { o with flopNeeded := false }) := by
    rw [changeOp, run_op hl]
    rfl
  have we1 := (keeps_changeOp loop fun _ => by rfl).kept we run
  have reads : Reads id e (e.editOp loop fun o => { o with flopNeeded := false }) :=
    ⟨view_edit_same _ _ fun _ => by rfl, rfl, rfl, rfl, rfl, fun i => by simp [Design.editOp, Design.dep?]⟩
  obtain ⟨f, τ, run', wf, h, hτ⟩ := bypassAll_reads [] lp.children we hk rk
    (by simpa using we.nesting.children.nodup (view_of _ hl)) (by simpa using captures) we1 reads
      ⟨by simp, fun _ => rfl⟩
  exact ⟨f, τ, ask_bind_ok.mpr ⟨lp, require_ok.mpr hl, build_bind_ok.mpr ⟨(), _, run, run'⟩⟩, wf, h, hτ⟩

end Loop

end Datapath
