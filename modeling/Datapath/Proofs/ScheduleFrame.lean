import Datapath.Proofs.Hazards
import Datapath.Proofs.Layout

/-!
# What scheduling leaves alone

Scheduling adds and removes nothing but dependencies that delay, and of what is there it changes
little: the sources of the dependencies that read a register of a loop that does without, and what it
notes. This holds of every run, also of one that ends with an error.
-/

namespace Datapath

open List

variable {d d' e : Design}

/-- The bus is the first output of a register directly inside a loop that needs its registers in the
first design and does without in the second. -/
def Released (d d' : Design) (b : BusId) : Prop :=
  ∃ l lp k reg i x, d.op? l = some lp ∧ lp.kind = .loop ∧ lp.flopNeeded = true ∧
    (∃ lp', d'.op? l = some lp' ∧ lp'.flopNeeded = false) ∧ k ∈ lp.children ∧ d.op? k = some reg ∧ reg.kind = .reg ∧
    reg.exits.head? = some i ∧ d.exit? i = some x ∧ x.buses.head? = some b

/-- The dependency makes an operation start a clock after one that has the same owner. -/
structure IsDelay (d : Design) (v : Dependency) : Prop where
  kind : v.kind = .resource
  clocks : v.minClocks = 1
  siblings : ∃ a p s t, d.busOwner? v.source = some a ∧ d.op? a = some s ∧ d.port? v.target = some p ∧
    p.isGo = true ∧ d.op? p.owner = some t ∧ s.owner = t.owner
  /-- It does not read a register of a loop. -/
  unheld : ¬ IsRegisterOutput d v.source

/-- All that scheduling with the options may change. -/
structure Framed (o : Options) (d d' : Design) : Prop where
  name : d'.name = d.name
  ports : d'.ports = d.ports
  exits : d'.exits = d.exits
  resources : d'.resources = d.resources
  opCount : d'.ops.size = d.ops.size
  ops : ∀ {i p}, d.op? i = some p → ∃ flopNeeded stalls, d'.op? i = some { p with flopNeeded, stalls } ∧
    (flopNeeded = true → p.flopNeeded = true)
  taskCount : d'.tasks.size = d.tasks.size
  tasks : ∀ {i t}, at? d.tasks i = some t → ∃ goSpacing, at? d'.tasks i = some { t with goSpacing }
  entryCount : d'.entries.size = d.entries.size
  entries : ∀ {i e}, d.entryAt? i = some e → ∃ more, d'.entryAt? i = some { e with deps := e.deps ++ more } ∧
    ∀ j ∈ more, (d.deps.size : Int) ≤ j
  busCount : d'.buses.size = d.buses.size
  /-- A bus loses readers only as the output of a register that is removed. -/
  buses : ∀ {i b}, d.bus? i = some b → ∃ dependents, d'.bus? i = some { b with dependents } ∧
    (Released d d' i ∨ ∃ more, dependents = b.dependents ++ more ∧
      ∀ j ∈ more, (d.deps.size : Int) ≤ j ∨ ∃ v, d.dep? j = some v ∧ Released d d' v.source)
  depCount : d.deps.size ≤ d'.deps.size
  deps : ∀ {i v}, d.dep? i = some v → ∃ source, d'.dep? i = some { v with source } ∧
    (source ≠ v.source → Released d d' v.source)
  delays : ∀ {i : Int} {v}, d'.dep? i = some v → d.deps.size ≤ i →
    IsDelay d v ∧ (o.balance = true ∨ o.policy ≠ .fixNone)

theorem Framed.refl (o : Options) (d : Design) : Framed o d d where
  name := rfl
  ports := rfl
  exits := rfl
  resources := rfl
  opCount := rfl
  ops h := ⟨_, _, h, id⟩
  taskCount := rfl
  tasks h := ⟨_, h⟩
  entryCount := rfl
  entries {i e} h := ⟨[], by simpa using h, by simp⟩
  busCount := rfl
  buses h := ⟨_, h, .inr ⟨[], by simp, by simp⟩⟩
  depCount := Nat.le_refl _
  deps h := ⟨_, h, fun ne => absurd rfl ne⟩
  delays {i v} h hi := by
    have := (at?_lt h).2
    omega

theorem Released.register (h : Released d d' b) : IsRegisterOutput d b := by
  obtain ⟨l, lp, k, reg, i, x, hl, hk, -, -, hc, hr, hreg, hi, hx, hb⟩ := h
  exact ⟨l, lp, k, reg, i, x, hl, hk, hc, hr, hreg, hi, hx, hb⟩

theorem Released.mono (h : Released d e b)
    (ops : ∀ {l p}, e.op? l = some p → p.flopNeeded = false → ∃ q, d'.op? l = some q ∧ q.flopNeeded = false) :
    Released d d' b := by
  obtain ⟨l, lp, k, reg, i, x, hl, hk, hf, ⟨lp', hl', hf'⟩, rest⟩ := h
  exact ⟨l, lp, k, reg, i, x, hl, hk, hf, ops hl' hf', rest⟩

section
variable (h : Framed o d e)
include h

theorem Framed.keep (name : d'.name = e.name) (ports : d'.ports = e.ports) (exits : d'.exits = e.exits)
    (resources : d'.resources = e.resources) (entries : d'.entries = e.entries) (buses : d'.buses = e.buses)
    (deps : d'.deps = e.deps) (opCount : d'.ops.size = e.ops.size)
    (ops : ∀ {i p}, e.op? i = some p → ∃ flopNeeded stalls, d'.op? i = some { p with flopNeeded, stalls } ∧
      (flopNeeded = true → p.flopNeeded = true))
    (taskCount : d'.tasks.size = e.tasks.size)
    (tasks : ∀ {i t}, at? e.tasks i = some t → ∃ goSpacing, at? d'.tasks i = some { t with goSpacing }) :
    Framed o d d' := by
  have released : ∀ {b}, Released d e b → Released d d' b := by
    refine fun hb => hb.mono fun {l p} hl hf => ?_
    obtain ⟨f, s, hl', mono⟩ := ops hl
    refine ⟨_, hl', ?_⟩
    cases f with
    | false => rfl
    | true => exact absurd (mono rfl) (by simp [hf])
  exact
    { name := name.trans h.name
      ports := ports.trans h.ports
      exits := exits.trans h.exits
      resources := resources.trans h.resources
      opCount := opCount.trans h.opCount
      ops := by
        intro i p hp
        obtain ⟨f, s, hp', mono⟩ := h.ops hp
        obtain ⟨f', s', hp'', mono'⟩ := ops hp'
        exact ⟨f', s', hp'', fun e => mono (mono' e)⟩
      taskCount := taskCount.trans h.taskCount
      tasks := by
        intro i t ht
        obtain ⟨g, ht'⟩ := h.tasks ht
        obtain ⟨g', ht''⟩ := tasks ht'
        exact ⟨g', ht''⟩
      entryCount := by rw [entries, h.entryCount]
      entries := by
        unfold Design.entryAt?
        rw [entries]
        exact h.entries
      busCount := by rw [buses, h.busCount]
      buses := by
        intro i b hb
        obtain ⟨ds, hb', frame⟩ := h.buses hb
        refine ⟨ds, by unfold Design.bus?; rw [buses]; exact hb', ?_⟩
        refine frame.imp released fun ⟨more, hm, hj⟩ => ⟨more, hm, fun j hj' => ?_⟩
        exact (hj j hj').imp_right fun ⟨v, hv, hr⟩ => ⟨v, hv, released hr⟩
      depCount := by rw [deps]; exact h.depCount
      deps := by
        intro i v hv
        obtain ⟨s, hs, frame⟩ := h.deps hv
        exact ⟨s, by unfold Design.dep?; rw [deps]; exact hs, fun ne => released (frame ne)⟩
      delays := by
        unfold Design.dep?
        rw [deps]
        exact h.delays }

/-! ## Steps of the passes -/

theorem Framed.addDelay (hv : ∀ id, IsDelay d { id, kind := .resource, entry, source, target, minClocks := 1 })
    (asked : o.balance = true ∨ o.policy ≠ .fixNone)
    (ha : addDependency entry .resource source target 1 e = .ok (i, d')) : Framed o d d' := by
  obtain ⟨rfl, -, n, p, b, hn, hp, hb, hown, rfl⟩ := addDependency_ok ha
  have new : (d.deps.size : Int) ≤ e.deps.size := Int.ofNat_le.mpr h.depCount
  refine { h with
    entryCount := ?_
    entries := ?_
    busCount := ?_
    buses := ?_
    depCount := ?_
    deps := ?_
    delays := ?_ }
  · simpa only [size_editAt] using h.entryCount
  · intro k m hm
    obtain ⟨more, hm', hj⟩ := h.entries hm
    simp only [Design.entryAt?, at?_editAt]
    split
    · rw [show at? e.entries k = _ from hm']
      refine ⟨more ++ [(e.deps.size : Int)], by simp, fun j hj' => ?_⟩
      rcases mem_append.mp hj' with hj' | hj'
      · exact hj j hj'
      · rw [mem_singleton.mp hj']
        exact new
    · exact ⟨more, hm', hj⟩
  · simpa only [size_editAt] using h.busCount
  · intro k c hc
    obtain ⟨ds, hc', frame⟩ := h.buses hc
    simp only [Design.bus?, at?_editAt]
    split
    · rw [show at? e.buses k = _ from hc']
      refine ⟨ds ++ [(e.deps.size : Int)], by simp, frame.imp_right ?_⟩
      rintro ⟨more, hm, hj⟩
      refine ⟨more ++ [(e.deps.size : Int)], by rw [hm, append_assoc], fun j hj' => ?_⟩
      rcases mem_append.mp hj' with hj' | hj'
      · exact hj j hj'
      · rw [mem_singleton.mp hj']
        exact .inl new
    · exact ⟨ds, hc', frame⟩
  · simp only [Array.size_push]
    exact Nat.le_succ_of_le h.depCount
  · intro k v hv
    obtain ⟨s, hs, frame⟩ := h.deps hv
    exact ⟨s, at?_push_of _ hs, frame⟩
  · intro k v hk hle
    simp only [Design.dep?, at?_push] at hk
    split at hk
    · cases hk
      exact ⟨hv _, asked⟩
    · exact h.delays hk hle

theorem Framed.relocate (hw : e.dep? i = some w) (released : Released d e w.source)
    (hr : Datapath.relocate i s e = .ok (u, d')) : Framed o d d' := by
  obtain ⟨v, b, c, hv, hb, hc, rfl⟩ := relocate_ok hr
  rw [show at? e.deps i = some w from hw] at hv
  cases hv
  -- where it started in the first place
  have from_released : ∀ {v}, d.dep? i = some v → Released d e v.source := by
    intro v hv
    obtain ⟨s', hs', frame⟩ := h.deps hv
    rw [hw] at hs'
    cases hs'
    by_cases e' : s' = v.source
    · rw [← e']
      exact released
    · exact frame e'
  refine { h with
    busCount := ?_
    buses := ?_
    depCount := ?_
    deps := ?_
    delays := ?_ }
  · simpa only [size_editAt] using h.busCount
  · intro k x hx
    obtain ⟨ds, hx', frame⟩ := h.buses hx
    simp only [Design.bus?, at?_editAt]
    by_cases hk : k = w.source
    · subst hk
      rw [if_pos rfl, show at? e.buses w.source = _ from hx']
      split
      · exact ⟨_, rfl, .inl released⟩
      · exact ⟨_, rfl, .inl released⟩
    · rw [show at? e.buses k = _ from hx']
      split
      · refine ⟨ds ++ [i], rfl, frame.imp_right fun ⟨more, hm, hj⟩ => ?_⟩
        refine ⟨more ++ [i], by rw [hm, append_assoc], fun j hj' => ?_⟩
        rcases mem_append.mp hj' with hj' | hj'
        · exact hj j hj'
        · rw [mem_singleton.mp hj']
          by_cases old : (d.deps.size : Int) ≤ i
          · exact .inl old
          · obtain ⟨v, hv⟩ := at?_of_lt (at?_lt hw).1 (Int.not_le.mp old)
            exact .inr ⟨v, hv, from_released hv⟩
      · exact ⟨ds, rfl, frame⟩
  · simpa only [size_editAt] using h.depCount
  · intro k v hv
    obtain ⟨s', hs', frame⟩ := h.deps hv
    simp only [Design.dep?, at?_editAt]
    split
    · next hk =>
      rw [show at? e.deps k = _ from hs']
      exact ⟨s, rfl, fun _ => from_released (hk ▸ hv)⟩
    · exact ⟨s', hs', frame⟩
  · intro k v hk hle
    simp only [Design.dep?, at?_editAt] at hk
    split at hk
    · next hki =>
      exact absurd released.register (h.delays hw (hki ▸ hle)).1.unheld
    · exact h.delays hk hle

theorem Framed.changeOp
    (hf : ∀ p, ∃ flopNeeded stalls, f p = { p with flopNeeded, stalls } ∧ (flopNeeded = true → p.flopNeeded = true))
    (hc : Datapath.changeOp k f e = .ok (u, d')) : Framed o d d' := by
  obtain ⟨-, rfl⟩ := changeOp_ok hc
  refine h.keep rfl rfl rfl rfl rfl rfl rfl (size_editAt ..) (fun {i p} hp => ?_) rfl fun ht => ⟨_, ht⟩
  simp only [Design.op?, at?_editAt]
  rw [show at? e.ops i = _ from hp]
  split
  · obtain ⟨flop, stalls, hfp, mono⟩ := hf p
    exact ⟨flop, stalls, congrArg some hfp, mono⟩
  · exact ⟨_, _, rfl, id⟩

end

/-! ## Computations -/

def Stays (o : Options) (d₀ d d' : Design) : Prop := WellFormed d ∧ Framed o d₀ d → WellFormed d' ∧ Framed o d₀ d'

section
variable {α β : Type} {o : Options} {d0 : Design}

theorem Stays.chains (o : Options) (d0 : Design) : Chains (Stays o d0) := ⟨fun _ h => h, fun h h' hd => h' (h hd)⟩

theorem Stays.look {q : Design → Except Fault α} {f : α → Pass β}
    (hf : ∀ {d a}, WellFormed d → Framed o d0 d → q d = .ok a → Along (Stays o d0) (f a).run) :
    Along (Stays o d0) (Pass.look q >>= f).run := by
  constructor
  intro d r d' h hd
  obtain ⟨a, ha, h⟩ := look_bind_run.mp h
  exact (hf hd.1 hd.2 ha).run h hd

theorem Stays.query {q : Design → Query α} {f : α → Pass β}
    (hf : ∀ {d a}, WellFormed d → Framed o d0 d → (q d).run = .ok (.ok a) → Along (Stays o d0) (f a).run) :
    Along (Stays o d0) (Pass.query q >>= f).run := by
  constructor
  intro d r d' h hd
  rcases passQuery_bind_run.mp h with ⟨e, -, -, rfl⟩ | ⟨a, ha, h⟩
  · exact hd
  · exact (hf hd.1 hd.2 ha).run h hd

theorem Stays.walk_look {q : Design → Except Fault α} {f : α → Branch.Walk β}
    (hf : ∀ {d a}, WellFormed d → Framed o d0 d → q d = .ok a → Walks (Stays o d0) (f a)) :
    Walks (Stays o d0) (liftM (Pass.look q) >>= f) := by
  constructor
  intro records
  constructor
  intro d r d' h hd
  rcases step_bind_run.mp h with ⟨e, hs, -⟩ | ⟨⟨a, rs⟩, u, hs, h⟩
  · obtain ⟨a, -, hs⟩ := look_bind_run.mp hs
    cases hs
  · obtain ⟨b, hb, hs⟩ := look_bind_run.mp hs
    cases hs
    exact ((hf hd.1 hd.2 hb).run records).run h hd

theorem Framed.exitsOf (h : Framed o d0 d) : d.exitsOf = d0.exitsOf := exitsOf_congr h.exits

theorem Framed.mainExit? (h : Framed o d0 d) : d.mainExit? = d0.mainExit? := mainExit?_congr h.exits

theorem Framed.opBack (h : Framed o d0 d) (hp : d.op? i = some p) :
    ∃ p0 flopNeeded stalls, d0.op? i = some p0 ∧ p = { p0 with flopNeeded, stalls } ∧
      (flopNeeded = true → p0.flopNeeded = true) := by
  obtain ⟨lo, hi⟩ := at?_lt hp
  obtain ⟨p0, hp0⟩ : ∃ p0, d0.op? i = some p0 := at?_of_lt lo (h.opCount ▸ hi)
  obtain ⟨f, s, hp', mono⟩ := h.ops hp0
  rw [hp] at hp'
  exact ⟨p0, f, s, hp0, Option.some.inj hp', mono⟩

/-! ## Branches -/

theorem Carried.unheld (hd : WellFormed d) {o : Operation} (h : Carried d b op)
    (ho : d.op? op = some o) (hk : o.kind ≠ .reg) : ¬ IsRegisterOutput d b := by
  intro hr
  obtain ⟨k, reg, hb, hreg, hkind⟩ := hr.owner hd
  rw [h.busOwner?] at hb
  cases hb
  rw [ho] at hreg
  cases hreg
  exact hk hkind

section
variable (hd : WellFormed d0) (hl : Laid d0)
include hd hl

theorem IsDelay.of_front (hm : d0.op? mod = some m) (hk : m.kind.isModule = true) (hp : d0.port? m.go = some p)
    (hc : d0.op? c = some q) (hq : q.owner = mod) (entry : EntryId) (id : DepId) :
    IsDelay d0 { id, kind := .resource, entry, source := p.peer, target := q.go, minClocks := 1 } := by
  obtain ⟨b, ib, hb, carried, hib⟩ := hl.front hm hk
  obtain ⟨s, hs, place⟩ := view_some.mp hib
  rw [view_of _ hp] at hb
  cases hb
  obtain ⟨t, ht, face⟩ := view_some.mp (hl.go hc)
  simp only [Port.face, Prod.mk.injEq] at face
  refine ⟨rfl, rfl, ⟨ib, t, s, q, carried.busOwner?, hs, ht, face.2, face.1 ▸ hc, ?_⟩, ?_⟩
  · rw [hq]
    exact congrArg Prod.snd place
  · refine carried.unheld hd hs ?_
    rw [show s.kind = .inBuf from congrArg Prod.fst place]
    decide

theorem stays_delay (asked : o.balance = true)
    (hm : ∀ m, d0.op? mod = some m → m.kind.isModule = true) : Along (Stays o d0) (Branch.delay mod).run := by
  have c := Stays.chains o d0
  refine Stays.look fun {d m} w h ho => ?_
  obtain ⟨m0, f, s, hm0, rfl, -⟩ := h.opBack (op_ok ho)
  split
  · next x hx =>
    refine Stays.look fun {d go} w h hgo => Stays.look fun {d ob} w h' hob => c.passBind (c.look _) fun deps => ?_
    have hgo : d0.port? m0.go = some go := by
      have := port_ok hgo
      rwa [h.ports] at this
    obtain ⟨y, hy, hob⟩ := bind_ok.mp hob
    have hy : d0.exit? x = some y := by
      have := exit_ok hy
      rwa [h'.exits] at this
    obtain ⟨q, f', s', hq, rfl, -⟩ := h'.opBack (op_ok hob)
    have owner : q.owner = mod := by
      obtain ⟨y', hy', own⟩ := hd.exits.holds hm0 x (hx ▸ mem_singleton.mpr rfl)
      rw [show at? d0.exits x = some y from hy] at hy'
      cases hy'
      have := hd.outBufs hy (fun e => by rw [e] at hq; cases hq)
      rw [view_of _ hq] at this
      rw [show q.owner = y.owner from congrArg Prod.snd (Option.some.inj this)]
      exact Option.some.inj own
    split
    · refine Stays.look fun {d entry} w h _ => c.passBind (c.ofBuild ⟨fun ha hd' => ?_⟩) fun _ => c.passPure _
      refine ⟨hd'.1.addDependency ha, hd'.2.addDelay (fun id => ?_) (.inl asked) ha⟩
      exact .of_front hd hl hm0 (hm m0 hm0) hgo hq owner entry id
    · exact c.passPure _
  · exact c.query _

theorem stays_balance (hs : Shaped d0) : Along (Stays o d0) (Branch.balance o).run := by
  refine Judges.balance (Q := fun op m => ∃ m0 flopNeeded stalls, d0.op? op = some m0 ∧
    m = { m0 with flopNeeded, stalls })
    ⟨Stays.chains o d0, fun hf => Stays.walk_look fun {d m} _ h ho => ?_, ?_⟩
  · obtain ⟨m0, f, s, hm0, hm, -⟩ := h.opBack (op_ok ho)
    exact hf m ⟨m0, f, s, hm0, hm⟩
  rintro op b b' asked ⟨m0, f, s, hm0, rfl⟩ hk ⟨m1, f', s', hm1, rfl⟩ mod hmod
  cases hm0.symm.trans hm1
  refine stays_delay hd hl asked fun m hm => ?_
  -- what is delayed is the branch or one of its sides
  have side : d0.place? mod = some (.block, op) → m.kind.isModule = true := by
    intro hi
    unfold Design.place? at hi
    rw [view_of _ hm] at hi
    rw [show m.kind = .block from congrArg Prod.fst (Option.some.inj hi)]
    rfl
  have shape := (hs.ops (view_of Operation.stem hm0)).forks hk
  simp only [mem_cons, not_mem_nil, or_false] at hmod
  rcases hmod with rfl | rfl | rfl
  · rcases shape with ⟨-, et, -⟩ | forks
    · rw [show m0.trueSide = absent from et] at hm
      cases hm
    · exact side forks.trueSide
  · rcases shape with ⟨-, -, ef⟩ | forks
    · rw [show m0.falseSide = absent from ef] at hm
      cases hm
    · exact side forks.falseSide
  · cases hm0.symm.trans hm
    rw [show m0.kind = .branch from hk]
    rfl

end

/-! ## Loop registers -/

section
variable (we : WellFormed e) (he : Framed o d0 e)
include we he

theorem relocateAll_framed {readers : List DepId} {u : PUnit} (released : Released d0 e out) (once : readers.Nodup)
    (hr : ∀ i ∈ readers, ∃ w, e.dep? i = some w ∧ w.source = out)
    (h : readers.forM (relocate · s) e = .ok (u, d')) : WellFormed d' ∧ Framed o d0 d' ∧ d'.ops = e.ops := by
  induction readers generalizing e with
  | nil =>
    cases h
    exact ⟨we, he, rfl⟩
  | cons i readers ih =>
    obtain ⟨_, f, hi, h⟩ := build_bind_ok.mp h
    rw [forall_mem_cons] at hr
    rw [nodup_cons] at once
    obtain ⟨⟨w, hw, rfl⟩, others⟩ := hr
    have hf := he.relocate hw released hi
    have wf := we.relocate hi
    obtain ⟨v, b, c, -, -, -, rfl⟩ := relocate_ok hi
    have rest := ih wf hf released once.2 (fun j hj => ?_) h
    · exact rest
    · have ne : j ≠ i := fun e => once.1 (e ▸ hj)
      rw [Design.dep?, at?_edit_ne ne]
      exact others j hj

section
variable {lp : Operation} (hl : d0.op? l = some lp) (hk : lp.kind = .loop) (need : lp.flopNeeded = true)
  (gone : ∃ lp', e.op? l = some lp' ∧ lp'.flopNeeded = false)
include hl hk need gone

theorem bypass_framed (hc : c ∈ lp.children) (hr : e.op? c = some reg) (hreg : reg.kind = .reg)
    (h : Loop.bypass reg e = .ok (u, d')) : WellFormed d' ∧ Framed o d0 d' ∧ d'.ops = e.ops := by
  obtain ⟨reg0, f, s, hreg0, rfl, -⟩ := he.opBack hr
  obtain ⟨deps, -, h⟩ := ask_bind_ok.mp h
  split at h
  · obtain ⟨out, hout, h⟩ := ask_bind_ok.mp h
    obtain ⟨readers, hreaders, h⟩ := ask_bind_ok.mp h
    simp only [bind_ok] at hout hreaders
    obtain ⟨i, hi, x, hx, hout⟩ := hout
    obtain ⟨b, hb, hpure⟩ := hreaders
    cases hpure
    have hx : d0.exit? i = some x := by
      have := exit_ok hx
      rwa [he.exits] at this
    have released : Released d0 e out :=
      ⟨l, lp, c, reg0, i, x, hl, hk, need, gone, hc, hreg0, hreg, require_ok.mp hi, hx, require_ok.mp hout⟩
    refine relocateAll_framed we he released (we.readers.nodup (view_of _ (bus_ok hb))) (fun j hj => ?_) h
    obtain ⟨w, hw, hs⟩ := we.readers.holds (bus_ok hb) j hj
    exact ⟨w, hw, Option.some.inj hs⟩
  · cases h
    exact ⟨we, he, rfl⟩

theorem bypassAll_framed {cs : List OpId} (hcs : ∀ c ∈ cs, c ∈ lp.children)
    {u : PUnit} (h : (cs.forM fun c => do
      let o ← ask (·.op c)
      if o.kind == Kind.reg then Loop.bypass o) e = .ok (u, d')) : WellFormed d' ∧ Framed o d0 d' := by
  induction cs generalizing e with
  | nil =>
    cases h
    exact ⟨we, he⟩
  | cons c cs ih =>
    rw [forall_mem_cons] at hcs
    obtain ⟨_, f, hc, rest⟩ := build_bind_ok.mp h
    obtain ⟨p, hp, hb⟩ := ask_bind_ok.mp hc
    have step : WellFormed f ∧ Framed o d0 f ∧ f.ops = e.ops := by
      split at hb
      · next hreg => exact bypass_framed we he hl hk need gone hcs.1 (op_ok hp) (beq_iff_eq.mp hreg) hb
      · cases hb
        exact ⟨we, he, rfl⟩
    refine ih step.1 step.2.1 ?_ hcs.2 rest
    unfold Design.op?
    rw [step.2.2]
    exact gone

end

end

theorem stays_removeRegisters {lp : Operation} (hl : d0.op? l = some lp) (hk : lp.kind = .loop)
    (need : lp.flopNeeded = true) : Along (Stays o d0) (Loop.removeRegisters l) := by
  constructor
  intro d u d' h hd
  obtain ⟨lp', hlp', h⟩ := ask_bind_ok.mp h
  obtain ⟨_, e, he, h⟩ := build_bind_ok.mp h
  obtain ⟨lp0, f, s, hlp0, rfl, -⟩ := hd.2.opBack (op_ok hlp')
  rw [hl] at hlp0
  cases hlp0
  have kept : Keeps 0 (changeOp l fun o => { o with flopNeeded := false }) := keeps_changeOp l fun _ => rfl
  have we := (kept.run hd.1 (Int.natCast_nonneg _) he).1
  have fe := hd.2.changeOp (fun p => ⟨false, p.stalls, rfl, nofun⟩) he
  refine bypassAll_framed we fe hl hk need ⟨{ lp with flopNeeded := false, stalls := s }, ?_, rfl⟩ (fun _ hc => hc)
    h
  obtain ⟨-, rfl⟩ := changeOp_ok he
  rw [Design.op?, at?_editAt, if_pos rfl, op_ok hlp']
  rfl

/-! ### Delays -/

def IsOwned (d : Design) (a : OpId) : Prop :=
  ∀ q, d.op? a = some q → ∃ m, d.op? q.owner = some m ∧ m.kind.isModule = true

theorem done_unheld (hd : WellFormed d0) (hx : d0.exit? i = some x) : ¬ IsRegisterOutput d0 x.done := by
  rintro ⟨-, -, k, reg, j, y, -, -, -, -, -, -, hy, hb⟩
  obtain ⟨b, hb1, own1⟩ := hd.buses.holds hx x.done mem_cons_self
  obtain ⟨b', hb2, own2⟩ := hd.buses.holds hy x.done (mem_cons_of_mem _ (mem_of_head? hb))
  rw [hb1] at hb2
  cases hb2
  rw [own1] at own2
  cases own2
  rw [hx] at hy
  cases hy
  have once := hd.buses.nodup (view_of _ hx)
  exact (nodup_cons.mp once).1 (mem_of_head? hb)

theorem IsDelay.of_delays (hd : WellFormed d0) (hl : Laid d0) (ha : IsOwned d0 a) (kind : v.kind = .resource)
    (clocks : v.minClocks = 1) (h : Loop.Delays d0 heads a v) : IsDelay d0 v := by
  obtain ⟨id, _, entry, source, target, _⟩ := v
  cases kind
  cases clocks
  cases h with
  | start hq hm hg _ source target =>
    cases source
    cases target
    obtain ⟨m, hm', mod⟩ := ha _ hq
    cases hm.symm.trans hm'
    exact .of_front hd hl hm mod hg hq rfl entry id
  | finish hq hm hx hy ht _ source target =>
    cases source
    cases target
    obtain ⟨t, ht', -, own⟩ := hd.peer hm (mainExit?_mem hx) (ne_absent ht)
    cases ht.symm.trans ht'
    obtain ⟨rfl, hy⟩ := hd.exitsOf hq (mainExit?_mem hy)
    obtain ⟨p, hp, face⟩ := view_some.mp (hl.go ht)
    simp only [Port.face, Prod.mk.injEq] at face
    have carried := carried_exit hd hy mem_cons_self
    exact ⟨rfl, rfl, ⟨_, p, _, _, carried.busOwner?, hq, hp, face.2, face.1 ▸ ht, own.symm⟩, done_unheld hd hy⟩

theorem Framed.delaysBack (h : Framed o d0 d) (hv : Loop.Delays d heads a v) : Loop.Delays d0 heads a v := by
  cases hv with
  | start hq hm hg entry source target =>
    obtain ⟨q, _, _, hq0, rfl, -⟩ := h.opBack hq
    obtain ⟨m, _, _, hm0, rfl, -⟩ := h.opBack hm
    rw [Design.port?, h.ports] at hg
    exact .start hq0 hm0 hg entry source target
  | finish hq hm hx hy ht entry source target =>
    obtain ⟨q, _, _, hq0, rfl, -⟩ := h.opBack hq
    obtain ⟨m, _, _, hm0, rfl, -⟩ := h.opBack hm
    obtain ⟨t, _, _, ht0, rfl, -⟩ := h.opBack ht
    rw [h.mainExit?] at hx hy
    exact .finish hq0 hm0 hx hy ht0 entry source target

section
variable (hd : WellFormed d0) (hl : Laid d0) (asked : o.policy ≠ .fixNone)
include hd hl asked

theorem stays_delayOne (heads : Bool)
    (ha : IsOwned d0 a) : Along (Stays o d0) (if heads then Loop.delayFirst a else Loop.delayLast a).run := by
  refine ⟨fun ran ⟨w, h⟩ => ?_⟩
  rcases Loop.delay_outcome w ran with ⟨-, v, kind, clocks, delays, added⟩ | ⟨rfl, -⟩
  · have delay := IsDelay.of_delays hd hl ha kind clocks (h.delaysBack delays)
    exact ⟨w.addDependency added,
      h.addDelay (fun id => ⟨rfl, rfl, delay.siblings, delay.unheld⟩) (.inr asked) added⟩
  · exact ⟨w, h⟩

theorem stays_delayAll (hc : ∀ a b, corr a = some b → b = a) {count : Nat} (ha : ∀ a ∈ accesses, IsOwned d0 a) :
    Along (Stays o d0) (Loop.delayAll heads corr count accesses) := by
  have c := Stays.chains o d0
  induction accesses generalizing count with
  | nil => exact c.pure _
  | cons a rest ih =>
    rw [forall_mem_cons] at ha
    unfold Loop.delayAll
    split
    · exact c.ask_bind fun _ => c.pure _
    · next live hlive =>
      obtain rfl := hc a live hlive
      refine c.bind (stays_delayOne hd hl asked heads ha.1) fun r => ?_
      cases r with
      | error e => exact c.pure _
      | ok u => exact ih ha.2

end

/-! ### All loops -/

theorem Framed.nested (h : Framed o d0 d) (hn : Nested d mod c) : Nested d0 mod c := by
  induction hn with
  | child hm hc =>
    obtain ⟨p, f, s, hp, rfl, -⟩ := h.opBack hm
    exact .child hp hc
  | deeper _ ho hk hc ih =>
    obtain ⟨p, f, s, hp, rfl, -⟩ := h.opBack ho
    exact .deeper ih hp hk hc

section
variable (hd : WellFormed d0) (hl : Laid d0)
include hd hl

theorem analyze_owned (h : Framed o d0 d) (hr : (Loop.analyze d body failFast).run = .ok (.ok report))
    (ha : report.analyzable = true) {cs : Loop.ConflictSet} : ∀ c ∈ report.all, IsOwned d0 (cs.side c) := by
  obtain ⟨block, ended, found, walks, same, -⟩ := Loop.analyze_walks hr ha
  intro c hc q hq
  obtain ⟨bd, hbd, hloop, ne, rfl⟩ := walks.body
  obtain ⟨bd0, f, s, hbd0, rfl, -⟩ := h.opBack hbd
  have nested : Nested d0 _ (cs.side c) := h.nested (walks.side_nested same hc)
  rcases nested.owner hd hq with e | ⟨-, p, hp, hk⟩
  · obtain ⟨m, hm, place⟩ := view_some.mp (hl.body hbd0 hloop ne)
    refine ⟨m, e ▸ hm, ?_⟩
    rw [show m.kind = .block from congrArg Prod.fst place]
    rfl
  · refine ⟨p, hp, ?_⟩
    simp only [Kind.isInlineModule, Bool.and_eq_true] at hk
    exact hk.1

theorem stays_removeFrom {lp : Operation} (hlp : d0.op? l = some lp) (hk : lp.kind = .loop)
  (need : lp.flopNeeded = true) :
    Along (Stays o d0) (Loop.removeFrom o l).run := by
  have c := Stays.chains o d0
  refine c.passBind (c.look _) fun lp' => Stays.query fun {d report} w h hr => ?_
  unfold Loop.decideOn
  split
  · exact c.passPure _
  next hneed =>
  split
  · exact c.passBind (c.ofBuild (stays_removeRegisters hlp hk need)) fun _ => c.passPure _
  split
  · exact c.passPure _
  refine Stays.query fun {_ cs} _ _ hcs => ?_
  split
  · exact c.passPure _
  next hres =>
  have hcs : Loop.ConflictSet.make o.policy report.all = .ok cs := Except.ok.inj hcs
  obtain ⟨econf, epol, -⟩ := Loop.ConflictSet.make_conflicts hcs
  have asked : o.policy ≠ .fixNone := by
    intro e
    rw [e] at epol
    simp [Loop.ConflictSet.resolves, epol] at hres
  have owned : ∀ a ∈ cs.delayed, IsOwned d0 a := by
    intro a ha
    unfold Loop.ConflictSet.delayed at ha
    split at ha
    · obtain ⟨f, hf, rfl⟩ := mem_map.mp (mem_eraseDups.mp ha)
      exact analyze_owned hd hl h hr (by simp_all) f (econf ▸ hf)
    · cases ha
  refine c.passBind c.get fun e => c.passBind (c.ofBuild (stays_delayAll hd hl asked ?_ owned)) fun resolved => ?_
  · intro a b hab
    obtain ⟨_, -, rfl⟩ := Option.map_eq_some_iff.mp hab
    rfl
  · split
    · exact c.throw _
    · exact c.passBind (c.ofBuild (stays_removeRegisters hlp hk need)) fun _ => c.passPure _

theorem stays_removeFlops : Along (Stays o d0) (Loop.removeFlops o).run := by
  have c := Stays.chains o d0
  unfold Loop.removeFlops
  split
  · exact c.passPure _
  refine c.passBind c.get fun _ => c.passClosed.foldlM (fun r id => Stays.look fun {d carries} w h hc => ?_) _ _
  split
  · next yes =>
    subst yes
    obtain ⟨lp, hlp, hk, need⟩ : ∃ lp, d.op? id = some lp ∧ lp.kind = .loop ∧ lp.flopNeeded = true := by
      obtain ⟨lp, hlp, hk⟩ := Loop.carriesFlop_loop hc
      refine ⟨lp, hlp, hk, ?_⟩
      obtain ⟨p, hp, hc⟩ := bind_ok.mp hc
      rw [show d.op? id = some p from op_ok hp] at hlp
      cases hlp
      split at hc
      · cases hc
      · simp_all
    obtain ⟨lp0, f, s, hlp0, rfl, mono⟩ := h.opBack hlp
    refine c.passBind (stays_removeFrom hd hl hlp0 hk (mono need)) fun count => ?_
    split
    · exact c.passPure _
    · exact c.passPure _
  · exact c.passPure _

end

/-! ## Spacing and stalls -/

theorem Framed.spaces (o : Options) (d0 : Design) : Spaces fun d d' => Framed o d0 d → Framed o d0 d' where
  refl _ h := h
  trans h h' hd := h' (h hd)
  space := by
    intro index goSpacing
    constructor
    intro d u d' h hd
    obtain ⟨t, -, h⟩ := bind_ok.mp h
    cases h
    refine hd.keep rfl rfl rfl rfl rfl rfl rfl rfl (fun hp => ⟨_, _, hp, id⟩) (size_editAt ..) fun {i s} hs => ?_
    simp only [at?_editAt]
    split
    · exact ⟨goSpacing, by rw [hs]; rfl⟩
    · exact ⟨_, hs⟩

theorem Framed.tracks (o : Options) (d0 : Design) : Tracks fun d d' => Framed o d0 d → Framed o d0 d' := by
  refine .of_regions ⟨fun _ h => h, fun h h' hd => h' (h hd)⟩ ⟨fun h hd => ?_⟩ (fun hd => ?_) fun {d} hd => ?_
  · exact hd.changeOp (fun p => ⟨p.flopNeeded, _, rfl, id⟩) h
  · exact hd.keep rfl rfl rfl rfl rfl rfl rfl rfl (fun hp => ⟨_, _, hp, id⟩) rfl fun ht => ⟨_, ht⟩
  · refine hd.keep rfl rfl rfl rfl rfl rfl rfl (Array.size_map ..) (fun {i p} hp => ?_) rfl fun ht => ⟨_, ht⟩
    refine ⟨p.flopNeeded, [], ?_, id⟩
    rw [Design.op?, Region.reset, at?_map, show at? d.ops i = some p from hp]
    rfl

end

theorem stays_schedule (hd : WellFormed d) (hl : Laid d) (hs : Shaped d) (o : Options) :
    Along (Stays o d) (schedule o).run := by
  have c := Stays.chains o d
  have analyze : Along (Stays o d) (Throughput.analyze).run :=
    ⟨fun h hd => ⟨(Throughput.keeps_analyze.run hd.1 (Int.le_refl _) h).1, (Framed.spaces o d).analyze.run h hd.2⟩⟩
  have track : Along (Stays o d) (Region.trackStalls).run :=
    ⟨fun h hd => ⟨(Region.keeps_trackStalls.run hd.1 (Int.le_refl _) h).1,
      (Framed.tracks o d).trackStalls.run h hd.2⟩⟩
  refine c.passBind (c.within _ (stays_balance hd hl hs)) fun _ => ?_
  refine c.passBind (c.within _ (stays_removeFlops hd hl)) fun _ => ?_
  refine c.passBind (c.within _ analyze) fun _ => c.passBind (c.within _ track) fun _ => c.passPure _

/-- A run over a design that can be built, whether it succeeds or ends with an error, keeps the links of
the design right and changes it only within the frame. Without balancing and under the policy that
fixes nothing it adds no dependency. -/
theorem schedule_frame {d' : Design} {o : Options} {r : Except Error Unit} (hd : Built d)
    (h : (schedule o).run d = .ok (r, d')) :
    Framed o d d' ∧ WellFormed d' ∧ (o.policy = .fixNone → o.balance = false → d'.deps.size = d.deps.size) := by
  obtain ⟨wf, frame⟩ := (stays_schedule hd.wellFormed hd.laid hd.shaped o).run h ⟨hd.wellFormed, .refl o d⟩
  refine ⟨frame, wf, fun none off => Nat.le_antisymm (Nat.not_lt.mp fun more => ?_) frame.depCount⟩
  obtain ⟨v, hv⟩ : ∃ v, d'.dep? d.deps.size = some v := at?_of_lt (Int.natCast_nonneg _) (Int.ofNat_lt.mpr more)
  rcases (frame.delays hv (Int.le_refl _)).2 with on | some
  · rw [off] at on
    cases on
  · exact some none

def pipelinedCommands : List Command :=
  [.newResource .memory "m" false, .newTask "t" 1 1 .one true, .newLoop 3 "l" 1 1 .one,
   .newAccess .memoryRead 17 "r" 0 .one, .newAccess .memoryWrite 17 "w" 0 .one, .setLatency 17 .one]

/-- Both accesses are delayed and the register that restarts the body is bypassed. -/
theorem loop_schedule_frame : ∃ d d', runAll pipelinedCommands { name := "x" } = some d ∧
    (schedule { policy := .firstAlways }).run d = .ok (.ok (), d') ∧ d.deps.size = 16 ∧ d'.deps.size = 18 ∧
    Framed { policy := .firstAlways } d d' ∧ WellFormed d' := by
  obtain ⟨d, hd, ⟨⟩, d', ran, size, size'⟩ : ∃ d, runAll pipelinedCommands { name := "x" } = some d ∧
      ∃ u d', (schedule { policy := .firstAlways }).run d = .ok (.ok u, d') ∧ d.deps.size = 16 ∧
      d'.deps.size = 18 := by
    decide +kernel
  obtain ⟨frame, wf, -⟩ := schedule_frame ((Built.empty "x").runAll hd) ran
  exact ⟨d, d', hd, ran, size, size', frame, wf⟩

end Datapath
