import Datapath.Proofs.Enclosure
import Datapath.Proofs.Rescheduling

/-!
# The signals of regions

While the modules of a task are tracked, regions stay where they are and only gain signals. In a module in
which nothing of a region has been met so far, the first start of a region is met without control and
without data, so the region stalls the module.
-/

namespace Datapath

open List

namespace Region

/-! ## Regions that gain signals -/

def Gains (p p' : Region) : Prop := ∃ more : StartPoint → List OpId,
  p' = { p with starts := p.starts.map fun s => { s with stallSignals := s.stallSignals ++ more s } }

def Heeds (p : Region) (op : OpId) : Prop := ∀ s ∈ p.starts, op ∈ s.stallSignals

theorem Gains.refl (p : Region) : p.Gains p := by
  refine ⟨fun _ => [], ?_⟩
  simp

section
variable {p : Region} (h : p.Gains q)
include h

theorem Gains.trans (h' : q.Gains r) : p.Gains r := by
  obtain ⟨f, rfl⟩ := h
  obtain ⟨g, rfl⟩ := h'
  refine ⟨fun s => f s ++ g { s with stallSignals := s.stallSignals ++ f s }, ?_⟩
  simp

theorem Gains.context : q.context = p.context := by
  obtain ⟨_, rfl⟩ := h
  rfl

theorem Gains.finish : q.finish = p.finish := by
  obtain ⟨_, rfl⟩ := h
  rfl

theorem Gains.stallPoints : q.stallPoints = p.stallPoints := by
  obtain ⟨_, rfl⟩ := h
  simp [Region.stallPoints]

theorem Gains.heeds (hp : p.Heeds op) : q.Heeds op := by
  obtain ⟨_, rfl⟩ := h
  intro s' hs'
  obtain ⟨s, hs, rfl⟩ := mem_map.mp hs'
  exact mem_append_left _ (hp s hs)

end

theorem gains_addStallSignal (p : Region) (op : OpId) : p.Gains (p.addStallSignal op) := by
  refine ⟨fun s => if s.stallSignals.contains op then [] else [op], ?_⟩
  unfold Region.addStallSignal
  congr 1
  apply map_congr_left
  intro s _
  by_cases h : op ∈ s.stallSignals
  · simp [h]
  · simp [h]

theorem heeds_addStallSignal (p : Region) (op : OpId) : (p.addStallSignal op).Heeds op := by
  intro s' hs'
  obtain ⟨s, -, rfl⟩ := mem_map.mp hs'
  split
  next h => simpa using h
  next => simp

theorem nodup_addStallSignal {p : Region} (h : ∀ s ∈ p.starts, s.stallSignals.Nodup) :
    ∀ s ∈ (p.addStallSignal op).starts, s.stallSignals.Nodup := by
  intro s' hs'
  obtain ⟨s, hs, rfl⟩ := mem_map.mp hs'
  split
  next => exact h s hs
  next new =>
    have new : op ∉ s.stallSignals := by simpa using new
    exact concat_eq_append .. ▸ (h s hs).concat new

structure Grown (e e' : Design) : Prop where
  size : e'.regions.size = e.regions.size
  region : ∀ {i p}, at? e.regions i = some p → ∃ p', at? e'.regions i = some p' ∧ p.Gains p'

section
variable {start finish : List OpId} {d e e' : Design}

theorem Grown.chains : Chains Grown where
  refl _ := ⟨rfl, fun {_ p} hp => ⟨p, hp, .refl p⟩⟩
  trans h h' := ⟨h'.size.trans h.size, fun hp => by
    obtain ⟨q, hq, g⟩ := h.region hp
    obtain ⟨r, hr, g'⟩ := h'.region hq
    exact ⟨r, hr, g.trans g'⟩⟩

theorem changeRegion_ok (h : changeRegion i f e = .ok (u, e')) :
    (∃ p, at? e.regions i = some p) ∧ e' = { e with regions := editAt e.regions i f } := by
  obtain ⟨p, hp, h⟩ := bind_ok.mp h
  cases h
  exact ⟨⟨p, require_ok.mp hp⟩, rfl⟩

theorem create_step (h : (create r start finish).run e = .ok (a, e')) :
    e' = e ∨ ∃ p, (describe e r start finish).run = .ok (.ok p) ∧ e' = { e with regions := e.regions.push p } := by
  obtain ⟨q, e1, hq, h⟩ := build_bind_ok.mp h
  obtain ⟨hq, same⟩ := ask_ok.mp (show (ask fun d => (describe d r start finish).run) e = _ from hq)
  rw [same] at h
  cases q with
  | error =>
    cases h
    exact .inl rfl
  | ok p =>
    cases h
    exact .inr ⟨p, hq, rfl⟩

theorem describe_fresh (h : (describe d r start finish).run = .ok (.ok p)) :
    ∀ s ∈ p.starts, s.stallSignals = [] := by
  simp only [describe, query_bind_ok, query_pure_ok] at h
  obtain ⟨_, -, _, -, starts, hs, _, -, rfl⟩ := h
  intro s hsm
  obtain ⟨g, -, hg⟩ := forall₂_right (query_mapM_pairs hs) s hsm
  obtain ⟨point, -, hg⟩ := query_bind_ok.mp hg
  rw [query_pure_ok.mp hg]

theorem Grown.signals : Signals Grown where
  toChains := Grown.chains
  stall := ⟨fun h => by
    obtain ⟨-, rfl⟩ := changeOp_ok h
    exact ⟨rfl, fun {_ p} hp => ⟨p, hp, .refl p⟩⟩⟩
  signal := ⟨fun {e _ e'} h => by
    obtain ⟨-, rfl⟩ := changeRegion_ok h
    refine ⟨size_editAt .., fun {i p} hp => ?_⟩
    rw [at?_editAt, hp]
    split
    · exact ⟨_, rfl, gains_addStallSignal ..⟩
    · exact ⟨p, rfl, .refl p⟩⟩

theorem Grown.back (g : Grown e e') (hq : at? e'.regions i = some q) :
    ∃ p, at? e.regions i = some p ∧ p.Gains q := by
  obtain ⟨nonneg, lt⟩ := at?_lt hq
  rw [g.size] at lt
  obtain ⟨p, hp⟩ := at?_of_lt nonneg lt
  obtain ⟨r, hr, gains⟩ := g.region hp
  cases hq.symm.trans hr
  exact ⟨p, hp, gains⟩

structure Running (d e : Design) : Prop where
  wf : WellFormed e
  shaped : Shaped e
  same : reset e = reset d
  /-- No start of a region has a signal twice. -/
  once : ∀ {i p}, at? e.regions i = some p → ∀ s ∈ p.starts, s.stallSignals.Nodup

theorem running_reset (hd : WellFormed d) (hs : Shaped d) : Running d (reset d) where
  wf := wellFormed_reset hd
  shaped := hs.grows Grows.obeys.reset
  same := tracks_reset.reset
  once h := by
    rw [show at? (reset d).regions _ = none from at?_empty _] at h
    cases h

theorem Running.signals (d : Design) : Signals fun e e' => Running d e → Running d e' where
  refl _ h := h
  trans h h' hd := h' (h hd)
  stall := ⟨fun h hd => by
    refine ⟨(keeps_changeOp _ fun _ => by rfl).kept hd.wf h, ?_, ?_, ?_⟩
    · exact hd.shaped.grows (Grows.obeys.tracks.stall.run h)
    · exact (tracks_reset.stall.run h).trans hd.same
    · obtain ⟨-, rfl⟩ := changeOp_ok h
      exact hd.once⟩
  signal := ⟨fun {e _ e'} h hd => by
    refine ⟨(keeps_changeRegion _ fun _ => by rfl).kept hd.wf h, ?_, ?_, ?_⟩
    · exact hd.shaped.grows (Grows.obeys.tracks.signal.run h)
    · exact (tracks_reset.signal.run h).trans hd.same
    · obtain ⟨-, rfl⟩ := changeRegion_ok h
      intro i p hp
      rw [at?_editAt] at hp
      split at hp
      · obtain ⟨q, hq, rfl⟩ := Option.map_eq_some_iff.mp hp
        exact nodup_addStallSignal (hd.once hq)
      · exact hd.once hp⟩

theorem Running.create : Along (fun e e' => Running d e → Running d e') (Region.create r start finish).run := by
  constructor
  intro e a e' h hd
  refine ⟨(keeps_create ..).kept hd.wf h, ?_, ?_, ?_⟩
  · exact hd.shaped.grows (Grows.obeys.tracks.create.run h)
  · exact (tracks_reset.create.run h).trans hd.same
  · rcases create_step h with rfl | ⟨p, hp, rfl⟩
    · exact hd.once
    · intro i q hq
      rw [at?_push] at hq
      split at hq
      · cases hq
        intro s hs
        rw [describe_fresh hp s hs]
        exact nodup_nil
      · exact hd.once hq

/-! ## Registering an operation -/

variable {t : Tracker}

theorem grown_stallAll (ids : List Int) (op : OpId) : Along Grown (Tracker.stallAll ids op) :=
  Grown.chains.closed.forM (fun _ => Grown.signals.signal) _

theorem stallAll_ok (h : Tracker.stallAll ids op e = .ok (u, e')) (hi : i ∈ ids) :
    ∃ p, at? e'.regions i = some p ∧ p.Heeds op := by
  unfold Tracker.stallAll at h
  rw [← mem_ascending] at hi
  generalize ascending ids = is at h hi
  induction is generalizing e with
  | nil => cases hi
  | cons k is ih =>
    obtain ⟨_, e1, h1, h2⟩ := build_bind_ok.mp h
    rcases mem_cons.mp hi with rfl | hi
    · obtain ⟨⟨q, hq⟩, rfl⟩ := changeRegion_ok h1
      have grown : Grown _ e' := (Grown.chains.closed.forM (fun _ => Grown.signals.signal) is).run h2
      have signalled : at? (editAt e.regions i (·.addStallSignal op)) i = some (q.addStallSignal op) := by
        rw [at?_editAt, hq, if_pos rfl]
        rfl
      obtain ⟨p, hp, g⟩ := grown.region signalled
      exact ⟨p, hp, g.heeds (heeds_addStallSignal q op)⟩
    · exact ih h2 hi

theorem register_ok (h : t.register op e = .ok (t', e')) : ∃ o role, e.op? op = some o ∧ t.roleOf e o = .ok role ∧
    t'.regions = t.regions ∧
    t'.reached = ((Tracker.drivenPorts e o).foldl (fun r p => Tracker.reach r p role.running) t.reached).filter
      (fun r => !(Design.allPorts o).contains r.1) ∧
    t'.stallingRegions = (if role.initial.isEmpty && role.data.isEmpty then addIds t.stallingRegions role.opened
      else t.stallingRegions) ∧
    ∀ i ∈ role.closed, ∃ p, at? e'.regions i = some p ∧ p.Heeds op := by
  simp only [Tracker.register, ↓ask_bind_ok, ask_ok, build_bind_ok, build_pure_ok] at h
  obtain ⟨o, _, ⟨ho, rfl⟩, role, hr, _, ⟨⟩, _, e1, h1, _, e2, h2, _, -, rfl, rfl⟩ := h
  refine ⟨o, role, op_ok ho, hr, rfl, rfl, rfl, fun i hi => ?_⟩
  obtain ⟨p, hp, heeds⟩ := stallAll_ok h1 hi
  obtain ⟨q, hq, g⟩ := ((grown_stallAll ..).run h2).region hp
  exact ⟨q, hq, g.heeds heeds⟩

theorem roleOf_ok (h : t.roleOf e o = .ok role) : t.driving e o.go false = .ok role.initial ∧
    role.opened = addIds [] (((t.tracked e).filter (·.isStart o.id)).map Region.id) ∧
    role.closed = addIds [] (((t.tracked e).filter (·.isEnd o.id)).map Region.id) ∧
    ∃ driven : List (PortId × List Int), role.data = driven.foldl (fun acc p => addIds acc p.2) [] ∧
      ∀ r ∈ driven, r.1 ∈ o.ports ∧ t.driving e r.1 true = .ok r.2 := by
  obtain ⟨initial, hi, h⟩ := bind_ok.mp h
  obtain ⟨driven, hd, h⟩ := bind_ok.mp h
  cases h
  refine ⟨hi, rfl, rfl, driven, rfl, fun r hr => ?_⟩
  obtain ⟨p, hp, h⟩ := forall₂_right (mapM_pairs hd) r hr
  obtain ⟨ids, hids, h⟩ := bind_ok.mp h
  cases h
  exact ⟨hp, hids⟩

theorem mem_tracked : p ∈ t.tracked e ↔ ∃ i ∈ t.regions, at? e.regions i = some p := mem_filterMap

theorem register_heeds (he : WellFormed e) (h : t.register op e = .ok (t', e')) (hi : i ∈ t.regions)
    (hp : at? e.regions i = some p) (ends : p.finish.critical = op) :
    ∃ p', at? e'.regions i = some p' ∧ p'.Heeds op := by
  obtain ⟨o, role, ho, hr, -, -, -, closed⟩ := register_ok h
  obtain ⟨-, -, hc, -⟩ := roleOf_ok hr
  refine closed i ?_
  rw [hc, mem_addIds, mem_map]
  refine .inr ⟨p, mem_filter.mpr ⟨mem_tracked.mpr ⟨i, hi, hp⟩, ?_⟩, he.regionIds i p hp⟩
  unfold isEnd
  rw [he.nesting.ids op o ho, ends]
  exact beq_self_eq_true _

theorem register_stalling (h : t.register op e = .ok (t', e')) (hi : i ∈ t.stallingRegions) :
    i ∈ t'.stallingRegions := by
  obtain ⟨_, role, -, -, -, -, stalling, -⟩ := register_ok h
  rw [stalling]
  split
  · exact mem_addIds.mpr (.inl hi)
  · exact hi

/-! ## Modules in which nothing has been met -/

structure Quiet (t : Tracker) (e : Design) (met : List OpId) : Prop where
  reached : ∀ r ∈ t.reached, r.2 = []
  ends : ∀ p ∈ t.tracked e, p.finish.critical ∉ met
  starts : ∀ p ∈ t.tracked e, ∀ k ∈ p.stallPoints, k ∉ met

theorem reachedAt_nil (quiet : ∀ r ∈ t.reached, r.2 = []) (port : PortId) : t.reachedAt port = [] := by
  unfold Tracker.reachedAt
  cases h : t.reached.lookup port with
  | none => rfl
  | some ids =>
    obtain ⟨l1, l2, hl, -⟩ := lookup_eq_some_iff.mp h
    exact quiet (port, ids) (by rw [hl]; simp)

theorem driving_nil (quiet : ∀ r ∈ t.reached, r.2 = []) (h : t.driving e port data = .ok ids)
    (closed : data = true → ∀ deps, e.portDeps port = .ok deps → ∀ v ∈ deps, ∀ src,
        e.busOwner? v.source = some src → ∀ p ∈ t.tracked e, p.finish.critical ≠ src) : ids = [] := by
  obtain ⟨deps, hd, h⟩ := bind_ok.mp h
  split at h
  next =>
    cases h
    rfl
  next =>
    rw [reachedAt_nil quiet] at h
    cases data with
    | false =>
      cases h
      rfl
    | true =>
      cases h
      refine eq_nil_iff_forall_not_mem.mpr fun i hi => ?_
      rcases mem_addIds.mp hi with hi | hi
      · cases hi
      · obtain ⟨src, hs, hi⟩ := mem_flatMap.mp hi
        obtain ⟨v, hv, hs⟩ := mem_filterMap.mp hs
        obtain ⟨p, hp, -⟩ := mem_map.mp hi
        obtain ⟨hp, ends⟩ := mem_filter.mp hp
        exact closed rfl deps hd v hv src hs p hp (beq_iff_eq.mp ends)

theorem reach_nil (h : ∀ r ∈ reached, r.2 = []) (port : PortId) :
    ∀ r ∈ Tracker.reach reached port [], r.2 = [] := by
  unfold Tracker.reach
  intro r hr
  split at hr
  · obtain ⟨q, hq, rfl⟩ := mem_map.mp hr
    split
    · exact h q hq
    · exact h q hq
  · rcases mem_append.mp hr with hr | hr
    · exact h r hr
    · rw [mem_singleton.mp hr]

theorem reachAll_nil (h : ∀ r ∈ reached, r.2 = []) (ports : List PortId) :
    ∀ r ∈ ports.foldl (fun r p => Tracker.reach r p []) reached, r.2 = [] := by
  induction ports generalizing reached with
  | nil => exact h
  | cons p ports ih => exact ih (reach_nil h p)

theorem foldl_addIds_nil {driven : List (PortId × List Int)} (h : ∀ r ∈ driven, r.2 = []) :
    driven.foldl (fun acc p => addIds acc p.2) [] = [] := by
  induction driven with
  | nil => rfl
  | cons r driven ih =>
    rw [foldl_cons, h r mem_cons_self]
    exact ih fun q hq => h q (mem_cons_of_mem _ hq)

theorem tracked_gains (g : Grown e e') (hp : p' ∈ t.tracked e') : ∃ p ∈ t.tracked e, p.Gains p' := by
  obtain ⟨i, hi, hp⟩ := mem_tracked.mp hp
  obtain ⟨p, hp0, gains⟩ := g.back hp
  exact ⟨p, mem_tracked.mpr ⟨i, hi, hp0⟩, gains⟩

theorem isStart_iff {p : Region} : p.isStart op = true ↔ op ∈ p.stallPoints := by
  simp [isStart, Region.stallPoints]

/-- The first operation with a part in a region opens one, without control and without data, so that the
region stalls the module. -/
theorem Quiet.register (hq : Quiet t e met) (he : WellFormed e) (h : t.register op e = .ok (t', e'))
    (opens : ∀ p ∈ t.tracked e, p.finish.critical = op → ∃ k ∈ p.stallPoints, k ∈ met ∨ k = op)
    (drivers : ∀ o, e.op? op = some o → ∀ port ∈ o.ports, ∀ deps, e.portDeps port = .ok deps → ∀ v ∈ deps,
      ∀ src, e.busOwner? v.source = some src → src ∈ met) :
    Quiet t' e' (met ++ [op]) ∨ ∃ p ∈ t.tracked e, op ∈ p.stallPoints ∧ p.id ∈ t'.stallingRegions := by
  have grown := (Grown.signals.register ..).run h
  obtain ⟨o, role, ho, hr, regions, reached, stalling, -⟩ := register_ok h
  obtain ⟨hi, hopened, -, driven, hdata, each⟩ := roleOf_ok hr
  have initial : role.initial = [] := driving_nil hq.reached hi nofun
  have data : role.data = [] := by
    have none : ∀ r ∈ driven, r.2 = [] := by
      intro r hr
      obtain ⟨port, driving⟩ := each r hr
      refine driving_nil hq.reached driving fun _ deps hd v hv src hs p hp ends => ?_
      exact hq.ends p hp (ends ▸ drivers o ho r.1 port deps hd v hv src hs)
    rw [hdata]
    exact foldl_addIds_nil none
  rw [he.nesting.ids op o ho] at hopened
  by_cases opened : role.opened = []
  · left
    have notStart : ∀ p ∈ t.tracked e, op ∉ p.stallPoints := by
      intro p hp start
      have : p.id ∈ role.opened := by
        rw [hopened, mem_addIds, mem_map]
        exact .inr ⟨p, mem_filter.mpr ⟨hp, isStart_iff.mpr start⟩, rfl⟩
      rw [opened] at this
      cases this
    have running : role.running = [] := by
      unfold Tracker.Role.running
      rw [initial, opened, data]
      rfl
    rw [running] at reached
    have back : ∀ p' ∈ t'.tracked e', ∃ p ∈ t.tracked e, p.Gains p' := by
      intro p' hp'
      unfold Tracker.tracked at hp'
      rw [regions] at hp'
      exact tracked_gains grown hp'
    refine ⟨?_, fun p' hp' => ?_, fun p' hp' k hk => ?_⟩
    · rw [reached]
      intro r hr
      exact reachAll_nil hq.reached _ r (mem_filter.mp hr).1
    · obtain ⟨p, hp, g⟩ := back p' hp'
      rw [g.finish, mem_append, mem_singleton, not_or]
      refine ⟨hq.ends p hp, fun ends => ?_⟩
      obtain ⟨k, hk, met | rfl⟩ := opens p hp ends
      · exact hq.starts p hp k hk met
      · exact notStart p hp hk
    · obtain ⟨p, hp, g⟩ := back p' hp'
      rw [g.stallPoints] at hk
      rw [mem_append, mem_singleton, not_or]
      refine ⟨hq.starts p hp k hk, ?_⟩
      rintro rfl
      exact notStart p hp hk
  · right
    obtain ⟨i, hi⟩ := exists_mem_of_ne_nil _ opened
    have found := hi
    rw [hopened, mem_addIds, mem_map] at found
    obtain ⟨p, hp, rfl⟩ := found.resolve_left nofun
    obtain ⟨hp, start⟩ := mem_filter.mp hp
    refine ⟨p, hp, isStart_iff.mp start, ?_⟩
    rw [stalling, initial, data]
    exact mem_addIds.mpr (.inr hi)

end

end Region

end Datapath
