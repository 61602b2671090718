import Datapath.Proofs.Totality
import Datapath.Proofs.BackPressure
import Mathlib.Data.List.Induction

/-!
# Tracking in another order

Registering the operations of a module brings each of them into the regions that its drivers bring it
into, whatever the order is, as long as every operation comes after its drivers. So the order matters
neither for the signals that regions get nor for what stalls the module.
-/

namespace Datapath

open List

variable {d e : Design}

namespace Region

/-! ## Dependencies -/

def Sends (d : Design) (src : OpId) (port : PortId) : Prop :=
  ∃ i v, d.dep? i = some v ∧ v.target = port ∧ d.busOwner? v.source = some src

def Draws (d : Design) (c src : OpId) : Prop :=
  ∃ o n v, d.op? c = some o ∧ n ∈ d.entriesOf o ∧ v ∈ d.depsOf n ∧ d.busOwner? v.source = some src

section
variable (hd : WellFormed d) (hc : d.op? c = some o) (hp : port ∈ Design.allPorts o)
include hd hc hp

theorem dep_entry (hv : d.dep? i = some v) (target : v.target = port) :
    ∃ n, d.entryAt? v.entry = some n ∧ v.entry ∈ o.entries ∧ i ∈ n.deps := by
  obtain ⟨p, hp, own⟩ := hd.ports.holds hc port hp
  obtain ⟨k, entry, aim⟩ := hd.aimed.target hv
  rw [target, view_of _ hp, Option.some.inj own, Option.some.injEq] at aim
  obtain ⟨n, hn, owner⟩ := view_some.mp entry
  obtain ⟨n', hn', listed⟩ := hd.deps.held hv rfl
  cases hn.symm.trans hn'
  obtain ⟨o', ho', there⟩ := hd.entries.held hn rfl
  rw [owner, ← aim] at ho'
  cases hc.symm.trans ho'
  exact ⟨n, hn, there, listed⟩

theorem portDeps_total :
    ∃ deps, d.portDeps port = .ok deps ∧ ∀ v, v ∈ deps ↔ (∃ i, d.dep? i = some v) ∧ v.target = port := by
  obtain ⟨p, hport, own⟩ := hd.ports.holds hc port hp
  have own : p.owner = c := Option.some.inj own
  have id : p.id = port := hd.portIds port p hport
  refine ⟨d.depsOnPort p, bind_ok.mpr ⟨p, require_ok.mpr hport, rfl⟩, fun v => ?_⟩
  rw [Branch.mem_depsOnPort, own, id]
  constructor
  · rintro ⟨-, -, -, k, -, -, -, -, hv, target⟩
    exact ⟨⟨k, hv⟩, target⟩
  · rintro ⟨⟨i, hv⟩, target⟩
    obtain ⟨n, hn, there, listed⟩ := dep_entry hd hc hp hv target
    exact ⟨o, v.entry, n, i, hc, there, hn, listed, hv, target⟩

theorem Sends.draws (h : Sends d src port) : Draws d c src := by
  obtain ⟨i, v, hv, target, from_⟩ := h
  obtain ⟨n, hn, there, listed⟩ := dep_entry hd hc hp hv target
  exact ⟨o, n, v, hc, mem_filterMap.mpr ⟨_, there, hn⟩, mem_filterMap.mpr ⟨i, listed, hv⟩, from_⟩

end

theorem mem_drivenPorts (hd : WellFormed d) (hc : d.op? c = some o) :
    port ∈ Tracker.drivenPorts d o ↔ Sends d c port := by
  simp only [Tracker.drivenPorts, Design.allBuses, mem_flatMap]
  constructor
  · rintro ⟨b, ⟨x, hx, hb⟩, hport⟩
    obtain ⟨own, hx⟩ := hd.exitsOf hc hx
    obtain ⟨bus, hbus, exit⟩ := hd.bus_of_exit hx hb
    rw [hbus] at hport
    obtain ⟨v, hv, target⟩ := mem_map.mp hport
    obtain ⟨i, hi, hv⟩ := mem_filterMap.mp hv
    obtain ⟨v', hv', source⟩ := hd.readers.holds hbus i hi
    cases hv.symm.trans hv'
    refine ⟨i, v, hv, target, ?_⟩
    rw [Option.some.inj source, busOwner?_eq, view_of _ hbus, exit]
    exact (view_of _ hx).trans (by rw [own])
  · rintro ⟨i, v, hv, target, from_⟩
    obtain ⟨bus, hbus, h⟩ := Option.bind_eq_some_iff.mp from_
    obtain ⟨x, hx, h⟩ := Option.bind_eq_some_iff.mp h
    cases h
    obtain ⟨o', ho', listed⟩ := hd.exits.held hx rfl
    cases hc.symm.trans ho'
    obtain ⟨x', hx', carried⟩ := hd.buses.held hbus rfl
    cases hx.symm.trans hx'
    refine ⟨v.source, ⟨x, mem_filterMap.mpr ⟨_, listed, hx⟩, carried⟩, ?_⟩
    rw [hbus]
    obtain ⟨bus', hbus', read⟩ := hd.readers.held hv rfl
    cases hbus.symm.trans hbus'
    exact mem_map.mpr ⟨v, mem_filterMap.mpr ⟨i, read, hv⟩, target⟩

/-! ## Equations -/

section
variable (d : Design) (regions : List Int)

def Opens (op : OpId) (i : Int) : Prop := i ∈ regions ∧ ∃ p, at? d.regions i = some p ∧ op ∈ p.stallPoints

def Closes (op : OpId) (i : Int) : Prop := i ∈ regions ∧ ∃ p, at? d.regions i = some p ∧ p.finish.critical = op

variable (runs : OpId → Int → Prop)

def Arrives (port : PortId) (i : Int) : Prop := ∃ src, Sends d src port ∧ runs src i

def Feeds (port : PortId) (i : Int) : Prop := ∃ src, Sends d src port ∧ (runs src i ∨ Closes d regions src i)

def Takes (o : Operation) (i : Int) : Prop := ∃ port ∈ o.ports, Feeds d regions runs port i

def Controls (o : Operation) (i : Int) : Prop := Arrives d runs o.go i ∨ Opens d regions o.id i

def RunsIn (o : Operation) (i : Int) : Prop :=
  Controls d regions runs o i ∧ ¬ Closes d regions o.id i ∨ (∀ j, ¬ Controls d regions runs o j) ∧
    Takes d regions runs o i

def Solves (ops : List OpId) : Prop := ∀ c ∈ ops, ∀ o, d.op? c = some o → ∀ i, runs c i ↔ RunsIn d regions runs o i

end

def Follows (d : Design) (ids : List OpId) : Prop :=
  ∀ ⦃before c rest⦄, ids = before ++ c :: rest → ∀ src, Draws d c src → src ∈ before

theorem Arrives.congr (same : ∀ src, Sends d src port → ∀ i, runs src i ↔ runs' src i) (i : Int) :
    Arrives d runs port i ↔ Arrives d runs' port i :=
  exists_congr fun src => and_congr_right fun sends => same src sends i

theorem RunsIn.congr (hd : WellFormed d) (hc : d.op? c = some o)
    (same : ∀ src, Draws d c src → ∀ i, runs src i ↔ runs' src i) (i : Int) :
    RunsIn d regions runs o i ↔ RunsIn d regions runs' o i := by
  have port : ∀ p ∈ Design.allPorts o, ∀ src, Sends d src p → ∀ i, runs src i ↔ runs' src i :=
    fun p hp src sends => same src (sends.draws hd hc hp)
  have controls : ∀ j, Controls d regions runs o j ↔ Controls d regions runs' o j := fun j =>
    or_congr_left (Arrives.congr (port o.go mem_cons_self) j)
  have takes : Takes d regions runs o i ↔ Takes d regions runs' o i := by
    refine exists_congr fun p => and_congr_right fun hp => exists_congr fun src => and_congr_right fun sends => ?_
    exact or_congr_left (port p (mem_cons_of_mem _ hp) src sends i)
  unfold RunsIn
  rw [takes]
  simp only [controls]

def runsWithin (d : Design) (regions : List Int) : Nat → OpId → Int → Prop
  | 0, _, _ => False
  | n + 1, c, i => ∃ o, d.op? c = some o ∧ RunsIn d regions (runsWithin d regions n) o i

theorem runsWithin_settled (hd : WellFormed d) (follows : Follows d (before ++ rest)) (hn : before.length ≤ n) :
    ∀ c ∈ before, ∀ i, runsWithin d regions n c i ↔ runsWithin d regions (n + 1) c i := by
  induction before using reverseRecOn generalizing n rest with
  | nil => nofun
  | append_singleton before k ih =>
    rw [append_assoc] at follows
    rw [length_append, length_singleton] at hn
    intro c hc i
    rcases mem_append.mp hc with hc | hc
    · exact ih follows (Nat.le_of_succ_le hn) c hc i
    · rw [mem_singleton.mp hc]
      obtain ⟨n, rfl⟩ : ∃ m, n = m + 1 := ⟨n - 1, by omega⟩
      refine exists_congr fun o => and_congr_right fun ho => RunsIn.congr hd ho (fun src draws j => ?_) i
      exact ih follows (Nat.le_of_succ_le_succ hn) src (follows rfl src draws) j

theorem solution (hd : WellFormed d) (follows : Follows d ids) : ∃ runs, Solves d regions runs ids := by
  refine ⟨runsWithin d regions ids.length, fun c hc o ho i => ?_⟩
  have all : Follows d (ids ++ []) := by rwa [append_nil]
  rw [runsWithin_settled hd all (Nat.le_refl _) c hc i]
  constructor
  · rintro ⟨o', ho', h⟩
    cases ho.symm.trans ho'
    exact h
  · exact fun h => ⟨o, ho, h⟩

/-! ## Signals -/

/-- The same region, with some operations among the signals of all its starts. -/
def Marked (p p' : Region) (who : OpId → Prop) : Prop := ∃ signals : StartPoint → List OpId,
  p' = { p with starts := p.starts.map fun s => { s with stallSignals := signals s } } ∧
    ∀ s ∈ p.starts, ∀ c, c ∈ signals s ↔ c ∈ s.stallSignals ∨ who c

theorem Marked.refl (p : Region) : p.Marked p fun _ => False := by
  refine ⟨fun s => s.stallSignals, ?_, by simp⟩
  simp

section
variable {p : Region} (h : p.Marked q who)
include h

theorem Marked.trans (h' : q.Marked r who') : p.Marked r fun c => who c ∨ who' c := by
  obtain ⟨f, rfl, hf⟩ := h
  obtain ⟨g, rfl, hg⟩ := h'
  refine ⟨fun s => g { s with stallSignals := f s }, by simp, fun s hs c => ?_⟩
  rw [hg _ (mem_map.mpr ⟨s, hs, rfl⟩), hf s hs, or_assoc]

theorem Marked.congr (same : ∀ c, who c ↔ who' c) : p.Marked q who' := by
  obtain ⟨f, hq, hf⟩ := h
  exact ⟨f, hq, fun s hs c => (hf s hs c).trans (or_congr_right (same c))⟩

theorem Marked.finish : q.finish = p.finish := by
  obtain ⟨_, rfl, -⟩ := h
  rfl

theorem Marked.stallPoints : q.stallPoints = p.stallPoints := by
  obtain ⟨_, rfl, -⟩ := h
  simp [Region.stallPoints]

theorem Marked.id : q.id = p.id := by
  obtain ⟨_, rfl, -⟩ := h
  rfl

end

theorem marked_addStallSignal (p : Region) (op : OpId) : p.Marked (p.addStallSignal op) (· = op) := by
  refine ⟨fun s => if s.stallSignals.contains op then s.stallSignals else s.stallSignals ++ [op], ?_,
    fun s _ c => ?_⟩
  · unfold Region.addStallSignal
    congr 1
    apply map_congr_left
    intro s _
    dsimp only
    split <;> rfl
  · dsimp only
    split
    next h =>
      have : op ∈ s.stallSignals := by simpa using h
      exact ⟨.inl, fun h => h.elim (fun h => h) fun e => e ▸ this⟩
    next => simp

structure Signalled (d e : Design) (who : Int → OpId → Prop) : Prop where
  same : e = { d with regions := e.regions }
  size : e.regions.size = d.regions.size
  region : ∀ {i p}, at? d.regions i = some p → ∃ p', at? e.regions i = some p' ∧ p.Marked p' (who i)

section
variable {f : Design}

theorem Signalled.refl (d : Design) : Signalled d d fun _ _ => False := ⟨rfl, rfl, fun {_ p} hp => ⟨p, hp, .refl p⟩⟩

section
variable (h : Signalled d e who)
include h

theorem Signalled.trans (h' : Signalled e f who') : Signalled d f fun i c => who i c ∨ who' i c := by
  refine ⟨?_, h'.size.trans h.size, fun hp => ?_⟩
  · rw [h'.same, h.same]
  · obtain ⟨q, hq, marked⟩ := h.region hp
    obtain ⟨r, hr, marked'⟩ := h'.region hq
    exact ⟨r, hr, marked.trans marked'⟩

theorem Signalled.congr (same : ∀ i c, who i c ↔ who' i c) : Signalled d e who' :=
  ⟨h.same, h.size, fun hp => (h.region hp).imp fun _ hq => hq.imp_right fun marked => marked.congr (same _)⟩

theorem Signalled.back (hq : at? e.regions i = some q) : ∃ p, at? d.regions i = some p ∧ p.Marked q (who i) := by
  obtain ⟨nonneg, lt⟩ := at?_lt hq
  rw [h.size] at lt
  obtain ⟨p, hp⟩ := at?_of_lt nonneg lt
  obtain ⟨r, hr, marked⟩ := h.region hp
  cases hq.symm.trans hr
  exact ⟨p, hp, marked⟩

theorem Signalled.stallPoints : view e.regions Region.stallPoints = view d.regions Region.stallPoints := by
  funext i
  unfold view
  cases hp : at? d.regions i with
  | none =>
    cases hq : at? e.regions i with
    | none => rfl
    | some q =>
      obtain ⟨p, hp', -⟩ := h.back hq
      cases hp.symm.trans hp'
  | some p =>
    obtain ⟨q, hq, marked⟩ := h.region hp
    rw [hq, Option.map_some, Option.map_some, marked.stallPoints]

end

theorem changeRegion_signals (hp : at? d.regions i = some p) :
    ∃ e, changeRegion i (·.addStallSignal op) d = .ok ((), e) ∧ Signalled d e fun j c => j = i ∧ c = op := by
  refine ⟨_, bind_ok.mpr ⟨p, require_ok.mpr hp, rfl⟩, rfl, size_editAt .., fun {j q} hq => ?_⟩
  rw [at?_editAt, hq]
  split
  next e => exact ⟨_, rfl, (marked_addStallSignal q op).congr fun c => by simp [e]⟩
  next ne => exact ⟨q, rfl, (Marked.refl q).congr fun c => by simp [ne]⟩

theorem stallAll_signals (there : ∀ i ∈ ids, ∃ p, at? d.regions i = some p) :
    ∃ e, Tracker.stallAll ids op d = .ok ((), e) ∧ Signalled d e fun i c => i ∈ ids ∧ c = op := by
  unfold Tracker.stallAll
  have same : ∀ i, i ∈ ids ↔ i ∈ ascending ids := fun i => mem_ascending.symm
  simp only [same] at there ⊢
  generalize ascending ids = is at there
  induction is generalizing d with
  | nil => exact ⟨d, rfl, (Signalled.refl d).congr fun i c => by simp⟩
  | cons i is ih =>
    obtain ⟨p, hp⟩ := there i mem_cons_self
    obtain ⟨e, he, first⟩ := changeRegion_signals hp
    have left : ∀ j ∈ is, ∃ p, at? e.regions j = some p := fun j hj => by
      obtain ⟨q, hq⟩ := there j (mem_cons_of_mem _ hj)
      exact (first.region hq).imp fun _ => And.left
    obtain ⟨f, hf, rest⟩ := ih left
    refine ⟨f, build_bind_ok.mpr ⟨(), e, he, hf⟩, (first.trans rest).congr fun j c => ?_⟩
    rw [mem_cons, or_and_right]

end

/-! ## What has reached a port -/

section
variable {ports : List PortId}

theorem lookup_widen (l : List (PortId × List Int)) :
    (l.map fun r => if r.1 == port then (port, addIds r.2 ps) else r).lookup q =
      if q = port then (l.lookup q).map (addIds · ps) else l.lookup q := by
  induction l with
  | nil => simp
  | cons r l ih =>
    obtain ⟨k, ids⟩ := r
    rw [map_cons]
    by_cases hk : k = port
    · by_cases hq : q = port
      · simp [hk, hq]
      · simp only [hk, beq_self_eq_true, ite_true, lookup_cons, beq_false_of_ne hq, ih, hq]
    · rw [if_neg (by simpa using hk), lookup_cons, lookup_cons, ih]
      by_cases hq : q = k
      · simp [hq, hk]
      · simp [beq_false_of_ne hq]

theorem mem_reach : i ∈ ((Tracker.reach reached port ps).lookup q).getD [] ↔
    i ∈ (reached.lookup q).getD [] ∨ q = port ∧ i ∈ ps := by
  unfold Tracker.reach
  split
  next there =>
    rw [lookup_widen]
    split
    next e =>
      obtain ⟨r, hr, key⟩ := any_eq_true.mp there
      have found : (reached.lookup q).isSome :=
        lookup_isSome_iff.mpr ⟨r, hr, by simpa [e] using Eq.symm (beq_iff_eq.mp key)⟩
      obtain ⟨ids, h⟩ := Option.isSome_iff_exists.mp found
      rw [h, Option.map_some, Option.getD_some, Option.getD_some, mem_addIds, and_iff_right e]
    next ne => simp [ne]
  next out =>
    rw [lookup_append, lookup_cons]
    by_cases e : q = port
    · subst e
      have new : reached.lookup q = none := lookup_eq_none_iff.mpr fun r hr =>
        bne_iff_ne.mpr fun e => out (any_eq_true.mpr ⟨r, hr, beq_iff_eq.mpr e.symm⟩)
      simp [new]
    · simp [e, beq_false_of_ne e]

theorem mem_reachAll : i ∈ ((ports.foldl (fun r p => Tracker.reach r p ps) reached).lookup q).getD [] ↔
      i ∈ (reached.lookup q).getD [] ∨ q ∈ ports ∧ i ∈ ps := by
  induction ports generalizing reached with
  | nil => simp
  | cons p ports ih => rw [foldl_cons, ih, mem_reach, or_assoc, mem_cons, or_and_right]

theorem lookup_filter {reached : List (PortId × List Int)} (out : q ∉ ports) :
    (reached.filter fun r => !ports.contains r.1).lookup q = reached.lookup q := by
  induction reached with
  | nil => rfl
  | cons r reached ih =>
    rw [filter_cons, lookup_cons]
    split
    next => rw [lookup_cons, ih]
    next dropped =>
      have ne : q ≠ r.1 := by
        rintro rfl
        exact out (by simpa using dropped)
      rw [beq_false_of_ne ne, ih]

theorem mem_foldl_addIds {driven : List (PortId × List Int)} :
    i ∈ driven.foldl (fun acc p => addIds acc p.2) ids ↔ i ∈ ids ∨ ∃ r ∈ driven, i ∈ r.2 := by
  induction driven generalizing ids with
  | nil => simp
  | cons r driven ih => rw [foldl_cons, ih, mem_addIds, or_assoc, exists_mem_cons_iff]

end

/-! ## Roles -/

section
variable (d : Design) (regions : List Int) (runs : OpId → Int → Prop)

structure Plays (o : Operation) (role : Tracker.Role) : Prop where
  initial : ∀ i, i ∈ role.initial ↔ Arrives d runs o.go i
  data : ∀ i, i ∈ role.data ↔ Takes d regions runs o i
  opened : ∀ i, i ∈ role.opened ↔ Opens d regions o.id i
  closed : ∀ i, i ∈ role.closed ↔ Closes d regions o.id i
  dataless : ∀ p, p ∈ role.dataless ↔ p ∈ o.ports ∧ ∀ i, ¬ Feeds d regions runs p i

def Unheld (o : Operation) : Prop := (∀ i, ¬ Arrives d runs o.go i) ∧ ∀ i, ¬ Takes d regions runs o i

def Exposed (o : Operation) : Prop :=
  (∃ i, runs o.id i) ∧ ∃ port ∈ o.ports, (∀ i, ¬ Feeds d regions runs port i) ∧
    Tracker.takesTimedData d port = .ok true

structure Registered (done : List OpId) (t : Tracker) (e : Design) : Prop where
  tracks : t.regions = regions
  signals : Signalled d e fun i c => c ∈ done ∧ ∃ o, d.op? c = some o ∧
    (Closes d regions c i ∨ Takes d regions runs o i)
  reached : ∀ {c o}, d.op? c = some o → c ∉ done → ∀ port ∈ Design.allPorts o, ∀ i,
    i ∈ t.reachedAt port ↔ ∃ src ∈ done, Sends d src port ∧ runs src i
  valid : ∀ c ∈ done, ∀ i, runs c i → ∃ p, at? d.regions i = some p
  stallingRegions : ∀ i, i ∈ t.stallingRegions ↔
    ∃ c ∈ done, ∃ o, d.op? c = some o ∧ Unheld d regions runs o ∧ Opens d regions c i
  once : t.stallingRegions.Nodup
  stallingOps : ∀ c, c ∈ t.stallingOps ↔ c ∈ done ∧ ∃ o, d.op? c = some o ∧ Exposed d regions runs o

end

section
variable {t : Tracker} {who : Int → OpId → Prop} {i : Int}

section
variable {regions : List Int} (hd : WellFormed d) (signals : Signalled d e who) (same : t.regions = regions)
include hd signals same

theorem tracked_iff {P : Region → Prop} [DecidablePred P] (keeps : ∀ {p q who}, Marked p q who → (P q ↔ P p)) :
    i ∈ ((t.tracked e).filter (fun p => decide (P p))).map Region.id ↔ i ∈ regions ∧ ∃ p, at? d.regions i = some p ∧
      P p := by
  simp only [mem_map, mem_filter, mem_tracked, same, decide_eq_true_eq]
  constructor
  · rintro ⟨q, ⟨⟨j, hj, hq⟩, holds⟩, rfl⟩
    obtain ⟨p, hp, marked⟩ := signals.back hq
    rw [marked.id, hd.regionIds j p hp]
    exact ⟨hj, p, hp, (keeps marked).mp holds⟩
  · rintro ⟨hi, p, hp, holds⟩
    obtain ⟨q, hq, marked⟩ := signals.region hp
    exact ⟨q, ⟨⟨i, hi, hq⟩, (keeps marked).mpr holds⟩, marked.id.trans (hd.regionIds i p hp)⟩

theorem mem_opened : i ∈ ((t.tracked e).filter (·.isStart op)).map Region.id ↔ Opens d regions op i := by
  have start : ∀ p : Region, p.isStart op = decide (op ∈ p.stallPoints) := fun p => by
    rw [Bool.eq_iff_iff, isStart_iff, decide_eq_true_eq]
  simp only [start]
  exact tracked_iff hd signals same fun marked => by rw [marked.stallPoints]

theorem mem_closed : i ∈ ((t.tracked e).filter (·.isEnd op)).map Region.id ↔ Closes d regions op i := by
  exact tracked_iff hd signals same fun marked => by rw [marked.finish]

end

variable {regions : List Int} (hd : WellFormed d) (h : Registered d regions runs done t e) (hc : d.op? c = some o)
  (new : c ∉ done)
  (drawn : ∀ src, Draws d c src → src ∈ done)
include hd h hc new drawn

theorem Registered.driving (hp : port ∈ Design.allPorts o) (data : Bool) :
    ∃ ids, t.driving e port data = .ok ids ∧ ∀ i, i ∈ ids ↔
      Arrives d runs port i ∨ data = true ∧ ∃ src, Sends d src port ∧ Closes d regions src i := by
  obtain ⟨deps, hdeps, mem⟩ := portDeps_total hd hc hp
  have signals := h.signals
  obtain ⟨rs, rfl⟩ : ∃ rs, e = { d with regions := rs } := ⟨_, signals.same⟩
  have carried : ∀ i, i ∈ t.reachedAt port ↔ Arrives d runs port i := fun i => by
    rw [h.reached hc new port hp]
    exact ⟨fun ⟨src, _, rest⟩ => ⟨src, rest⟩, fun ⟨src, sends, h⟩ => ⟨src, drawn src (sends.draws hd hc hp), sends,
      h⟩⟩
  have senders : ∀ src, src ∈ deps.filterMap (fun v => ({ d with regions := rs } : Design).busOwner? v.source) ↔
      Sends d src port := fun src => by
    simp only [mem_filterMap, mem]
    exact ⟨fun ⟨v, ⟨⟨i, hi⟩, target⟩, own⟩ => ⟨i, v, hi, target, own⟩,
      fun ⟨i, v, hi, target, own⟩ => ⟨v, ⟨⟨i, hi⟩, target⟩, own⟩⟩
  unfold Tracker.driving
  rw [show ({ d with regions := rs } : Design).portDeps port = .ok deps from hdeps, ok_bind]
  split
  next none =>
    have no : ∀ src, ¬ Sends d src port := by
      rintro src ⟨i, v, hv, target, -⟩
      have := (mem v).mpr ⟨⟨i, hv⟩, target⟩
      rw [isEmpty_iff.mp none] at this
      cases this
    exact ⟨[], rfl, fun i => ⟨nofun, fun h => h.elim (fun ⟨src, s, _⟩ => (no src s).elim) fun ⟨_, src, s,
      _⟩ => (no src s).elim⟩⟩
  next =>
    cases data with
    | false => exact ⟨_, rfl, fun i => by rw [carried]; simp⟩
    | true =>
      refine ⟨_, rfl, fun i => ?_⟩
      rw [mem_addIds, carried, mem_flatMap]
      simp only [senders, mem_closed hd signals h.tracks, true_and]

theorem Registered.roleOf : ∃ role, t.roleOf e o = .ok role ∧ Plays d regions runs o role := by
  obtain ⟨initial, hi, mem⟩ := h.driving hd hc new drawn mem_cons_self false
  have each : ∀ p ∈ o.ports, ∃ ids, t.driving e p true = .ok ids ∧ ∀ i, i ∈ ids ↔ Feeds d regions runs p i := by
    intro p hp
    obtain ⟨ids, hids, mem⟩ := h.driving hd hc new drawn (mem_cons_of_mem _ hp) true
    refine ⟨ids, hids, fun i => (mem i).trans ?_⟩
    simp only [Arrives, Feeds, true_and, and_or_left, exists_or]
  have total : ∃ driven, (o.ports.mapM fun p => return (p, ← t.driving e p true)) = Except.ok driven :=
    mapM_total fun p hp => by
      obtain ⟨ids, hids, -⟩ := each p hp
      exact ⟨(p, ids), by rw [hids]; rfl⟩
  obtain ⟨driven, hdriven⟩ := total
  have pair : ∀ r ∈ driven, r.1 ∈ o.ports ∧ ∀ i, i ∈ r.2 ↔ Feeds d regions runs r.1 i := by
    intro r hr
    obtain ⟨p, hp, made⟩ := forall₂_right (mapM_pairs hdriven) r hr
    obtain ⟨ids, hids, mem⟩ := each p hp
    rw [hids] at made
    cases made
    exact ⟨hp, mem⟩
  have all : ∀ p ∈ o.ports, ∃ r ∈ driven, r.1 = p := by
    intro p hp
    obtain ⟨r, hr, made⟩ := forall₂_left (mapM_pairs hdriven) p hp
    obtain ⟨ids, hids, -⟩ := each p hp
    rw [hids] at made
    cases made
    exact ⟨_, hr, rfl⟩
  refine ⟨_, bind_ok.mpr ⟨initial, hi, bind_ok.mpr ⟨driven, hdriven, rfl⟩⟩, ?_⟩
  constructor
  · intro i
    rw [mem]
    simp
  · intro i
    rw [mem_foldl_addIds, or_iff_right not_mem_nil]
    constructor
    · rintro ⟨r, hr, hi⟩
      obtain ⟨hp, feeds⟩ := pair r hr
      exact ⟨r.1, hp, (feeds i).mp hi⟩
    · rintro ⟨p, hp, feeds⟩
      obtain ⟨r, hr, rfl⟩ := all p hp
      exact ⟨r, hr, ((pair r hr).2 i).mpr feeds⟩
  · intro i
    rw [mem_addIds, mem_opened hd h.signals h.tracks]
    simp
  · intro i
    rw [mem_addIds, mem_closed hd h.signals h.tracks]
    simp
  · intro p
    simp only [mem_map, mem_filter, List.isEmpty_iff]
    constructor
    · rintro ⟨r, ⟨hr, empty⟩, rfl⟩
      obtain ⟨hp, feeds⟩ := pair r hr
      refine ⟨hp, fun i hi => ?_⟩
      have := (feeds i).mpr hi
      rw [empty] at this
      cases this
    · rintro ⟨hp, none⟩
      obtain ⟨r, hr, rfl⟩ := all p hp
      exact ⟨r, ⟨hr, eq_nil_iff_forall_not_mem.mpr fun i hi => none i (((pair r hr).2 i).mp hi)⟩, rfl⟩

omit hd h hc new drawn in
theorem Plays.running (plays : Plays d regions runs o role) (i : Int) :
    i ∈ role.running ↔ RunsIn d regions runs o i := by
  have control : ∀ j, j ∈ addIds role.initial role.opened ↔ Controls d regions runs o j := fun j => by
    rw [mem_addIds, plays.initial, plays.opened, Controls]
  unfold Tracker.Role.running RunsIn
  dsimp only
  split
  next none =>
    have none : ∀ j, ¬ Controls d regions runs o j := fun j hj => by
      have := (control j).mpr hj
      rw [isEmpty_iff.mp none] at this
      cases this
    rw [plays.data]
    exact ⟨fun h => .inr ⟨none, h⟩, fun h => h.elim (fun h => (none i h.1).elim) And.right⟩
  next some =>
    have some : ¬ ∀ j, ¬ Controls d regions runs o j := fun none => by
      refine some (isEmpty_iff.mpr (eq_nil_iff_forall_not_mem.mpr fun j hj => none j ((control j).mp hj)))
    rw [mem_filter, control, or_iff_left fun h => some h.1, Bool.not_eq_true', ← Bool.not_eq_true,
      contains_iff_mem, plays.closed]

omit h new drawn in
theorem takesTimedData_total (hp : port ∈ Design.allPorts o) : ∃ b, Tracker.takesTimedData d port = .ok b := by
  obtain ⟨deps, hdeps, mem⟩ := portDeps_total hd hc hp
  have timed : ∃ bs, (deps.mapM fun v => return !(← d.isUntimed v.source)) = Except.ok bs := by
    refine mapM_total fun v hv => ?_
    obtain ⟨⟨i, hi⟩, -⟩ := (mem v).mp hv
    obtain ⟨bus, hbus, -⟩ := hd.readers.held hi rfl
    obtain ⟨x, hx, -⟩ := hd.buses.held hbus rfl
    obtain ⟨k, hk, -⟩ := hd.exits.held hx rfl
    have owner : d.busOwner v.source = .ok x.owner :=
      bind_ok.mpr ⟨bus, require_ok.mpr hbus, bind_ok.mpr ⟨x, require_ok.mpr hx, rfl⟩⟩
    have untimed : ∃ b, d.isUntimed v.source = .ok b := by
      unfold Design.isUntimed
      rw [show d.bus v.source = .ok bus from require_ok.mpr hbus, ok_bind]
      split
      · exact ⟨true, rfl⟩
      · rw [owner, ok_bind, run_op hk, ok_bind]
        exact ⟨_, rfl⟩
    obtain ⟨b, hb⟩ := untimed
    exact ⟨!b, by rw [hb]; rfl⟩
  obtain ⟨bs, hbs⟩ := timed
  exact ⟨_, bind_ok.mpr ⟨deps, hdeps, bind_ok.mpr ⟨bs, hbs, rfl⟩⟩⟩

omit new in
theorem Registered.region_of {i : Int} (hi : Controls d regions runs o i ∨ Takes d regions runs o i) :
    ∃ p, at? d.regions i = some p := by
  rcases hi with (⟨src, sends, hi⟩ | ⟨-, p, hp, -⟩) | ⟨port, hp, src, sends, hi | ⟨-, p, hp', -⟩⟩
  · exact h.valid src (drawn src (sends.draws hd hc mem_cons_self)) i hi
  · exact ⟨p, hp⟩
  · exact h.valid src (drawn src (sends.draws hd hc (mem_cons_of_mem _ hp))) i hi
  · exact ⟨p, hp'⟩

omit new in
theorem Registered.signal (plays : Plays d regions runs o role) :
    ∃ e1 e2, Tracker.stallAll role.closed c e = .ok ((), e1) ∧ Tracker.stallAll role.data c e1 = .ok ((), e2) ∧
      Signalled d e2 fun i k => k ∈ done ++ [c] ∧ ∃ o, d.op? k = some o ∧
        (Closes d regions k i ∨ Takes d regions runs o i) := by
  have id : o.id = c := hd.nesting.ids c o hc
  have closes : ∀ i ∈ role.closed, ∃ p, at? e.regions i = some p := fun i hi => by
    obtain ⟨-, p, hp, -⟩ := (plays.closed i).mp hi
    exact (h.signals.region hp).imp fun _ => And.left
  obtain ⟨e1, h1, s1⟩ := stallAll_signals closes
  have takes : ∀ i ∈ role.data, ∃ p, at? e1.regions i = some p := fun i hi => by
    obtain ⟨p, hp⟩ := h.region_of hd hc drawn (.inr ((plays.data i).mp hi))
    exact ((h.signals.trans s1).region hp).imp fun _ => And.left
  obtain ⟨e2, h2, s2⟩ := stallAll_signals takes
  refine ⟨e1, e2, h1, h2, ((h.signals.trans s1).trans s2).congr fun i k => ?_⟩
  rw [plays.closed, plays.data, id, mem_append, mem_singleton]
  constructor
  · rintro ((⟨hk, rest⟩ | ⟨closes, rfl⟩) | ⟨takes, rfl⟩)
    · exact ⟨.inl hk, rest⟩
    · exact ⟨.inr rfl, o, hc, .inl closes⟩
    · exact ⟨.inr rfl, o, hc, .inr takes⟩
  · rintro ⟨hk | rfl, o', ho', rest⟩
    · exact .inl (.inl ⟨hk, o', ho', rest⟩)
    · cases hc.symm.trans ho'
      exact rest.elim (fun h => .inl (.inr ⟨h, rfl⟩)) fun h => .inr ⟨h, rfl⟩

omit new drawn in
theorem Registered.reach {ids : List Int} (running : ∀ i, i ∈ ids ↔ runs c i) {k : OpId} {q : Operation}
    (hk : d.op? k = some q) (left : k ∉ done ++ [c]) (hp : port ∈ Design.allPorts q) (i : Int) :
    i ∈ ((((Tracker.drivenPorts d o).foldl (fun r p => Tracker.reach r p ids) t.reached).filter
        fun r => !(Design.allPorts o).contains r.1).lookup port).getD [] ↔
      ∃ src ∈ done ++ [c], Sends d src port ∧ runs src i := by
  rw [mem_append, mem_singleton, not_or] at left
  have out : port ∉ Design.allPorts o := fun mine => by
    obtain ⟨p, hp, own⟩ := hd.ports.holds hk port hp
    obtain ⟨p', hp', own'⟩ := hd.ports.holds hc port mine
    cases hp.symm.trans hp'
    exact left.2 (Option.some.inj (own.symm.trans own'))
  rw [lookup_filter out, mem_reachAll, mem_drivenPorts hd hc, running]
  refine (or_congr_left (h.reached hk left.1 port hp i)).trans ?_
  constructor
  · rintro (⟨src, hs, rest⟩ | ⟨sends, hi⟩)
    · exact ⟨src, mem_append_left _ hs, rest⟩
    · exact ⟨c, by simp, sends, hi⟩
  · rintro ⟨src, hs, rest⟩
    rcases mem_append.mp hs with hs | hs
    · exact .inl ⟨src, hs, rest⟩
    · rw [mem_singleton.mp hs] at rest
      exact .inr rest

theorem Registered.register (solved : ∀ i, runs c i ↔ RunsIn d regions runs o i) :
    ∃ t' e', t.register c e = .ok (t', e') ∧ Registered d regions runs (done ++ [c]) t' e' := by
  have id : o.id = c := hd.nesting.ids c o hc
  obtain ⟨role, hrole, plays⟩ := h.roleOf hd hc new drawn
  have running : ∀ i, i ∈ role.running ↔ runs c i := fun i => (plays.running i).trans (solved i).symm
  obtain ⟨e1, e2, h1, h2, signals⟩ := h.signal hd hc drawn plays
  have total : ∃ exposed, (role.dataless.mapM fun p => Tracker.takesTimedData d p) = .ok exposed :=
    mapM_total fun p hp => takesTimedData_total hd hc (mem_cons_of_mem _ ((plays.dataless p).mp hp).1)
  obtain ⟨exposed, hexposed⟩ := total
  have ran : t.register c e = .ok ({ t with
      reached := ((Tracker.drivenPorts d o).foldl (fun r p => Tracker.reach r p role.running) t.reached).filter
        fun r => !(Design.allPorts o).contains r.1
      stallingRegions := if role.initial.isEmpty && role.data.isEmpty then addIds t.stallingRegions role.opened
        else t.stallingRegions
      stallingOps := if !role.running.isEmpty && exposed.contains true then addIds t.stallingOps [c]
        else t.stallingOps }, e2) := by
    have before := h.signals.same
    have after := signals.same
    refine ask_bind_ok.mpr ⟨o, ?_, ask_bind_ok.mpr ⟨role, hrole, ask_bind_ok.mpr ⟨Tracker.drivenPorts d o, ?_,
      build_bind_ok.mpr ⟨(), e1, h1, build_bind_ok.mpr ⟨(), e2, h2, ask_bind_ok.mpr ⟨exposed, ?_, rfl⟩⟩⟩⟩⟩⟩
    · rw [before]
      exact run_op hc
    · rw [before]
      rfl
    · rw [after]
      exact hexposed
  refine ⟨_, e2, ran, h.tracks, signals, fun hk left port hp i => h.reach hd hc running hk left hp i, ?_, ?_, ?_,
    ?_⟩
  · intro k hk i hi
    rcases mem_append.mp hk with hk | hk
    · exact h.valid k hk i hi
    · rw [mem_singleton.mp hk, solved] at hi
      exact h.region_of hd hc drawn (hi.imp And.left And.right)
  · intro i
    have unheld : (role.initial.isEmpty && role.data.isEmpty) = true ↔ Unheld d regions runs o := by
      simp only [Bool.and_eq_true, List.isEmpty_iff, eq_nil_iff_forall_not_mem, plays.initial, plays.data, Unheld]
    have last : (∃ o', d.op? c = some o' ∧ Unheld d regions runs o' ∧ Opens d regions c i) ↔
        Unheld d regions runs o ∧ i ∈ role.opened := by
      simp only [hc, Option.some.injEq, exists_eq_left', plays.opened, id]
    simp only [mem_append, mem_singleton, or_and_right, exists_or, exists_eq_left, last, ← h.stallingRegions]
    split
    next free => rw [mem_addIds, and_iff_right (unheld.mp free)]
    next held => rw [or_iff_left fun free => held (unheld.mpr free.1)]
  · split
    · exact nodup_addIds h.once
    · exact h.once
  · intro k
    have bare : exposed.contains true = true ↔ ∃ port ∈ o.ports, (∀ i, ¬ Feeds d regions runs port i) ∧
        Tracker.takesTimedData d port = .ok true := by
      rw [contains_iff_mem]
      constructor
      · intro timed
        obtain ⟨port, hp, timed⟩ := forall₂_right (mapM_pairs hexposed) true timed
        obtain ⟨hp, none⟩ := (plays.dataless port).mp hp
        exact ⟨port, hp, none, timed⟩
      · rintro ⟨port, hp, none, timed⟩
        obtain ⟨b, hb, h⟩ := forall₂_left (mapM_pairs hexposed) port ((plays.dataless port).mpr ⟨hp, none⟩)
        cases timed.symm.trans h
        exact hb
    have exposes : (!role.running.isEmpty && exposed.contains true) = true ↔ Exposed d regions runs o := by
      have some : (!role.running.isEmpty) = true ↔ ∃ i, runs c i := by
        rw [Bool.not_eq_true', isEmpty_eq_false_iff_exists_mem]
        exact exists_congr running
      rw [Bool.and_eq_true, bare, some, Exposed, id]
    have last : (k = c ∧ ∃ o', d.op? k = some o' ∧ Exposed d regions runs o') ↔ k = c ∧
      Exposed d regions runs o := by
      refine and_congr_right fun e => ?_
      simp only [e, hc, Option.some.injEq, exists_eq_left']
    simp only [mem_append, mem_singleton, or_and_right, last, ← h.stallingOps]
    split
    next shown => rw [mem_addIds, mem_singleton, and_iff_left (exposes.mp shown)]
    next hidden => rw [or_iff_left fun shown => hidden (exposes.mpr shown.2)]

end

/-! ## Orders -/

def Tracker.registerAll (t : Tracker) (ids : List OpId) : Build Tracker := ids.foldlM (fun t c => t.register c) t

theorem Registered.registerAll (hd : WellFormed d) (follows : Follows d (done ++ rest))
    (nodup : (done ++ rest).Nodup) (ops : ∀ c ∈ rest, ∃ o, d.op? c = some o) (solves : Solves d regions runs rest)
    (h : Registered d regions runs done t e) :
    ∃ t' e', t.registerAll rest e = .ok (t', e') ∧ Registered d regions runs (done ++ rest) t' e' := by
  induction rest generalizing done t e with
  | nil => exact ⟨t, e, rfl, by rwa [append_nil]⟩
  | cons c rest ih =>
    obtain ⟨o, hc⟩ := ops c mem_cons_self
    have new : c ∉ done := fun hc => (nodup_append.mp nodup).2.2 c hc c mem_cons_self rfl
    obtain ⟨t1, e1, h1, next⟩ := h.register hd hc new (follows rfl) (solves c mem_cons_self o hc)
    rw [append_cons] at follows nodup
    obtain ⟨t', e', h', all⟩ := ih follows nodup (fun k hk => ops k (mem_cons_of_mem _ hk))
      (fun k hk => solves k (mem_cons_of_mem _ hk)) next
    refine ⟨t', e', ?_, by rwa [append_cons]⟩
    exact build_bind_ok.mpr ⟨t1, e1, h1, h'⟩

theorem registered_nil (d : Design) (mod : OpId) (regions : List Int) (runs : OpId → Int → Prop) :
    Registered d regions runs [] { mod, regions } d where
  tracks := rfl
  signals := (Signalled.refl d).congr fun _ _ => by simp
  reached _ _ _ _ _ := by simp [Tracker.reachedAt]
  valid := nofun
  stallingRegions _ := by simp
  once := nodup_nil
  stallingOps _ := by simp

theorem registered_all (hd : WellFormed d) (mod : OpId) (follows : Follows d ids) (nodup : ids.Nodup)
    (ops : ∀ c ∈ ids, ∃ o, d.op? c = some o) (solves : Solves d regions runs ids) :
    ∃ t e, ({ mod, regions } : Tracker).registerAll ids d = .ok (t, e) ∧ Registered d regions runs ids t e := by
  have all : [] ++ ids = ids := nil_append ids
  rw [← all] at follows nodup
  exact (registered_nil d mod regions runs).registerAll hd follows nodup ops solves

/-- The children of a module in an order that starts with the input buffer and in which every child comes after the
siblings that it draws from. -/
structure Admissible (d : Design) (m : Operation) (ids : List OpId) : Prop where
  perm : ids.Perm m.children
  first : ids.head? = some m.inBuf
  after : ∀ ⦃before c rest⦄, ids = before ++ c :: rest → ∀ src ∈ m.children, Draws d c src → src ∈ before

theorem ascending_eq_of_mem (hx : xs.Nodup) (hy : ys.Nodup) (same : ∀ i, i ∈ xs ↔ i ∈ ys) :
    ascending xs = ascending ys := by
  rw [ascending_eq, ascending_eq]
  have perm := (perm_ext_iff_of_nodup hx hy).mpr same
  exact ((perm_insertionSort (· ≤ ·) xs).trans (perm.trans (perm_insertionSort (· ≤ ·) ys).symm)).eq_of_pairwise'
    (pairwise_insertionSort ..) (pairwise_insertionSort ..)

theorem moduleStalls_eq (t : Tracker) (e : Design) : t.moduleStalls e = ((ascending t.stallingRegions).filterMap
      fun i => (view e.regions Region.stallPoints i).map fun components => ({ region := i, components } : Stall)) ++
      t.stallingOps.map fun op => { region := absent, components := [op] } := by
  unfold Tracker.moduleStalls view
  simp only [Option.map_map, Function.comp_def]

theorem moduleStalls_regions (t : Tracker) (e : Design) :
    (t.moduleStalls e).filter (·.region != absent) = (ascending t.stallingRegions).filterMap fun i =>
      (view e.regions Region.stallPoints i).map fun components => ({ region := i, components } : Stall) := by
  rw [moduleStalls_eq, filter_append, filter_eq_self.mpr, filter_eq_nil_iff.mpr, append_nil]
  · intro s hs
    obtain ⟨op, -, rfl⟩ := mem_map.mp hs
    simp
  · intro s hs
    obtain ⟨i, -, h⟩ := mem_filterMap.mp hs
    obtain ⟨points, hp, rfl⟩ := Option.map_eq_some_iff.mp h
    obtain ⟨p, hp, -⟩ := view_some.mp hp
    simpa using ne_absent hp

theorem mem_moduleStalls (t : Tracker) (e : Design) (s : Stall) : s ∈ t.moduleStalls e ↔
    s ∈ (t.moduleStalls e).filter (·.region != absent) ∨ ∃ op ∈ t.stallingOps,
      { region := absent, components := [op] } = s := by
  rw [moduleStalls_regions, moduleStalls_eq, mem_append, mem_map]

/-- Registering the children of a module with a new tracker gives the same signals to all regions and stalls the
module by the same regions and the same operations in every admissible order, if every dependency of a child comes
from another child. -/
theorem tracking_ignores_order (hd : WellFormed d) (hm : d.op? mod = some m)
    (siblings : ∀ c ∈ m.children, ∀ src, Draws d c src → src ∈ m.children ∧ src ≠ c) (regions : List Int)
    (h : Admissible d m ids) (h' : Admissible d m ids') :
    ∃ t e t' e', ({ mod, regions } : Tracker).registerAll ids d = .ok (t, e) ∧
      ({ mod, regions } : Tracker).registerAll ids' d = .ok (t', e') ∧ e' = { e with regions := e'.regions } ∧
      (∀ i p, at? d.regions i = some p → ∃ q q' who, at? e.regions i = some q ∧ at? e'.regions i = some q' ∧
        p.Marked q who ∧ p.Marked q' who) ∧
      (t.moduleStalls e).filter (·.region != absent) = (t'.moduleStalls e').filter (·.region != absent) ∧
      ∀ s, s ∈ t.moduleStalls e ↔ s ∈ t'.moduleStalls e' := by
  have follows : ∀ {ids}, Admissible d m ids → Follows d ids := fun h before c rest split src draws =>
    have hc : c ∈ m.children := h.perm.mem_iff.mp (by rw [split]; simp)
    h.after split src (siblings c hc src draws).1 draws
  have there : ∀ {ids}, Admissible d m ids → ∀ c ∈ ids, ∃ o, d.op? c = some o := fun h c hc =>
    (hd.child hm (h.perm.mem_iff.mp hc)).imp fun _ => And.left
  have nodup : ∀ {ids}, Admissible d m ids → ids.Nodup := fun h => h.perm.nodup_iff.mpr (hd.children_nodup hm)
  -- the solution of the equations for one order is a solution for the other
  obtain ⟨runs, solves⟩ : ∃ runs, Solves d regions runs ids := solution hd (follows h)
  have solves' : Solves d regions runs ids' := fun c hc => solves c ((h.perm.trans h'.perm.symm).mem_iff.mpr hc)
  obtain ⟨t, e, ran, reg⟩ := registered_all hd mod (follows h) (nodup h) (there h) solves
  obtain ⟨t', e', ran', reg'⟩ := registered_all hd mod (follows h') (nodup h') (there h') solves'
  have same : ∀ c, c ∈ ids ↔ c ∈ ids' := fun c => (h.perm.trans h'.perm.symm).mem_iff
  have byRegion : (t.moduleStalls e).filter (·.region != absent) = (t'.moduleStalls e').filter
    (·.region != absent) := by
    rw [moduleStalls_regions, moduleStalls_regions, ascending_eq_of_mem reg.once reg'.once fun i => by
      rw [reg.stallingRegions, reg'.stallingRegions]
      simp only [same]]
    rw [reg.signals.stallPoints, reg'.signals.stallPoints]
  refine ⟨t, e, t', e', ran, ran', ?_, fun i p hp => ?_, byRegion, fun s => ?_⟩
  · rw [reg.signals.same, reg'.signals.same]
  · obtain ⟨q, hq, marked⟩ := reg.signals.region hp
    obtain ⟨q', hq', marked'⟩ := reg'.signals.region hp
    exact ⟨q, q', _, hq, hq', marked, marked'.congr fun c => by rw [same]⟩
  · rw [mem_moduleStalls, mem_moduleStalls, byRegion]
    simp only [reg.stallingOps, reg'.stallingOps, same]

/-! ## Orders that can be checked -/

def sources (d : Design) (c : OpId) : List OpId :=
  match d.op? c with
  | none => []
  | some o => ((d.entriesOf o).flatMap d.depsOf).filterMap fun v => d.busOwner? v.source

def followsAll (d : Design) (before : List OpId) : List OpId → Bool
  | [] => true
  | c :: rest => (sources d c).all before.contains && followsAll d (before ++ [c]) rest

theorem mem_sources : src ∈ sources d c ↔ Draws d c src := by
  unfold sources Draws
  cases d.op? c with
  | none => simp
  | some o =>
    simp only [mem_filterMap, mem_flatMap, Option.some.injEq]
    exact ⟨fun ⟨v, ⟨n, hn, hv⟩, own⟩ => ⟨o, n, v, rfl, hn, hv, own⟩,
      fun ⟨_, n, v, e, hn, hv, own⟩ => ⟨v, ⟨n, e ▸ hn, hv⟩, own⟩⟩

theorem draws_before_of_followsAll (h : followsAll d done ids = true)
    (split : ids = before ++ c :: rest) (draws : Draws d c src) : src ∈ done ++ before := by
  induction before generalizing done ids with
  | nil =>
    subst split
    simp only [nil_append, followsAll, Bool.and_eq_true, all_eq_true, contains_iff_mem] at h
    exact mem_append_left _ (h.1 src (mem_sources.mpr draws))
  | cons b before ih =>
    subst split
    simp only [cons_append, followsAll, Bool.and_eq_true] at h
    have := ih h.2 rfl
    rwa [append_assoc] at this

/-- A memory is written and read, and in between an operation takes a value that no region has to do with. -/
def betweenCommands : List Command :=
  [.newResource .memory "x" false, .newTask "t" 0 0 .zero true, .newAccess .memoryWrite 3 "w" 0 .one,
   .newPrimitive .op 3 "a" 0 1 .one, .newPrimitive .op 3 "b" 1 0 .one, .newAccess .memoryRead 3 "r" 0 .one,
   .start 6 2, .start 7 2, .start 8 4, .connect 8 6 11, .start 9 7, .finish 3 .done 9, .trackStalls]

theorem between_tracking_ignores_order : ∃ d m t e t' e', runAll betweenCommands { name := "x" } = some d ∧
    d.op? 3 = some m ∧ Admissible d m [4, 6, 7, 8, 9, 5] ∧ Admissible d m [4, 7, 6, 8, 9, 5] ∧
    ({ mod := 3, regions := [0] } : Tracker).registerAll [4, 6, 7, 8, 9, 5] d = .ok (t, e) ∧
    ({ mod := 3, regions := [0] } : Tracker).registerAll [4, 7, 6, 8, 9, 5] d = .ok (t', e') ∧
    (t.moduleStalls e).filter (·.region != absent) = (t'.moduleStalls e').filter (·.region != absent) ∧
    ∀ s, s ∈ t.moduleStalls e ↔ s ∈ t'.moduleStalls e' := by
  obtain ⟨d, hd, m, hm, children, inBuf, one, other, siblings⟩ : ∃ d,
      runAll betweenCommands { name := "x" } = some d ∧ ∃ m, d.op? 3 = some m ∧ m.children = [4, 5, 6, 7, 8, 9] ∧
      m.inBuf = 4 ∧ followsAll d [] [4, 6, 7, 8, 9, 5] = true ∧ followsAll d [] [4, 7, 6, 8, 9, 5] = true ∧
      ∀ c ∈ m.children, ∀ src ∈ sources d c, src ∈ m.children ∧ src ≠ c := by
    decide +kernel
  simp only [mem_sources] at siblings
  have admissible : ∀ {ids}, ids.Perm m.children → ids.head? = some m.inBuf → followsAll d [] ids = true →
      Admissible d m ids := fun perm first all =>
    ⟨perm, first, fun _ _ _ split src _ draws => draws_before_of_followsAll all split draws⟩
  have h : Admissible d m [4, 6, 7, 8, 9, 5] := admissible (by rw [children]; decide) (by rw [inBuf]; rfl) one
  have h' : Admissible d m [4, 7, 6, 8, 9, 5] := admissible (by rw [children]; decide) (by rw [inBuf]; rfl) other
  obtain ⟨t, e, t', e', ran, ran', -, -, same, stalls⟩ :=
    tracking_ignores_order ((Built.empty "x").runAll hd).wellFormed hm siblings [0] h h'
  exact ⟨d, m, t, e, t', e', hd, hm, h, h', ran, ran', same, stalls⟩

end Region

end Datapath
