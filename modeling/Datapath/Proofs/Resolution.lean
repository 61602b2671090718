import Datapath.Proofs.Collisions
import Datapath.Proofs.Delaying
import Datapath.Proofs.SafeSpacing
import Datapath.Proofs.ScheduleFrame
import Datapath.Proofs.Untouched

/-!
# Conflicts that have been resolved

A delayed access of the first cycle waits a clock for the start of its owner, so it no longer starts first.
Behind an access of the last cycle the completion of its owner waits a clock, so the access no longer ends
last, as long as the owner cannot complete in another way and nothing on the way is unbounded.
-/

namespace Datapath

open List

variable {d d' : Design}

/-! ## Designs with other dependencies -/

structure SameButDeps (d d' : Design) : Prop where
  ops : d'.ops = d.ops
  ports : d'.ports = d.ports
  exits : d'.exits = d.exits
  faces : view d'.entries Entry.face = view d.entries Entry.face
  lines : view d'.buses Bus.exit = view d.buses Bus.exit

theorem attachAll_same (d : Design) (new : List Dependency) : SameButDeps d (new.foldl Design.attach d) := by
  induction new generalizing d with
  | nil => exact ⟨rfl, rfl, rfl, rfl, rfl⟩
  | cons v new ih =>
    have h := ih (d.attach v)
    refine ⟨h.ops, h.ports, h.exits, h.faces.trans ?_, h.lines.trans ?_⟩
    · exact view_edit_same _ _ fun _ => rfl
    · exact view_edit_same _ _ fun _ => rfl

namespace SameButDeps

section
variable (h : SameButDeps d d')
include h

theorem symm : SameButDeps d' d := ⟨h.ops.symm, h.ports.symm, h.exits.symm, h.faces.symm, h.lines.symm⟩

theorem op? : d'.op? = d.op? := by
  funext i
  rw [Design.op?, Design.op?, h.ops]

theorem exitsOf : d'.exitsOf = d.exitsOf := exitsOf_congr h.exits

theorem mainExit? : d'.mainExit? = d.mainExit? := mainExit?_congr h.exits

theorem busOwner? (b : BusId) : d'.busOwner? b = d.busOwner? b := by
  rw [busOwner?_eq, busOwner?_eq, h.lines, h.exits]

theorem forward_iff {new : List Dependency} (hd : WellFormed d) (wf : WellFormed d')
    (deps : ∀ i, d'.depsIn i = d.depsIn i ++ new.filter (·.entry == i)) (ho : d.op? c = some o) :
    v ∈ Timing.forwardDeps d' o ↔
      v ∈ Timing.forwardDeps d o ∨ v ∈ new ∧ view d.entries Entry.face v.entry = some (c, false) := by
  rw [Datapath.forward_iff wf (h.op? ▸ ho), Datapath.forward_iff hd ho, h.faces]
  simp only [deps, mem_append, mem_filter, beq_iff_eq]
  constructor
  · rintro ⟨i, face, old | ⟨added, rfl⟩⟩
    · exact .inl ⟨i, face, old⟩
    · exact .inr ⟨added, face⟩
  · rintro (⟨i, face, old⟩ | ⟨added, face⟩)
    · exact ⟨i, face, .inl old⟩
    · exact ⟨v.entry, face, .inr ⟨added, rfl⟩⟩

theorem joins (hv : d.Joins v src dst) : d'.Joins v src dst :=
  ⟨(h.busOwner? _).trans hv.source, by rw [Design.port?, h.ports]; exact hv.target⟩

theorem nested (hn : Nested d' mod c) : Nested d mod c := by
  induction hn with
  | child hm hc => exact .child (h.op? ▸ hm) hc
  | deeper _ ho inline hc ih => exact .deeper ih (h.op? ▸ ho) inline hc

theorem flowExit (hx : FlowExit d' mod x) : FlowExit d mod x := by
  obtain ⟨flow, c, o, hn, ho, mem⟩ := hx
  exact ⟨flow, c, o, h.nested hn, h.op? ▸ ho, h.exitsOf ▸ mem⟩

theorem bounded (all : ExitsBounded d mod) : ExitsBounded d' mod := by
  intro c o x hn ho hx
  rw [h.op?] at ho
  rw [h.exitsOf] at hx
  exact all (h.nested hn) ho hx

end

end SameButDeps

/-! ## Waiting -/

theorem Timing.Timed.waits (hd : WellFormed d) (ht : Timed d mod base t) (hb : base.Valid)
    (hx : ∀ {x}, FlowExit d mod x → x.latency.Valid) (small : NoOverflow d mod t) (hn : Nested d mod c)
    (ho : d.op? c = some o) (kind : o.kind ≠ .mux) (hv : v ∈ forwardDeps d o) :
    ∃ l k, t.input? c = some l ∧ t.bus? v.source = some k ∧ k.min.toInt + v.minClocks.toInt ≤ l.min.toInt ∧
      (l.isOpen = false → k.max.toInt + v.minClocks.toInt ≤ l.max.toInt) := by
  obtain ⟨outer, times, -, driven, hl⟩ := (ht.settled hd).start hn ho
  have hk := driven v hv
  have valid := (ht.valid hd hb hx small).2 hk
  obtain ⟨-, isOpen, min, max⟩ := arrival_exact (clocks_nonneg hd hv) valid (small.deps hn ho hv hk)
  have mem : arrival v (times v) ∈ (forwardDeps d o).map fun v => arrival v (times v) := mem_map_of_mem hv
  obtain ⟨least, most⟩ := Latency.covers_iff.mp (startOf_covers_each o.kind outer kind mem)
  refine ⟨_, times v, hl, hk, min ▸ least, fun closed => ?_⟩
  obtain ⟨each, upper⟩ := most closed
  exact max (isOpen ▸ each) ▸ upper

theorem Latency.exceeds_of_lt {a b : Latency} (ha : a.isOpen = false) (hb : b.isOpen = false)
    (min : b.min.toInt < a.min.toInt) (max : b.max.toInt ≤ a.max.toInt) : a.exceeds b = true := by
  have ne : a ≠ b := fun e => Int.lt_irrefl _ (e ▸ min)
  have bounded : b.max ≠ unknown := by simpa [isOpen] using hb
  have le : b.min ≤ a.min := Int64.le_iff_toInt_le.mpr (Int.le_of_lt min)
  have le' : b.max ≤ a.max := Int64.le_iff_toInt_le.mpr max
  simp [exceeds, dominates, maxGe, ne, ha, bounded, le, le']

theorem Latency.Sums.exceeds {l e start : Latency} (hl : l.Sums k start) (he : e.Sums late start)
    (closed : l.isOpen = false) (closed' : e.isOpen = false) (min : e.min.toInt < l.min.toInt)
    (max : e.max.toInt ≤ l.max.toInt) : k.exceeds late = true := by
  have bounded : k.isOpen = false := (Bool.or_eq_false_iff.mp (hl.isOpen.symm.trans closed)).1
  have bounded' : late.isOpen = false := (Bool.or_eq_false_iff.mp (he.isOpen.symm.trans closed')).1
  apply exceeds_of_lt bounded bounded'
  · rw [hl.min, he.min] at min
    exact Int.lt_of_add_lt_add_right min
  · rw [hl.max closed, he.max closed'] at max
    exact Int.le_of_add_le_add_right max

namespace Loop

open Timing

/-! ## What may be delayed -/

theorem contended_kind (h : contended c o = some key) : o.kind ≠ .mux ∧ o.kind ≠ .whileBody := by
  constructor
  · intro e
    simp [contended, e, Kind.isExclusive, Kind.isAccess, Kind.isRead, Kind.isWrite] at h
  · intro e
    simp [contended, e, Kind.isExclusive, Kind.isAccess, Kind.isRead, Kind.isWrite] at h

def Contends (d : Design) (block c : OpId) : Prop :=
  Nested d block c ∧ ∃ o key, d.op? c = some o ∧ contended c o = some key

theorem StartsFirst.contends (h : StartsFirst d t block key c) : Contends d block c := by
  obtain ⟨o, start, path, early, visited, ho, key, -⟩ := h
  exact ⟨visited.nested, o, _, ho, key⟩

theorem EndsLast.contends (h : EndsLast d t block key c) : Contends d block c := by
  obtain ⟨o, start, path, early, late, visited, occupies, -⟩ := h
  exact ⟨visited.nested, o, _, occupies.op, occupies.key⟩

theorem owner_isModule (hd : WellFormed d) (hb : d.op? block = some b) (kind : b.kind = .block)
    (hn : Nested d block c) (ho : d.op? c = some o) (hm : d.op? o.owner = some m) : m.kind.isModule = true := by
  rcases hn.owner hd ho with e | ⟨-, p, hp, inline⟩
  · rw [e, hb] at hm
    cases hm
    rw [kind]
    rfl
  · rw [hm] at hp
    cases hp
    exact (Bool.and_eq_true_iff.mp inline).1

/-! ## Where the new dependencies are -/

section
variable (hd : WellFormed d) (laid : Laid d)
include hd laid

theorem forward_face (ho : d.op? c = some o) (kind : o.kind ≠ .whileBody) (hi : i ∈ o.entries) :
    view d.entries Entry.face i = some (c, false) := by
  obtain ⟨b, face⟩ := entry_face hd ho hi
  cases b with
  | false => exact face
  | true =>
    obtain ⟨l, m, place, -⟩ := laid.again face
    rw [Design.place?, view_of _ ho, Option.some.injEq] at place
    exact absurd (congrArg Prod.fst place) kind

theorem Delays.start_face (h : Delays d true a v) (ho : d.op? a = some o) (kind : o.kind ≠ .whileBody) :
    view d.entries Entry.face v.entry = some (a, false) := by
  cases h with
  | start ho' hm hg entry source target =>
    cases ho.symm.trans ho'
    exact forward_face hd laid ho kind (mem_of_mem_head? entry)

omit hd in
theorem Delays.start_source (h : Delays d true a v) (ho : d.op? a = some o) (hm : d.op? o.owner = some m)
    (module : m.kind.isModule = true) : ((d.busOwner? v.source).bind d.op?).map Operation.owner = some o.owner := by
  cases h with
  | start ho' hm' hg entry source target =>
    cases ho.symm.trans ho'
    cases hm.symm.trans hm'
    obtain ⟨b, ib, peer, carried, place⟩ := laid.front hm module
    obtain ⟨buf, hbuf, place⟩ := view_some.mp place
    rw [view_of _ hg, Option.some.injEq] at peer
    rw [source, peer, carried.busOwner?]
    show (d.op? ib).map Operation.owner = _
    rw [show d.op? ib = some buf from hbuf]
    exact congrArg some (congrArg Prod.snd place)

theorem Delays.finish_face (h : Delays d false a v) : ∃ o m x y q, d.op? a = some o ∧ d.op? o.owner = some m ∧
    d.mainExit? m = some x ∧ d.mainExit? o = some y ∧ d.op? x.peer = some q ∧ q.kind = .outBuf ∧ q.owner = o.owner ∧
    v.source = y.done ∧ view d.entries Entry.face v.entry = some (x.peer, false) := by
  cases h with
  | @finish _ o m q x y _ ho hm hx hy hq entry source target =>
    obtain ⟨q', hq', kind, owner⟩ := hd.peer hm (mainExit?_mem hx) (ne_absent hq)
    cases hq.symm.trans hq'
    have forward := forward_face hd laid hq (by rw [kind]; nofun) (mem_of_mem_head? entry)
    exact ⟨o, m, x, y, q, ho, hm, hx, hy, hq, kind, owner, source, forward⟩

end

theorem busOwner?_done (hd : WellFormed d) (ho : d.op? a = some o) (hy : y ∈ d.exitsOf o) :
    d.busOwner? y.done = some a := by
  obtain ⟨rfl, there⟩ := hd.exitsOf ho hy
  obtain ⟨bus, hbus, e⟩ := hd.bus_of_exit there mem_cons_self
  rw [← e] at there
  simp [Design.busOwner?, hbus, there]

structure Slowed (d d' : Design) (heads : Bool) (accesses : List OpId) (new : List Dependency) : Prop where
  same : SameButDeps d d'
  wf : WellFormed d'
  deps : ∀ i, d'.depsIn i = d.depsIn i ++ new.filter (·.entry == i)
  each : ∀ a ∈ accesses, ∃ v ∈ new, v.minClocks = 1 ∧ Delays d heads a v
  only : ∀ v ∈ new, ∃ a ∈ accesses, Delays d heads a v

theorem resolve_slows {cs : ConflictSet} (hd : WellFormed d)
    (ran : cs.resolve (identity d) d = .ok ((n, none), d')) : ∃ new, Slowed d d' cs.delaysHeads cs.delayed new := by
  have wf : WellFormed d' := (keeps_delayAll ..).kept hd ran
  obtain ⟨new, rfl, gains, -, each, ⟨-, all⟩ | ⟨_, _, -, some, -⟩⟩ := delayAll_attaches hd ran
  · rw [all, take_length] at each
    have live : ∀ {a v}, DelaysLive d cs.delaysHeads (identity d) a v →
        v.minClocks = 1 ∧ Delays d cs.delaysHeads a v := by
      rintro a v ⟨-, clock, c, hc, delays⟩
      obtain ⟨o, -, rfl⟩ := Option.map_eq_some_iff.mp hc
      exact ⟨clock, delays⟩
    refine ⟨new, attachAll_same d new, wf, gains.deps, fun a ha => ?_, fun v hv => ?_⟩
    · obtain ⟨v, hv, h⟩ := forall₂_left each _ ha
      exact ⟨v, hv, live h⟩
    · obtain ⟨a, ha, h⟩ := forall₂_right each _ hv
      exact ⟨a, ha, (live h).2⟩
  · cases some

namespace Slowed

section
variable (s : Slowed d d' heads accesses new) (hd : WellFormed d)
include s hd

theorem forward_iff (ho : d.op? c = some o) :
    v ∈ forwardDeps d' o ↔ v ∈ forwardDeps d o ∨ v ∈ new ∧ view d.entries Entry.face v.entry = some (c, false) :=
  s.same.forward_iff hd s.wf s.deps ho

theorem flows (laid : Laid d) (hb : d.op? block = some b) (kind : b.kind = .block)
    (inside : ∀ a ∈ accesses, Contends d block a) (flows : FlowsLocally d) : FlowsLocally d' := by
  intro o ho v hv
  rw [s.same.ops] at ho
  obtain ⟨c, hc⟩ : ∃ c, d.op? c = some o := ⟨o.id, hd.nesting.ids.at?_of_mem (Array.mem_toList_iff.mpr ho)⟩
  rw [s.same.busOwner?, s.same.op?]
  rcases (s.forward_iff hd hc).mp hv with old | ⟨added, face⟩
  · exact flows o ho v old
  obtain ⟨a, ha, delays⟩ := s.only v added
  obtain ⟨hn, p, key, hp, contended⟩ := inside a ha
  cases heads with
  | true =>
    rw [delays.start_face hd laid hp (contended_kind contended).2] at face
    cases face
    cases hp.symm.trans hc
    cases delays with
    | start ho' hm hg entry source target =>
      cases hp.symm.trans ho'
      have module := owner_isModule hd hb kind hn hp hm
      exact (Delays.start hp hm hg entry source target).start_source laid hp hm module
  | false =>
    obtain ⟨p', m, x, y, q, hp', -, -, hy, hq, -, owner, source, face'⟩ := delays.finish_face hd laid
    cases hp.symm.trans hp'
    rw [face'] at face
    cases face
    cases hq.symm.trans hc
    rw [source, busOwner?_done hd hp (mainExit?_mem hy), owner]
    show (d.op? a).map Operation.owner = _
    rw [hp]
    rfl

end

end Slowed

/-! ## The next analysis -/

def EndsWithDone (d : Design) (c : OpId) : Prop :=
  ∃ o m x, d.op? c = some o ∧ d.op? o.owner = some m ∧ flowExits d m = [x] ∧ x.tag = .done

theorem mainExit?_of_alone (alone : flowExits d m = [x]) (done : x.tag = .done) : d.mainExit? m = some x := by
  have mem : x ∈ d.exitsOf m := (mem_filter.mp (by rw [← flowExits, alone]; exact mem_singleton_self x)).1
  cases found : d.exitWith? m .done with
  | none => exact absurd done (by simpa using find?_eq_none.mp found x mem)
  | some z =>
    have tag : z.tag = .done := by simpa using find?_some found
    have flow : z ∈ flowExits d m := mem_filter.mpr ⟨mem_of_find?_eq_some found, by rw [tag]; rfl⟩
    rw [alone, mem_singleton] at flow
    rw [Design.mainExit?, found, flow]

theorem ownerCompletesAfter_alone (ho : d.op? c = some o) (hm : d.op? o.owner = some m)
    (alone : flowExits d m = [x]) (hl : t.input? x.peer = some l) :
    (ownerCompletesAfter d t c late).run f = .ok (.ok (l.exceeds late), f) := by
  have op : d.op c = .ok o := require_ok.mpr ho
  have owner : d.op o.owner = .ok m := require_ok.mpr hm
  refine step_bind_run.mpr (.inr ⟨o, f, step_lift_run.mpr ⟨o, op, rfl, rfl⟩, ?_⟩)
  refine step_bind_run.mpr (.inr ⟨m, f, step_lift_run.mpr ⟨m, owner, rfl, rfl⟩, ?_⟩)
  simp [alone, hl]
  rfl

theorem isLast_of_after (after : (ownerCompletesAfter d t c late).run f = .ok (.ok true, f))
    (ne : path ≠ []) : (isLast d t path c late).run f = .ok (.ok false, f) := by
  cases path with
  | nil => exact absurd rfl ne
  | cons m rest => exact step_bind_run.mpr (.inr ⟨true, f, after, rfl⟩)

theorem over_before (cmp : Comparable d block .zero t g) (hn : Nested d block a)
    (occupies : Occupies d t a o key early late) (hy : d.mainExit? o = some y) (hk : g.bus? y.done = some k) :
    ∃ l m : Latency, g.input? o.owner = some m ∧ l.Sums late m ∧ l.min.toInt ≤ k.min.toInt ∧
      (k.isOpen = false → l.isOpen = false ∧ l.max.toInt ≤ k.max.toInt) := by
  obtain ⟨bus, x, input, hbus, hx, flow, hin, rfl⟩ := cmp.timed.busAt hk
  obtain ⟨rfl, there⟩ := cmp.wf.exitsOf occupies.op (mainExit?_mem hy)
  obtain ⟨bus', hbus', e⟩ := cmp.wf.bus_of_exit there mem_cons_self
  cases hbus.symm.trans hbus'
  rw [e, there] at hx
  cases hx
  have ended := occupies.ends
  by_cases memory : o.kind = .memoryRead ∨ o.kind = .memoryWrite
  · rw [if_pos memory] at ended
    subst ended
    obtain ⟨l, early, m, hl, he, hm, sums, -⟩ := cmp.input hn occupies.op
    cases occupies.input.symm.trans he
    cases hl.symm.trans (lookup_of_mem cmp.timed.trace.nodup hin)
    have valid := cmp.exits flow
    have valid' := (cmp.timed.valid cmp.wf cmp.valid cmp.exits cmp.noOverflow).1 hl
    have adds := cmp.noOverflow.exits flow hl
    refine ⟨input, m, hm, sums, ?_, fun closed => ?_⟩
    · rw [Latency.after_min valid valid' adds]
      exact Int.le_add_of_nonneg_left valid.1
    · rw [Latency.after_isOpen valid valid', Bool.or_eq_false_iff] at closed
      rw [Latency.after_max valid valid' adds closed.1 closed.2]
      exact ⟨closed.2, Int.le_add_of_nonneg_left (valid.max_nonneg closed.1)⟩
  · rw [if_neg memory] at ended
    obtain ⟨o', ho', ended⟩ := bind_ok.mp ended
    cases occupies.op.symm.trans (op_ok ho')
    rw [hy] at ended
    obtain ⟨l, late', m, hl, hlate, hm, sums⟩ := cmp.bus hn occupies.op (mainExit?_mem hy) flow.1 mem_cons_self
    cases hlate.symm.trans (Except.ok.inj ended)
    cases hl.symm.trans hk
    exact ⟨_, m, hm, sums, Int.le_refl _, fun closed => ⟨closed, Int.le_refl _⟩⟩

theorem Slowed.not_first (s : Slowed d d' true accesses new) (hd : WellFormed d) (laid : Laid d)
    (cmp : Comparable d' block .zero t g) (ha : a ∈ accesses) : ¬ StartsFirst d' t block key a := by
  rintro ⟨o, start, path, early, visited, ho, contended, hearly, first⟩
  obtain ⟨v, added, clock, delays⟩ := s.each a ha
  have face := delays.start_face hd laid (s.same.op? ▸ ho) (contended_kind contended).2
  have forward : v ∈ forwardDeps d' o := (s.forward_iff hd (s.same.op? ▸ ho)).mpr (.inr ⟨added, face⟩)
  obtain ⟨l, k, hl, hk, later, -⟩ := cmp.timed.waits cmp.wf cmp.valid cmp.exits cmp.noOverflow visited.nested ho
    (contended_kind contended).1 forward
  obtain ⟨early', l', he, hl', same⟩ := visited.early_eq cmp
  cases hearly.symm.trans he
  cases hl.symm.trans hl'
  have nonneg := ((cmp.timed.valid cmp.wf cmp.valid cmp.exits cmp.noOverflow).2 hk).1
  rw [← same, first, clock] at later
  change k.min.toInt + 1 ≤ 0 at later
  omega

theorem Slowed.not_last (s : Slowed d d' false accesses new) (hd : WellFormed d) (laid : Laid d)
    (cmp : Comparable d' block .zero t g) (bounded : ExitsBounded d block) (ha : a ∈ accesses)
    (done : EndsWithDone d a) : ¬ EndsLast d' t block key a := by
  rintro ⟨o', start, path, early, late, visited, occupies, last⟩
  obtain ⟨v, added, clock, delays⟩ := s.each a ha
  obtain ⟨o, m, x, y, q, ho, hm, hx, hy, hq, kind, owner, source, face⟩ := delays.finish_face hd laid
  obtain ⟨o1, m1, x1, ho1, hm1, alone, tag⟩ := done
  cases ho.symm.trans ho1
  cases hm.symm.trans hm1
  cases hx.symm.trans (mainExit?_of_alone alone tag)
  rw [← s.same.op?] at ho hm hq
  rw [← s.same.mainExit?] at hy
  cases ho.symm.trans occupies.op
  have inside : Nested d' block x.peer := visited.nested.sibling s.wf ho hq owner (owner ▸ ne_absent hm)
  have forward : v ∈ forwardDeps d' q := (s.forward_iff hd (s.same.op? ▸ hq)).mpr (.inr ⟨added, face⟩)
  obtain ⟨l, k, hl, hk, later, later'⟩ := cmp.timed.waits cmp.wf cmp.valid cmp.exits cmp.noOverflow inside hq
    (by rw [kind]; nofun) forward
  rw [source] at hk
  rw [clock] at later later'
  -- the completion of the owner and the access are counted from the same start
  obtain ⟨l', late', outer, hl', hlate', houter, sums, -⟩ := cmp.input inside hq
  cases hl.symm.trans hl'
  obtain ⟨e, outer', houter', sums', before, before'⟩ := over_before cmp visited.nested occupies hy hk
  cases (owner ▸ houter).symm.trans houter'
  have all := cmp.timed.closed cmp.wf cmp.valid rfl (s.same.bounded bounded) cmp.noOverflow
  have ended := all.1 hl
  obtain ⟨closed, before'⟩ := before' (all.2 hk)
  have later' := later' ended
  change k.min.toInt + 1 ≤ l.min.toInt at later
  change k.max.toInt + 1 ≤ l.max.toInt at later'
  have after : late'.exceeds late = true := sums.exceeds sums' ended closed (by omega) (by omega)
  have alone' : flowExits d' m = [x] := by
    rw [flowExits, s.same.exitsOf]
    exact alone
  have completes : (ownerCompletesAfter d' t a late).run {} = .ok (.ok true, {}) :=
    after ▸ ownerCompletesAfter_alone ho hm alone' hlate'
  rw [isLast_of_after completes (by cases visited <;> simp)] at last
  cases last

theorem mem_delayed (made : ConflictSet.make policy conflicts = .ok cs) :
    a ∈ cs.delayed ↔ policy ≠ .fixNone ∧ ∃ k ∈ conflicts, cs.side k = a := by
  rw [(firsts_delayed made).mem]
  split
  next none => simp [none]
  next asked => simp [asked]

theorem delayed_contends
    (hd : WellFormed d) (hbd : d.op? body = some bd) (ran : (analyze d body false).run = .ok (.ok report))
    (made : ConflictSet.make policy report.all = .ok cs) (ha : a ∈ cs.delayed) : Contends d bd.body a := by
  obtain ⟨-, k, hk, rfl⟩ := (mem_delayed made).mp ha
  obtain ⟨bd', t, key, hbd', -, -, -, first, last, -⟩ := analyze_sound hd ran hk
  cases hbd.symm.trans hbd'
  rw [ConflictSet.side]
  split
  · exact first.contends
  · exact last.contends

theorem analyze_comparable {k : Conflict} (hd : WellFormed d)
    (flows : FlowsLocally d) (hx : ∀ x ∈ d.exits, x.latency.Valid) (hbd : d.op? body = some bd)
    (hb : d.op? bd.body = some b) (small : Exact d bd.body) (ran : (analyze d body false).run = .ok (.ok report))
    (hk : k ∈ report.all) : ∃ t g key, Comparable d bd.body .zero t g ∧ StartsFirst d t bd.body key k.headAccess ∧
      EndsLast d t bd.body key k.tailAccess := by
  obtain ⟨bd', t, key, hbd', -, -, ht, first, last, -⟩ := analyze_sound hd ran hk
  cases hbd.symm.trans hbd'
  have abreast : Abreast (fun _ t _ g => Alongside d bd.body .zero t g) _ _ := compute_abreast hd hb
  obtain ⟨g, hg⟩ := abreast.succeeds_iff.mp ⟨t, ht⟩
  have zero : Latency.zero.Valid := by decide
  exact ⟨t, g, key,
    comparable_of_computed hd flows hx hb zero ht hg (small _ (by simp) t ht) (small _ (by simp) g hg), first, last⟩

/-- When the conflicts of a loop body are resolved, a new analysis reports none with a delayed head. Where tails are
delayed and no latency in the block is unbounded, it reports none with a delayed tail whose owner ends with its done
exit alone. -/
theorem resolved_conflicts_vanish {d d' : Design} {report' : FlopReport} {n : Nat} (built : Built d)
    (flows : FlowsLocally d) (hx : ∀ x ∈ d.exits, x.latency.Valid) (hbd : d.op? body = some bd)
    (ran : (analyze d body false).run = .ok (.ok report)) (asked : policy ≠ .fixNone)
    (made : ConflictSet.make policy report.all = .ok cs)
    (resolved : cs.resolve (identity d) d = .ok ((n, none), d')) (small : Exact d' bd.body)
    (again : (analyze d' body false).run = .ok (.ok report')) :
    (cs.delaysHeads = true → ∀ k ∈ report.all, ∀ k' ∈ report'.all, k'.headAccess ≠ k.headAccess) ∧
    (cs.delaysHeads = false → ExitsBounded d bd.body → ∀ k ∈ report.all, EndsWithDone d k.tailAccess →
      ∀ k' ∈ report'.all, k'.tailAccess ≠ k.tailAccess) := by
  have hd := built.wellFormed
  obtain ⟨new, s⟩ := resolve_slows hd resolved
  have inside : ∀ a ∈ cs.delayed, Contends d bd.body a := fun a => delayed_contends hd hbd ran made
  have seen : ∀ k ∈ report.all, ∀ k' ∈ report'.all, ∃ t g key, Comparable d' bd.body .zero t g ∧
      StartsFirst d' t bd.body key k'.headAccess ∧ EndsLast d' t bd.body key k'.tailAccess := by
    intro k hk k' hk'
    obtain ⟨bd', -, -, hbd', loop, there, -⟩ := analyze_sound hd ran hk
    cases hbd.symm.trans hbd'
    obtain ⟨b, hb, place⟩ := view_some.mp (built.laid.body hbd loop there)
    have flows' := s.flows hd built.laid hb (congrArg Prod.fst place) inside flows
    have hb' : d'.op? bd.body = some b := by
      rw [s.same.op?]
      exact hb
    exact analyze_comparable s.wf flows' (s.same.exits ▸ hx) (s.same.op? ▸ hbd) hb' small again hk'
  constructor
  · intro heads k hk k' hk' same
    obtain ⟨t, g, key, cmp, first, -⟩ := seen k hk k' hk'
    rw [heads] at s
    have delayed := (mem_delayed made).mpr ⟨asked, k, hk, congrFun (ConflictSet.side_heads heads) k⟩
    exact s.not_first hd built.laid cmp delayed (same ▸ first)
  · intro tails bounded k hk done k' hk' same
    obtain ⟨t, g, key, cmp, -, last⟩ := seen k hk k' hk'
    rw [tails] at s
    have delayed := (mem_delayed made).mpr ⟨asked, k, hk, congrFun (ConflictSet.side_tails tails) k⟩
    exact s.not_last hd built.laid cmp bounded delayed done (same ▸ last)

/-- The inner read of a block no longer starts first when it is delayed, and the block ends after its other read
when that one is. -/
theorem reread_resolved_on_either_side : ∃ d report, runAll rereadCommands { name := "x" } = some d ∧
    (analyze d 3 false).run = .ok (.ok report) ∧ report.all = [⟨18, [11, 15], 20, [11]⟩] ∧
    ∀ policy ∈ [Policy.firstAlways, .lastAlways], ∃ cs d' report', ConflictSet.make policy report.all = .ok cs ∧
      cs.resolve (identity d) d = .ok ((1, none), d') ∧ (analyze d' 3 false).run = .ok (.ok report') ∧
      report'.analyzable = true ∧ (cs.delaysHeads = true → ∀ k ∈ report'.all, k.headAccess ≠ 18) ∧
      (cs.delaysHeads = false → ∀ k ∈ report'.all, k.tailAccess ≠ 20) := by
  obtain ⟨d, hd, bd, hbd, report, ran, flows, one, latencies, ⟨o, ho, m, hm, alone⟩, each⟩ :
      ∃ d, runAll rereadCommands { name := "x" } = some d ∧ ∃ bd, d.op? 3 = some bd ∧
      ∃ report, (analyze d 3 false).run = .ok (.ok report) ∧ FlowsLocally d ∧ report.all = [⟨18, [11, 15], 20,
      [11]⟩] ∧ (∀ x ∈ d.exits, x.latency.Valid ∧ x.latency.isOpen = false) ∧
      (∃ o, d.op? 20 = some o ∧ ∃ m, d.op? o.owner = some m ∧ (flowExits d m).map Exit.tag = [.done]) ∧
      ∀ policy ∈ [Policy.firstAlways, .lastAlways], ∃ cs, ConflictSet.make policy report.all = .ok cs ∧
      ∃ r d', cs.resolve (identity d) d = .ok (r, d') ∧ r.1 = 1 ∧ r.2 = none ∧
      ∃ report', (analyze d' 3 false).run = .ok (.ok report') ∧ isExact d' bd.body = true ∧
      report'.analyzable = true := by
    set_option synthInstance.maxSize 100000 in decide +kernel
  obtain ⟨x, alone, tag⟩ := map_eq_singleton_iff.mp alone
  have built := (Built.empty "x").runAll hd
  have bounded : ExitsBounded d bd.body :=
    fun _ ho hx => latencies _ (mem_of_at? (built.wellFormed.exitsOf ho hx).2)
  refine ⟨d, report, hd, ran, one, fun policy hp => ?_⟩
  have asked : policy ≠ .fixNone := by
    rintro rfl
    simp at hp
  obtain ⟨cs, made, ⟨_, _⟩, d', resolved, ⟨⟩, ⟨⟩, report', again, small, analyzable⟩ := each policy hp
  have wf : WellFormed d' := (keeps_delayAll ..).kept built.wellFormed resolved
  obtain ⟨heads, tails⟩ := resolved_conflicts_vanish built flows (fun x hx => (latencies x hx).1) hbd ran asked
    made resolved (exact_of_isExact wf small) again
  rw [one] at heads tails
  refine ⟨cs, d', report', made, resolved, again, analyzable, fun delayed => ?_, fun delayed => ?_⟩
  · exact heads delayed _ (mem_singleton_self _)
  · exact tails delayed bounded _ (mem_singleton_self _) ⟨o, m, x, ho, hm, alone, tag⟩

end Loop

end Datapath
