import Datapath.Proofs.Bypassing
import Datapath.Proofs.WiredLoops

/-!
# Loops without their registers

The input buffer of a wired loop and its latches come before the body, and the body comes before the
registers and the output buffer. Removing the registers closes the loop: the body takes the values
that it feeds back as they are, and the order of the loop stays the same.
-/

namespace Datapath

open List

variable {d e : Design}

/-! ## Drives -/

theorem drive_mem (hv : v ∈ d.depsIn i) : v.drive ∈ d.driving i v.target :=
  mem_map_of_mem (mem_filter.mpr ⟨hv, by simp⟩)

theorem of_drive (h : t ∈ d.driving i p) : ∃ v ∈ d.depsIn i, v.source = t.2.1 := by
  obtain ⟨v, hv, rfl⟩ := mem_map.mp h
  exact ⟨v, (mem_filter.mp hv).1, rfl⟩

theorem mem_drivers (hd : WellFormed d) (ho : d.op? c = some o) (hk : d.op? k = some q) (own : q.owner = o.owner)
    (ne : k ≠ c) (face : view d.entries Entry.face i = some (c, false)) (hv : v ∈ d.depsIn i)
    (carried : Carried d v.source k) : k ∈ d.drivers o.owner c := by
  unfold Design.drivers
  rw [ho]
  have hv := (forward_iff hd ho).mpr ⟨i, face, hv⟩
  refine mem_filter.mpr ⟨mem_filterMap.mpr ⟨v, hv, carried.busOwner?⟩, ?_⟩
  simp [ne, hk, own]

def Before (ids : List OpId) (a b : OpId) : Prop := ∃ l l', ids = l ++ b :: l' ∧ a ∈ l

theorem order_before {k : OpId} (h : (d.order m).run = .ok (.ok ids)) (hm : d.op? m = some o) (hc : c ∈ o.children)
    (hk : k ∈ d.drivers m c) : Before ids k c := by
  obtain ⟨o', ho', perm⟩ := order_ok h
  cases hm.symm.trans ho'
  obtain ⟨l, l', rfl⟩ := append_of_mem (perm.mem_iff.mpr hc)
  exact ⟨l, l', rfl, order_after h k hk⟩

namespace Loop

/-! ## Cells -/

theorem Cell.place? (h : Cell d loop c kind inputs q) : d.place? c = some (kind, loop) := by
  obtain ⟨o, _, _, _, ho, place, -⟩ := h.shape
  exact view_some.mpr ⟨o, ho, place⟩

section
variable (hd : WellFormed d) (h : Cell d loop c kind inputs q)
include hd h

theorem Cell.driven
    (face : view d.entries Entry.face i = some (c, b)) (hv : v ∈ d.depsIn i) : ∃ l ∈ inputs, v.drive ∈ l := by
  obtain ⟨o, j, x, y, ho, -, entries, go, ports, -⟩ := h.shape
  have same : i = j := by simpa [entries] using mem_entries hd ho face
  subst same
  have mem := drive_mem hv
  -- the target is a port of the cell
  obtain ⟨k, hk, hp⟩ := hd.aimed.target (dep_in hd hv)
  have entry : v.entry = i := by
    obtain ⟨e, he, -⟩ := view_some.mp face
    rw [depsIn_of he] at hv
    obtain ⟨j, hj, hv⟩ := mem_filterMap.mp hv
    obtain ⟨w, hw, entry⟩ := dep_of_mem hd he j hj
    cases (show at? d.deps j = some v from hv).symm.trans hw
    exact entry
  obtain ⟨e, he, face⟩ := view_some.mp face
  rw [entry, view_of _ he, Option.some.injEq, show e.owner = c from congrArg Prod.fst face] at hk
  subst hk
  obtain ⟨p, hp', own⟩ := view_some.mp hp
  by_cases atGo : v.target = o.go
  · rw [atGo, go] at mem
    cases mem
  · have port := mem_ports hd ho (b := p.isGo) (view_some.mpr ⟨p, hp', Prod.ext own rfl⟩) atGo
    exact ⟨_, ports ▸ mem_map_of_mem port, mem⟩

theorem Cell.input (hl : l ∈ inputs)
    (ht : t ∈ l) : ∃ i v b, view d.entries Entry.face i = some (c, b) ∧ v ∈ d.depsIn i ∧ v.source = t.2.1 := by
  obtain ⟨o, j, x, y, ho, -, entries, -, ports, -⟩ := h.shape
  obtain ⟨b, face⟩ := entry_face hd ho (i := j) (entries ▸ mem_cons_self)
  rw [← ports] at hl
  obtain ⟨p, -, rfl⟩ := mem_map.mp hl
  obtain ⟨v, hv, source⟩ := of_drive ht
  exact ⟨j, v, b, face, hv, source⟩

end

/-! ## The operations of a wired loop -/

structure Parts.Circuit (s : Parts) (loop ctl : OpId) (fs : List Feed) (d e : Design) (r : Wiring) : Prop where
  before : WellFormed d
  after : WellFormed e
  laid : Laid e
  of : s.Of d loop
  unfed : s.Unfed d
  aims : Aims d fs
  restarts : s.Restarts d loop ctl
  wired : s.Wired loop fs d e r
  gains : ∃ l, Gains (fun _ => False) d e l
  only : ∀ {c : Int}, d.ops.size ≤ c → c < e.ops.size → c ∈ (r.latches ++ r.registers).map Prod.snd

namespace Parts.Circuit

section
variable {s : Parts} (h : s.Circuit loop ctl fs d e r)
include h

theorem ofAfter : s.Of e loop := by
  obtain ⟨l, g⟩ := h.gains
  exact h.of.gains g

/-! ### Where values come from -/

theorem exit_carries (hx : at? d.exits i = some x) {b : BusId} (hb : b ∈ x.done :: x.buses) :
    Carried e b x.owner := by
  obtain ⟨l, g⟩ := h.gains
  exact g.carried (carried_exit h.before hx hb)

theorem start_carried : Carried e s.start s.inBuf := by
  obtain ⟨x, hx, own, -, done⟩ := h.of.outside.input
  rw [← own, ← done]
  exact h.exit_carries hx mem_cons_self

theorem feed_carried (hf : f ∈ s.feeds d u fs) : Carried e f.source (if u = .initial then s.inBuf else s.body) := by
  obtain ⟨l, g⟩ := h.gains
  obtain ⟨-, use⟩ := mem_filter.mp hf
  obtain ⟨b, hb, use⟩ := Option.bind_eq_some_iff.mp (beq_iff_eq.mp use)
  apply g.carried
  refine ⟨b.exit, view_of _ hb, ?_⟩
  obtain ⟨x1, h1, own1, -⟩ := h.of.inside.again
  obtain ⟨x2, h2, own2, -⟩ := h.of.inside.leave
  obtain ⟨x3, h3, own3, -⟩ := h.of.outside.input
  split at use
  next e => cases use; exact view_some.mpr ⟨x1, e ▸ h1, own1⟩
  next =>
    split at use
    next e => cases use; exact view_some.mpr ⟨x2, e ▸ h2, own2⟩
    next =>
      split at use
      next e => cases use; exact view_some.mpr ⟨x3, e ▸ h3, own3⟩
      next => cases use

theorem value_carried {b : BusId} (hb : lastSource? (s.feeds d .initial fs) p = some b) :
    Carried e b s.inBuf := h.feed_carried (lastSource?_mem hb)

/-! ### The control register -/

theorem go_untargeted : s.go ∉ targets (s.feeds d .initial fs) := by
  intro hp
  obtain ⟨f, hf, go⟩ := mem_map.mp hp
  obtain ⟨k, leads⟩ := feed_leads h.aims hf
  have face := leads.port
  rw [show (f.target, f.source).1 = s.go from go, h.of.inside.go] at face
  cases face

theorem control : ∃ z q, at? e.exits s.again = some z ∧ Carried e z.done s.body ∧
    Cell e loop ctl .reg [[(.data, z.done, 0)]] q ∧ e.driving s.feedback s.go = [(.control, q, 0)] := by
  obtain ⟨o, i, p, x, y, q, z, v, w, ho, place, entries, ports, exits, hy, buses, hz, deps, feedback⟩ :=
    h.restarts.register
  obtain ⟨z', hz', own, -⟩ := h.of.inside.again
  cases hz.symm.trans hz'
  obtain ⟨l, g⟩ := h.gains
  have distinct := h.before.ports.nodup (view_of Design.allPorts ho)
  rw [Design.allPorts, ports] at distinct
  simp only [nodup_cons, mem_cons, not_mem_nil, or_false] at distinct
  have cell : Cell d loop ctl .reg [[(.data, z.done, 0)]] q := by
    refine ⟨o, i, x, y, ho, place, entries, ?_, ?_, exits, hy, buses⟩
    · rw [Design.driving, deps]
      simp [Ne.symm distinct.1]
    · rw [ports]
      simp [Design.driving, deps, Dependency.drive]
  have n1 : ctl ≠ s.body := h.of.inside.ne_body ho place (by decide)
  have n2 : ctl ≠ s.outBuf := by
    intro same
    obtain ⟨b, hb, bplace, -⟩ := h.of.outside.outBuf
    rw [same, hb] at ho
    cases ho
    cases place.symm.trans bplace
  refine ⟨z, q, g.exit hz, own ▸ h.exit_carries hz mem_cons_self, cell.untouched h.before (h.wired.others n1 n2),
    ?_⟩
  rw [(h.wired.inner s.go h.go_untargeted).2, Design.driving, feedback]
  simp [Dependency.drive]

theorem register {c : PortId × OpId} (hc : c ∈ r.registers) : ∃ f q, f ∈ s.feeds d .feedback fs ∧ c.1 = f.target ∧
    Cell e loop c.2 .reg [[(.data, f.source, 0)]] q ∧ e.driving s.feedback f.target = [(.data, q, 0)] := by
  obtain ⟨f, hf, target, b, q, -, cell, -, back⟩ := forall₂_right h.wired.registers c hc
  exact ⟨f, q, hf, target, cell, back⟩

theorem child (hc : e.place? c = some (k, loop)) : c = s.inBuf ∨ c = s.outBuf ∨ c = s.body ∨ c = ctl ∨
    c ∈ r.latches.map Prod.snd ∨ c ∈ r.registers.map Prod.snd := by
  by_cases old : c < (d.ops.size : Int)
  · obtain ⟨o, ho⟩ := at?_of_lt (view_lt hc).1 old
    obtain ⟨l, g⟩ := h.gains
    have place : view d.ops Operation.place c = some (k, loop) := by
      have same := g.place (view_of Operation.place ho)
      rw [hc] at same
      rw [view_of _ ho, same]
    rcases h.restarts.children place with e | e | e | e
    · exact .inl e
    · exact .inr (.inl e)
    · exact .inr (.inr (.inl e))
    · exact .inr (.inr (.inr (.inl e)))
  · have new := h.only (Int.not_lt.mp old) (view_lt hc).2
    rw [map_append, mem_append] at new
    exact .inr (.inr (.inr (.inr new)))

/-! ### What drives what -/

theorem inBuf_place : e.place? s.inBuf = some (.inBuf, loop) := by
  obtain ⟨o, ho, place, -⟩ := h.ofAfter.outside.inBuf
  exact view_some.mpr ⟨o, ho, place⟩

theorem outBuf_place : e.place? s.outBuf = some (.outBuf, loop) := by
  obtain ⟨o, ho, place, -⟩ := h.ofAfter.outside.outBuf
  exact view_some.mpr ⟨o, ho, place⟩

theorem body_place : e.place? s.body = some (.whileBody, loop) := by
  obtain ⟨o, ho, place, -⟩ := h.ofAfter.inside.op
  exact view_some.mpr ⟨o, ho, place⟩

theorem inBuf_undriven (face : view e.entries Entry.face i = some (s.inBuf, b)) : e.depsIn i = [] := by
  obtain ⟨o, ho, place, -⟩ := h.of.outside.inBuf
  have n1 : s.inBuf ≠ s.body := h.of.inside.ne_body ho place nofun
  have n2 : s.inBuf ≠ s.outBuf := by
    intro same
    have place := h.inBuf_place
    rw [same, h.outBuf_place] at place
    cases place
  have u := h.wired.others n1 n2
  have face' := u.entryBack h.before h.after ho face
  rw [u.deps face', h.restarts.front face']

theorem initial_source (hv : v ∈ e.depsIn s.initial) :
    Carried e v.source s.inBuf ∨ ∃ c ∈ r.latches, Carried e v.source c.2 := by
  have mem := drive_mem hv
  by_cases hp : v.target ∈ targets (s.feeds d .initial fs)
  · by_cases back : v.target ∈ targets (s.feeds d .feedback fs)
    · -- a value that is replaced after the first iteration
      obtain ⟨f, hf, target⟩ := mem_map.mp back
      obtain ⟨c, -, -, b, q, hb, -, start, -⟩ := forall₂_left h.wired.registers f hf
      rw [← target, start, mem_singleton] at mem
      have source : v.source = b := congrArg (fun t : Drive => t.2.1) mem
      exact .inl (source ▸ h.value_carried hb)
    · obtain ⟨c, hc, target⟩ := mem_map.mp ((h.wired.latched _).mpr ⟨hp, back⟩)
      obtain ⟨b, q, -, cell, start, -⟩ := h.wired.latches c hc
      rw [← target, start, mem_singleton] at mem
      have source : v.source = q := congrArg (fun t : Drive => t.2.1) mem
      exact .inr ⟨c, hc, source ▸ cell.carried h.after⟩
  · obtain ⟨w, hw, source, -⟩ := h.unfed.initial
    rw [(h.wired.inner _ hp).1] at mem
    obtain ⟨w', hw', same⟩ := of_drive mem
    rw [hw, mem_singleton] at hw'
    subst hw'
    have same : v.source = s.start := same.symm.trans source
    exact .inl (same ▸ h.start_carried)

theorem completion_source (hv : v ∈ e.depsIn s.completion) : Carried e v.source s.body := by
  have mem := drive_mem hv
  by_cases hp : v.target ∈ targets (s.feeds d .output fs)
  · obtain ⟨f, hf, target⟩ := mem_map.mp hp
    rw [← target, h.wired.results f hf, mem_singleton] at mem
    have source : v.source = f.source := congrArg (fun t : Drive => t.2.1) mem
    exact source ▸ h.feed_carried hf
  · obtain ⟨w, i, x, hw, hx, own, done⟩ := h.restarts.completion
    rw [h.wired.outer _ hp] at mem
    obtain ⟨w', hw', same⟩ := of_drive mem
    rw [hw, mem_singleton] at hw'
    subst hw'
    have same : v.source = x.done := same.symm.trans done
    exact own ▸ same ▸ h.exit_carries hx mem_cons_self

theorem register_source {b : BusId} (cell : Cell e loop c .reg [[(.data, b, 0)]] q)
    (face : view e.entries Entry.face i = some (c, f)) (hv : v ∈ e.depsIn i) : v.source = b := by
  obtain ⟨l, hl, mem⟩ := cell.driven h.after face hv
  rw [mem_singleton.mp hl, mem_singleton] at mem
  exact congrArg (fun t : Drive => t.2.1) mem

/-- Outside the feedback path an operation of the loop is driven by one that comes earlier and is no
register. -/
theorem source (ho : e.op? c = some o) (own : o.owner = loop)
    (face : view e.entries Entry.face i = some (c, false)) (hv : v ∈ e.depsIn i) :
    ∃ j k, Carried e v.source j ∧ e.place? j = some (k, loop) ∧ k.level .loop < o.kind.level .loop ∧ k ≠ .reg := by
  have place : e.place? c = some (o.kind, loop) := by rw [place_of_op ho, own]
  have kind : ∀ {k : Kind}, e.place? c = some (k, loop) → o.kind = k := by
    intro k hk
    rw [place] at hk
    exact congrArg Prod.fst (Option.some.inj hk)
  have after_body : Carried e v.source s.body → o.kind.level .loop = 3 →
      ∃ j k, Carried e v.source j ∧ e.place? j = some (k, loop) ∧ k.level .loop < o.kind.level .loop ∧ k ≠ .reg :=
    fun carried top => ⟨s.body, .whileBody, carried, h.body_place, by rw [top]; decide, nofun⟩
  rcases h.child place with rfl | rfl | rfl | rfl | hc | hc
  · rw [h.inBuf_undriven face] at hv
    cases hv
  · obtain ⟨b, hb, -, entries, -⟩ := h.ofAfter.outside.outBuf
    have same : i = s.completion := by simpa [entries] using mem_entries h.after hb face
    subst same
    exact after_body (h.completion_source hv) (by rw [kind h.outBuf_place]; rfl)
  · obtain ⟨b, hb, -, -, entries, -⟩ := h.ofAfter.inside.op
    have same : i = s.initial := by
      have mem := mem_entries h.after hb face
      rw [entries] at mem
      rcases mem_cons.mp mem with e | e
      · exact e
      · rw [mem_singleton.mp e, h.ofAfter.inside.feedback] at face
        cases face
    subst same
    rcases h.initial_source hv with carried | ⟨l, hl, carried⟩
    · exact ⟨s.inBuf, .inBuf, carried, h.inBuf_place, by rw [kind h.body_place]; decide, nofun⟩
    · obtain ⟨b, q, -, cell, -⟩ := h.wired.latches l hl
      exact ⟨l.2, .latch, carried, cell.place?, by rw [kind h.body_place]; decide, nofun⟩
  · obtain ⟨z, q, -, carried, cell, -⟩ := h.control
    have source := h.register_source cell face hv
    exact after_body (source ▸ carried) (by rw [kind cell.place?]; rfl)
  · obtain ⟨l, hl, rfl⟩ := mem_map.mp hc
    obtain ⟨b, q, hb, cell, -⟩ := h.wired.latches l hl
    obtain ⟨t, ht, mem⟩ := cell.driven h.after face hv
    refine ⟨s.inBuf, .inBuf, ?_, h.inBuf_place, by rw [kind cell.place?]; decide, nofun⟩
    rcases mem_cons.mp ht with rfl | ht
    · have source : v.source = s.start := congrArg (fun t : Drive => t.2.1) (mem_singleton.mp mem)
      exact source ▸ h.start_carried
    · rw [mem_singleton.mp ht] at mem
      have source : v.source = b := congrArg (fun t : Drive => t.2.1) (mem_singleton.mp mem)
      exact source ▸ h.value_carried hb
  · obtain ⟨l, hl, rfl⟩ := mem_map.mp hc
    obtain ⟨f, q, hf, -, cell, -⟩ := h.register hl
    have source := h.register_source cell face hv
    exact after_body (source ▸ h.feed_carried hf) (by rw [kind cell.place?]; rfl)

end

end Parts.Circuit

/-- The order of a wired loop: the operations that bring values, the body, and those that take its
results. -/
structure Parts.Runs (s : Parts) (ctl : OpId) (r : Wiring) (ids : List OpId) : Prop where
  input : Before ids s.inBuf s.body
  latches : ∀ c ∈ r.latches, Before ids c.2 s.body
  control : Before ids s.body ctl
  registers : ∀ c ∈ r.registers, Before ids s.body c.2
  completion : Before ids s.body s.outBuf

def Shows (d : Design) (c : OpId) (b : BusId) : Prop :=
  ∃ o x y, d.op? c = some o ∧ x ∈ o.exits ∧ at? d.exits x = some y ∧ b ∈ y.buses

/-- A wired loop without its registers: the body takes what it feeds back as it is. -/
structure Parts.Shortcut (s : Parts) (ctl : OpId) (fs : List Feed) (r : Wiring) (d e e' : Design) : Prop where
  initial : e'.depsIn s.initial = e.depsIn s.initial
  latches : ∀ c ∈ r.latches, ∀ {i b}, view e.entries Entry.face i = some (c.2, b) → e'.depsIn i = e.depsIn i
  fed : ∀ f ∈ s.feeds d .feedback fs, e'.driving s.feedback f.target = [(.data, f.source, 0)]
  restart : ∃ x, at? e.exits s.again = some x ∧ e'.driving s.feedback s.go = [(.control, x.done, 0)]
  unread : ∀ c ∈ ctl :: r.registers.map Prod.snd, ∀ {b}, Shows e c b → ∀ {i v}, e'.dep? i = some v → v.source ≠ b

namespace Parts.Circuit

section
variable {s : Parts} (h : s.Circuit loop ctl fs d e r)
include h

theorem forward (hc : e.place? c = some (k, loop)) (hk : k ≠ .whileBody)
    (face : view e.entries Entry.face i = some (c, b)) : b = false := by
  cases b with
  | false => rfl
  | true =>
    obtain ⟨l, m, place, -⟩ := h.laid.again face
    rw [hc] at place
    cases place
    exact absurd rfl hk

theorem mem_loop {lp : Operation} (hlp : e.op? loop = some lp) (hc : e.place? c = some (k, loop)) :
  c ∈ lp.children := by
  obtain ⟨o, ho, place⟩ := view_some.mp hc
  have own : o.owner = loop := congrArg Prod.snd place
  obtain ⟨m, hm, mem⟩ := h.after.mem_children ho (own ▸ ne_absent hlp)
  rw [own] at hm
  cases hlp.symm.trans hm
  exact mem

theorem precedes {lp : Operation} (hlp : e.op? loop = some lp) (order : (e.order loop).run = .ok (.ok ids))
    (ha : e.place? a = some (j, loop)) (hc : e.place? c = some (k, loop)) (ne : a ≠ c)
    (face : view e.entries Entry.face i = some (c, false)) (hv : v ∈ e.depsIn i)
    (carried : Carried e v.source a) : Before ids a c := by
  obtain ⟨q, hq, qplace⟩ := view_some.mp ha
  obtain ⟨o, ho, place⟩ := view_some.mp hc
  have qown : q.owner = loop := congrArg Prod.snd qplace
  have own : o.owner = loop := congrArg Prod.snd place
  have driver := mem_drivers h.after ho hq (qown.trans own.symm) ne face hv carried
  rw [own] at driver
  exact order_before order hlp (h.mem_loop hlp hc) driver

theorem ordered : ∃ ids, (e.order loop).run = .ok (.ok ids) ∧ s.Runs ctl r ids := by
  obtain ⟨lp, hlp, -⟩ := h.ofAfter.runs
  have level : ∀ {c k}, e.place? c = some (k, loop) →
      ((e.place? c).map fun p => p.1.level .loop).getD 0 = k.level .loop := by
    intro c k hc
    rw [hc]
    rfl
  obtain ⟨ids, order⟩ := order_total h.after hlp (fun c => ((e.place? c).map fun p => p.1.level .loop).getD 0) <| by
    intro c hc k hk
    obtain ⟨-, o, v, ho, hv, owner, -⟩ := driver_child h.after hlp hk
    obtain ⟨o', ho', own⟩ := h.after.child hlp hc
    cases ho.symm.trans ho'
    obtain ⟨i, face, hv⟩ := (forward_iff h.after ho).mp hv
    obtain ⟨j, kind, carried, place, lt, -⟩ := h.source ho own face hv
    cases carried.busOwner?.symm.trans owner
    rw [level place, level (by rw [place_of_op ho, own])]
    exact lt
  have after_body : ∀ {c b q}, Cell e loop c .reg [[(.data, b, 0)]] q → Carried e b s.body →
    Before ids s.body c := by
    intro c b q cell carried
    obtain ⟨i, v, f, face, hv, source⟩ := cell.input h.after mem_cons_self mem_cons_self
    have place := cell.place?
    cases h.forward place nofun face
    have ne : s.body ≠ c := by
      rintro rfl
      cases h.body_place.symm.trans place
    exact h.precedes hlp order h.body_place place ne face hv (source ▸ carried)
  refine ⟨ids, order, ?_, ?_, ?_, ?_, ?_⟩
  · obtain ⟨w, hw, source, target⟩ := h.unfed.initial
    have mem : w.drive ∈ e.driving s.initial s.go := by
      rw [(h.wired.inner _ h.go_untargeted).1, ← target]
      exact drive_mem (hw ▸ mem_singleton_self w)
    obtain ⟨v, hv, same⟩ := of_drive mem
    have ne : s.inBuf ≠ s.body := by
      intro e
      have place := h.inBuf_place
      rw [e, h.body_place] at place
      cases place
    have source : v.source = s.start := same.trans source
    exact h.precedes hlp order h.inBuf_place h.body_place ne h.ofAfter.inside.initial hv (source ▸ h.start_carried)
  · intro c hc
    obtain ⟨b, q, -, cell, start, -⟩ := h.wired.latches c hc
    obtain ⟨v, hv, source⟩ := of_drive (start ▸ mem_singleton_self _)
    have ne : c.2 ≠ s.body := by
      intro e
      have place := cell.place?
      rw [e, h.body_place] at place
      cases place
    exact h.precedes hlp order cell.place? h.body_place ne h.ofAfter.inside.initial hv
      (source ▸ cell.carried h.after)
  · obtain ⟨z, q, -, carried, cell, -⟩ := h.control
    exact after_body cell carried
  · intro c hc
    obtain ⟨f, q, hf, -, cell, -⟩ := h.register hc
    exact after_body cell (h.feed_carried hf)
  · obtain ⟨w, i, x, hw, hx, own, done⟩ := h.restarts.completion
    have face := h.unfed.completion w (hw ▸ mem_singleton_self w)
    have out : w.target ∉ targets (s.feeds d .output fs) := by
      intro hp
      obtain ⟨f, hf, target⟩ := mem_map.mp hp
      obtain ⟨k, leads⟩ := feed_leads h.aims hf
      have data := leads.port
      rw [show (f.target, f.source).1 = w.target from target, face] at data
      cases data
    have mem : w.drive ∈ e.driving s.completion w.target := by
      rw [h.wired.outer _ out]
      exact drive_mem (hw ▸ mem_singleton_self w)
    obtain ⟨v, hv, same⟩ := of_drive mem
    have source : v.source = x.done := same.trans done
    exact h.precedes hlp order h.body_place h.outBuf_place h.of.outBuf_ne.symm h.ofAfter.outside.completion hv
      (source ▸ own ▸ h.exit_carries hx mem_cons_self)

/-! ### Removal -/

theorem captures {lp : Operation} (hlp : e.op? loop = some lp) (hc : c ∈ lp.children) : ∃ o,
  Captures e loop s.body c o := by
  obtain ⟨o, ho, own⟩ := h.after.child hlp hc
  have place : e.place? c = some (o.kind, loop) := by rw [place_of_op ho, own]
  refine ⟨o, ho, fun reg => ?_⟩
  have other : ∀ {k : Kind}, e.place? c = some (k, loop) → k = .reg := by
    intro k hk
    rw [place, reg] at hk
    exact (congrArg Prod.fst (Option.some.inj hk)).symm
  rcases h.child place with rfl | rfl | rfl | rfl | hc | hc
  · cases other h.inBuf_place
  · cases other h.outBuf_place
  · cases other h.body_place
  · obtain ⟨z, q, -, carried, cell, -⟩ := h.control
    exact ⟨_, q, cell, carried⟩
  · obtain ⟨l, hl, rfl⟩ := mem_map.mp hc
    obtain ⟨b, q, -, cell, -⟩ := h.wired.latches l hl
    cases other cell.place?
  · obtain ⟨l, hl, rfl⟩ := mem_map.mp hc
    obtain ⟨f, q, hf, -, cell, -⟩ := h.register hl
    exact ⟨_, q, cell, h.feed_carried hf⟩

theorem removed (order : (e.order loop).run = .ok (.ok ids)) :
    ∃ e', removeRegisters loop e = .ok ((), e') ∧ s.Shortcut ctl fs r d e e' ∧
      (e'.order loop).run = .ok (.ok ids) := by
  obtain ⟨lp, hlp, -⟩ := h.ofAfter.runs
  obtain ⟨bd, hbd, bplace, -⟩ := h.ofAfter.inside.op
  have bkind : bd.kind ≠ .reg := by
    rw [show bd.kind = .whileBody from congrArg Prod.fst bplace]
    nofun
  obtain ⟨e', τ, run, -, reads, past⟩ := removeRegisters_reads h.after hlp hbd bkind fun c hc => h.captures hlp hc
  -- what is not the output of a register is read as before
  have stay : ∀ {b j k}, Carried e b j → e.place? j = some (k, loop) → k ≠ .reg → τ b = b := by
    intro b j k carried place hk
    apply past.other
    rintro c - s' q cell rfl
    cases carried.unique (cell.carried h.after)
    cases place.symm.trans cell.place?
    exact hk rfl
  have forward : ∀ {c i v}, c ∈ lp.children → view e.entries Entry.face i = some (c, false) → v ∈ e.depsIn i →
      τ v.source = v.source := by
    intro c i v hc face hv
    obtain ⟨o, ho, own⟩ := h.after.child hlp hc
    obtain ⟨j, k, carried, place, -, hk⟩ := h.source ho own face hv
    exact stay carried place hk
  refine ⟨e', run, ⟨?_, ?_, ?_, ?_, ?_⟩, ?_⟩
  · exact reads.same fun v hv => forward (h.mem_loop hlp h.body_place) h.ofAfter.inside.initial hv
  · intro c hc i b face
    obtain ⟨_, q, -, cell, -⟩ := h.wired.latches c hc
    cases h.forward cell.place? nofun face
    exact reads.same fun v hv => forward (h.mem_loop hlp cell.place?) face hv
  · intro f hf
    obtain ⟨c, -, -, b, q, -, cell, -, back⟩ := forall₂_left h.wired.registers f hf
    rw [reads.driving, back, map_singleton, past.register (h.mem_loop hlp cell.place?) cell]
  · obtain ⟨z, q, hz, -, cell, back⟩ := h.control
    refine ⟨z, hz, ?_⟩
    rw [reads.driving, back, map_singleton, past.register (h.mem_loop hlp cell.place?) cell]
  · -- a register captures a value of the body and shows its output
    have register : ∀ c ∈ ctl :: r.registers.map Prod.snd, ∃ b q, Cell e loop c .reg [[(.data, b, 0)]] q := by
      intro c hc
      rcases mem_cons.mp hc with rfl | hc
      · obtain ⟨z, q, -, -, cell, -⟩ := h.control
        exact ⟨_, q, cell⟩
      · obtain ⟨l, hl, rfl⟩ := mem_map.mp hc
        obtain ⟨f, q, -, -, cell, -⟩ := h.register hl
        exact ⟨_, q, cell⟩
    intro c hc b shows i v hv
    obtain ⟨s', q, cell⟩ := register c hc
    have same : b = q := by
      obtain ⟨o, x, y, ho, hx, hy, hb⟩ := shows
      obtain ⟨o', _, x', y', ho', -, -, -, -, exits, hy', buses⟩ := cell.shape
      cases ho.symm.trans ho'
      rw [exits, mem_singleton] at hx
      subst hx
      cases hy.symm.trans hy'
      simpa [buses] using hb
    subst same
    rw [reads.dep] at hv
    obtain ⟨w, hw, rfl⟩ := Option.map_eq_some_iff.mp hv
    by_cases known : ∃ c' ∈ lp.children, ∃ s'' q', Cell e loop c' .reg [[(.data, s'', 0)]] q' ∧ w.source = q'
    · obtain ⟨c', hc', s'', q', cell', source⟩ := known
      rw [source, past.register hc' cell']
      obtain ⟨o, captures⟩ := h.captures hlp hc'
      obtain ⟨_, _, _, _, ho', place, -⟩ := cell'.shape
      cases captures.op.symm.trans ho'
      obtain ⟨s1, q1, cell1, carried⟩ := captures.cell (congrArg Prod.fst place)
      obtain ⟨same, -⟩ := cell'.unique cell1
      simp only [cons.injEq, Prod.mk.injEq, and_true, true_and] at same
      subst same
      rintro rfl
      cases carried.unique (cell.carried h.after)
      cases h.body_place.symm.trans cell.place?
    · have out : ∀ c' ∈ lp.children, ∀ s'' q', Cell e loop c' .reg [[(.data, s'', 0)]] q' → w.source ≠ q' :=
        fun c' hc' s'' q' cell' source => known ⟨c', hc', s'', q', cell', source⟩
      rw [past.other out]
      exact out c (h.mem_loop hlp cell.place?) s' b cell
  · exact reads.order h.after hlp (fun c hc i v face hv => forward hc face hv) order

end

end Parts.Circuit

/-! ## Loops as they were made -/

theorem Parts.Restarts.unwired {s : Parts} {d' : Design} (h : s.Restarts d loop ctl)
    (of : s.Of d loop) (hd : WellFormed d) (hd' : WellFormed d') (u : Unwired d d' loop)
    (children : view d'.ops Operation.children loop = view d.ops Operation.children loop) :
    s.Restarts d' loop ctl where
  op := by
    obtain ⟨o, ho, control⟩ := h.op
    obtain ⟨cs, ho'⟩ := u.loop.op ho
    exact ⟨_, ho', control⟩
  register := by
    obtain ⟨o, i, p, x, y, q, z, v, w, ho, place, entries, ports, exits, hy, buses, hz, deps, feedback⟩ :=
      h.register
    have uc := u.parts (owner_of_place ho place)
    have ub := u.parts of.inside_owner
    obtain ⟨b, face⟩ := entry_face hd ho (i := i) (entries ▸ mem_cons_self)
    obtain ⟨y', hy', own⟩ := hd.exits.holds ho x (exits ▸ mem_cons_self)
    cases hy.symm.trans hy'
    obtain ⟨z', hz', zown, -⟩ := of.inside.again
    cases hz.symm.trans hz'
    obtain ⟨cs, ho'⟩ := uc.op ho
    exact ⟨_, i, p, x, y, q, z, v, w, ho', place, entries, ports, exits, uc.exit hy (Option.some.inj own), buses,
      ub.exit hz zown, (uc.deps face).trans deps, (ub.deps of.inside.feedback).trans feedback⟩
  completion := by
    obtain ⟨v, i, x, deps, hx, own, done⟩ := h.completion
    exact ⟨v, i, x, ((u.parts of.outBuf_owner).deps of.outside.completion).trans deps,
      (u.parts of.inside_owner).exit hx own, own, done⟩
  front := by
    intro i b face
    obtain ⟨o, ho, place, -⟩ := of.outside.inBuf
    have ui := u.parts (owner_of_place ho place)
    have face' := ui.entryBack hd hd' ho face
    rw [ui.deps face', h.front face']
  children := by
    intro c k hc
    obtain ⟨lp, hlp, -⟩ := of.runs
    obtain ⟨cs, hlp'⟩ := u.loop.op hlp
    obtain ⟨o, ho, place⟩ := view_some.mp hc
    have own : o.owner = loop := congrArg Prod.snd place
    obtain ⟨m, hm, mem⟩ := hd'.mem_children ho (own ▸ ne_absent hlp)
    rw [own] at hm
    cases hlp'.symm.trans hm
    rw [view_of _ hlp', view_of _ hlp, Option.some.injEq] at children
    obtain ⟨o', ho', own'⟩ := hd.child hlp (children ▸ mem)
    exact h.children (view_some.mpr ⟨o', ho', Prod.ext rfl own'⟩)

theorem Parts.Stages.only {s : Parts} {d1 d2 : Design}

    (h : s.Stages loop fs d d1 d2 e rs regs ids) {c : Int} (old : d.ops.size ≤ c) (new : c < e.ops.size) :
    c ∈ (rs.filterMap id ++ regs).map Prod.snd := by
  rw [← length_places, h.completes.places, length_places] at new
  rw [map_append, mem_append, map_filterMap]
  by_cases early : c < (d1.ops.size : Int)
  · exact .inl (h.starts.only old early)
  · have late := h.hands.only (Int.not_lt.mp early) new
    rw [show (fun r : PortId × OpId => some r.2) = some ∘ Prod.snd from rfl, ← filterMap_map, filterMap_some]
      at late
    exact .inr late

/-- A new loop, wired by any feeds that fit, has an order in which its body stands between what
brings values and what takes them. Without its registers the body feeds itself through the same
buses, and the order stays. -/
theorem wired_loop_shortcut {d₀ d₁ e : Design} {owner loop inputs outputs : Int} {name : String} {latency : Latency}
    {fs : List Feed} {r : Wiring} (hd₀ : Built d₀) (placed : owner < d₀.ops.size)
    (made : newLoop owner name inputs outputs latency d₀ = .ok (loop, d₁)) (hd : Built d)
    (unwired : Unwired d₁ d loop)
    (children : view d.ops Operation.children loop = view d₁.ops Operation.children loop) (aims : Aims d fs)
    (run : (wire loop fs).run d = .ok (.ok r, e)) :
    ∃ (s : Parts) (ctl : OpId) (ids : List OpId) (e' : Design), s.Of e loop ∧
      (∃ lp, e.op? loop = some lp ∧ lp.control = ctl) ∧ (e.order loop).run = .ok (.ok ids) ∧ s.Runs ctl r ids ∧
      removeRegisters loop e = .ok ((), e') ∧ s.Shortcut ctl fs r d e e' ∧ (e'.order loop).run = .ok (.ok ids) := by
  obtain ⟨s, ctl, of₁, unfed₁, restarts₁⟩ := newLoop_made hd₀.wellFormed placed made
  have w₁ : WellFormed d₁ := (makes_newLoop placed).kept hd₀.wellFormed made
  have w := hd.wellFormed
  have of := of₁.unwired unwired
  have unfed := unfed₁.unwired of₁ unwired
  have restarts := restarts₁.unwired of₁ w₁ w unwired children
  obtain ⟨wirable, rs, regs, deps, d₂, d₃, stages, rfl⟩ := wire_stages w of unfed aims run
  obtain ⟨l, g⟩ := stages.fills.gains
  have circuit : s.Circuit loop ctl fs d e ⟨regs, rs.filterMap id, deps⟩ :=
    { before := w
      after := stages.completes.wellFormed
      laid := (hd.step (.wireLoop loop fs) rfl (discard_run run)).laid
      of, unfed, aims, restarts
      wired := stages.wired of unfed aims wirable
      gains := ⟨_, g.trans stages.completes.gains⟩
      only := stages.only }
  obtain ⟨ids, order, runs⟩ := circuit.ordered
  obtain ⟨e', removed, shortcut, same⟩ := circuit.removed order
  obtain ⟨lp, hlp, control⟩ := restarts.op
  obtain ⟨cs, hlp'⟩ := (g.trans stages.completes.gains).op (fun h => h) hlp
  exact ⟨s, ctl, ids, e', circuit.ofAfter, ⟨_, hlp', control⟩, order, runs, removed, shortcut, same⟩

theorem counter_loop_shortcut : ∃ d₁ d r e, newLoop (-1) "l" 2 1 .zero { name := "x" } = .ok (0, d₁) ∧
    newPrimitive .op 11 "p" 1 1 .one d₁ = .ok (15, d) ∧ (wire 0 counterFeeds).run d = .ok (.ok r, e) ∧
    r.registers = [(7, 17)] ∧ r.latches = [(8, 16)] ∧ ∃ (s : Parts) (ctl : OpId) (ids : List OpId) (e' : Design),
      s.Of e 0 ∧ (∃ lp, e.op? 0 = some lp ∧ lp.control = ctl) ∧ (e.order 0).run = .ok (.ok ids) ∧ s.Runs ctl r ids ∧
      removeRegisters 0 e = .ok ((), e') ∧ s.Shortcut ctl counterFeeds r d e e' ∧
        (e'.order 0).run = .ok (.ok ids) := by
  obtain ⟨d₁, d, r, e, made, inner, run, registers, latches, hd, unwired, aims, children, -⟩ := counter_loop
  exact ⟨d₁, d, r, e, made, inner, run, registers, latches,
    wired_loop_shortcut (Built.empty "x") (by decide) made hd unwired children aims run⟩

end Loop

end Datapath
