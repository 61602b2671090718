import Datapath.Proofs.Commands
import Datapath.Proofs.Cells

/-!
# Wired loops

A fresh loop can be wired exactly when its feeds fit. Then every value that is fed back has a
register and every other value of the start has a latch, and no port of the body has two drivers.
-/

namespace Datapath.Loop

open List

variable {s : Parts} {d d1 d2 e : Design}

/-! ## Results -/

def Parts.result (s : Parts) (l : PortId × BusId) (id : DepId) : Dependency :=
  { id, kind := .data, entry := s.completion, source := l.2, target := l.1, minClocks := 0 }

structure Parts.Completes (s : Parts) (d e : Design) (ls : Links) (ids : List DepId) : Prop where
  wellFormed : WellFormed e
  gains : Gains (fun _ => False) d e (List.zipWith s.result ls ids)
  each : List.Forall₂ (fun l i => at? e.deps i = some (s.result l i)) ls ids
  places : e.places = d.places

section
variable {f : Design} {id : DepId}

theorem Parts.Completes.cons (h : s.Completes d e [l] [id]) (h' : s.Completes e f ls ids) :
    s.Completes d f (l :: ls) (id :: ids) where
  wellFormed := h'.wellFormed
  gains := h.gains.trans h'.gains
  each := .cons (h'.gains.dep (forall₂_cons.mp h.each).1) h'.each
  places := h'.places.trans h.places

theorem wireOutput_owner {l : PortId × BusId} (h : (wireOutput loop outBuf l.1 l.2).run d = .ok (.ok id, e)) :
    view d.ports Port.owner l.1 = some outBuf := by
  obtain ⟨p, hp, h⟩ := look_bind_ok.mp h
  obtain ⟨own, -⟩ := guard_ok h
  exact view_some.mpr ⟨p, port_ok hp, by simpa using own⟩

theorem wireOutput_run (w : WellFormed d) (of : s.Of d loop) (leads : Leads d l s.outBuf) :
    ∃ id e, (wireOutput loop s.outBuf l.1 l.2).run d = .ok (.ok id, e) ∧ s.Completes d e [l] [id] := by
  obtain ⟨hp, x, hb⟩ := leads
  obtain ⟨id, e, h, w', g⟩ := connect_data w of.outside.completion hp hb
  obtain ⟨p, hp, face⟩ := view_some.mp hp
  obtain ⟨o, ho, -, entries, -⟩ := of.outside.outBuf
  refine ⟨id, e, ?_, w', g, .cons ?_ .nil, connect_places h⟩
  · refine look_bind_ok.mpr ⟨p, require_ok.mpr hp, ?_⟩
    rw [if_neg (by simp [show p.owner = s.outBuf from congrArg Prod.fst face])]
    refine look_bind_ok.mpr ⟨s.completion, bind_ok.mpr ⟨o, require_ok.mpr ho, ?_⟩, ofBuild_ok.mpr h⟩
    rw [Operation.firstEntry, entries]
    rfl
  · refine dep_in w' (i := s.completion) (v := s.result l id) ?_
    rw [g.deps]
    exact mem_append_right _ (by simp [Parts.result])

theorem wireOutput_completes (w : WellFormed d) (of : s.Of d loop) (leads : Leads d l k)
    (h : (wireOutput loop s.outBuf l.1 l.2).run d = .ok (.ok id, e)) : k = s.outBuf ∧ s.Completes d e [l] [id] := by
  have own := wireOutput_owner h
  rw [leads.owner] at own
  cases own
  obtain ⟨id', e', h', completes⟩ := wireOutput_run w of leads
  cases h.symm.trans h'
  exact ⟨rfl, completes⟩

theorem outBuf_run (of : s.Of d loop) : d.outBuf loop .done = .ok s.outBuf ∧ s.outBuf ≠ absent := by
  obtain ⟨o, x, y, ho, -, -, exits, hy, -, tag, peer⟩ := of.outside.op
  obtain ⟨b, hb, -⟩ := of.outside.outBuf
  refine ⟨bind_ok.mpr ⟨o, require_ok.mpr ho, ?_⟩, ne_absent hb⟩
  rw [exitWith?_eq ⟨[], [], exits, nofun⟩ hy tag]
  exact congrArg Except.ok peer

theorem wireOutputs_eq (of : s.Of d loop) : (wireOutputs loop ls).run d = .ok (.ok ids, e) ↔
    (ls.mapM fun l => wireOutput loop s.outBuf l.1 l.2).run d = .ok (.ok ids, e) := by
  obtain ⟨out, ne⟩ := outBuf_run of
  unfold wireOutputs
  rw [look_bind_ok]
  simp only [out, Except.ok.injEq, exists_eq_left']
  rw [if_neg (by simpa using ne)]

theorem wireOutputs_leads {ls : Links} (w : WellFormed d) (of : s.Of d loop) (known : ∀ l ∈ ls, ∃ k, Leads d l k)
    (h : (ls.mapM fun l => wireOutput loop s.outBuf l.1 l.2).run d = .ok (.ok ids, e)) :
    ∀ l ∈ ls, Leads d l s.outBuf := by
  induction ls generalizing d ids with
  | nil => nofun
  | cons l ls ih =>
    rw [mapM_cons] at h
    obtain ⟨id, d1, h1, h⟩ := step_bind_ok.mp h
    obtain ⟨ids', e', h2, h⟩ := step_bind_ok.mp h
    cases h
    obtain ⟨⟨k, leads⟩, known⟩ := forall_mem_cons.mp known
    obtain ⟨rfl, one⟩ := wireOutput_completes w of leads h1
    refine forall_mem_cons.mpr ⟨leads, fun m hm => ?_⟩
    obtain ⟨k, leads⟩ := known m hm
    have later :=
      ih one.wellFormed (of.gains one.gains) (fun m hm => (known m hm).imp fun _ h => h.gains one.gains) h2
    rw [(leads.gains one.gains).unique (later m hm)] at leads
    exact leads

theorem wireOutputs_run (w : WellFormed d) (of : s.Of d loop) (leads : ∀ l ∈ ls, Leads d l s.outBuf) :
    ∃ ids e, (ls.mapM fun l => wireOutput loop s.outBuf l.1 l.2).run d = .ok (.ok ids, e) ∧
      s.Completes d e ls ids := by
  induction ls generalizing d with
  | nil => exact ⟨[], d, rfl, w, Gains.refl _ d, .nil, rfl⟩
  | cons l ls ih =>
    obtain ⟨first, leads⟩ := forall_mem_cons.mp leads
    obtain ⟨id, d1, h, one⟩ := wireOutput_run w of first
    obtain ⟨ids, e, h', rest⟩ := ih one.wellFormed (of.gains one.gains) fun m hm => (leads m hm).gains one.gains
    refine ⟨id :: ids, e, ?_, one.cons rest⟩
    rw [mapM_cons]
    exact step_bind_ok.mpr ⟨id, d1, h, step_bind_ok.mpr ⟨ids, e, h', rfl⟩⟩

end

/-! ## Values of the body -/

abbrev Parts.Starts (s : Parts) (loop : OpId) (fb : Links) := s.Wires (Option.map Prod.snd) (s.Initial loop fb)

abbrev Parts.Hands (s : Parts) (loop : OpId) := s.Wires (fun r : PortId × OpId => some r.2) (Handed loop)

theorem wireInitials_run {lp : Operation} (fb : Links) (w : WellFormed d) (of : s.Of d loop) (hl : lp.id = loop)
    (leads : ∀ l ∈ ls, Leads d l s.body) (keys : (ls.map Prod.fst).Nodup) :
    Yields (ls.mapM fun (p, b) => wireInitial lp ⟨s.initial, s.feedback, s.start⟩ fb p b) d
      fun rs e => s.Starts loop fb d e ls rs := by
  refine wires_all initial_lasting ?_ w of leads keys
  intro d ⟨p, b⟩ w of leads
  by_cases known : fb.has p = true
  · exact wireInitial_passed w of leads known
  · exact wireInitial_held w of hl leads (by simpa using known)

theorem wireFeedbacks_run {lp : Operation} (w : WellFormed d) (of : s.Of d loop) (hl : lp.id = loop)
    (leads : ∀ l ∈ ls, Leads d l s.body) (keys : (ls.map Prod.fst).Nodup) :
    Yields (ls.mapM fun (p, b) => wireFeedback lp ⟨s.initial, s.feedback, s.start⟩ p b) d
      fun rs e => s.Hands loop d e ls rs :=
  wires_all handed_lasting (fun w of leads => wireFeedback_handed w of hl leads) w of leads keys

theorem wireBody_run {lp : Operation} (w : WellFormed d) (of : s.Of d loop) (unfed : s.Unfed d)
  (hlp : at? d.ops loop = some lp)
    (hbd : at? d.ops s.body = some bd) (leads : ∀ l ∈ c.initial ++ c.feedback, Leads d l s.body)
    (initial : (c.initial.map Prod.fst).Nodup) (feedback : (c.feedback.map Prod.fst).Nodup) :
    ∃ rs regs d1 d2, (wireBody lp bd c).run d = .ok (.ok (rs.filterMap id, regs), d2) ∧
      s.Starts loop c.feedback d d1 c.initial rs ∧ s.Hands loop d1 d2 c.feedback regs := by
  have hl : lp.id = loop := w.nesting.ids _ _ hlp
  have hb : bd.id = s.body := w.nesting.ids _ _ hbd
  obtain ⟨rs, d1, h1, starts⟩ := wireInitials_run c.feedback w of hl
    (fun l h => leads l (mem_append_left _ h)) initial
  obtain ⟨regs, d2, h2, hands⟩ := wireFeedbacks_run starts.fills.wellFormed (starts.fills.of of) hl
    (fun l h => starts.fills.leads (leads l (mem_append_right _ h))) feedback
  refine ⟨rs, regs, d1, d2, ?_, starts, hands⟩
  refine passQuery_bind_ok.mpr ⟨_, waysOf_run w of unfed hbd, passQuery_bind_ok.mpr ⟨(), ?_, ?_⟩⟩
  · rw [hb]
    exact checkTargets_ok.mpr fun l hl => (leads l hl).owner
  · exact step_bind_ok.mpr ⟨rs, d1, ofBuild_ok.mpr h1, step_bind_ok.mpr ⟨regs, d2, ofBuild_ok.mpr h2, rfl⟩⟩

theorem wireBody_owner {lp : Operation} (w : WellFormed d) (hbd : at? d.ops s.body = some bd)
    (h : (wireBody lp bd c).run d = .ok (.ok r, d1)) :
    ∀ l ∈ c.initial ++ c.feedback, view d.ports Port.owner l.1 = some s.body := by
  obtain ⟨ways, -, h⟩ := passQuery_bind_ok.mp h
  obtain ⟨u, ht, -⟩ := passQuery_bind_ok.mp h
  rw [w.nesting.ids _ _ hbd] at ht
  exact checkTargets_ok.mp ht

/-! ### Drivers -/

section
variable (h : s.Starts loop fb d d1 ls rs)
include h

theorem Parts.Wires.passed (hl : (p, b) ∈ ls) (known : fb.has p = true) : s.Adds d d1 p [(.data, b, 0)] [] := by
  obtain ⟨r, -, a, c, hr, add⟩ := forall₂_left h.each _ hl
  cases hr with
  | passed => exact add
  | held alone => exact absurd known (by simp [alone])

theorem Parts.Wires.held (hl : (p, b) ∈ ls) (alone : fb.has p = false) :
    ∃ latch q, some (p, latch) ∈ rs ∧ Cell d1 loop latch .latch [[(.control, s.start, 0)], [(.data, b, 0)]] q ∧
      s.Adds d d1 p [(.data, q, 0)] [(.data, q, 0)] := by
  obtain ⟨r, hr, a, c, out, add⟩ := forall₂_left h.each _ hl
  cases out with
  | passed known => exact absurd known (by simp [alone])
  | held _ cell => exact ⟨_, _, hr, cell, add⟩

theorem drivers (h' : s.Hands loop d1 d2 fb regs) (p : PortId) :
    ∃ a c, s.Adds d d2 p a c ∧ a.length = (if p ∈ ls.map Prod.fst then 1 else 0) ∧
      c.length = if p ∈ ls.map Prod.fst ∨ p ∈ fb.map Prod.fst then 1 else 0 := by
  have first : ∃ a c, s.Adds d d1 p a c ∧ a.length = (if p ∈ ls.map Prod.fst then 1 else 0) ∧
      c.length = if p ∈ ls.map Prod.fst ∧ p ∉ fb.map Prod.fst then 1 else 0 := by
    by_cases hp : p ∈ ls.map Prod.fst
    · obtain ⟨⟨p, b⟩, hl, rfl⟩ := mem_map.mp hp
      by_cases known : p ∈ fb.map Prod.fst
      · exact ⟨_, _, h.passed hl (has_iff.mpr known), by simp [hp], by simp [known]⟩
      · obtain ⟨latch, q, -, -, add⟩ := h.held hl (by simpa [← has_iff] using known)
        exact ⟨_, _, add, by simp [hp], by simp [hp, known]⟩
    · exact ⟨_, _, h.rest hp, by simp [hp], by simp [hp]⟩
  have second : ∃ c, s.Adds d1 d2 p [] c ∧ c.length = if p ∈ fb.map Prod.fst then 1 else 0 := by
    by_cases hp : p ∈ fb.map Prod.fst
    · obtain ⟨⟨p, b⟩, hl, rfl⟩ := mem_map.mp hp
      obtain ⟨r, -, a, c, out, add⟩ := forall₂_left h'.each _ hl
      cases out with
      | register cell => exact ⟨_, add, by simp [hp]⟩
    · exact ⟨_, h'.rest hp, by simp [hp]⟩
  obtain ⟨a, c, add, ha, hc⟩ := first
  obtain ⟨c', add', hc'⟩ := second
  refine ⟨_, _, add.trans add', by simp [ha], ?_⟩
  rw [length_append, hc, hc']
  by_cases known : p ∈ fb.map Prod.fst
  · simp [known]
  · simp only [known, not_false_eq_true, and_true, or_false, if_false, Nat.add_zero]

end

/-! ## Wiring -/

theorem Parts.Unfed.undriven (h : s.Unfed d) (hp : p ≠ s.go) :
    d.driving s.initial p = [] ∧ d.driving s.feedback p = [] := by
  obtain ⟨v, hv, -, target⟩ := h.initial
  constructor
  · rw [Design.driving, hv]
    simp [target, Ne.symm hp]
  · rw [Design.driving, filter_eq_nil_iff.mpr, map_nil]
    intro v hv
    rw [h.feedback v hv]
    simpa using Ne.symm hp

theorem Parts.Unfed.unfinished (h : s.Unfed d) (hp : view d.ports Port.face p = some (k, false)) :
    d.driving s.completion p = [] := by
  rw [Design.driving, filter_eq_nil_iff.mpr, map_nil]
  intro v hv target
  have face := h.completion v hv
  rw [beq_iff_eq.mp target, hp] at face
  cases face

theorem wire_ok {lp : Operation} (w : WellFormed d) (of : s.Of d loop) (hlp : at? d.ops loop = some lp)
    (hbd : at? d.ops s.body = some bd) : (wire loop fs).run d = .ok (.ok r, e) ↔
      s.Sortable d fs ∧ ∃ made d1 ids, (wireBody lp bd (s.sorted d fs)).run d = .ok (.ok made, d1) ∧
        (wireOutputs loop (s.sorted d fs).output).run d1 = .ok (.ok ids, e) ∧
        (checkComplete e bd).run = .ok (.ok ()) ∧ r = ⟨made.2, made.1, ids⟩ := by
  obtain ⟨o, x, y, ho, kind, -⟩ := of.outside.op
  obtain ⟨o', ho', body⟩ := of.runs
  cases hlp.symm.trans ho
  cases hlp.symm.trans ho'
  have ne : lp.body ≠ absent := body ▸ ne_absent hbd
  have hlp' : d.op loop = .ok lp := require_ok.mpr hlp
  have hbd' : d.op lp.body = .ok bd := body ▸ require_ok.mpr hbd
  unfold wire
  simp only [look_bind_ok, hlp', Except.ok.injEq, exists_eq_left']
  rw [if_neg (by simp [kind, ne])]
  simp only [look_bind_ok, hbd', Except.ok.injEq, exists_eq_left', passQuery_bind_ok, exitsOf_run w of hlp,
    classify_all]
  constructor
  · rintro ⟨_, ⟨sortable, rfl⟩, h⟩
    obtain ⟨made, d1, hb, h⟩ := step_bind_ok.mp h
    obtain ⟨ids, e', ho, h⟩ := step_bind_ok.mp h
    obtain ⟨u, hc, h⟩ := passQuery_bind_ok.mp h
    obtain ⟨hr, rfl⟩ := step_pure_ok.mp h
    exact ⟨sortable, made, d1, ids, within_ok.mp hb, ho, hc, hr⟩
  · rintro ⟨sortable, made, d1, ids, hb, ho, hc, rfl⟩
    refine ⟨_, ⟨sortable, rfl⟩, step_bind_ok.mpr ⟨made, d1, within_ok.mpr hb, ?_⟩⟩
    exact step_bind_ok.mpr ⟨ids, e, ho, passQuery_bind_ok.mpr ⟨(), hc, rfl⟩⟩

/-! ### Where the feeds lead -/

def Aims (d : Design) (fs : List Feed) : Prop := ∀ f ∈ fs, ∃ r, at? d.ports f.target = some r ∧ r.isGo = false

instance : Decidable (Aims d fs) := inferInstanceAs (Decidable (∀ f ∈ fs, _))

theorem feed_leads (aims : Aims d fs) (h : f ∈ s.feeds d u fs) : ∃ k, Leads d (f.target, f.source) k := by
  obtain ⟨hf, use⟩ := mem_filter.mp h
  obtain ⟨r, hr, go⟩ := aims f hf
  obtain ⟨b, hb, -⟩ := Option.bind_eq_some_iff.mp (beq_iff_eq.mp use)
  exact ⟨r.owner, view_some.mpr ⟨r, hr, Prod.ext rfl go⟩, _, view_of _ hb⟩

theorem feed_leads_to (aims : Aims d fs) (h : f ∈ s.feeds d u fs)
    (own : view d.ports Port.owner f.target = some k) : Leads d (f.target, f.source) k := by
  obtain ⟨k', leads⟩ := feed_leads aims h
  cases leads.owner.symm.trans own
  exact leads

theorem body_leads (aims : Aims d fs)
    (body : ∀ p ∈ targets (s.feeds d .initial fs ++ s.feeds d .feedback fs),
        view d.ports Port.owner p = some s.body) :
    ∀ l ∈ (s.sorted d fs).initial ++ (s.sorted d fs).feedback, Leads d l s.body := by
  intro l hl
  have own : ∀ f ∈ s.feeds d .initial fs ++ s.feeds d .feedback fs,
    view d.ports Port.owner f.target = some s.body :=
    fun f hf => body _ (mem_map_of_mem hf)
  rcases mem_append.mp hl with hl | hl
  · have hf := lastSource?_mem (mem_links.mp hl)
    exact feed_leads_to aims hf (own _ (mem_append_left _ hf))
  · obtain ⟨f, hf, rfl⟩ := mem_map.mp hl
    exact feed_leads_to aims hf (own _ (mem_append_right _ hf))

/-- What the feeds of a loop must be. -/
structure Parts.Wirable (s : Parts) (d : Design) (fs : List Feed) : Prop extends s.Sortable d fs where
  body : ∀ p ∈ targets (s.feeds d .initial fs ++ s.feeds d .feedback fs), view d.ports Port.owner p = some s.body
  started : ∀ p ∈ targets (s.feeds d .feedback fs), p ∈ targets (s.feeds d .initial fs)
  completion : ∀ p ∈ targets (s.feeds d .output fs), view d.ports Port.owner p = some s.outBuf

structure Parts.Stages (s : Parts) (loop : OpId) (fs : List Feed) (d d₁ d₂ e : Design)
    (rs : List (Option (PortId × OpId))) (regs : List (PortId × OpId)) (ids : List DepId) : Prop where
  starts : s.Starts loop (s.sorted d fs).feedback d d₁ (s.sorted d fs).initial rs
  hands : s.Hands loop d₁ d₂ (s.sorted d fs).feedback regs
  completes : s.Completes d₂ e (s.sorted d fs).output ids

theorem keys_initial : p ∈ (s.sorted d fs).initial.map Prod.fst ↔ p ∈ targets (s.feeds d .initial fs) := keys_links

theorem keys_feedback : (s.sorted d fs).feedback.map Prod.fst = targets (s.feeds d .feedback fs) := by
  simp [Parts.sorted, targets]

theorem mem_sorted : p ∈ ((s.sorted d fs).initial ++ (s.sorted d fs).feedback).map Prod.fst ↔
    p ∈ targets (s.feeds d .initial fs ++ s.feeds d .feedback fs) := by
  rw [map_append, mem_append, keys_initial, keys_feedback, targets, targets, targets, map_append,
    mem_append]

theorem keys_output : (s.sorted d fs).output.map Prod.fst = targets (s.feeds d .output fs) := by
  simp [Parts.sorted, targets]

theorem Parts.Of.outBuf_ne (of : s.Of d loop) : s.outBuf ≠ s.body := by
  obtain ⟨o, ho, place, -⟩ := of.outside.outBuf
  exact of.inside.ne_body ho place nofun

theorem Parts.Completes.others (h : s.Completes d e ls ids) (of : s.Of d loop) (ne : k ≠ s.outBuf) :
    Untouched d e k := by
  apply h.gains.untouched fun h => h
  intro v hv b face
  rw [← map_uncurry_zip_eq_zipWith] at hv
  obtain ⟨x, -, rfl⟩ := mem_map.mp hv
  rw [show (Function.uncurry s.result x).entry = s.completion from rfl, of.outside.completion] at face
  cases face
  exact ne rfl

section
variable (h : s.Stages loop fs d d1 d2 e rs regs ids)
include h

theorem Parts.Stages.fills : s.Fills d d2 := h.starts.fills.trans h.hands.fills

theorem Parts.Stages.of (of : s.Of d loop) : s.Of e loop := (h.fills.of of).gains h.completes.gains

theorem Parts.Stages.driving (of : s.Of d loop) :
    e.driving s.initial p = d2.driving s.initial p ∧ e.driving s.feedback p = d2.driving s.feedback p := by
  have of2 := h.fills.of of
  have u := h.completes.others of2 of.outBuf_ne.symm
  exact ⟨u.driving of2.inside.initial, u.driving of2.inside.feedback⟩

theorem Parts.Stages.adds (of : s.Of d loop) (unfed : s.Unfed d) (hp : p ≠ s.go) (add : s.Adds d d2 p a c) :
    e.driving s.initial p = a ∧ e.driving s.feedback p = c := by
  obtain ⟨h1, h2⟩ := h.driving (p := p) of
  obtain ⟨n1, n2⟩ := unfed.undriven hp
  rw [h1, h2, add.initial, add.feedback, n1, n2]
  exact ⟨rfl, rfl⟩

end

theorem ne_go (of : s.Of d loop) (hp : view d.ports Port.face p = some (k, false)) : p ≠ s.go := by
  intro e
  rw [e, of.inside.go] at hp
  cases hp

theorem mem_ports (w : WellFormed d) (ho : at? d.ops k = some o)
    (hp : view d.ports Port.face p = some (k, b)) (ne : p ≠ o.go) : p ∈ o.ports := by
  obtain ⟨r, hr, face⟩ := view_some.mp hp
  obtain ⟨_, ho', mem⟩ := w.ports.held hr (congrArg some (congrArg Prod.fst face))
  cases ho.symm.trans ho'
  exact (mem_cons.mp mem).resolve_left ne

theorem Parts.Stages.complete (h : s.Stages loop fs d d1 d2 e rs regs ids) (w : WellFormed d) (of : s.Of d loop)
    (unfed : s.Unfed d) (hbd : at? d.ops s.body = some bd)
    (leads : ∀ l ∈ (s.sorted d fs).initial ++ (s.sorted d fs).feedback, Leads d l s.body) :
    (checkComplete e bd).run = .ok (.ok ()) ↔
      ∀ p ∈ targets (s.feeds d .feedback fs), p ∈ targets (s.feeds d .initial fs) := by
  obtain ⟨o, ho, -, go, entries, -⟩ := of.inside.op
  cases hbd.symm.trans ho
  have counts : ∀ p, p ≠ s.go →
      (e.driving s.initial p).length = (if p ∈ targets (s.feeds d .initial fs) then 1 else 0) ∧
      (e.driving s.feedback p).length =
        if p ∈ targets (s.feeds d .initial fs) ∨ p ∈ targets (s.feeds d .feedback fs) then 1 else 0 := by
    intro p hp
    obtain ⟨a, c, add, ha, hc⟩ := drivers h.starts h.hands p
    obtain ⟨hi, hf⟩ := h.adds of unfed hp add
    rw [hi, hf, ha, hc, keys_feedback]
    simp only [keys_initial, and_self]
  have distinct := w.ports.nodup (view_of Design.allPorts hbd)
  rw [Design.allPorts, nodup_cons, go] at distinct
  rw [checkComplete_ok h.completes.wellFormed (h.of of) entries]
  · constructor
    · intro hall p hp
      obtain ⟨f, hf, target⟩ := mem_map.mp hp
      have face := (leads _ (mem_append_right _ (mem_map_of_mem hf))).port
      rw [target] at face
      obtain ⟨hi, hf⟩ := counts p (ne_go of face)
      have one := hall p (mem_ports w hbd face (go ▸ ne_go of face))
      rw [hi, hf] at one
      by_contra hn
      simp [hn, hp] at one
    · intro started p hp
      obtain ⟨hi, hf⟩ := counts p fun e => distinct.1 (e ▸ hp)
      rw [hi, hf]
      by_cases hI : p ∈ targets (s.feeds d .initial fs)
      · simp [hI]
      · have hB : p ∉ targets (s.feeds d .feedback fs) := fun hB => hI (started p hB)
        simp [hI, hB]
  · intro p hp
    obtain ⟨r, hr, -⟩ := w.ports.holds hbd p (mem_cons_of_mem _ hp)
    obtain ⟨l, g⟩ := h.fills.gains
    obtain ⟨_, hr'⟩ := (g.trans h.completes.gains).port hr
    exact ⟨_, hr'⟩

/-! ### When wiring succeeds -/

section
variable (w : WellFormed d) (of : s.Of d loop) (unfed : s.Unfed d) (aims : Aims d fs)
include w of unfed aims

theorem wire_run (h : s.Wirable d fs) : ∃ r e, (wire loop fs).run d = .ok (.ok r, e) := by
  obtain ⟨lp, hlp, -⟩ := of.runs
  obtain ⟨bd, hbd, -⟩ := of.inside.op
  have leads := body_leads aims h.body
  obtain ⟨rs, regs, d1, d2, hb, starts, hands⟩ := wireBody_run w of unfed hlp hbd leads links_nodup
    (keys_feedback ▸ h.feedback)
  have fills := starts.fills.trans hands.fills
  have of2 := fills.of of
  have results : ∀ l ∈ (s.sorted d fs).output, Leads d2 l s.outBuf := by
    intro l hl
    obtain ⟨f, hf, rfl⟩ := mem_map.mp hl
    exact fills.leads (feed_leads_to aims hf (h.completion _ (mem_map_of_mem hf)))
  obtain ⟨ids, e, ho, completes⟩ := wireOutputs_run fills.wellFormed of2 results
  have stages : s.Stages loop fs d d1 d2 e rs regs ids := ⟨starts, hands, completes⟩
  have complete := (stages.complete w of unfed hbd leads).mpr h.started
  exact ⟨_, e, (wire_ok w of hlp hbd).mpr ⟨h.toSortable, _, d2, ids, hb, (wireOutputs_eq of2).mpr ho, complete,
    rfl⟩⟩

theorem wire_stages (h : (wire loop fs).run d = .ok (.ok r, e)) :
    s.Wirable d fs ∧ ∃ rs regs ids d1 d2, s.Stages loop fs d d1 d2 e rs regs ids ∧
      r = ⟨regs, rs.filterMap id, ids⟩ := by
  obtain ⟨lp, hlp, -⟩ := of.runs
  obtain ⟨bd, hbd, -⟩ := of.inside.op
  obtain ⟨sortable, made, d2, ids, hb, ho, hc, rfl⟩ := (wire_ok w of hlp hbd).mp h
  have own := wireBody_owner w hbd hb
  have body : ∀ p ∈ targets (s.feeds d .initial fs ++ s.feeds d .feedback fs),
      view d.ports Port.owner p = some s.body := by
    intro p hp
    obtain ⟨l, hl, rfl⟩ := mem_map.mp (mem_sorted.mpr hp)
    exact own l hl
  have leads := body_leads aims body
  obtain ⟨rs, regs, d1, _, hb', starts, hands⟩ := wireBody_run w of unfed hlp hbd leads links_nodup
    (keys_feedback ▸ sortable.feedback)
  cases hb.symm.trans hb'
  have fills := starts.fills.trans hands.fills
  have of2 := fills.of of
  have ho := (wireOutputs_eq of2).mp ho
  have known : ∀ l ∈ (s.sorted d fs).output, ∃ k, Leads d l k := by
    intro l hl
    obtain ⟨f, hf, rfl⟩ := mem_map.mp hl
    exact feed_leads aims hf
  have results := wireOutputs_leads fills.wellFormed of2 (fun l hl => (known l hl).imp fun _ h => fills.leads h) ho
  obtain ⟨ids', e', ho', completes⟩ := wireOutputs_run fills.wellFormed of2 results
  cases ho.symm.trans ho'
  have stages : s.Stages loop fs d d1 d2 e rs regs ids := ⟨starts, hands, completes⟩
  have started := (stages.complete w of unfed hbd leads).mp hc
  refine ⟨⟨sortable, body, started, ?_⟩, rs, regs, ids, d1, d2, stages, rfl⟩
  intro p hp
  rw [← keys_output] at hp
  obtain ⟨l, hl, rfl⟩ := mem_map.mp hp
  obtain ⟨k, leads⟩ := known l hl
  rw [← (fills.leads leads).unique (results l hl)]
  exact leads.owner

end

/-! ## What wiring leaves -/

structure Parts.Wired (s : Parts) (loop : OpId) (fs : List Feed) (d e : Design) (r : Wiring) : Prop where
  /-- A register for each feed of the feedback, between its source and its target. The target starts
  with the last value that it is given. -/
  registers : List.Forall₂ (fun f c => c.1 = f.target ∧ ∃ b q,
    lastSource? (s.feeds d .initial fs) f.target = some b ∧ Cell e loop c.2 .reg [[(.data, f.source, 0)]] q ∧
    e.driving s.initial f.target = [(.data, b, 0)] ∧ e.driving s.feedback f.target = [(.data, q, 0)])
    (s.feeds d .feedback fs) r.registers
  /-- A latch for each other value, which drives its target in both entries. -/
  latches : ∀ c ∈ r.latches, ∃ b q, lastSource? (s.feeds d .initial fs) c.1 = some b ∧
    Cell e loop c.2 .latch [[(.control, s.start, 0)], [(.data, b, 0)]] q ∧
    e.driving s.initial c.1 = [(.data, q, 0)] ∧ e.driving s.feedback c.1 = [(.data, q, 0)]
  latched : ∀ p, p ∈ r.latches.map Prod.fst ↔
    p ∈ targets (s.feeds d .initial fs) ∧ p ∉ targets (s.feeds d .feedback fs)
  once : (r.latches.map Prod.fst).Nodup
  /-- No two of them are the same, and none was there before. -/
  distinct : ((r.latches ++ r.registers).map Prod.snd).Nodup
  new : ∀ c ∈ (r.latches ++ r.registers).map Prod.snd, at? d.ops c = none
  outputs : List.Forall₂ (fun f i => at? e.deps i = some (s.result (f.target, f.source) i)) (s.feeds d .output fs)
    r.outputs
  results : ∀ f ∈ s.feeds d .output fs, e.driving s.completion f.target = [(.data, f.source, 0)]
  /-- Nothing else has changed. -/
  inner : ∀ p, p ∉ targets (s.feeds d .initial fs) →
    e.driving s.initial p = d.driving s.initial p ∧ e.driving s.feedback p = d.driving s.feedback p
  outer : ∀ p, p ∉ targets (s.feeds d .output fs) → e.driving s.completion p = d.driving s.completion p
  others : ∀ {k}, k ≠ s.body → k ≠ s.outBuf → Untouched d e k

section
variable (h : s.Stages loop fs d d1 d2 e rs regs ids) (of : s.Of d loop)
include h of

theorem Parts.Stages.cell (cell : Cell d2 loop c kind inputs q) (hk : kind ≠ .outBuf) :
    Cell e loop c kind inputs q := by
  have of2 := h.fills.of of
  obtain ⟨o, _, _, _, ho, place, -⟩ := cell.shape
  obtain ⟨o', ho', place', -⟩ := of2.outside.outBuf
  apply cell.untouched h.hands.fills.wellFormed (h.completes.others of2 ?_)
  intro same
  rw [same, ho'] at ho
  cases ho
  exact hk (congrArg Prod.fst (place.symm.trans place'))

section
variable (unfed : s.Unfed d) (leads : ∀ l ∈ (s.sorted d fs).initial ++ (s.sorted d fs).feedback, Leads d l s.body)
include unfed leads

theorem Parts.Stages.register
    (started : ∀ p ∈ targets (s.feeds d .feedback fs), p ∈ targets (s.feeds d .initial fs)) :
    List.Forall₂ (fun f c => c.1 = f.target ∧ ∃ b q, lastSource? (s.feeds d .initial fs) f.target = some b ∧
      Cell e loop c.2 .reg [[(.data, f.source, 0)]] q ∧ e.driving s.initial f.target = [(.data, b, 0)] ∧
      e.driving s.feedback f.target = [(.data, q, 0)]) (s.feeds d .feedback fs) regs := by
  have each := forall₂_map_left_iff.mp h.hands.each
  refine ((forall₂_and_left _ _).mpr ⟨fun f hf => hf, each⟩).imp ?_
  rintro f ⟨p, reg⟩ ⟨hf, a, c, out, add⟩
  cases out with
  | register cell =>
    obtain ⟨b, hb⟩ := lastSource?_target.mpr (started f.target (mem_map_of_mem hf))
    have start := h.starts.passed (mem_links.mpr hb) (has_link.mpr (mem_map_of_mem hf))
    have port := (leads _ (mem_append_left _ (mem_links.mpr hb))).port
    obtain ⟨hi, hr⟩ := h.adds of unfed (ne_go of port) (start.trans add)
    exact ⟨rfl, b, _, hb, h.cell of cell nofun, hi, hr⟩

theorem Parts.Stages.latch (hc : some c ∈ rs) : c.1 ∉ targets (s.feeds d .feedback fs) ∧ ∃ b q,
      lastSource? (s.feeds d .initial fs) c.1 = some b ∧
      Cell e loop c.2 .latch [[(.control, s.start, 0)], [(.data, b, 0)]] q ∧
      e.driving s.initial c.1 = [(.data, q, 0)] ∧ e.driving s.feedback c.1 = [(.data, q, 0)] := by
  obtain ⟨l, hl, a, c', out, add⟩ := forall₂_right h.starts.each _ hc
  cases out with
  | @held p b latch q alone cell =>
    have fresh : p ∉ targets (s.feeds d .feedback fs) := by
      intro hp
      have known : (s.sorted d fs).feedback.has p = true := has_link.mpr hp
      rw [alone] at known
      cases known
    have port := (leads _ (mem_append_left _ hl)).port
    have later := h.hands.rest (p := p) (by rwa [keys_feedback])
    obtain ⟨hi, hr⟩ := h.adds of unfed (ne_go of port) (add.trans later)
    have of1 := h.starts.fills.of of
    exact ⟨fresh, b, q, mem_links.mp hl,
      h.cell of (h.hands.fills.cell h.starts.fills.wellFormed of1 cell nofun) nofun, hi, hr⟩

end

end

theorem Parts.Wires.keys (h : s.Starts loop fb d d1 ls rs) :
    ((rs.filterMap id).map Prod.fst).Sublist (ls.map Prod.fst) := by
  have each := h.each
  clear h
  induction each with
  | nil => exact .slnil
  | cons out _ ih =>
    obtain ⟨a, c, out, -⟩ := out
    cases out with
    | passed => exact .cons _ ih
    | held => exact .cons_cons _ ih

theorem Parts.Completes.driving (h : s.Completes d e ls ids) (p : PortId) : e.driving s.completion p =
    d.driving s.completion p ++ (ls.filter (·.1 == p)).map fun l => (.data, l.2, 0) := by
  rw [h.gains.driving]
  have each := h.each
  clear h
  induction each with
  | nil => rfl
  | @cons l i ls ids _ _ ih =>
    by_cases hp : l.1 = p
    · simpa [Parts.result, hp, Dependency.drive] using ih
    · simpa [Parts.result, hp] using ih

section
variable (h : s.Stages loop fs d d1 d2 e rs regs ids)
include h

theorem Parts.Stages.completion (of : s.Of d loop) (p : PortId) :
    e.driving s.completion p = d.driving s.completion p ++ ((s.sorted d fs).output.filter (·.1 == p)).map
      fun l => (.data, l.2, 0) := by
  rw [h.completes.driving, (h.fills.others of.outBuf_ne).driving of.outside.completion]

theorem Parts.Stages.new :
    ((rs.filterMap id ++ regs).map Prod.snd).Nodup ∧ ∀ c ∈ (rs.filterMap id ++ regs).map Prod.snd,
      at? d.ops c = none := by
  have latches : (rs.filterMap id).map Prod.snd = rs.filterMap (Option.map Prod.snd) := by
    rw [map_filterMap]
    rfl
  have registers : regs.map Prod.snd = regs.filterMap fun r => some r.2 := (congrFun filterMap_eq_map regs).symm
  obtain ⟨v, g⟩ := h.starts.fills.gains
  have le := g.size
  rw [map_append, latches, registers, nodup_append]
  refine ⟨⟨h.starts.distinct, h.hands.distinct, fun c hc c' hc' e => ?_⟩, fun c hc => ?_⟩
  · have lt := (h.starts.new hc).2
    have ge := (h.hands.new hc').1
    rw [e] at lt
    omega
  · cases ho : at? d.ops c with
    | none => rfl
    | some o =>
      have lt := (at?_lt ho).2
      rcases mem_append.mp hc with hc | hc
      · have ge := (h.starts.new hc).1
        omega
      · have ge := (h.hands.new hc).1
        omega

theorem Parts.Stages.wired (of : s.Of d loop) (unfed : s.Unfed d)
    (aims : Aims d fs) (wirable : s.Wirable d fs) : s.Wired loop fs d e ⟨regs, rs.filterMap id, ids⟩ := by
  have leads := body_leads aims wirable.body
  have latch : ∀ {c}, c ∈ rs.filterMap id → some c ∈ rs := by simp
  refine
    { registers := h.register of unfed leads wirable.started
      latches := fun c hc => (h.latch of unfed leads (latch hc)).2
      latched := ?_
      once := links_nodup.sublist h.starts.keys
      distinct := h.new.1
      new := h.new.2
      outputs := forall₂_map_left_iff.mp h.completes.each
      results := ?_
      inner := ?_
      outer := ?_
      others := ?_ }
  · intro p
    constructor
    · intro hp
      obtain ⟨c, hc, rfl⟩ := mem_map.mp hp
      obtain ⟨fresh, b, q, hb, -⟩ := h.latch of unfed leads (latch hc)
      exact ⟨lastSource?_target.mp ⟨b, hb⟩, fresh⟩
    · rintro ⟨hI, hB⟩
      obtain ⟨b, hb⟩ := lastSource?_target.mpr hI
      have alone : (s.sorted d fs).feedback.has p = false :=
        Bool.eq_false_iff.mpr fun known => hB (has_link.mp known)
      obtain ⟨c, q, hc, -⟩ := h.starts.held (mem_links.mpr hb) alone
      exact mem_map.mpr ⟨(p, c), by simpa using hc, rfl⟩
  · intro f hf
    obtain ⟨k, leads⟩ := feed_leads aims hf
    have keys : ((s.sorted d fs).output.map Prod.fst).Nodup := keys_output ▸ wirable.output
    rw [h.completion of, unfed.unfinished leads.port, filter_of_keys keys (mem_map_of_mem hf)]
    rfl
  · intro p hp
    have first := h.starts.rest (p := p) (mt keys_initial.mp hp)
    have second := h.hands.rest (p := p) (keys_feedback ▸ fun hB => hp (wirable.started p hB))
    obtain ⟨hi, hf⟩ := h.driving (p := p) of
    have add := first.trans second
    rw [hi, hf, add.initial, add.feedback]
    simp
  · intro p hp
    rw [h.completion of, filter_eq_nil_iff.mpr, map_nil, append_nil]
    intro l hl e
    exact hp (keys_output ▸ mem_map.mpr ⟨l, hl, beq_iff_eq.mp e⟩)
  · exact fun hb ho => (h.fills.others hb).trans (h.completes.others (h.fills.of of) ho)

end

/-- A loop as it was made can be wired exactly if the feeds fit, and then it is wired as they say. -/
theorem fresh_loop_wiring {d₀ d₁ d : Design} {owner loop inputs outputs : Int} {name : String} {latency : Latency}
    (hd₀ : Built d₀) (placed : owner < d₀.ops.size)
    (made : newLoop owner name inputs outputs latency d₀ = .ok (loop, d₁)) (hd : Built d)
    (unwired : Unwired d₁ d loop) :
    ∃ s : Parts, s.Of d loop ∧ ∀ fs, Aims d fs → ((∃ r e, (wire loop fs).run d = .ok (.ok r, e)) ↔ s.Wirable d fs) ∧
      ∀ r e, (wire loop fs).run d = .ok (.ok r, e) → s.Wired loop fs d e r := by
  obtain ⟨s, of₁, unfed₁⟩ := newLoop_parts hd₀.wellFormed placed made
  have of := of₁.unwired unwired
  have unfed := unfed₁.unwired of₁ unwired
  have w := hd.wellFormed
  refine ⟨s, of, fun fs aims => ⟨⟨?_, wire_run w of unfed aims⟩, ?_⟩⟩
  · rintro ⟨r, e, h⟩
    exact (wire_stages w of unfed aims h).1
  · intro r e h
    obtain ⟨wirable, rs, regs, ids, d₁, d₂, stages, rfl⟩ := wire_stages w of unfed aims h
    exact stages.wired of unfed aims wirable

/-- Port 7 is given two values to start with and one that is fed back, port 8 keeps its value, and
port 5 takes the result. -/
def counterFeeds : List Feed := [⟨1, 7⟩, ⟨9, 7⟩, ⟨1, 8⟩, ⟨2, 7⟩, ⟨12, 5⟩]

theorem counter_loop : ∃ d₁ d r e, newLoop (-1) "l" 2 1 .zero { name := "x" } = .ok (0, d₁) ∧
    newPrimitive .op 11 "p" 1 1 .one d₁ = .ok (15, d) ∧ (wire 0 counterFeeds).run d = .ok (.ok r, e) ∧
    r.registers = [(7, 17)] ∧ r.latches = [(8, 16)] ∧ Built d ∧ Unwired d₁ d 0 ∧ Aims d counterFeeds ∧
    view d.ops Operation.children 0 = view d₁.ops Operation.children 0 ∧
      completed ((wire 0 [⟨9, 7⟩]).run d) = none := by
  obtain ⟨_, d₁, made, rfl, there, _, d, inner, rfl, children, aims, fails, r, e, run, registers, latches⟩ :
      ∃ id d₁, newLoop (-1) "l" 2 1 .zero { name := "x" } = .ok (id, d₁) ∧ id = 0 ∧ (d₁.op? 11).isSome = true ∧
      ∃ id d, newPrimitive .op 11 "p" 1 1 .one d₁ = .ok (id, d) ∧ id = 15 ∧
      view d.ops Operation.children 0 = view d₁.ops Operation.children 0 ∧
      Aims d counterFeeds ∧ (completed ((wire 0 [⟨9, 7⟩]).run d)).isNone = true ∧
      ∃ r e, (wire 0 counterFeeds).run d = .ok (.ok r, e) ∧ r.registers = [(7, 17)] ∧ r.latches = [(8, 16)] := by
    set_option synthInstance.maxSize 100000 in decide +kernel
  have hd₁ := (Built.empty "x").step (.newLoop (-1) "l" 2 1 .zero) rfl (discard_run made)
  have hd :=
    hd₁.step (.newPrimitive .op 11 "p" 1 1 .one) (by simpa [Command.isPlaced, Command.owner?] using .inr there)
    (discard_run inner)
  have g : Gains (fun _ => False) d₁ d [] := gains_newPrimitive inner
  have unwired : Unwired d₁ d 0 := ⟨g.intact fun h => h, fun _ => g.untouched (fun h => h) (by simp)⟩
  exact ⟨d₁, d, r, e, made, inner, run, registers, latches, hd, unwired, aims, children,
    Option.isNone_iff_eq_none.mp fails⟩

theorem counter_loop_wiring : ∃ d₁ d r e, newLoop (-1) "l" 2 1 .zero { name := "x" } = .ok (0, d₁) ∧
    newPrimitive .op 11 "p" 1 1 .one d₁ = .ok (15, d) ∧ (wire 0 counterFeeds).run d = .ok (.ok r, e) ∧
    r.registers = [(7, 17)] ∧ r.latches = [(8, 16)] ∧ ∃ s : Parts, s.Of d 0 ∧ s.Wirable d counterFeeds ∧
      s.Wired 0 counterFeeds d e r ∧ ¬ s.Wirable d [⟨9, 7⟩] := by
  obtain ⟨d₁, d, r, e, made, inner, run, registers, latches, hd, unwired, aims, -, fails⟩ := counter_loop
  obtain ⟨s, of, fit⟩ := fresh_loop_wiring (Built.empty "x") (by decide) made hd unwired
  obtain ⟨succeeds, wired⟩ := fit counterFeeds aims
  refine ⟨d₁, d, r, e, made, inner, run, registers, latches, s, of, succeeds.mp ⟨r, e, run⟩, wired r e run, ?_⟩
  intro fits
  have sub : ∀ f ∈ [(⟨9, 7⟩ : Feed)], f ∈ counterFeeds := by decide
  obtain ⟨r', e', run'⟩ := (fit [⟨9, 7⟩] fun f hf => aims f (sub f hf)).1.mpr fits
  cases fails.symm.trans (completed_some (p := (r', e')).mpr run')

end Datapath.Loop
