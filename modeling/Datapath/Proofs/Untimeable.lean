import Datapath.Proofs.Ordering
import Datapath.Proofs.RelativeTiming
import Datapath.Proofs.TimingAnswers

/-!
# Modules that cannot be timed

There is no timing if children of a module drive each other in a circle, or one of them itself. Exits
outside the ordinary flow have no timing, so nothing can wait for them either. Where operations are driven
from within their modules, all else can be timed.
-/

namespace Datapath.Timing

open List

/-- A child of a module drives one of its children, which may be itself, outside the feedback path. -/
structure FeedsForward (d : Design) (mod src c : OpId) : Prop where
  siblings : ∃ m, d.op? mod = some m ∧ src ∈ m.children ∧ c ∈ m.children
  fed : ∃ o v, d.op? c = some o ∧ v ∈ forwardDeps d o ∧ d.busOwner? v.source = some src

instance (d : Design) (mod src c : OpId) : Decidable (FeedsForward d mod src c) :=
  decidable_of_iff ((∃ m ∈ d.op? mod, src ∈ m.children ∧ c ∈ m.children) ∧
      ∃ o ∈ d.op? c, ∃ v ∈ forwardDeps d o, d.busOwner? v.source = some src) ⟨
    fun ⟨siblings, o, ho, v, hv, carried⟩ => ⟨siblings, o, v, ho, hv, carried⟩,
    fun ⟨siblings, o, v, ho, hv, carried⟩ => ⟨siblings, o, ho, v, hv, carried⟩⟩

/-- A child of the module waits, outside the feedback path, for an exit that has no timing. -/
def WaitsOutside (d : Design) (mod : OpId) : Prop :=
  ∃ m c o v b x, d.op? mod = some m ∧ c ∈ m.children ∧ d.op? c = some o ∧ v ∈ forwardDeps d o ∧
    d.bus? v.source = some b ∧ d.exit? b.exit = some x ∧ x.tag.kind = .sideband

/-- In the module or in one inside it, children drive each other in a circle or wait for what has no timing. -/
def Untimeable (d : Design) (mod : OpId) : Prop :=
  ∃ m p, d.op? m = some p ∧ Inside d mod m p ∧
    ((∃ c, Relation.TransGen (FeedsForward d m) c c) ∨ WaitsOutside d m)

section
variable {d : Design}

/-! ## What has been timed -/

theorem Trace.driven_before (h : Trace d mod base starts)
    (hc : c ∈ starts.map Prod.fst) (ne : c ≠ mod) (ho : d.op? c = some o) (hv : v ∈ forwardDeps d o) :
    ∃ b x, d.bus? v.source = some b ∧ d.exit? b.exit = some x ∧ x.tag.kind ≠ .sideband ∧
      x.owner ∈ starts.map Prod.fst ∧ (starts.map Prod.fst).idxOf c < (starts.map Prod.fst).idxOf x.owner := by
  induction h with
  | root => simp [ne] at hc
  | @start starts k q outer times _ _ hk new _ driven ih =>
    simp only [map_cons] at hc ⊢
    by_cases e : c = k
    · subst e
      cases ho.symm.trans hk
      obtain ⟨b, x, input, hb, hx, flow, started, -⟩ := driven v hv
      have earlier : x.owner ∈ starts.map Prod.fst := mem_map_of_mem started
      have other : x.owner ≠ c := fun same => new (same ▸ earlier)
      refine ⟨b, x, hb, hx, flow.1, mem_cons_of_mem _ earlier, ?_⟩
      rw [idxOf_cons_self, idxOf_cons_ne _ other.symm]
      exact Nat.succ_pos _
    · obtain ⟨b, x, hb, hx, flow, earlier, lt⟩ := ih (by simpa [e] using hc)
      have other : x.owner ≠ k := fun same => new (same ▸ earlier)
      refine ⟨b, x, hb, hx, flow, mem_cons_of_mem _ earlier, ?_⟩
      rw [idxOf_cons_ne _ (Ne.symm e), idxOf_cons_ne _ other.symm]
      exact Nat.succ_lt_succ lt

theorem Timed.started (ht : Timed d mod base t) (hn : Nested d mod c) : c ∈ t.started := by
  obtain ⟨l, hl⟩ := ht.input (.inr hn)
  exact mem_map_of_mem (mem_of_lookup hl)

theorem Timed.driven_before (hd : WellFormed d) (ht : Timed d mod base t) (hn : Nested d mod c)
    (ho : d.op? c = some o) (hv : v ∈ forwardDeps d o) :
    ∃ b x, d.bus? v.source = some b ∧ d.exit? b.exit = some x ∧ x.tag.kind ≠ .sideband ∧
      t.started.idxOf c < t.started.idxOf x.owner := by
  obtain ⟨b, x, hb, hx, flow, -, lt⟩ := ht.trace.driven_before (ht.started hn) (Int.ne_of_gt (hn.lt hd)) ho hv
  exact ⟨b, x, hb, hx, flow, lt⟩

theorem Timed.not_untimeable (hd : WellFormed d) (ht : Timed d mod base t) : ¬ Untimeable d mod := by
  rintro ⟨m, p, hm, hp, bad⟩
  rcases bad with ⟨c, circle⟩ | ⟨p', c, o, v, b, x, hm', hc, ho, hv, hb, hx, outside⟩
  · -- along a circle the places in the list of starts would only go down
    have lower : ∀ {a b}, FeedsForward d m a b → t.started.idxOf b < t.started.idxOf a := by
      rintro a b ⟨⟨p', hm', -, hb⟩, o, v, ho, hv, carried⟩
      cases hm.symm.trans hm'
      obtain ⟨bus, x, hbus, hx, -, lt⟩ := ht.driven_before hd (hp.nested hm hb) ho hv
      simp only [Design.busOwner?, hbus, hx, Option.bind_eq_bind, Option.bind_some, Option.pure_def,
        Option.some.injEq] at carried
      exact carried ▸ lt
    have falls : ∀ {b}, Relation.TransGen (FeedsForward d m) c b → t.started.idxOf b < t.started.idxOf c := by
      intro b path
      induction path with
      | single h => exact lower h
      | tail _ h ih => exact Nat.lt_trans (lower h) ih
    exact Nat.lt_irrefl _ (falls circle)
  · cases hm.symm.trans hm'
    obtain ⟨b', x', hb', hx', flow, -⟩ := ht.driven_before hd (hp.nested hm hc) ho hv
    cases hb.symm.trans hb'
    cases hx.symm.trans hx'
    exact flow outside

/-! ## What can be timed -/

theorem Drives.feedsForward (h : Drives d m src c) : FeedsForward d m src c := by
  obtain ⟨siblings, -, o, e, v, ho, he, forward, hv, carried⟩ := h
  exact ⟨siblings, o, v, ho, mem_flatMap.mpr ⟨e, mem_filter.mpr ⟨he, by simp [forward]⟩, hv⟩, carried⟩

theorem FeedsForward.drives (h : FeedsForward d m src c) (ne : src ≠ c) : Drives d m src c := by
  obtain ⟨siblings, o, v, ho, hv, carried⟩ := h
  obtain ⟨e, he, hv⟩ := mem_flatMap.mp hv
  simp only [mem_filter, Bool.not_eq_true'] at he
  exact ⟨siblings, ne, o, e, v, ho, he.1, he.2, hv, carried⟩

section
variable (hd : WellFormed d)
include hd

theorem FlowsLocally.source (flows : FlowsLocally d) (ho : d.op? c = some o)
    (hv : v ∈ forwardDeps d o) : ∃ b x s, d.bus? v.source = some b ∧ d.exit? b.exit = some x ∧
      d.op? x.owner = some s ∧ s.owner = o.owner ∧ x ∈ d.exitsOf s ∧ v.source ∈ x.done :: x.buses := by
  have local' := flows o (mem_of_at? ho) v hv
  simp only [Option.map_eq_some_iff, Option.bind_eq_some_iff, Design.busOwner?, Option.bind_eq_bind,
    Option.pure_def, Option.some.injEq] at local'
  obtain ⟨s, ⟨_, ⟨b, hb, x, hx, rfl⟩, hs⟩, same⟩ := local'
  obtain ⟨_, hs', exit⟩ := hd.exits.held hx rfl
  cases hs.symm.trans hs'
  obtain ⟨_, hx', carried⟩ := hd.buses.held hb rfl
  cases hx.symm.trans hx'
  exact ⟨b, x, s, hb, hx, hs, same, mem_filterMap.mpr ⟨b.exit, exit, hx⟩, carried⟩

theorem supplied_or_untimeable (flows : FlowsLocally d) (hm : d.op? m = some p)
    (hp : Inside d mod m p) : Untimeable d mod ∨ Supplied d m := by
  by_cases bad : Untimeable d mod
  · exact .inl bad
  refine .inr fun c o v ho own hv => ?_
  obtain ⟨b, x, s, hb, hx, hs, same, exit, bus⟩ := flows.source hd ho hv
  have hc : c ∈ p.children := by
    obtain ⟨p', hp', hc⟩ := hd.mem_children ho (own ▸ ne_absent hm)
    cases hm.symm.trans (own ▸ hp')
    exact hc
  have hs' : x.owner ∈ p.children := by
    obtain ⟨p', hp', hs'⟩ := hd.mem_children hs (same.trans own ▸ ne_absent hm)
    cases hm.symm.trans (same.trans own ▸ hp')
    exact hs'
  have feeds : FeedsForward d m x.owner c := by
    refine ⟨⟨p, hm, hs', hc⟩, o, v, ho, hv, ?_⟩
    simp [Design.busOwner?, hb, hx]
  have other : x.owner ≠ c := by
    intro e
    exact bad ⟨m, p, hm, hp, .inl ⟨c, .single (e ▸ feeds)⟩⟩
  have flow : x.tag.kind ≠ .sideband := by
    intro e
    exact bad ⟨m, p, hm, hp, .inr ⟨p, c, o, v, b, x, hm, hc, ho, hv, hb, hx, e⟩⟩
  exact ⟨x.owner, (mem_drivers_iff hd hm hc).mpr (feeds.drives other), s, x, hs, exit, flow, bus⟩

theorem order_or_untimeable (hm : d.op? m = some p) (hp : Inside d mod m p) :
    Replies (Untimeable d mod) (d.order m) fun _ => True := by
  rcases order_answers hd hm with ⟨ids, order⟩ | ⟨s, groups, rejected, -⟩
  · exact .inl ⟨ids, order, trivial⟩
  · have circle : Circular d m := by
      by_contra h
      obtain ⟨ids, order⟩ := (order_iff_not_circular hd hm).mpr h
      cases order.symm.trans rejected
    refine .inr ⟨⟨m, p, hm, hp, .inl ?_⟩, _, rejected⟩
    exact circle.imp fun c => Relation.TransGen.mono (fun _ _ => Drives.feedsForward) c c

theorem passable_or_untimeable (flows : FlowsLocally d) (mod : OpId) :
    Passable (Untimeable d mod) d fun m => ∃ p, d.op? m = some p ∧ Inside d mod m p where
  order := by
    rintro m o ⟨p, hm, hp⟩ _
    exact order_or_untimeable hd hm hp
  supplied := by
    rintro m ⟨p, hm, hp⟩
    exact supplied_or_untimeable hd flows hm hp
  inner := by
    rintro m o c q ⟨p, hm, hp⟩ hm' hc hq inline
    cases hm.symm.trans hm'
    exact ⟨q, hq, .inr ⟨hp.nested hm hc, inline⟩⟩

/-! ## Both ways to count -/

theorem timed_all (fresh : init = absolute ∨ init = relative)
    (h : (compute d mod base).run init = .ok (.ok (), t)) :
    ∃ g, Timed d mod base g ∧ t.started = g.started ∧ t.reached = g.reached := by
  rcases fresh with rfl | rfl
  · exact ⟨t, compute_ok hd h, rfl, rfl⟩
  · obtain ⟨g, along, timed⟩ := compute_alongside hd h
    exact ⟨g, timed, along.started, along.reached⟩

end

/-- Where operations are driven from within their modules, the timing of a module ends, wherever it counts
from. It fails just if somewhere inside the module children drive each other in a circle or wait for an
exit without timing, and otherwise leaves nothing inside the module without a time. -/
theorem timing_fails_iff_untimeable (hd : WellFormed d) (flows : FlowsLocally d) {p : Operation}
    (hm : d.op? mod = some p) (base : Latency) {init : Timing} (fresh : init = absolute ∨ init = relative) :
    ((∃ e t, (compute d mod base).run init = .ok (.error e, t)) ↔ Untimeable d mod) ∧
    ((∃ t, (compute d mod base).run init = .ok (.ok (), t)) ↔ ¬ Untimeable d mod) ∧
    ∀ t, (compute d mod base).run init = .ok (.ok (), t) →
      (∀ c, Nested d mod c → ∃ l, t.input? c = some l) ∧ ∀ b, FlowBus d mod b → ∃ l, t.bus? b = some l := by
  have ends := (passable_or_untimeable hd flows mod).compute hd ⟨p, hm, .inl rfl⟩ hm base init
  have well : ∀ {t}, (compute d mod base).run init = .ok (.ok (), t) → ¬ Untimeable d mod := by
    intro t h
    obtain ⟨g, timed, -⟩ := timed_all hd fresh h
    exact timed.not_untimeable hd
  refine ⟨⟨?_, fun bad => ?_⟩, ⟨fun ⟨t, h⟩ => well h, fun good => ?_⟩, fun t h => ?_⟩
  · rintro ⟨e, t, failed⟩
    rcases ends with ⟨_, t', done, -⟩ | ⟨bad, -⟩
    · cases failed.symm.trans done
    · exact bad
  · rcases ends with ⟨⟨⟩, t, done, -⟩ | ⟨-, failed⟩
    · exact absurd bad (well done)
    · exact failed
  · rcases ends with ⟨⟨⟩, t, done, -⟩ | ⟨bad, -⟩
    · exact ⟨t, done⟩
    · exact absurd bad good
  · obtain ⟨g, timed, started, reached⟩ := timed_all hd fresh h
    refine ⟨fun c hc => lookup_of_mem_keys ?_, fun b hb => lookup_of_mem_keys ?_⟩
    · change c ∈ t.started
      exact started ▸ timed.started hc
    · obtain ⟨l, hl⟩ := timed.bus hb
      change b ∈ t.reached
      exact reached ▸ mem_map_of_mem (mem_of_lookup hl)

/-- An inner block can be timed as long as the two operations in it do not wait for each other. -/
theorem inner_circle_is_untimeable :
    (∃ d t, runAll nestedCommands { name := "x" } = some d ∧ (compute d 11 .zero).run .relative = .ok (.ok (), t) ∧
      ¬ Untimeable d 11 ∧ ∃ l, t.input? 20 = some l) ∧
    ∃ d e t, runAll (nestedCommands ++ [.start 19 17]) { name := "x" } = some d ∧ FeedsForward d 16 19 20 ∧
      FeedsForward d 16 20 19 ∧ (compute d 11 .zero).run .relative = .ok (.error e, t) := by
  constructor
  · obtain ⟨d, hd, ⟨⟩, t, ht, flows, m, hm, inner, p, hp, inline, access⟩ : ∃ d,
        runAll nestedCommands { name := "x" } = some d ∧ ∃ u t,
        (compute d 11 .zero).run .relative = .ok (.ok u, t) ∧ FlowsLocally d ∧ ∃ m, d.op? 11 = some m ∧
        16 ∈ m.children ∧ ∃ p, d.op? 16 = some p ∧ p.kind.isInlineModule = true ∧ 20 ∈ p.children := by
      set_option synthInstance.maxSize 100000 in decide +kernel
    have ⟨_, good, all⟩ :=
      timing_fails_iff_untimeable ((Built.empty "x").runAll hd).wellFormed flows hm .zero (.inr rfl)
    exact ⟨d, t, hd, ht, good.mp ⟨t, ht⟩, (all t ht).1 20 (.deeper (.child hm inner) hp inline access)⟩
  · obtain ⟨d, hd, flows, there, back, m, hm, inner, p, hp, inline⟩ :
        ∃ d, runAll (nestedCommands ++ [.start 19 17]) { name := "x" } = some d ∧ FlowsLocally d ∧
        FeedsForward d 16 19 20 ∧ FeedsForward d 16 20 19 ∧ ∃ m, d.op? 11 = some m ∧ 16 ∈ m.children ∧
        ∃ p, d.op? 16 = some p ∧ p.kind.isInlineModule = true := by
      set_option synthInstance.maxSize 100000 in decide +kernel
    have bad : Untimeable d 11 :=
      ⟨16, p, hp, .inr ⟨.child hm inner, inline⟩, .inl ⟨19, .tail (.single there) back⟩⟩
    have ⟨fails, _⟩ :=
      timing_fails_iff_untimeable ((Built.empty "x").runAll hd).wellFormed flows hm .zero (.inr rfl)
    obtain ⟨e, t, failed⟩ := fails.mpr bad
    exact ⟨d, e, t, hd, there, back, failed⟩

end

end Datapath.Timing
